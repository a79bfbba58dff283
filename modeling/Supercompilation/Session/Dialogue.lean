import Supercompilation.Session.Attempt

/-!
# Dialogues

At a terminal, lines are collected until their parentheses balance; then they are answered together.
Too many closing parentheses are refused, and an interruption drops what has been collected. Lines
that have no answer end the dialogue.
-/

namespace Supercompilation

/-- What comes from a terminal. -/
inductive TerminalInput where
  /-- A line. -/
  | line (text : String)
  /-- An interruption. -/
  | interrupt

/-- What a program writes. -/
structure Output where
  /-- To standard output. -/
  out : String := ""
  /-- To standard error. -/
  err : String := ""

namespace Output

/-- One output after another. -/
def append (a b : Output) : Output := ⟨a.out ++ b.out, a.err ++ b.err⟩

instance : Append Output := ⟨append⟩

/-- A text to standard output. -/
def print (text : String) : Output := { out := text }

/-- A line to standard error. -/
def complain (text : String) : Output := { err := text ++ "\n" }

/-- The reports that are shown: all of them in full for those who asked for notes, else the messages
of the warnings. -/
def ofLog (verbose : Bool) (log : List LogLine) : Output :=
  let shown :=
    if verbose then log.map LogLine.text
    else (log.filter LogLine.isWarning).map LogLine.message
  { err := String.join (shown.map (· ++ "\n")) }

end Output

/-- The number of opening parentheses less the number of closing ones. -/
def parenthesisBalance (text : String) : Int :=
  (text.toList.count '(' : Int) - text.toList.count ')'

/-- A session at a terminal. -/
structure Dialogue where
  /-- The session. -/
  session : Session
  /-- The lines collected so far, which do not balance. -/
  buffer : String := ""

namespace Dialogue

/-- What is shown at the start. -/
def banner : String :=
  "SPSC - Simple Positive SuperCompiler\n" ++
  "Type :help for help, :quit to exit\n" ++
  "Multi-line input: input with unbalanced parens continues on next line\n" ++
  "\n"

/-- What is shown before a line is read. -/
def prompt (dialogue : Dialogue) : String :=
  if dialogue.buffer = "" then "spsc> " else "..... "

/-- The lines collected so far with one more. -/
def collect (dialogue : Dialogue) (line : String) : String :=
  if dialogue.buffer = "" then line else dialogue.buffer ++ "\n" ++ line

/-- What is shown of the answer to the lines collected. -/
def tell (answered : Response × Session) : Output × Dialogue :=
  let (response, session) := answered
  let shown :=
    match response.text with
    | none => ""
    | some text => if text = "" then "" else text ++ "\n"
  (Output.ofLog session.verbose response.log ++ .print shown, ⟨session, ""⟩)

/-- Answer a line, or keep it until more have come. -/
def feedLine (dialogue : Dialogue) (read : FileReader) (line : String) : Output × Dialogue :=
  let chunk := dialogue.collect line
  let balance := parenthesisBalance chunk
  if 0 < balance then ({}, { dialogue with buffer := chunk })
  else if balance < 0 then
    (.print "Error: Unbalanced parentheses (too many closing)\n", { dialogue with buffer := "" })
  else tell (dialogue.session.processLine read chunk)

/-- Answer what comes from the terminal. -/
def feed (dialogue : Dialogue) (read : FileReader) : TerminalInput → Output × Dialogue
  | .line text => dialogue.feedLine read text
  | .interrupt =>
    if dialogue.buffer = "" then (.print "\n", dialogue)
    else (.print "\nInput cancelled\n", { dialogue with buffer := "" })

/-- Answer inputs one after another, until a line asks to leave or the inputs end. -/
def converse (read : FileReader) : Dialogue → List TerminalInput → Output × Dialogue
  | dialogue, [] =>
    if dialogue.session.running then (.print (dialogue.prompt ++ "\n"), dialogue)
    else ({}, dialogue)
  | dialogue, input :: rest =>
    if dialogue.session.running then
      let (output, next) := dialogue.feed read input
      let (later, last) := converse read next rest
      (.print dialogue.prompt ++ output ++ later, last)
    else ({}, dialogue)

/-- Answer what comes from the terminal, or say what keeps it from being answered. -/
def attempt (dialogue : Dialogue) (read : FileReader) : TerminalInput →
    Except Breakdown (Output × Dialogue)
  | .line text =>
    let chunk := dialogue.collect text
    if parenthesisBalance chunk = 0 then (dialogue.session.attempt read chunk).map tell
    else .ok (dialogue.feedLine read text)
  | .interrupt => .ok (dialogue.feed read .interrupt)

/-- Answer inputs one after another, until a line asks to leave, one has no answer or the inputs
end: what is written, and what the dialogue breaks down at, if it does. -/
def hold (read : FileReader) : Dialogue → List TerminalInput → Output × Option Breakdown
  | dialogue, [] =>
    (if dialogue.session.running then .print (dialogue.prompt ++ "\n") else {}, none)
  | dialogue, input :: rest =>
    if dialogue.session.running then
      match dialogue.attempt read input with
      | .error breakdown =>
        (.print dialogue.prompt ++ Output.ofLog dialogue.session.verbose breakdown.log,
          some breakdown)
      | .ok (output, next) =>
        let (later, breakdown) := hold read next rest
        (.print dialogue.prompt ++ output ++ later, breakdown)
    else ({}, none)

end Dialogue

end Supercompilation
