import Supercompilation.CommandLine
import Supercompilation.Session.Dialogue

/-!
# A run of the command

A command line may name a program file, which is loaded first. Then a term is built, or the lines of
standard input are answered, or a dialogue starts if standard input is a terminal. The exit code
tells how it went: 2 for a construction that was given up, 1 for an error, else 0. A line that has
no answer breaks the run off.
-/

namespace Supercompilation

/-- What a run leaves behind. -/
structure Outcome where
  /-- What was written. -/
  output : Output := {}
  /-- The exit code, or what kept a line from being answered. -/
  result : Except Breakdown Nat := .ok 0

/-- The exit status: 1 for a run that breaks off, and none for a run that goes on. -/
def Outcome.status? (outcome : Outcome) : Option Nat :=
  match outcome.result with
  | .ok code => some code
  | .error .unending => none
  | .error _ => some 1

/-- Standard input. -/
inductive StandardInput where
  /-- A text that is not typed at a terminal. -/
  | text (text : String)
  /-- A terminal. -/
  | terminal (inputs : List TerminalInput)

/-- The exit code for the text that a line leads to. -/
def exitCode (text : Option String) : Nat :=
  match text with
  | none => 0
  | some text =>
    if "Aborted".toList.isPrefixOf text.toList then 2
    else if "Error".toList.isPrefixOf text.toList then 1
    else 0

/-- The outcome of a run that has nothing to do. -/
def Halt.outcome : Halt → Outcome
  | .help => ⟨.print Settings.helpText, .ok 0⟩
  | .version => ⟨.print Settings.versionText, .ok 0⟩
  | .usage e => ⟨{ err := Settings.usageText ++ "spsc: error: " ++ e.message ++ "\n" }, .ok 2⟩

namespace Session

/-- What is written for an answer outside a dialogue, and the exit code. Failures go to standard
error. -/
def tell (answered : Response × Session) : Output × Nat × Session :=
  let (response, session) := answered
  let code := exitCode response.text
  let shown : Output :=
    match response.text with
    | none => {}
    | some text =>
      if text = "" then {} else if code = 0 then .print (text ++ "\n") else .complain text
  (Output.ofLog session.verbose response.log ++ shown, code, session)

/-- Answer a line outside a dialogue: what is written, the exit code, and the session after it. -/
def answer (session : Session) (read : FileReader) (line : String) :
    Except Breakdown (Output × Nat × Session) :=
  (session.attempt read line).map tell

/-- Answer lines until one fails or has no answer. Blank lines and lines that start with a number
sign are passed over. -/
def answerLines (read : FileReader) :
    Session → List String → Output × Except Breakdown Nat × Session
  | session, [] => ({}, .ok 0, session)
  | session, line :: rest =>
    let text := Text.strip line
    if text = "" || text.toList.head? = some '#' then answerLines read session rest
    else
      match session.answer read text with
      | .error breakdown =>
        (Output.ofLog session.verbose breakdown.log, .error breakdown, session)
      | .ok (output, code, session) =>
        if code = 0 then
          let (later, result, session) := answerLines read session rest
          (output ++ later, result, session)
        else (output, .ok code, session)

end Session

namespace Settings

/-- The session that the settings ask for. -/
def session (settings : Settings) : Session :=
  { trace := settings.trace
    maxSteps := Session.limitOf settings.maxSteps
    format := settings.format
    verbose := settings.verbose }

/-- The program file, unless its name is empty. -/
def programFile? (settings : Settings) : Option String :=
  settings.program.filter fun path => path ≠ ""

/-- The term, unless it is empty. -/
def term? (settings : Settings) : Option String := settings.expr.filter fun text => text ≠ ""

/-- Load the program file, if one is named: what is written and the session with it, or the outcome
if it cannot be loaded. -/
def load (settings : Settings) (read : FileReader) : Except Outcome (Output × Session) :=
  match settings.programFile? with
  | none => .ok ({}, settings.session)
  | some path =>
    match Program.loadBreakdown? read path with
    | some breakdown => .error { result := .error breakdown }
    | none =>
      match settings.session.load read path with
      | .error e => .error ⟨.complain ("Error loading " ++ path ++ ": " ++ e.message), .ok 1⟩
      | .ok (count, session, log) =>
        let loaded : Output :=
          if settings.quiet then {}
          else .complain ("Loaded " ++ toString count ++ " rules from " ++ path)
        .ok (Output.ofLog settings.verbose log ++ loaded, session)

/-- Do what the settings ask for. -/
def run (settings : Settings) (read : FileReader) (input : StandardInput) : Outcome :=
  match settings.load read with
  | .error outcome => outcome
  | .ok (loaded, session) =>
    match settings.term?, input with
    | some text, _ =>
      match session.answer read text with
      | .error breakdown =>
        ⟨loaded ++ Output.ofLog session.verbose breakdown.log, .error breakdown⟩
      | .ok (output, code, _) => ⟨loaded ++ output, .ok code⟩
    | none, .text text =>
      let (output, result, _) :=
        session.answerLines read (Text.lines (Text.withLineFeeds text))
      ⟨loaded ++ output, result⟩
    | none, .terminal inputs =>
      let (output, breakdown) := Dialogue.hold read ⟨session, ""⟩ inputs
      ⟨loaded ++ .print Dialogue.banner ++ output,
        match breakdown with
        | none => .ok 0
        | some breakdown => .error breakdown⟩

end Settings

/-- Run the command with some arguments. -/
def invoke (arguments : List String) (read : FileReader) (input : StandardInput) : Outcome :=
  match Settings.ofArguments arguments with
  | .error halt => halt.outcome
  | .ok settings => settings.run read input

end Supercompilation
