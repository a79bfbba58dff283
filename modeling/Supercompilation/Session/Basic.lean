import Supercompilation.Build
import Supercompilation.Folder.Path
import Supercompilation.Source.Reader
import Supercompilation.Text.Digit
import Supercompilation.Text.Lower

/-!
# Sessions

A session is a conversation in lines: a line adds rules, names a term whose process tree is built,
or is a command that starts with a colon. The session holds the rules so far and the settings.

A line that fails changes nothing, and a line with a term never changes anything. What stands here
holds as far as the stack reaches; `Session.attempt` says when it does not.
-/

namespace Supercompilation

/-- How a finished construction is shown. -/
inductive OutputFormat where
  /-- The indented tree. -/
  | tree
  /-- The tree as a document. -/
  | json
  /-- One line per step. -/
  | steps
  deriving DecidableEq, Repr

namespace OutputFormat

/-- All formats, in the order in which they are listed. -/
def all : List OutputFormat := [tree, json, steps]

/-- The word for a format. -/
def word : OutputFormat → String
  | tree => "tree"
  | json => "json"
  | steps => "steps"

/-- The format that a word names. -/
def ofWord? (word : String) : Option OutputFormat := all.find? fun format => format.word = word

end OutputFormat

/-- The greatest number of steps of a construction, if nothing else is said. -/
def defaultLimit : Nat := 1000

/-- The number of stack frames that a walk may take: a thousand, less those that are in use where it
starts. -/
def stackFrames : Nat := 990

/-- The number of steps after which a construction without a limit is left unfinished. -/
def greatestPatience : Nat := 1000000000000

/-- What a session holds. -/
structure Session where
  /-- The rules so far. -/
  rules : List Rule := []
  /-- The program of these rules. -/
  program : Program := {}
  /-- Show the tree after every step. -/
  trace : Bool := false
  /-- The greatest number of steps; none for no limit. -/
  maxSteps : Option Nat := some defaultLimit
  /-- How results are shown. -/
  format : OutputFormat := .tree
  /-- No line has asked to leave yet. -/
  running : Bool := true
  /-- Take notes on every construction. -/
  verbose : Bool := false

/-- What a line leads to: a text to show, if any, and what is reported beside it. -/
structure Response where
  /-- The text to show. -/
  text : Option String := none
  /-- The reports. -/
  log : List LogLine := []

/-- Why a file of rules cannot be loaded. -/
inductive LoadError where
  /-- The file cannot be read. -/
  | file (problem : FileProblem) (path : String)
  /-- Its text is no program. -/
  | parse (e : ParseError)

/-- What is wrong, in words. -/
def LoadError.message : LoadError → String
  | .file problem path => problem.message path
  | .parse e => e.message

/-- The program in a file. -/
def Program.load (read : FileReader) (path : String) : Except LoadError Program :=
  match read path with
  | .error problem => .error (.file problem path)
  | .ok text => (Program.parse text).mapError .parse

namespace Session

/-- Append rules. -/
def addRules (session : Session) (rules : List Rule) : Session :=
  { session with rules := session.rules ++ rules, program := .ofRules (session.rules ++ rules) }

/-- The session with the rules of a program, and the reports about replaced rules: those of the
program alone, then those of all rules together. -/
def addProgram (session : Session) (program : Program) : Session × List LogLine :=
  let session := session.addRules program.rules
  (session, program.warnings ++ session.program.warnings)

/-- Load the rules in a file: their number, the session with them, and the reports. -/
def load (session : Session) (read : FileReader) (path : String) :
    Except LoadError (Nat × Session × List LogLine) :=
  (Program.load read path).map fun program => (program.size, session.addProgram program)

/-- What the constructions of a session are asked to do. -/
def buildOptions (session : Session) : BuildOptions :=
  { limit := session.maxSteps.map Int.ofNat
    frames := some stackFrames
    traced := session.trace || session.format = .steps
    shown := session.verbose }

/-- The text of a finished construction. -/
def render (session : Session) (run : Run Unit) (initial : Term) : String :=
  let trace := run.trace initial
  let output :=
    match session.format with
    | .tree => run.tree.format
    | .json => run.tree.document.render
    | .steps => trace.stepList?.getD ""
  if session.trace then trace.trees ++ "\n" ++ trace.summary ++ "\n" ++ output else output

/-- Build the process tree of a term. -/
def buildTerm (session : Session) (t : Term) : Run Unit :=
  Supercompiler.build ⟨session.program, {}⟩ session.buildOptions greatestPatience
    (fun _ _ => ()) t

/-- What is answered about the construction for a term. There is nothing to say of one that goes
on. -/
def report (session : Session) (t : Term) (run : Run Unit) : Response :=
  let log := if session.verbose then run.log session.buildOptions t else []
  match run.error? session.buildOptions with
  | none => ⟨some (session.render run t), log⟩
  | some (.aborted aborted) => ⟨some aborted.message, log⟩
  | some .unfinished => ⟨none, log⟩
  | some (.growth e) => ⟨some ("Error: " ++ e.message), log⟩

/-- Build and show the process tree of the term that a text stands for. -/
def supercompile (session : Session) (text : String) : Response :=
  match Term.parse text with
  | .error e => { text := some ("Error: " ++ e.message) }
  | .ok t => session.report t (session.buildTerm t)

/-- Whether a line defines rules: it has an equality sign and ends with a semicolon. -/
def isRuleText (text : String) : Bool :=
  text.toList.contains '=' && (Text.trimmedEnd Text.isBlank text.toList).getLast? = some ';'

/-- Add the rules that a text stands for. -/
def define (session : Session) (text : String) : Response × Session :=
  match Program.parse text with
  | .error e => ({ text := some ("Error: " ++ e.message) }, session)
  | .ok program =>
    let (session, log) := session.addProgram program
    (⟨some ("Added " ++ toString program.size ++ " rule(s)"), log⟩, session)

end Session

end Supercompilation
