import Supercompilation.Session.Basic

/-!
# Commands of a session

A command is a colon, a word in any case, and the rest of the line as its argument.
-/

namespace Supercompilation

/-- A command. -/
inductive Command where
  /-- A colon alone. -/
  | blank
  /-- Show the commands. -/
  | help
  /-- Leave. -/
  | quit
  /-- Load rules from a file. -/
  | load (path : String)
  /-- List the rules. -/
  | rules
  /-- Forget the rules. -/
  | clear
  /-- Show the tree after every step, or no longer, or change over. -/
  | trace (argument : String)
  /-- Show or set the greatest number of steps. -/
  | steps (argument : String)
  /-- Set how results are shown. -/
  | format (argument : String)
  /-- Anything else, by its word. -/
  | unknown (word : String)
  deriving DecidableEq, Repr

namespace Command

/-- The command that a word and its argument are. -/
def ofWord (word argument : String) : Command :=
  if word = "help" then help
  else if word = "quit" || word = "exit" || word = "q" then quit
  else if word = "load" then load argument
  else if word = "rules" then rules
  else if word = "clear" then clear
  else if word = "trace" then trace argument
  else if word = "steps" then steps argument
  else if word = "format" then format argument
  else unknown word

/-- The command behind a colon. -/
def ofText (text : String) : Command :=
  match Text.firstWord? text with
  | none => blank
  | some (word, rest) => ofWord (Text.lower word) (Text.strip rest)

/-- What the help command shows. -/
def helpText : String :=
  "SPSC REPL Commands:\n" ++
  "  :help              Show this help\n" ++
  "  :load FILE         Load rules from an .sll file\n" ++
  "  :rules             List all loaded rules\n" ++
  "  :clear             Clear all rules\n" ++
  "  :trace on|off      Toggle tracing\n" ++
  "  :steps N           Set the step limit (0 for unlimited)\n" ++
  "  :format NAME       Set output format (tree, json, steps)\n" ++
  "  :quit              Exit\n" ++
  "\n" ++
  "Syntax:\n" ++
  "  fName(x, y) = exp;                       Define an f-rule\n" ++
  "  gName(C(x), y) = exp;                    Define a g-rule\n" ++
  "  exp                                      Build the process tree of exp\n"

end Command

namespace Session

/-- A text to show, and nothing to report. -/
def say (text : String) : Response := { text := some text }

/-- Load rules from a file. -/
def loadFile (session : Session) (read : FileReader) (path : String) : Response × Session :=
  if path = "" then (say "Usage: :load FILENAME", session)
  else
    match session.load read path with
    | .error e => (say ("Error loading " ++ path ++ ": " ++ e.message), session)
    | .ok (count, session, log) =>
      (⟨some ("Loaded " ++ toString count ++ " rules from " ++ path), log⟩, session)

/-- Switch tracing. -/
def setTrace (session : Session) (argument : String) : Response × Session :=
  let word := Text.lower argument
  let trace :=
    if word = "on" || word = "true" || word = "1" then true
    else if word = "off" || word = "false" || word = "0" then false
    else !session.trace
  (say (if trace then "Tracing enabled" else "Tracing disabled"), { session with trace })

/-- A limit in words. -/
def limitText (limit : Option Nat) : String := (limit.map toString).getD "unlimited"

/-- The limit for a number, where zero means none. -/
def limitOf (n : Nat) : Option Nat := if n = 0 then none else some n

/-- Show or set the greatest number of steps. -/
def setSteps (session : Session) (argument : String) : Response × Session :=
  if argument = "" then (say ("Step limit: " ++ limitText session.maxSteps), session)
  else
    match Text.integer? argument with
    | some (.ofNat n) =>
      (say ("Step limit set to: " ++ limitText (limitOf n)),
        { session with maxSteps := limitOf n })
    | _ => (say "Usage: :steps N (0 for unlimited)", session)

/-- Set how results are shown. -/
def setFormat (session : Session) (argument : String) : Response × Session :=
  match OutputFormat.ofWord? (Text.lower argument) with
  | some format => (say ("Format set to: " ++ format.word), { session with format })
  | none =>
    (say ("Unknown format. Options: " ++
      Text.joined ", " (OutputFormat.all.map OutputFormat.word)), session)

/-- Carry out a command. -/
def perform (session : Session) (read : FileReader) : Command → Response × Session
  | .blank => (say "Unknown command. Type :help for help.", session)
  | .help => (say Command.helpText, session)
  | .quit => ({}, { session with running := false })
  | .load path => session.loadFile read path
  | .rules =>
    (say (if session.rules.isEmpty then "No rules loaded" else session.program.text), session)
  | .clear => (say "Cleared all rules", { session with rules := [], program := {} })
  | .trace argument => session.setTrace argument
  | .steps argument => session.setSteps argument
  | .format argument => session.setFormat argument
  | .unknown word => (say ("Unknown command: " ++ word ++ ". Type :help for help."), session)

/-- What a line asks for. -/
inductive Request where
  /-- Nothing: the line is blank or a comment. -/
  | nothing
  /-- A command. -/
  | command (command : Command)
  /-- The definition of rules. -/
  | define (text : String)
  /-- The process tree of a term. -/
  | build (text : String)

/-- What a line asks for. -/
def request (line : String) : Request :=
  let text := Text.strip line
  match text.toList with
  | [] => .nothing
  | '#' :: _ => .nothing
  | '/' :: '/' :: _ => .nothing
  | ':' :: rest => .command (.ofText (String.ofList rest))
  | _ => if isRuleText text then .define text else .build text

/-- The answer to a line, if nothing keeps it from being answered. -/
def processLine (session : Session) (read : FileReader) (line : String) : Response × Session :=
  match request line with
  | .nothing => ({}, session)
  | .command command => session.perform read command
  | .define text => session.define text
  | .build text => (session.supercompile text, session)

/-- The file that a line asks for. -/
def wantedFile? (line : String) : Option String :=
  match request line with
  | .command (.load path) => some path
  | _ => none

end Session

end Supercompilation
