import Supercompilation.Folder.Glob
import Supercompilation.Session.Command

/-!
# Completion

What a word of the line being typed can be completed to: formats, tracing options and paths behind
their commands, command words at the start of a line, and else the names of defined functions.
-/

namespace Supercompilation.Session

/-- The command words, in the order in which they are offered. -/
def commandWords : List String :=
  [":help", ":quit", ":exit", ":q", ":load", ":rules", ":clear", ":trace", ":steps", ":format"]

/-- The arguments of the tracing command. -/
def traceWords : List String := ["on", "off"]

/-- The words that start with a text. -/
def startingWith (text : String) (words : List String) : List String :=
  words.filter fun word => text.toList.isPrefixOf word.toList

/-- The names of the defined functions, in alphabetical order. -/
def functionNames (session : Session) : List String :=
  (session.program.f.names ++ session.program.gs.names).eraseDups.mergeSort fun a b => a ≤ b

/-- The paths that start with a text; folders get a slash behind them. -/
def pathCompletions (folder : Folder) (text : String) : List String :=
  let start := if text = "" then "./" else text
  ((Glob.paths folder (start ++ "*")).map fun path =>
    if folder.isFolder path then path ++ "/" else path).mergeSort fun a b => a ≤ b

/-- The completions of a word in a line. -/
def completions (session : Session) (folder : Folder) (text line : String) : List String :=
  let line := (Text.stripStart line).toList
  if ":format ".toList.isPrefixOf line then
    startingWith text (OutputFormat.all.map OutputFormat.word)
  else if ":trace ".toList.isPrefixOf line then startingWith text traceWords
  else if ":load ".toList.isPrefixOf line then pathCompletions folder text
  else if text.toList.head? = some ':' || (line.head? = some ':' && !line.contains ' ') then
    startingWith text commandWords
  else if text = "" then []
  else startingWith text session.functionNames

/-- The completion of a word with a number, counted from zero. -/
def completion? (session : Session) (folder : Folder) (text line : String) (state : Nat) :
    Option String :=
  (session.completions folder text line)[state]?

end Supercompilation.Session
