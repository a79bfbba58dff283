import Supercompilation.Invocation

/-!
# The command

What the command answers is decided by pure definitions. Here standard input and files are read for
them, and their output is written.
-/

namespace Supercompilation.Console

/-- Write to both channels. -/
def write (output : Output) : IO Unit := do
  let stdout ← IO.getStdout
  let stderr ← IO.getStderr
  stderr.putStr output.err
  stderr.flush
  stdout.putStr output.out
  stdout.flush

/-- What stands behind an error code of the system, which may be given with either sign. -/
def problemOf? (code : UInt32) : Option FileProblem :=
  if code = 20 || code = 0 - 20 then some .notFolder
  else if code = 21 || code = 0 - 21 then some .isFolder
  else none

/-- The text of a file, or why there is none. Problems without a name end the run. -/
def readText (path : String) : IO (Except FileProblem String) := do
  if Path.hasNull path then return .error .badPath
  try
    let bytes ← IO.FS.readBinFile (Path.normal path)
    match String.fromUTF8? bytes with
    | none => return .error (.undecodable ("no text: " ++ path))
    | some text => return .ok (Text.withLineFeeds text)
  catch
    | .noFileOrDirectory .. => return .error .missing
    | .inappropriateType file code details =>
      match problemOf? code with
      | some problem => return .error problem
      | none => throw (.inappropriateType file code details)
    | problem => throw problem

/-- A reader that knows some files, read beforehand. -/
def readerOf (paths : List String) : IO FileReader := do
  let known ← paths.mapM fun path => do
    let found ← readText path
    return (path, found)
  return fun path => (NameMap.value? known path).getD (.error .missing)

/-- The rest of standard input. -/
partial def readAll (stdin : IO.FS.Stream) (before : String) : IO String := do
  let line ← stdin.getLine
  if line.isEmpty then return before else readAll stdin (before ++ line)

/-- Write what a run leaves behind; the exit status is the result. -/
def finish (outcome : Outcome) : IO Nat := do
  write outcome.output
  match outcome.result with
  | .ok code => return code
  | .error breakdown =>
    write (.complain breakdown.message)
    return outcome.status?.getD 1

/-- Answer lines from a terminal until one asks to leave or has no answer, or there are no more. -/
partial def converse (stdin : IO.FS.Stream) (dialogue : Dialogue) : IO Nat := do
  if dialogue.session.running then
    write (.print dialogue.prompt)
    let line ← stdin.getLine
    if line.isEmpty then finish { output := .print "\n" }
    else
      let text := Text.joined "\n" (Text.lines line)
      let read ← readerOf (Session.wantedFile? (dialogue.collect text)).toList
      match dialogue.attempt read (.line text) with
      | .error breakdown =>
        finish ⟨Output.ofLog dialogue.session.verbose breakdown.log, .error breakdown⟩
      | .ok (output, dialogue) =>
        write output
        converse stdin dialogue
  else return 0

/-- The files that a run may read: the program file and those that lines ask for. -/
def wantedFiles (settings : Settings) (lines : List String) : List String :=
  settings.programFile?.toList ++ lines.filterMap Session.wantedFile?

/-- Start a dialogue, with the program file loaded. -/
def startDialogue (settings : Settings) (stdin : IO.FS.Stream) : IO Nat := do
  let read ← readerOf (wantedFiles settings [])
  match settings.load read with
  | .error outcome => finish outcome
  | .ok (loaded, session) =>
    write (loaded ++ .print Dialogue.banner)
    converse stdin { session }

/-- Do what the settings ask for. -/
def run (settings : Settings) : IO Nat := do
  let stdin ← IO.getStdin
  if settings.term?.isNone && (← stdin.isTty) then startDialogue settings stdin
  else
    let text ← if settings.term?.isNone then readAll stdin "" else pure ""
    let lines := settings.term?.toList ++ Text.lines (Text.withLineFeeds text)
    let read ← readerOf (wantedFiles settings lines)
    finish (settings.run read (.text text))

end Supercompilation.Console

/-- The command: its arguments, and the exit code as its result. -/
def main (args : List String) : IO UInt32 := do
  match Supercompilation.Settings.ofArguments args with
  | .error halt =>
    let code ← Supercompilation.Console.finish halt.outcome
    return code.toUInt32
  | .ok settings =>
    let code ← Supercompilation.Console.run settings
    return code.toUInt32
