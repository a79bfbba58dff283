import Supercompilation.Text.Lines

/-!
# Log lines

What the supercompiler reports beside its results: warnings about programs, and, for those who ask
for them, notes on every growth step.
-/

namespace Supercompilation

/-- How much a log line matters. -/
inductive LogLevel where
  /-- A note on the progress of a construction. -/
  | debug
  /-- A doubtful program. -/
  | warning
  deriving DecidableEq, Repr

/-- The part of the supercompiler that reports. -/
inductive LogSource where
  /-- The program model. -/
  | program
  /-- The construction of process trees. -/
  | construction
  deriving DecidableEq, Repr

/-- A line of the log. -/
structure LogLine where
  /-- How much it matters. -/
  level : LogLevel
  /-- Who reports. -/
  source : LogSource
  /-- What is reported. -/
  message : String
  deriving DecidableEq, Repr

/-- The word for a level. -/
def LogLevel.word : LogLevel → String
  | .debug => "DEBUG"
  | .warning => "WARNING"

/-- The name of a source. -/
def LogSource.word : LogSource → String
  | .program => "spsc.lang"
  | .construction => "spsc.supercompiler"

namespace LogLine

/-- The line with its level and source in front. -/
def text (line : LogLine) : String :=
  line.level.word ++ ":" ++ line.source.word ++ ":" ++ line.message

/-- A note on a construction. -/
def note (message : String) : LogLine := ⟨.debug, .construction, message⟩

/-- A line that is reported even to those who did not ask for notes. -/
def isWarning (line : LogLine) : Bool := line.level = .warning

end LogLine

end Supercompilation
