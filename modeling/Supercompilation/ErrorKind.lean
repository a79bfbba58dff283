import Supercompilation.Build
import Supercompilation.Source.Reader

/-!
# Kinds of errors

The errors of the supercompiler form a hierarchy. Errors about a text and errors about a call that
the program does not support are errors of the input.
-/

namespace Supercompilation

/-- The kinds of errors. -/
inductive ErrorKind where
  /-- Any error. -/
  | any
  /-- A text that is not in the language. -/
  | parse
  /-- A call that the program does not support. -/
  | configuration
  /-- A call of a function without rules. -/
  | unknownFunction
  /-- A call with the wrong number of arguments or fields. -/
  | arity
  /-- A call whose constructor no rule is for. -/
  | nonExhaustive
  /-- A term that cannot be driven. -/
  | driving
  /-- A construction that was given up. -/
  | aborted
  deriving DecidableEq, Repr

namespace ErrorKind

/-- The kind that a kind belongs to. -/
def broader? : ErrorKind → Option ErrorKind
  | any => none
  | unknownFunction => some configuration
  | arity => some configuration
  | nonExhaustive => some configuration
  | _ => some any

/-- The kind with all kinds that it belongs to, narrowest first. -/
def chain (kind : ErrorKind) : List ErrorKind :=
  match kind.broader? with
  | none => [kind]
  | some broader =>
    match broader.broader? with
    | none => [kind, broader]
    | some broadest => [kind, broader, broadest]

/-- Whether the input is at fault. -/
def isInputError (kind : ErrorKind) : Bool :=
  kind.chain.contains parse || kind.chain.contains configuration

end ErrorKind

/-- The kind of a driving error. -/
def DriveError.kind : DriveError → ErrorKind
  | .unknownFunction _ _ => .unknownFunction
  | .wrongArity _ _ _ _ => .arity
  | .noScrutinee _ _ => .arity
  | .wrongFields _ _ _ => .arity
  | .noRule _ _ _ => .nonExhaustive
  | .undrivable _ => .driving

end Supercompilation
