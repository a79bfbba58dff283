import Supercompilation.NameMap
import Supercompilation.Term.Printer

/-!
# Substitutions

A substitution gives some variables a term. Applying it replaces all variables at once; variables
without a value stay, and the names that a `let` term binds are left alone.
-/

namespace Supercompilation

/-- Values of variables, in binding order. -/
abbrev Substitution := NameMap Term

namespace Term

mutual

/-- Replace the variables of a term by their values. -/
def subst (values : Substitution) : Term → Term
  | var name => (values.value? name).getD (var name)
  | app head name args => app head name (substArgs values args)
  | letIn body bindings => letIn (body.subst values) (substBindings values bindings)

/-- Replace the variables of some terms. -/
def substArgs (values : Substitution) : List Term → List Term
  | [] => []
  | t :: ts => t.subst values :: substArgs values ts

/-- Replace the variables of some bound values. -/
def substBindings (values : Substitution) : List (String × Term) → List (String × Term)
  | [] => []
  | (name, value) :: rest => (name, value.subst values) :: substBindings values rest

end

end Term

namespace Substitution

/-- The bindings between braces. -/
def inspect (values : Substitution) : String :=
  "Substitution(\x7b" ++ Text.joined ", " (Term.textBindings values) ++ "\x7d)"

/-- Both bind the same names, to equal terms; the order does not matter. -/
def sameAs (s t : Substitution) : Bool :=
  s.names.all t.names.contains && t.names.all s.names.contains &&
    s.names.all fun x => s.value? x == t.value? x

end Substitution

/-- What matching yields: the substitution found, or nothing. -/
abbrev MatchResult := Option Substitution

namespace MatchResult

/-- A failed look-up: the name has no value, or there is nothing to look it up in. -/
inductive Missing where
  /-- The substitution does not bind the name. -/
  | unbound (name : String)
  /-- There is no match. -/
  | noMatch (name : String)

/-- What a failed look-up shows. -/
def Missing.message : Missing → String
  | .unbound name => Text.quoted name
  | .noMatch name => Text.quoted ("NoMatch has no binding for '" ++ name ++ "'")

/-- The substitution found, or the empty one. -/
def bindings (result : MatchResult) : Substitution := result.getD []

/-- The value that the match gives a name. -/
def value (result : MatchResult) (name : String) : Except Missing Term :=
  match result with
  | none => .error (.noMatch name)
  | some values =>
    match values.value? name with
    | none => .error (.unbound name)
    | some t => .ok t

/-- The substitution between braces, or a word for none. -/
def inspect : MatchResult → String
  | none => "NoMatch"
  | some values => values.inspect

/-- Equal substitutions; a failed match equals only a failed match. -/
def sameAs : MatchResult → MatchResult → Bool
  | none, none => true
  | some s, some t => s.sameAs t
  | _, _ => false

end MatchResult

end Supercompilation
