import Supercompilation.Substitution

/-!
# Matching

Matching is one-directional: only the variables of the pattern may be bound. `Term.matchInto` walks
pattern and candidate together and extends a substitution on the way; a variable met again must
meet an equal term.

Three tests on sizes refuse pairs early: equal terms have equal sizes, an instance is never smaller
than its pattern, and a pattern without variables matches only itself. `Term.equals`,
`Term.matchSized` and `Term.matchAgainst` make these tests; `Term.beq` and `Term.matchInto` do
without.
-/

namespace Supercompilation

/-- Bind a variable, or compare with the term it is bound to. -/
def Substitution.extend (values : Substitution) (x : String) (t : Term) : Option Substitution :=
  match values.value? x with
  | some bound => if bound == t then some values else none
  | none => some (values ++ [(x, t)])

namespace Term

mutual

/-- Match a pattern against a term, extending the bindings found so far. -/
def matchInto : Term → Term → Substitution → Option Substitution
  | var name, t, values => values.extend name t
  | app head name args, app head' name' args', values =>
    if head = head' ∧ name = name' then matchArgs args args' values else none
  | letIn body bindings, letIn body' bindings', values =>
    match matchBindings bindings bindings' values with
    | some values => body.matchInto body' values
    | none => none
  | _, _, _ => none

/-- Match arguments from left to right. -/
def matchArgs : List Term → List Term → Substitution → Option Substitution
  | [], [], values => some values
  | t :: ts, u :: us, values =>
    match t.matchInto u values with
    | some values => matchArgs ts us values
    | none => none
  | _, _, _ => none

/-- Match bound values from left to right; the bound names must agree. -/
def matchBindings :
    List (String × Term) → List (String × Term) → Substitution → Option Substitution
  | [], [], values => some values
  | (x, t) :: ts, (y, u) :: us, values =>
    if x = y then
      match t.matchInto u values with
      | some values => matchBindings ts us values
      | none => none
    else none
  | _, _, _ => none

end

mutual

/-- Structural equality that refuses terms of different sizes at every level. -/
def equals : Term → Term → Bool
  | t, u =>
    t.size == u.size &&
      match t, u with
      | var name, var name' => name == name'
      | app head name args, app head' name' args' =>
        head == head' && name == name' && equalsArgs args args'
      | letIn body bindings, letIn body' bindings' =>
        equalsBindings bindings bindings' && body.equals body'
      | _, _ => false

/-- Equality of arguments, by `Term.equals`. -/
def equalsArgs : List Term → List Term → Bool
  | [], [] => true
  | t :: ts, u :: us => t.equals u && equalsArgs ts us
  | _, _ => false

/-- Equality of bindings, by `Term.equals`. -/
def equalsBindings : List (String × Term) → List (String × Term) → Bool
  | [], [] => true
  | (x, t) :: ts, (y, u) :: us => x == y && t.equals u && equalsBindings ts us
  | _, _ => false

end

/-- Bind a variable, or compare with the term it is bound to by `Term.equals`. -/
def extendSized (values : Substitution) (x : String) (t : Term) : Option Substitution :=
  match values.value? x with
  | some bound => if bound.equals t then some values else none
  | none => some (values ++ [(x, t)])

mutual

/-- Matching that refuses a candidate smaller than the pattern at every level. -/
def matchSized : Term → Term → Substitution → Option Substitution
  | t, u, values =>
    if u.size < t.size then none
    else
      match t, u with
      | var name, u => extendSized values name u
      | app head name args, app head' name' args' =>
        if head = head' ∧ name = name' ∧ args.length = args'.length then
          matchSizedArgs args args' values
        else none
      | letIn body bindings, letIn body' bindings' =>
        if NameMap.names bindings = NameMap.names bindings' then
          match matchSizedBindings bindings bindings' values with
          | some values => body.matchSized body' values
          | none => none
        else none
      | _, _ => none

/-- Match arguments from left to right, by `Term.matchSized`. -/
def matchSizedArgs : List Term → List Term → Substitution → Option Substitution
  | [], [], values => some values
  | t :: ts, u :: us, values =>
    match t.matchSized u values with
    | some values => matchSizedArgs ts us values
    | none => none
  | _, _, _ => none

/-- Match bound values from left to right, by `Term.matchSized`. -/
def matchSizedBindings :
    List (String × Term) → List (String × Term) → Substitution → Option Substitution
  | [], [], values => some values
  | (_, t) :: ts, (_, u) :: us, values =>
    match t.matchSized u values with
    | some values => matchSizedBindings ts us values
    | none => none
  | _, _, _ => none

end

/-- Match a pattern against a term: a substitution that makes the pattern the term, if there is
one. -/
def matchAgainst (pattern t : Term) : MatchResult :=
  if pattern.ground && pattern.size != t.size then none else pattern.matchSized t []

/-- The second term is an instance of the first. -/
def hasInstance (pattern t : Term) : Bool := (pattern.matchAgainst t).isSome

/-- Each term is an instance of the other: they are equal up to a renaming. -/
def equiv (t u : Term) : Bool := t.hasInstance u && u.hasInstance t

end Term

end Supercompilation
