import Supercompilation.NameSet

/-!
# Terms

The terms of a small first-order language: variables, applications and `let` terms. An application
is a data constructor, a constructor pattern, a call of an f-function or a call of a g-function.
Patterns stand only in the heads of g-rules and in contractions; `let` terms arise from folding.

The module holds the type and its measures: the number of nodes, whether variables occur, the
number of levels, and the variables in the order of their first occurrence. The first three are
stored with every term, since terms share their parts and may be far larger than what is kept of
them; the lemmas on `Term.size`, `Term.ground` and `Term.height` say what is stored. The variables
are collected with an explicit stack, so that a deep term needs no deep recursion;
`Term.occurrences` is the plain left-to-right traversal beside it.
-/

namespace Supercompilation

/-- What an application applies. -/
inductive Head where
  /-- A data constructor. -/
  | ctor
  /-- A constructor in a pattern. -/
  | pattern
  /-- An f-function, which is unfolded whatever its arguments are. -/
  | fCall
  /-- A g-function, which looks at the constructor of its first argument. -/
  | gCall
  deriving DecidableEq, Repr

/-- What is stored about a term. -/
structure Measures where
  /-- The number of nodes. -/
  size : Nat
  /-- Whether no variable occurs. -/
  ground : Bool
  /-- The number of levels. -/
  height : Nat
  deriving DecidableEq, Repr

/-- The measures of a node above terms with some measures. -/
def Measures.above : List Measures → Measures
  | [] => ⟨1, true, 1⟩
  | first :: rest =>
    let others := above rest
    ⟨first.size + others.size, first.ground && others.ground,
      max (first.height + 1) others.height⟩

/-- A value that a name is paired with is smaller than the whole list of pairs. -/
theorem sizeOf_value_lt {α : Type} [SizeOf α] {pairs : List (String × α)} {pair : String × α}
    (member : pair ∈ pairs) : sizeOf pair.2 < sizeOf pairs := by
  have whole : sizeOf pair = 1 + sizeOf pair.1 + sizeOf pair.2 := by
    cases pair
    rfl
  have smaller := List.sizeOf_lt_of_mem member
  omega

/-- A term. -/
inductive Term where
  /-- A variable. -/
  | var (name : String)
  /-- A name applied to arguments. -/
  | app (head : Head) (name : String) (args : List Term)
  /-- A body and the values of some of its variables. -/
  | letIn (body : Term) (bindings : List (String × Term))
with
  /-- The stored measures. -/
  @[computed_field] measures : Term → Measures
    | .var _ => ⟨1, false, 1⟩
    | .app _ _ args => .above (args.map Term.measures)
    | .letIn body bindings =>
      .above (body.measures :: bindings.attach.map fun binding =>
        have := sizeOf_value_lt binding.2
        binding.1.2.measures)
  deriving Inhabited, Repr

/-- The kinds of terms. -/
inductive Kind where
  /-- A variable. -/
  | var
  /-- An application of a head. -/
  | app (head : Head)
  /-- A `let` term. -/
  | letIn
  deriving DecidableEq, Repr

namespace Term

/-- A data constructor with its arguments. -/
@[match_pattern]
abbrev ctor (name : String) (args : List Term) : Term := app .ctor name args

/-- A constructor pattern with its arguments. -/
@[match_pattern]
abbrev pattern (name : String) (args : List Term) : Term := app .pattern name args

/-- A call of an f-function. -/
@[match_pattern]
abbrev fCall (name : String) (args : List Term) : Term := app .fCall name args

/-- A call of a g-function. -/
@[match_pattern]
abbrev gCall (name : String) (args : List Term) : Term := app .gCall name args

/-- The kind of a term. -/
def kind : Term → Kind
  | var _ => .var
  | app head _ _ => .app head
  | letIn _ _ => .letIn

/-- The name in front of a variable or an application. -/
def name? : Term → Option String
  | var name => some name
  | app _ name _ => some name
  | letIn _ _ => none

/-- A call of an f- or g-function. -/
def isCall : Term → Bool
  | fCall _ _ => true
  | gCall _ _ => true
  | _ => false

/-- Two terms of the same kind and name; arguments are not looked at. -/
def sameShell (t u : Term) : Bool := t.kind = u.kind && t.name? = u.name?

/-- The same variable or application with other arguments; a variable takes none. -/
def withArgs (t : Term) (args : List Term) : Term :=
  match t with
  | app head name _ => app head name args
  | other => other

/-- The number of nodes: a `let` term counts one more than its body and values together. -/
def size (t : Term) : Nat := t.measures.size

/-- No variable occurs. -/
def ground (t : Term) : Bool := t.measures.ground

/-- The number of levels. -/
def height (t : Term) : Nat := t.measures.height

/-- The number of nodes of some terms. -/
def sizeArgs : List Term → Nat
  | [] => 0
  | t :: ts => t.size + sizeArgs ts

/-- The number of nodes of some bound values. -/
def sizeBindings : List (String × Term) → Nat
  | [] => 0
  | (_, value) :: rest => value.size + sizeBindings rest

/-- No variable occurs in any of the terms. -/
def groundArgs : List Term → Bool
  | [] => true
  | t :: ts => t.ground && groundArgs ts

/-- No variable occurs in any of the bound values. -/
def groundBindings : List (String × Term) → Bool
  | [] => true
  | (_, value) :: rest => value.ground && groundBindings rest

/-- The number of levels of the highest of some terms. -/
def heightArgs : List Term → Nat
  | [] => 0
  | t :: ts => max t.height (heightArgs ts)

/-- The number of levels of the highest of some bound values. -/
def heightBindings : List (String × Term) → Nat
  | [] => 0
  | (_, value) :: rest => max value.height (heightBindings rest)

/-- The measures of a node above some arguments. -/
theorem above_args (args : List Term) :
    Measures.above (args.map measures) =
      ⟨1 + sizeArgs args, groundArgs args, 1 + heightArgs args⟩ := by
  induction args with
  | nil => rfl
  | cons t ts ih =>
    simp only [List.map_cons, Measures.above, ih, sizeArgs, groundArgs, heightArgs, size, ground,
      height, Measures.mk.injEq, true_and]
    omega

/-- The measures of a node above some bound values. -/
theorem above_bindings (bindings : List (String × Term)) :
    Measures.above (bindings.map fun binding => binding.2.measures) =
      ⟨1 + sizeBindings bindings, groundBindings bindings, 1 + heightBindings bindings⟩ := by
  induction bindings with
  | nil => rfl
  | cons binding rest ih =>
    simp only [List.map_cons, Measures.above, ih, sizeBindings, groundBindings, heightBindings,
      size, ground, height, Measures.mk.injEq, true_and]
    omega

/-- The measures of a variable. -/
theorem measures_var (name : String) : (var name).measures = ⟨1, false, 1⟩ := by
  rw [measures]

/-- The measures of an application. -/
theorem measures_app (head : Head) (name : String) (args : List Term) :
    (app head name args).measures =
      ⟨1 + sizeArgs args, groundArgs args, 1 + heightArgs args⟩ := by
  rw [measures, above_args]

/-- The measures of a `let` term. -/
theorem measures_letIn (body : Term) (bindings : List (String × Term)) :
    (letIn body bindings).measures =
      ⟨1 + body.size + sizeBindings bindings, body.ground && groundBindings bindings,
        1 + max body.height (heightBindings bindings)⟩ := by
  have values : (bindings.attach.map fun binding => binding.1.2.measures) =
      bindings.map fun binding => binding.2.measures :=
    List.attach_map_val (f := fun binding : String × Term => binding.2.measures)
  rw [measures, values, Measures.above, above_bindings]
  simp only [size, ground, height, Measures.mk.injEq, true_and]
  omega

@[simp]
theorem size_var (name : String) : (var name).size = 1 := by
  rw [size, measures_var]

@[simp]
theorem size_app (head : Head) (name : String) (args : List Term) :
    (app head name args).size = 1 + sizeArgs args := by
  rw [size, measures_app]

@[simp]
theorem size_letIn (body : Term) (bindings : List (String × Term)) :
    (letIn body bindings).size = 1 + body.size + sizeBindings bindings := by
  rw [size, measures_letIn]

@[simp]
theorem ground_var (name : String) : (var name).ground = false := by
  rw [ground, measures_var]

@[simp]
theorem ground_app (head : Head) (name : String) (args : List Term) :
    (app head name args).ground = groundArgs args := by
  rw [ground, measures_app]

@[simp]
theorem ground_letIn (body : Term) (bindings : List (String × Term)) :
    (letIn body bindings).ground = (body.ground && groundBindings bindings) := by
  rw [ground, measures_letIn]

@[simp]
theorem height_var (name : String) : (var name).height = 1 := by
  rw [height, measures_var]

@[simp]
theorem height_letIn (body : Term) (bindings : List (String × Term)) :
    (letIn body bindings).height = 1 + max body.height (heightBindings bindings) := by
  rw [height, measures_letIn]

mutual

/-- The variables from left to right, with repetitions. The body of a `let` term comes before its
values, and the bound names do not count. -/
def occurrences : Term → List String
  | var name => [name]
  | app _ _ args => occurrencesArgs args
  | letIn body bindings => body.occurrences ++ occurrencesBindings bindings

/-- The variables of some terms from left to right. -/
def occurrencesArgs : List Term → List String
  | [] => []
  | t :: ts => t.occurrences ++ occurrencesArgs ts

/-- The variables of some bound values from left to right. -/
def occurrencesBindings : List (String × Term) → List String
  | [] => []
  | (_, value) :: rest => value.occurrences ++ occurrencesBindings rest

end

/-- Collect the variables of the terms on a stack into `seen`. Every round takes one node from the
stack, so as many rounds are needed as the terms have nodes. -/
def collectVars : Nat → List Term → NameSet → NameSet
  | 0, _, seen => seen
  | _ + 1, [], seen => seen
  | rounds + 1, var name :: stack, seen => collectVars rounds stack (seen.insert name)
  | rounds + 1, app _ _ args :: stack, seen => collectVars rounds (args ++ stack) seen
  | rounds + 1, letIn body bindings :: stack, seen =>
    collectVars rounds (body :: bindings.map Prod.snd ++ stack) seen

/-- The variables of a term in the order of their first occurrence. -/
def vars (t : Term) : List String := (collectVars t.size [t] .empty).toList

mutual

/-- Structural equality. -/
def beq : Term → Term → Bool
  | var name, var name' => name == name'
  | app head name args, app head' name' args' =>
    head == head' && name == name' && beqArgs args args'
  | letIn body bindings, letIn body' bindings' =>
    beqBindings bindings bindings' && body.beq body'
  | _, _ => false

/-- Structural equality of arguments. -/
def beqArgs : List Term → List Term → Bool
  | [], [] => true
  | t :: ts, u :: us => t.beq u && beqArgs ts us
  | _, _ => false

/-- Structural equality of bindings. -/
def beqBindings : List (String × Term) → List (String × Term) → Bool
  | [], [] => true
  | (x, t) :: ts, (y, u) :: us => x == y && t.beq u && beqBindings ts us
  | _, _ => false

end

mutual

/-- A term equals itself. -/
theorem beq_self : ∀ t : Term, t.beq t = true
  | var _ => by simp [beq]
  | app _ _ args => by simp [beq, beqArgs_self args]
  | letIn body bindings => by simp [beq, beq_self body, beqBindings_self bindings]

/-- Arguments equal themselves. -/
theorem beqArgs_self : ∀ ts : List Term, beqArgs ts ts = true
  | [] => by simp [beqArgs]
  | t :: ts => by simp [beqArgs, beq_self t, beqArgs_self ts]

/-- Bindings equal themselves. -/
theorem beqBindings_self : ∀ bs : List (String × Term), beqBindings bs bs = true
  | [] => by simp [beqBindings]
  | (_, t) :: bs => by simp [beqBindings, beq_self t, beqBindings_self bs]

end

mutual

/-- Terms that compare equal are the same term. -/
theorem eq_of_beq : ∀ t u : Term, t.beq u = true → t = u
  | var _, u, same => by
    cases u <;> simp_all [beq]
  | app _ _ args, u, same => by
    cases u with
    | app _ _ args' =>
      simp only [beq, Bool.and_eq_true, beq_iff_eq] at same
      obtain ⟨⟨rfl, rfl⟩, same⟩ := same
      rw [eq_of_beqArgs args args' same]
    | _ => simp [beq] at same
  | letIn body bindings, u, same => by
    cases u with
    | letIn body' bindings' =>
      simp only [beq, Bool.and_eq_true] at same
      rw [eq_of_beq body body' same.2, eq_of_beqBindings bindings bindings' same.1]
    | _ => simp [beq] at same

/-- Arguments that compare equal are the same. -/
theorem eq_of_beqArgs : ∀ ts us : List Term, beqArgs ts us = true → ts = us
  | [], us, same => by
    cases us <;> simp_all [beqArgs]
  | t :: ts, us, same => by
    cases us with
    | nil => simp [beqArgs] at same
    | cons u us =>
      simp only [beqArgs, Bool.and_eq_true] at same
      rw [eq_of_beq t u same.1, eq_of_beqArgs ts us same.2]

/-- Bindings that compare equal are the same. -/
theorem eq_of_beqBindings :
    ∀ bs cs : List (String × Term), beqBindings bs cs = true → bs = cs
  | [], cs, same => by
    cases cs <;> simp_all [beqBindings]
  | (x, t) :: bs, cs, same => by
    cases cs with
    | nil => simp [beqBindings] at same
    | cons c cs =>
      obtain ⟨y, u⟩ := c
      simp only [beqBindings, Bool.and_eq_true, beq_iff_eq] at same
      obtain ⟨⟨rfl, same⟩, rest⟩ := same
      rw [eq_of_beq t u same, eq_of_beqBindings bs cs rest]

end

instance : BEq Term := ⟨beq⟩

instance : LawfulBEq Term where
  eq_of_beq := fun {t u} same => eq_of_beq t u same
  rfl := fun {t} => beq_self t

instance : DecidableEq Term := fun t u =>
  if same : t.beq u = true then isTrue (eq_of_beq t u same)
  else isFalse fun equal => same (equal ▸ beq_self t)

end Term

end Supercompilation
