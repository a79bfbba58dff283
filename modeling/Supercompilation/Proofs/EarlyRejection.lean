import Supercompilation.Proofs.Matching

/-!
# Early rejections

Equality, matching at every level and matching as a whole refuse some pairs of terms by what is
stored of them, before they look at the terms. What is stored is right: the size is the number of
nodes, and a term is ground if no node is a variable.

`Term.matchTested` is matching with any test for pairs that are to be refused. A test refuses
rightly if the pairs that it refuses do not match, and matching with a test that refuses rightly is
plain matching, whatever is bound before. To refuse nothing is right; to refuse candidates that are
smaller than the pattern is right, since an instance is never smaller than its pattern; and to
refuse candidates of another size for a ground pattern is right, since such a pattern matches only
itself. So matching yields the same with the tests and without.
-/

namespace Supercompilation

namespace Term

mutual

/-- The nodes of a term: the term itself, and the nodes of what stands below it. -/
def nodes : Term → List Term
  | var name => [var name]
  | app head name args => app head name args :: nodesArgs args
  | letIn body bindings => letIn body bindings :: (body.nodes ++ nodesBindings bindings)

/-- The nodes of some terms. -/
def nodesArgs : List Term → List Term
  | [] => []
  | t :: ts => t.nodes ++ nodesArgs ts

/-- The nodes of some bound values. -/
def nodesBindings : List (String × Term) → List Term
  | [] => []
  | (_, value) :: rest => value.nodes ++ nodesBindings rest

end

/-- The nodes of bindings are those of the list of values. -/
theorem nodesArgs_values (bindings : List (String × Term)) :
    nodesArgs (bindings.map Prod.snd) = nodesBindings bindings := by
  induction bindings with
  | nil => rfl
  | cons binding rest ih => rw [List.map_cons, nodesArgs, nodesBindings, ih]

/-- The nodes of arguments are those of each of them. -/
theorem mem_nodesArgs {args : List Term} {node : Term} :
    node ∈ nodesArgs args ↔ ∃ t ∈ args, node ∈ t.nodes := by
  induction args with
  | nil => simp [nodesArgs]
  | cons t ts ih => simp [nodesArgs, ih]

/-- The size of arguments is the number of their nodes, if it is for each of them. -/
theorem sizeArgs_eq {args : List Term} (each : ∀ t ∈ args, t.size = t.nodes.length) :
    sizeArgs args = (nodesArgs args).length := by
  induction args with
  | nil => rfl
  | cons t ts ih =>
    rw [List.forall_mem_cons] at each
    rw [sizeArgs, nodesArgs, List.length_append, each.1, ih each.2]

/-- The size of a term is the number of its nodes. -/
theorem size_eq (t : Term) : t.size = t.nodes.length := by
  induction t with
  | var name => rw [size_var, nodes, List.length_singleton]
  | app head name args ih =>
    rw [size_app, nodes, List.length_cons, sizeArgs_eq ih, Nat.add_comm]
  | letIn body bindings bodyIh valueIh =>
    have inValues := sizeArgs_eq (mem_values valueIh)
    rw [sizeArgs_values, nodesArgs_values] at inValues
    rw [size_letIn, nodes, List.length_cons, List.length_append, bodyIh, inValues]
    omega

/-- The variables that occur in a term are those among its nodes. -/
theorem var_mem_nodes {t : Term} {x : String} : var x ∈ t.nodes ↔ x ∈ t.occurrences := by
  induction t with
  | var name => rw [nodes, List.mem_singleton, var.injEq, mem_occurrences_var]
  | app head name args ih =>
    rw [nodes, List.mem_cons, mem_nodesArgs, mem_occurrences_app]
    simp only [reduceCtorEq, false_or]
    exact exists_congr fun t => and_congr_right (ih t)
  | letIn body bindings bodyIh valueIh =>
    rw [nodes, List.mem_cons, List.mem_append, bodyIh, ← nodesArgs_values, mem_nodesArgs,
      mem_occurrences_letIn]
    simp only [reduceCtorEq, false_or, List.mem_map, exists_exists_and_eq_and]
    exact or_congr_right (exists_congr fun binding => and_congr_right (valueIh binding))

/-- What is stored of a term is right. -/
structure Measured (t : Term) : Prop where
  /-- The size is the number of nodes. -/
  size : t.size = t.nodes.length
  /-- The term is ground if no node is a variable. -/
  ground : t.ground = true ↔ ∀ x, var x ∉ t.nodes

/-- What is stored of any term is right. -/
theorem measured (t : Term) : t.Measured where
  size := t.size_eq
  ground := ground_iff.trans (forall_congr' fun _ => not_congr var_mem_nodes.symm)

mutual

/-- Matching that refuses pairs by a test at every level. -/
def matchTested (refuses : Term → Term → Bool) :
    Term → Term → Substitution → Option Substitution
  | t, u, values =>
    if refuses t u then none
    else
      match t, u with
      | var name, u => values.extend name u
      | app head name args, app head' name' args' =>
        if head = head' ∧ name = name' ∧ args.length = args'.length then
          matchTestedArgs refuses args args' values
        else none
      | letIn body bindings, letIn body' bindings' =>
        if NameMap.names bindings = NameMap.names bindings' then
          match matchTestedBindings refuses bindings bindings' values with
          | some values => body.matchTested refuses body' values
          | none => none
        else none
      | _, _ => none

/-- Match arguments from left to right, by `Term.matchTested`. -/
def matchTestedArgs (refuses : Term → Term → Bool) :
    List Term → List Term → Substitution → Option Substitution
  | [], [], values => some values
  | t :: ts, u :: us, values =>
    match t.matchTested refuses u values with
    | some values => matchTestedArgs refuses ts us values
    | none => none
  | _, _, _ => none

/-- Match bound values from left to right, by `Term.matchTested`. -/
def matchTestedBindings (refuses : Term → Term → Bool) :
    List (String × Term) → List (String × Term) → Substitution → Option Substitution
  | [], [], values => some values
  | (_, t) :: ts, (_, u) :: us, values =>
    match t.matchTested refuses u values with
    | some values => matchTestedBindings refuses ts us values
    | none => none
  | _, _, _ => none

end

/-- A test refuses rightly if the pairs that it refuses do not match, whatever is bound before. -/
def RefusesRightly (refuses : Term → Term → Bool) : Prop :=
  ∀ {t u : Term}, refuses t u = true → ∀ values, t.matchInto u values = none

/-- The test that refuses nothing. -/
def never (_ _ : Term) : Bool := false

/-- The candidate is smaller than the pattern. -/
def smaller (t u : Term) : Bool := u.size < t.size

/-- The pattern is ground, and the candidate has another size. -/
def groundUnlike (t u : Term) : Bool := t.ground && t.size != u.size

/-- To refuse nothing is right. -/
theorem refusesRightly_never : RefusesRightly never := fun refused => nomatch refused

/-- To refuse smaller candidates is right. -/
theorem refusesRightly_smaller : RefusesRightly smaller := fun refused =>
  matchInto_eq_none_of_size_lt (of_decide_eq_true refused)

/-- To refuse candidates of another size for ground patterns is right. -/
theorem refusesRightly_groundUnlike : RefusesRightly groundUnlike := by
  intro t u refused
  rw [groundUnlike, Bool.and_eq_true, bne_iff_ne] at refused
  exact matchInto_eq_none_of_ground refused.1 refused.2

section Tested

variable {refuses : Term → Term → Bool}

/-- Matching values with a test is matching the list of values. -/
theorem matchTestedBindings_eq (bindings bindings' : List (String × Term))
    (values : Substitution) :
    matchTestedBindings refuses bindings bindings' values =
      matchTestedArgs refuses (bindings.map Prod.snd) (bindings'.map Prod.snd) values := by
  induction bindings generalizing bindings' values with
  | nil => cases bindings' <;> simp [matchTestedBindings, matchTestedArgs]
  | cons binding rest ih =>
    cases bindings' with
    | nil => simp [matchTestedBindings, matchTestedArgs]
    | cons binding' rest' =>
      rw [matchTestedBindings, List.map_cons, List.map_cons, matchTestedArgs]
      cases binding.2.matchTested refuses binding'.2 values with
      | none => rfl
      | some middle => exact ih rest' middle

/-- Matching arguments with a test is matching them, if it is for each of them. -/
theorem matchTestedArgs_eq {args : List Term}
    (each : ∀ t ∈ args, ∀ u values, t.matchTested refuses u values = t.matchInto u values)
    (args' : List Term) (values : Substitution) :
    matchTestedArgs refuses args args' values = matchArgs args args' values := by
  induction args generalizing args' values with
  | nil => cases args' <;> simp [matchTestedArgs, matchArgs]
  | cons t ts ih =>
    rw [List.forall_mem_cons] at each
    cases args' with
    | nil => simp [matchTestedArgs, matchArgs]
    | cons u us =>
      rw [matchTestedArgs, matchArgs, each.1]
      cases t.matchInto u values with
      | none => rfl
      | some middle => exact ih each.2 us middle

/-- A pair that a test refuses rightly is refused without the test, too. -/
theorem matchTested_eq_of_refused (rightly : RefusesRightly refuses) {pattern t : Term}
    (refused : refuses pattern t = true) (values : Substitution) :
    pattern.matchTested refuses t values = pattern.matchInto t values := by
  unfold matchTested
  rw [if_pos refused, rightly refused]

/-- Matching with a test that refuses rightly is matching. -/
theorem matchTested_eq_matchInto (rightly : RefusesRightly refuses) (pattern t : Term)
    (values : Substitution) :
    pattern.matchTested refuses t values = pattern.matchInto t values := by
  induction pattern generalizing t values with
  | var name =>
    by_cases refused : refuses (var name) t = true
    · exact matchTested_eq_of_refused rightly refused values
    · rw [matchTested, if_neg refused, matchInto]
  | app head name args ih =>
    by_cases refused : refuses (app head name args) t = true
    · exact matchTested_eq_of_refused rightly refused values
    cases t with
    | app head' name' args' =>
      rw [matchTested, if_neg refused, matchInto_app, matchTestedArgs_eq ih]
    | _ => simp [matchTested, matchInto]
  | letIn body bindings bodyIh valueIh =>
    by_cases refused : refuses (letIn body bindings) t = true
    · exact matchTested_eq_of_refused rightly refused values
    cases t with
    | letIn body' bindings' =>
      rw [matchTested, if_neg refused, matchInto, matchBindings_eq, matchTestedBindings_eq,
        matchTestedArgs_eq (mem_values valueIh)]
      split
      · cases matchArgs (bindings.map Prod.snd) (bindings'.map Prod.snd) values with
        | none => rfl
        | some middle => exact bodyIh body' middle
      · rfl
    | _ => simp [matchTested, matchInto]

end Tested

/-- Matching as a whole refuses smaller candidates at every level, and besides, at the start,
candidates of another size for a ground pattern. -/
theorem matchAgainst_eq_matchTested (t u : Term) :
    t.matchAgainst u = if groundUnlike t u then none else t.matchTested smaller u [] := by
  rw [matchAgainst, matchSized_eq_matchInto, matchTested_eq_matchInto refusesRightly_smaller]
  rfl

/-- The early rejections change no answer. What is stored of terms is right, however they arise. Two
terms compare equal exactly if they are the same, as without the test on sizes. Matching one term
with another refuses candidates that are smaller than the pattern, at every level and whatever is
bound before, and yields the same if it refuses nothing. So does matching as a whole, which besides
refuses candidates of another size for ground patterns. -/
theorem rejections_change_nothing :
    (∀ t : Term, t.Measured) ∧
    ∀ t u : Term,
      (t.equals u = true ↔ t = u) ∧ t.equals u = t.beq u ∧
      (∀ values, t.matchSized u values = t.matchTested smaller u values ∧
        t.matchSized u values = t.matchTested never u values) ∧
      (t.matchAgainst u = if groundUnlike t u then none else t.matchTested smaller u []) ∧
      t.matchAgainst u = t.matchTested never u [] := by
  refine ⟨measured, fun t u => ⟨equals_iff, ?_, fun values => ⟨?_, ?_⟩,
    matchAgainst_eq_matchTested t u, ?_⟩⟩
  · rw [Bool.eq_iff_iff, equals_iff]
    exact beq_iff_eq.symm
  · rw [matchSized_eq_matchInto, matchTested_eq_matchInto refusesRightly_smaller]
  · rw [matchSized_eq_matchInto, matchTested_eq_matchInto refusesRightly_never]
  · rw [matchAgainst_eq_matchTested, matchTested_eq_matchInto refusesRightly_never]
    split
    · rename_i refused
      exact (refusesRightly_groundUnlike refused []).symm
    · exact matchTested_eq_matchInto refusesRightly_smaller t u []

end Term

end Supercompilation
