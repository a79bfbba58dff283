import Supercompilation.Proofs.Renaming

/-!
# Bounded walks through renamed terms

Whether a walk through terms goes too deep does not depend on the names in them. Comparing and
matching within some frames commute with an injective renaming, so the tests that are built on them
give the same answer for renamed terms.
-/

namespace Supercompilation

namespace Term

variable {ρ : String → String}

/-- Comparing arguments within some frames does not depend on names, if comparing each does not. -/
theorem equalsArgsWithin_rename {frames : Nat} {args : List Term}
    (each : ∀ t ∈ args, ∀ u, (t.rename ρ).equalsWithin frames (u.rename ρ) =
      t.equalsWithin frames u) (args' : List Term) :
    equalsArgsWithin frames (args.map (rename ρ)) (args'.map (rename ρ)) =
      equalsArgsWithin frames args args' := by
  induction args generalizing args' with
  | nil => simp [equalsArgsWithin]
  | cons t ts ih =>
    cases args' with
    | nil => simp [equalsArgsWithin]
    | cons u us =>
      rw [List.forall_mem_cons] at each
      rw [List.map_cons, List.map_cons, equalsArgsWithin, equalsArgsWithin, each.1, ih each.2]

/-- Comparing bindings within some frames does not depend on names, if comparing each value does
not. -/
theorem equalsBindingsWithin_rename (injective : Function.Injective ρ) {frames : Nat}
    {bindings : List (String × Term)}
    (each : ∀ binding ∈ bindings, ∀ u, (binding.2.rename ρ).equalsWithin frames (u.rename ρ) =
      binding.2.equalsWithin frames u) (bindings' : List (String × Term)) :
    equalsBindingsWithin frames (Substitution.rename ρ bindings)
      (Substitution.rename ρ bindings') = equalsBindingsWithin frames bindings bindings' := by
  induction bindings generalizing bindings' with
  | nil => simp [Substitution.rename, equalsBindingsWithin]
  | cons binding rest ih =>
    cases bindings' with
    | nil => simp [Substitution.rename, equalsBindingsWithin]
    | cons binding' rest' =>
      obtain ⟨x, t⟩ := binding
      obtain ⟨y, u⟩ := binding'
      rw [List.forall_mem_cons] at each
      have later := ih each.2 rest'
      rw [Substitution.rename, Substitution.rename] at later ⊢
      rw [List.map_cons, List.map_cons, equalsBindingsWithin, equalsBindingsWithin, later, each.1]
      simp only [ne_eq, injective.eq_iff]

/-- Comparing terms within some frames does not depend on names. -/
theorem equalsWithin_rename (injective : Function.Injective ρ) (frames : Nat) (t u : Term) :
    (t.rename ρ).equalsWithin frames (u.rename ρ) = t.equalsWithin frames u := by
  induction t generalizing frames u with
  | var name =>
    unfold equalsWithin
    rw [size_rename, size_rename]
    cases Walk.comparing.descend? frames with
    | none => rfl
    | some frames =>
      cases u with
      | var name' => simp [injective.eq_iff]
      | app head' name' args' => rw [rename_var, rename_app]
      | letIn body' bindings' => rw [rename_var, rename_letIn]
  | app head name args ih =>
    unfold equalsWithin
    rw [size_rename, size_rename]
    cases Walk.comparing.descend? frames with
    | none => rfl
    | some frames =>
      cases u with
      | app head' name' args' =>
        simp only [rename_app, List.length_map]
        rw [equalsArgsWithin_rename fun t member u => ih t member frames u]
      | var name' => rw [rename_var, rename_app]
      | letIn body' bindings' => rw [rename_letIn, rename_app]
  | letIn body bindings bodyIh valueIh =>
    unfold equalsWithin
    rw [size_rename, size_rename]
    cases Walk.comparing.descend? frames with
    | none => rfl
    | some frames =>
      cases u with
      | letIn body' bindings' =>
        have inBindings := equalsBindingsWithin_rename injective
          (fun binding member u => valueIh binding member frames u) bindings'
        rw [Substitution.rename, Substitution.rename] at inBindings
        simp only [rename_letIn, List.length_map, inBindings, bodyIh]
      | var name' => rw [rename_var, rename_letIn]
      | app head' name' args' => rw [rename_letIn, rename_app]

/-- Matching arguments within some frames commutes with renaming, if it does for each of them. -/
theorem matchArgsWithin_rename {frames : Nat} {args : List Term}
    (each : ∀ t ∈ args, ∀ u values,
      (t.rename ρ).matchWithin frames (u.rename ρ) (values.rename ρ) =
        (t.matchWithin frames u values).map (Option.map (Substitution.rename ρ)))
    (args' : List Term) (values : Substitution) :
    matchArgsWithin frames (args.map (rename ρ)) (args'.map (rename ρ)) (values.rename ρ) =
      (matchArgsWithin frames args args' values).map (Option.map (Substitution.rename ρ)) := by
  induction args generalizing args' values with
  | nil => simp [matchArgsWithin]
  | cons t ts ih =>
    cases args' with
    | nil => simp [matchArgsWithin]
    | cons u us =>
      rw [List.forall_mem_cons] at each
      rw [List.map_cons, List.map_cons, matchArgsWithin, matchArgsWithin, each.1]
      rcases t.matchWithin frames u values with _ | _ | middle
      · rfl
      · rfl
      · exact ih each.2 us middle

/-- Matching bindings within some frames is matching the list of values. -/
theorem matchBindingsWithin_eq (frames : Nat) (bindings bindings' : List (String × Term))
    (values : Substitution) :
    matchBindingsWithin frames bindings bindings' values =
      matchArgsWithin frames (bindings.map Prod.snd) (bindings'.map Prod.snd) values := by
  induction bindings generalizing bindings' values with
  | nil => simp [matchBindingsWithin, matchArgsWithin]
  | cons binding rest ih =>
    cases bindings' with
    | nil => simp [matchBindingsWithin, matchArgsWithin]
    | cons binding' rest' =>
      rw [matchBindingsWithin, List.map_cons, List.map_cons, matchArgsWithin]
      rcases binding.2.matchWithin frames binding'.2 values with _ | _ | middle
      · rfl
      · rfl
      · exact ih rest' middle

/-- Matching within some frames commutes with renaming. -/
theorem matchWithin_rename (injective : Function.Injective ρ) (frames : Nat) (pattern t : Term)
    (values : Substitution) :
    (pattern.rename ρ).matchWithin frames (t.rename ρ) (values.rename ρ) =
      (pattern.matchWithin frames t values).map (Option.map (Substitution.rename ρ)) := by
  induction pattern generalizing frames t values with
  | var name =>
    rw [rename_var, matchWithin, matchWithin, Substitution.value?_rename injective]
    cases values.value? name with
    | none => simp [Substitution.rename]
    | some bound =>
      simp only [Option.map_some, equalsWithin_rename injective]
      rcases bound.equalsWithin frames t with _ | _ | _ <;> rfl
  | app head name args ih =>
    unfold matchWithin
    rw [rename_app]
    simp only [← rename_app, size_rename]
    cases Walk.matching.descend? frames with
    | none => simp only; split <;> rfl
    | some frames =>
      cases t with
      | app head' name' args' =>
        simp only [rename_app, List.length_map]
        rw [matchArgsWithin_rename fun t member u values => ih t member frames u values]
        split
        · rfl
        · split <;> rfl
      | var name' => simp only [rename_var]; split <;> rfl
      | letIn body' bindings' => simp only [rename_letIn]; split <;> rfl
  | letIn body bindings bodyIh valueIh =>
    unfold matchWithin
    rw [rename_letIn]
    simp only [← rename_letIn, size_rename]
    cases Walk.matching.descend? frames with
    | none => simp only; split <;> rfl
    | some frames =>
      cases t with
      | letIn body' bindings' =>
        have sameNames := names_rename_iff injective bindings bindings'
        have inValues := matchArgsWithin_rename
          (mem_values fun binding member u values => valueIh binding member frames u values)
          (bindings'.map Prod.snd) values
        rw [← values_rename, ← values_rename, ← matchBindingsWithin_eq,
          ← matchBindingsWithin_eq] at inValues
        rw [Substitution.rename, Substitution.rename] at sameNames inValues
        simp only [rename_letIn, sameNames, inValues]
        split
        · rfl
        · split
          · rcases matchBindingsWithin frames bindings bindings' values with _ | _ | middle
            · rfl
            · rfl
            · exact bodyIh frames body' middle
          · rfl
      | var name' => simp only [rename_var]; split <;> rfl
      | app head' name' args' => simp only [rename_app]; split <;> rfl

/-- Whether a match goes too deep does not depend on names. -/
theorem matchTooDeep_rename (injective : Function.Injective ρ) (frames : Nat) (pattern t : Term) :
    matchTooDeep frames (pattern.rename ρ) (t.rename ρ) = matchTooDeep frames pattern t := by
  have within := matchWithin_rename injective frames pattern t []
  rw [show Substitution.rename ρ [] = [] from rfl] at within
  rw [matchTooDeep, matchTooDeep, height_rename, ground_rename, size_rename, size_rename, within,
    Option.isNone_map]

/-- Whether comparing two terms up to renaming goes too deep does not depend on names. -/
theorem equivTooDeep_rename (injective : Function.Injective ρ) (frames : Nat) (t u : Term) :
    equivTooDeep frames (t.rename ρ) (u.rename ρ) = equivTooDeep frames t u := by
  rw [equivTooDeep, equivTooDeep, matchTooDeep_rename injective, matchTooDeep_rename injective,
    matchAgainst_rename injective, Option.isSome_map]

end Term

end Supercompilation
