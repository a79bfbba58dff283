import Mathlib.Logic.Function.Basic
import Supercompilation.Proofs.Matching
import Supercompilation.Nesting

/-!
# Renaming terms

A renaming changes variables and the names that `let` terms bind, and nothing else: sizes, levels
and kinds stay. What the supercompiler asks of terms does not depend on the names. An injective
renaming passes through substitution and matching, with and without a bound on the levels; whether a
match is found, or a walk goes too deep, is therefore the same for the renamed terms.
-/

namespace Supercompilation

namespace Term

mutual

/-- Rename the variables of a term and the names that its `let` terms bind. -/
def rename (ρ : String → String) : Term → Term
  | var name => var (ρ name)
  | app head name args => app head name (renameArgs ρ args)
  | letIn body bindings => letIn (body.rename ρ) (renameBindings ρ bindings)

/-- Rename the variables of some terms. -/
def renameArgs (ρ : String → String) : List Term → List Term
  | [] => []
  | t :: ts => t.rename ρ :: renameArgs ρ ts

/-- Rename the names and the values of some bindings. -/
def renameBindings (ρ : String → String) : List (String × Term) → List (String × Term)
  | [] => []
  | (name, value) :: rest => (ρ name, value.rename ρ) :: renameBindings ρ rest

end

variable {ρ σ : String → String}

/-- Arguments are renamed one by one. -/
theorem renameArgs_eq_map (ρ : String → String) (args : List Term) :
    renameArgs ρ args = args.map (rename ρ) := by
  induction args with
  | nil => rfl
  | cons t ts ih => rw [renameArgs, ih, List.map_cons]

/-- Bindings are renamed one by one. -/
theorem renameBindings_eq_map (ρ : String → String) (bindings : List (String × Term)) :
    renameBindings ρ bindings = bindings.map fun binding => (ρ binding.1, binding.2.rename ρ) := by
  induction bindings with
  | nil => rfl
  | cons binding rest ih => rw [renameBindings, ih, List.map_cons]

@[simp]
theorem rename_var (ρ : String → String) (name : String) : (var name).rename ρ = var (ρ name) := by
  rw [rename]

@[simp]
theorem rename_app (ρ : String → String) (head : Head) (name : String) (args : List Term) :
    (app head name args).rename ρ = app head name (args.map (rename ρ)) := by
  rw [rename, renameArgs_eq_map]

@[simp]
theorem rename_letIn (ρ : String → String) (body : Term) (bindings : List (String × Term)) :
    (letIn body bindings).rename ρ =
      letIn (body.rename ρ) (bindings.map fun binding => (ρ binding.1, binding.2.rename ρ)) := by
  rw [rename, renameBindings_eq_map]

/-- A renaming leaves the stored measures alone. -/
theorem measures_rename (ρ : String → String) (t : Term) : (t.rename ρ).measures = t.measures := by
  induction t with
  | var name => rw [rename_var, measures_var, measures_var]
  | app head name args ih =>
    rw [rename_app, measures, measures, List.map_map]
    exact congrArg Measures.above (List.map_congr_left ih)
  | letIn body bindings bodyIh valueIh =>
    have values : ∀ bindings : List (String × Term),
        (bindings.attach.map fun binding => binding.1.2.measures) =
          bindings.map fun binding => binding.2.measures := fun bindings =>
      List.attach_map_val (f := fun binding : String × Term => binding.2.measures)
    rw [rename_letIn, measures, measures, values, values, List.map_map, bodyIh]
    exact congrArg (fun others => Measures.above (body.measures :: others))
      (List.map_congr_left valueIh)

@[simp]
theorem size_rename (ρ : String → String) (t : Term) : (t.rename ρ).size = t.size :=
  congrArg Measures.size (measures_rename ρ t)

@[simp]
theorem ground_rename (ρ : String → String) (t : Term) : (t.rename ρ).ground = t.ground :=
  congrArg Measures.ground (measures_rename ρ t)

@[simp]
theorem height_rename (ρ : String → String) (t : Term) : (t.rename ρ).height = t.height :=
  congrArg Measures.height (measures_rename ρ t)

@[simp]
theorem kind_rename (ρ : String → String) (t : Term) : (t.rename ρ).kind = t.kind := by
  cases t <;> simp [kind]

@[simp]
theorem isCall_rename (ρ : String → String) (t : Term) : (t.rename ρ).isCall = t.isCall := by
  cases t with
  | app head name args => cases head <;> simp [isCall]
  | _ => simp [isCall]

/-- The variables of arguments are renamed with them, if this holds of each of them. -/
theorem occurrencesArgs_rename {args : List Term}
    (each : ∀ t ∈ args, (t.rename ρ).occurrences = t.occurrences.map ρ) :
    occurrencesArgs (args.map (rename ρ)) = (occurrencesArgs args).map ρ := by
  induction args with
  | nil => rfl
  | cons t ts ih =>
    rw [List.forall_mem_cons] at each
    rw [List.map_cons, occurrencesArgs, occurrencesArgs, List.map_append, each.1, ih each.2]

/-- The variables of a term are renamed with it. -/
theorem occurrences_rename (ρ : String → String) (t : Term) :
    (t.rename ρ).occurrences = t.occurrences.map ρ := by
  induction t with
  | var name => simp [occurrences]
  | app head name args ih =>
    rw [rename_app, occurrences, occurrences, occurrencesArgs_rename ih]
  | letIn body bindings bodyIh valueIh =>
    have inValues := occurrencesArgs_rename (mem_values valueIh)
    rw [rename_letIn, occurrences, occurrences, ← occurrencesArgs_values,
      ← occurrencesArgs_values, List.map_append, bodyIh, ← inValues, List.map_map, List.map_map]
    rfl

/-- Renaming a term depends only on the names that it mentions. -/
theorem rename_congr {t : Term} (agree : ∀ x ∈ t.mentions, ρ x = σ x) :
    t.rename ρ = t.rename σ := by
  induction t with
  | var name => rw [rename_var, rename_var, agree name (mem_mentions_var.mpr rfl)]
  | app head name args ih =>
    rw [rename_app, rename_app]
    refine congrArg (app head name) (List.map_congr_left fun t member => ih t member ?_)
    exact fun x inside => agree x (mem_mentions_app.mpr ⟨t, member, inside⟩)
  | letIn body bindings bodyIh valueIh =>
    rw [rename_letIn, rename_letIn,
      bodyIh fun x inside => agree x (mem_mentions_letIn.mpr (.inl inside))]
    refine congrArg (letIn (body.rename σ)) (List.map_congr_left fun binding member => ?_)
    rw [agree binding.1 (mem_mentions_letIn.mpr (.inr ⟨binding, member, .inl rfl⟩)),
      valueIh binding member fun x inside =>
        agree x (mem_mentions_letIn.mpr (.inr ⟨binding, member, .inr inside⟩))]

/-- The names that a renamed term mentions are those that the term mentions, renamed. -/
theorem mem_mentions_rename {t : Term} {x : String} (mentioned : x ∈ t.mentions) :
    ρ x ∈ (t.rename ρ).mentions := by
  induction t with
  | var name => simp_all
  | app head name args ih =>
    obtain ⟨t, member, inside⟩ := mem_mentions_app.mp mentioned
    rw [rename_app, mem_mentions_app]
    exact ⟨t.rename ρ, List.mem_map_of_mem member, ih t member inside⟩
  | letIn body bindings bodyIh valueIh =>
    rw [rename_letIn, mem_mentions_letIn]
    rcases mem_mentions_letIn.mp mentioned with inBody | ⟨binding, member, here⟩
    · exact .inl (bodyIh inBody)
    · refine .inr ⟨_, List.mem_map_of_mem member, ?_⟩
      rcases here with rfl | inValue
      · exact .inl rfl
      · exact .inr (valueIh binding member inValue)

/-- Renaming twice is renaming by the composition. -/
theorem rename_rename (t : Term) : (t.rename ρ).rename σ = t.rename (σ ∘ ρ) := by
  induction t with
  | var name => simp
  | app head name args ih =>
    rw [rename_app, rename_app, rename_app, List.map_map]
    exact congrArg (app head name) (List.map_congr_left ih)
  | letIn body bindings bodyIh valueIh =>
    rw [rename_letIn, rename_letIn, rename_letIn, bodyIh, List.map_map]
    refine congrArg (letIn _) (List.map_congr_left fun binding member => ?_)
    exact congrArg (Prod.mk _) (valueIh binding member)

/-- Keeping all names changes nothing. -/
theorem rename_id (t : Term) : t.rename id = t := by
  induction t with
  | var name => simp
  | app head name args ih =>
    rw [rename_app, List.map_congr_left ih, List.map_id']
  | letIn body bindings bodyIh valueIh =>
    have values : (bindings.map fun binding => (id binding.1, binding.2.rename id)) = bindings := by
      refine (List.map_congr_left fun binding member => ?_).trans (List.map_id' bindings)
      rw [valueIh binding member, id]
    rw [rename_letIn, bodyIh, values]

/-- Terms that are the same after an injective renaming are the same. -/
theorem rename_injective (injective : Function.Injective ρ) : Function.Injective (rename ρ) := by
  obtain ⟨inverse, undoes⟩ := injective.hasLeftInverse
  have restores : ∀ t : Term, (t.rename ρ).rename inverse = t := fun t => by
    rw [rename_rename, undoes.comp_eq_id, rename_id]
  exact Function.LeftInverse.injective restores

end Term

namespace Substitution

open Term

/-- Rename the variables that a substitution gives values, and the values. -/
def rename (ρ : String → String) (values : Substitution) : Substitution :=
  values.map fun binding => (ρ binding.1, binding.2.rename ρ)

variable {ρ : String → String}

/-- A renamed substitution gives renamed variables renamed values. -/
theorem value?_rename (injective : Function.Injective ρ) (values : Substitution) (x : String) :
    (values.rename ρ).value? (ρ x) = (values.value? x).map (Term.rename ρ) := by
  induction values with
  | nil => rfl
  | cons binding rest ih =>
    obtain ⟨y, t⟩ := binding
    rw [rename, List.map_cons, NameMap.value?, NameMap.value?]
    by_cases same : x = y
    · rw [if_pos (congrArg ρ same), if_pos same, Option.map_some]
    · rw [if_neg fun equal => same (injective equal), if_neg same]
      exact ih

/-- Binding a variable commutes with renaming. -/
theorem extend_rename (injective : Function.Injective ρ) (values : Substitution) (x : String)
    (t : Term) :
    (values.rename ρ).extend (ρ x) (t.rename ρ) = (values.extend x t).map (rename ρ) := by
  rw [extend, extend, value?_rename injective]
  cases values.value? x with
  | none => simp [rename]
  | some bound =>
    have same : (bound.rename ρ == t.rename ρ) = (bound == t) := by
      rw [Bool.eq_iff_iff, beq_iff_eq, beq_iff_eq]
      exact (rename_injective injective).eq_iff
    simp only [Option.map_some, same]
    split <;> rfl

end Substitution

namespace Term

variable {ρ : String → String}

/-- Substitution commutes with renaming. -/
theorem rename_subst (injective : Function.Injective ρ) (t : Term) (values : Substitution) :
    (t.subst values).rename ρ = (t.rename ρ).subst (values.rename ρ) := by
  induction t with
  | var name =>
    rw [rename_var, subst_var, subst_var, Substitution.value?_rename injective]
    cases values.value? name <;> simp
  | app head name args ih =>
    rw [subst_app, rename_app, rename_app, subst_app, List.map_map, List.map_map]
    exact congrArg (app head name) (List.map_congr_left ih)
  | letIn body bindings bodyIh valueIh =>
    rw [subst_letIn, rename_letIn, rename_letIn, subst_letIn, bodyIh, List.map_map, List.map_map]
    refine congrArg (letIn _) (List.map_congr_left fun binding member => ?_)
    exact congrArg (Prod.mk _) (valueIh binding member)

/-- Matching arguments commutes with renaming, if it does for each of them. -/
theorem matchArgs_rename {args : List Term}
    (each : ∀ t ∈ args, ∀ u values, (t.rename ρ).matchInto (u.rename ρ) (values.rename ρ) =
      (t.matchInto u values).map (Substitution.rename ρ))
    (args' : List Term) (values : Substitution) :
    matchArgs (args.map (rename ρ)) (args'.map (rename ρ)) (values.rename ρ) =
      (matchArgs args args' values).map (Substitution.rename ρ) := by
  induction args generalizing args' values with
  | nil => cases args' <;> simp [matchArgs]
  | cons t ts ih =>
    cases args' with
    | nil => simp [matchArgs]
    | cons u us =>
      rw [List.forall_mem_cons] at each
      rw [List.map_cons, List.map_cons, matchArgs, matchArgs, each.1]
      cases t.matchInto u values with
      | none => rfl
      | some middle => exact ih each.2 us middle

/-- Two lists of names are the same exactly if they are after an injective renaming. -/
theorem names_rename_iff (injective : Function.Injective ρ) (first second : Substitution) :
    NameMap.names (first.rename ρ) = NameMap.names (second.rename ρ) ↔
      NameMap.names first = NameMap.names second := by
  have renamed : ∀ values : Substitution,
      NameMap.names (values.rename ρ) = (NameMap.names values).map ρ := fun values => by
    rw [NameMap.names, NameMap.names, Substitution.rename, List.map_map, List.map_map]
    rfl
  rw [renamed, renamed]
  exact (List.map_injective_iff.mpr injective).eq_iff

/-- The values of renamed bindings are the renamed values. -/
theorem values_rename (bindings : Substitution) :
    (bindings.rename ρ).map Prod.snd = (bindings.map Prod.snd).map (rename ρ) := by
  rw [Substitution.rename, List.map_map, List.map_map]
  rfl

/-- Matching commutes with renaming. -/
theorem matchInto_rename (injective : Function.Injective ρ) (pattern t : Term)
    (values : Substitution) :
    (pattern.rename ρ).matchInto (t.rename ρ) (values.rename ρ) =
      (pattern.matchInto t values).map (Substitution.rename ρ) := by
  induction pattern generalizing t values with
  | var name =>
    rw [rename_var, matchInto, matchInto]
    exact Substitution.extend_rename injective values name t
  | app head name args ih =>
    cases t with
    | app head' name' args' =>
      rw [rename_app, rename_app, matchInto, matchInto]
      split
      · exact matchArgs_rename ih args' values
      · rfl
    | _ => simp [matchInto]
  | letIn body bindings bodyIh valueIh =>
    cases t with
    | letIn body' bindings' =>
      have inValues := matchArgs_rename (mem_values valueIh) (bindings'.map Prod.snd) values
      rw [← values_rename, ← values_rename] at inValues
      have inBindings : matchBindings (Substitution.rename ρ bindings)
          (Substitution.rename ρ bindings') (values.rename ρ) =
          (matchBindings bindings bindings' values).map (Substitution.rename ρ) := by
        rw [matchBindings_eq, matchBindings_eq, if_congr (names_rename_iff injective _ _) rfl rfl,
          inValues]
        split <;> rfl
      rw [rename_letIn, rename_letIn, matchInto, matchInto]
      rw [Substitution.rename, Substitution.rename] at inBindings
      rw [inBindings]
      cases matchBindings bindings bindings' values with
      | none => rfl
      | some middle => exact bodyIh body' middle
    | _ => simp [matchInto]

/-- A match of renamed terms is the renamed match. -/
theorem matchAgainst_rename (injective : Function.Injective ρ) (pattern t : Term) :
    (pattern.rename ρ).matchAgainst (t.rename ρ) =
      (pattern.matchAgainst t).map (Substitution.rename ρ) := by
  rw [matchAgainst_eq_matchInto, matchAgainst_eq_matchInto]
  exact matchInto_rename injective pattern t []

/-- Renamed terms are the same up to renaming exactly if the terms are. -/
theorem equiv_rename (injective : Function.Injective ρ) (t u : Term) :
    (t.rename ρ).equiv (u.rename ρ) = t.equiv u := by
  rw [equiv, equiv, hasInstance, hasInstance, hasInstance, hasInstance,
    matchAgainst_rename injective, matchAgainst_rename injective, Option.isSome_map,
    Option.isSome_map]

end Term

end Supercompilation
