import Supercompilation.Substitution
import Supercompilation.Proofs.Term

/-!
# Laws of substitution

A substitution replaces all variables at once, so that two substitutions treat a term alike exactly
if they treat its variables alike, and one substitution after another is a single one. A map made
from pairs gives a name the value of its last pair; changing all values in the pairs changes them in
the map.
-/

namespace Supercompilation

namespace NameMap

variable {α β : Type}

/-- Of two maps one behind the other, the first that has a value for a name gives it. -/
theorem value?_append (first second : NameMap α) (x : String) :
    value? (first ++ second) x = (value? first x).or (value? second x) := by
  induction first with
  | nil => simp [value?]
  | cons entry rest ih =>
    obtain ⟨name, value⟩ := entry
    by_cases here : x = name
    · simp [value?, here]
    · simp [value?, here, ih]

/-- A value that is found stands beside its name. -/
theorem mem_of_value? {entries : NameMap α} {x : String} {v : α}
    (found : value? entries x = some v) : (x, v) ∈ entries := by
  induction entries with
  | nil => simp [value?] at found
  | cons entry rest ih =>
    obtain ⟨name, value⟩ := entry
    by_cases here : x = name
    · simp only [value?, if_pos here, Option.some.injEq] at found
      rw [here, found]
      exact List.mem_cons_self
    · simp only [value?, if_neg here] at found
      exact List.mem_cons_of_mem _ (ih found)

/-- A pair gives its name a value, if no name stands in two pairs. -/
theorem value?_of_mem {entries : NameMap α} (distinct : (names entries).Nodup) {x : String} {v : α}
    (member : (x, v) ∈ entries) : value? entries x = some v := by
  induction entries with
  | nil => contradiction
  | cons entry rest ih =>
    obtain ⟨name, value⟩ := entry
    rw [names, List.map_cons, List.nodup_cons] at distinct
    rw [value?]
    rcases List.mem_cons.mp member with same | later
    · obtain ⟨rfl, rfl⟩ := Prod.mk.inj same
      exact if_pos rfl
    · have different : x ≠ name := fun same =>
        distinct.1 (same ▸ List.mem_map.mpr ⟨(x, v), later, rfl⟩)
      rw [if_neg different]
      exact ih distinct.2 later

/-- A name has no value if it is not among the names. -/
theorem value?_eq_none_iff {entries : NameMap α} {x : String} :
    value? entries x = none ↔ x ∉ names entries := by
  induction entries with
  | nil => simp [value?, names]
  | cons entry rest ih =>
    obtain ⟨name, value⟩ := entry
    by_cases here : x = name
    · simp [value?, names, here]
    · simpa [value?, names, here] using ih

/-- Changing all values changes those that are found. -/
theorem value?_map (f : α → β) (entries : NameMap α) (x : String) :
    value? (entries.map fun entry => (entry.1, f entry.2)) x = (value? entries x).map f := by
  induction entries with
  | nil => simp [value?]
  | cons entry rest ih =>
    obtain ⟨name, value⟩ := entry
    by_cases here : x = name
    · simp [value?, here]
    · simpa [value?, here] using ih

/-- After a name is put, it has the value put and other names have theirs. -/
theorem value?_put (entries : NameMap α) (x y : String) (v : α) :
    value? (put entries x v) y = if y = x then some v else value? entries y := by
  induction entries with
  | nil => simp [put, value?]
  | cons entry rest ih =>
    obtain ⟨name, value⟩ := entry
    by_cases here : x = name
    · by_cases same : y = name
      · simp [put, value?, here, same]
      · simp [put, value?, here, same]
    · by_cases same : y = name
      · simp [put, value?, here, same, Ne.symm here]
      · simp [put, value?, here, same, ih]

/-- Pairs that are put one after another: a later pair of a name hides the earlier ones. -/
theorem value?_foldl_put (pairs : List (String × α)) (entries : NameMap α) (x : String) :
    value? (pairs.foldl (fun entries pair => put entries pair.1 pair.2) entries) x =
      (value? pairs.reverse x).or (value? entries x) := by
  induction pairs generalizing entries with
  | nil => simp [value?]
  | cons pair rest ih =>
    obtain ⟨name, value⟩ := pair
    rw [List.foldl_cons, ih, value?_put, List.reverse_cons, value?_append, Option.or_assoc]
    congr 1
    by_cases here : x = name
    · simp [value?, here]
    · simp [value?, here]

/-- A map made from pairs gives a name the value of its last pair. -/
theorem value?_ofPairs (pairs : List (String × α)) (x : String) :
    value? (ofPairs pairs) x = value? pairs.reverse x := by
  rw [ofPairs, value?_foldl_put]
  simp [value?]

/-- Changing the values of all pairs changes the values of the map made from them. -/
theorem value?_ofPairs_map (f : α → β) (pairs : List (String × α)) (x : String) :
    value? (ofPairs (pairs.map fun pair => (pair.1, f pair.2))) x =
      (value? (ofPairs pairs) x).map f := by
  rw [value?_ofPairs, value?_ofPairs, ← List.map_reverse, value?_map]

/-- A map made from pairs has a value for every name of a pair, and takes it from a pair. -/
theorem exists_value?_ofPairs {pairs : List (String × α)} {x : String}
    (named : x ∈ pairs.map Prod.fst) :
    ∃ v, value? (ofPairs pairs) x = some v ∧ (x, v) ∈ pairs := by
  cases found : value? (ofPairs pairs) x with
  | none =>
    rw [value?_ofPairs, value?_eq_none_iff, names, List.map_reverse, List.mem_reverse] at found
    exact absurd named found
  | some v =>
    rw [value?_ofPairs] at found
    exact ⟨v, rfl, List.mem_reverse.mp (mem_of_value? found)⟩

/-- A value of a map made from pairs comes from a pair. -/
theorem mem_of_value?_ofPairs {pairs : List (String × α)} {x : String} {v : α}
    (found : value? (ofPairs pairs) x = some v) : (x, v) ∈ pairs := by
  rw [value?_ofPairs] at found
  exact List.mem_reverse.mp (mem_of_value? found)

/-- Distinct names that are paired with values have exactly these values. -/
theorem map_value?_zip {names : List String} (distinct : names.Nodup) (values : List α)
    (same : names.length = values.length) (rest : NameMap α) :
    names.map (value? (names.zip values ++ rest)) = values.map some := by
  induction names generalizing values with
  | nil =>
    cases values with
    | nil => rfl
    | cons v vs => simp at same
  | cons name names ih =>
    cases values with
    | nil => simp at same
    | cons v vs =>
      obtain ⟨fresh, distinct⟩ := List.nodup_cons.mp distinct
      have others : names.map (value? ((name, v) :: (names.zip vs ++ rest))) =
          names.map (value? (names.zip vs ++ rest)) := by
        apply List.map_congr_left
        intro x member
        have differs : x ≠ name := fun equal => fresh (equal ▸ member)
        simp [value?, differs]
      rw [List.zip_cons_cons, List.cons_append, List.map_cons, others,
        ih distinct vs (by simpa using same), List.map_cons]
      simp [value?]

end NameMap

namespace Term

/-- Arguments are replaced one by one. -/
theorem substArgs_eq_map (values : Substitution) (args : List Term) :
    substArgs values args = args.map (subst values) := by
  induction args with
  | nil => simp [substArgs]
  | cons t ts ih => simp [substArgs, ih]

/-- Bound values are replaced one by one, under their names. -/
theorem substBindings_eq_map (values : Substitution) (bindings : List (String × Term)) :
    substBindings values bindings = bindings.map fun binding =>
      (binding.1, binding.2.subst values) := by
  induction bindings with
  | nil => simp [substBindings]
  | cons binding rest ih => simp [substBindings, ih]

theorem subst_var (values : Substitution) (name : String) :
    (var name).subst values = (values.value? name).getD (var name) := by
  rw [subst]

@[simp]
theorem subst_app (values : Substitution) (head : Head) (name : String) (args : List Term) :
    (app head name args).subst values = app head name (args.map (subst values)) := by
  rw [subst, substArgs_eq_map]

@[simp]
theorem subst_letIn (values : Substitution) (body : Term) (bindings : List (String × Term)) :
    (letIn body bindings).subst values = letIn (body.subst values)
      (bindings.map fun binding => (binding.1, binding.2.subst values)) := by
  rw [subst, substBindings_eq_map]

/-- A variable with a value is replaced by it. -/
theorem subst_var_of_value? {values : Substitution} {name : String} {t : Term}
    (found : values.value? name = some t) : (var name).subst values = t := by
  rw [subst_var, found, Option.getD_some]

/-- A variable without a value stays. -/
theorem subst_var_of_none {values : Substitution} {name : String}
    (unbound : values.value? name = none) : (var name).subst values = var name := by
  rw [subst_var, unbound, Option.getD_none]

/-- A substitution for one name gives its value to the name and leaves other names alone. -/
theorem subst_var_single (x y : String) (value : Term) :
    (var y).subst [(x, value)] = if y = x then value else var y := by
  rw [subst_var, NameMap.value?, NameMap.value?]
  split <;> rfl

/-- Two substitutions in a row are a third one, if they are so on the variables of the term. -/
theorem subst_subst_eq {t : Term} {first second both : Substitution}
    (agree : ∀ x ∈ t.occurrences, ((var x).subst first).subst second = (var x).subst both) :
    (t.subst first).subst second = t.subst both := by
  induction t with
  | var name => exact agree name (mem_occurrences_var.mpr rfl)
  | app head name args ih =>
    simp only [subst_app, List.map_map, app.injEq, true_and]
    apply List.map_congr_left
    intro t member
    exact ih t member fun x inside => agree x (mem_occurrences_app.mpr ⟨t, member, inside⟩)
  | letIn body bindings bodyIh valueIh =>
    simp only [subst_letIn, List.map_map, letIn.injEq]
    constructor
    · exact bodyIh fun x inside => agree x (mem_occurrences_letIn.mpr (.inl inside))
    · apply List.map_congr_left
      intro binding member
      have value := valueIh binding member fun x inside =>
        agree x (mem_occurrences_letIn.mpr (.inr ⟨binding, member, inside⟩))
      simp only [Function.comp_apply, value]

/-- The empty substitution changes nothing. -/
@[simp]
theorem subst_nil (t : Term) : t.subst [] = t := by
  induction t with
  | var name => exact subst_var_of_none rfl
  | app head name args ih =>
    rw [subst_app, List.map_congr_left ih, List.map_id']
  | letIn body bindings bodyIh valueIh =>
    have values : (bindings.map fun binding => (binding.1, binding.2.subst [])) = bindings := by
      calc
        (bindings.map fun binding => (binding.1, binding.2.subst [])) = bindings.map id :=
          List.map_congr_left fun binding member => by rw [valueIh binding member, id]
        _ = bindings := List.map_id bindings
    rw [subst_letIn, bodyIh, values]

/-- Substitutions that treat the variables of a term alike treat the term alike. -/
theorem subst_congr {t : Term} {first second : Substitution}
    (agree : ∀ x ∈ t.occurrences, (var x).subst first = (var x).subst second) :
    t.subst first = t.subst second := by
  rw [← subst_nil (t.subst first)]
  apply subst_subst_eq
  intro x occurs
  rw [subst_nil, agree x occurs]

/-- Two substitutions make the same of a term exactly if they make the same of each of its
variables. -/
theorem subst_eq_subst_iff {t : Term} {first second : Substitution} :
    t.subst first = t.subst second ↔
      ∀ x ∈ t.occurrences, (var x).subst first = (var x).subst second := by
  refine ⟨fun same => ?_, subst_congr⟩
  induction t with
  | var name => exact fun x occurs => mem_occurrences_var.mp occurs ▸ same
  | app head name args ih =>
    rw [subst_app, subst_app, app.injEq, List.map_inj_left] at same
    intro x occurs
    obtain ⟨t, member, inside⟩ := mem_occurrences_app.mp occurs
    exact ih t member (same.2.2 t member) x inside
  | letIn body bindings bodyIh valueIh =>
    rw [subst_letIn, subst_letIn, letIn.injEq, List.map_inj_left] at same
    intro x occurs
    rcases mem_occurrences_letIn.mp occurs with inside | ⟨binding, member, inside⟩
    · exact bodyIh same.1 x inside
    · exact valueIh binding member (Prod.mk.inj (same.2 binding member)).2 x inside

/-- A substitution leaves a term alone exactly if it leaves each of its variables alone. -/
theorem subst_eq_self_iff {t : Term} {values : Substitution} :
    t.subst values = t ↔ ∀ x ∈ t.occurrences, (var x).subst values = var x := by
  have both : t.subst values = t.subst [] ↔
      ∀ x ∈ t.occurrences, (var x).subst values = (var x).subst [] := subst_eq_subst_iff
  simpa only [subst_nil] using both

/-- One substitution after another: the values of the first with the second applied to them, and
behind them those of the second. -/
def andThen (first second : Substitution) : Substitution :=
  (first.map fun entry => (entry.1, entry.2.subst second)) ++ second

/-- A substitution does at once what two do one after the other: a name of the first has its value
with the second applied, another name its value in the second. -/
def Composes (first second both : Substitution) : Prop :=
  ∀ x, NameMap.value? both x =
    match NameMap.value? first x with
    | some value => some (value.subst second)
    | none => NameMap.value? second x

/-- The values of the first with the second applied, and those of the second behind them, do at once
what the two do. -/
theorem composes_andThen (first second : Substitution) :
    Composes first second (andThen first second) := by
  intro x
  rw [andThen, NameMap.value?_append, NameMap.value?_map (subst second)]
  cases NameMap.value? first x <;> rfl

/-- Applying one substitution after another is applying any one that does at once what they do. -/
theorem Composes.subst_subst {first second both : Substitution}
    (composed : Composes first second both) (t : Term) :
    (t.subst first).subst second = t.subst both := by
  apply subst_subst_eq
  intro x _
  rw [subst_var _ x, subst_var _ x, composed x]
  cases bound : NameMap.value? first x with
  | none => rw [Option.getD_none, subst_var]
  | some t => rw [Option.getD_some, Option.getD_some]

/-- Applying one substitution after another is applying a single one. -/
theorem subst_subst (t : Term) (first second : Substitution) :
    (t.subst first).subst second = t.subst (andThen first second) :=
  (composes_andThen first second).subst_subst t

/-- The variables after a substitution are those of the terms that the variables became. -/
theorem mem_occurrences_subst {t : Term} {values : Substitution} {x : String} :
    x ∈ (t.subst values).occurrences ↔
      ∃ y ∈ t.occurrences, x ∈ ((var y).subst values).occurrences := by
  induction t with
  | var name => simp
  | app head name args ih =>
    simp only [subst_app, mem_occurrences_app, List.mem_map, exists_exists_and_eq_and]
    constructor
    · rintro ⟨t, member, inside⟩
      obtain ⟨y, occurs, found⟩ := (ih t member).mp inside
      exact ⟨y, ⟨t, member, occurs⟩, found⟩
    · rintro ⟨y, ⟨t, member, occurs⟩, found⟩
      exact ⟨t, member, (ih t member).mpr ⟨y, occurs, found⟩⟩
  | letIn body bindings bodyIh valueIh =>
    simp only [subst_letIn, mem_occurrences_letIn, List.mem_map, exists_exists_and_eq_and]
    constructor
    · rintro (inside | ⟨binding, member, inside⟩)
      · obtain ⟨y, occurs, found⟩ := bodyIh.mp inside
        exact ⟨y, .inl occurs, found⟩
      · obtain ⟨y, occurs, found⟩ := (valueIh binding member).mp inside
        exact ⟨y, .inr ⟨binding, member, occurs⟩, found⟩
    · rintro ⟨y, occurs | ⟨binding, member, occurs⟩, found⟩
      · exact .inl (bodyIh.mpr ⟨y, occurs, found⟩)
      · exact .inr ⟨binding, member, (valueIh binding member).mpr ⟨y, occurs, found⟩⟩

/-- A plain term stays plain if its variables become plain terms. -/
theorem plain_subst {t : Term} {values : Substitution} (written : t.plain = true)
    (plainValues : ∀ x ∈ t.occurrences, ((var x).subst values).plain = true) :
    (t.subst values).plain = true := by
  induction t with
  | var name => exact plainValues name (mem_occurrences_var.mpr rfl)
  | app head name args ih =>
    obtain ⟨noPattern, plainArgs⟩ := plain_app.mp written
    rw [subst_app, plain_app]
    refine ⟨noPattern, fun u member => ?_⟩
    obtain ⟨t, inside, rfl⟩ := List.mem_map.mp member
    exact ih t inside (plainArgs t inside) fun x occurs =>
      plainValues x (mem_occurrences_app.mpr ⟨t, inside, occurs⟩)
  | letIn body bindings => simp at written

/-- If a term is plain after a substitution, its variables became plain terms. -/
theorem plain_of_plain_subst {t : Term} {values : Substitution}
    (written : (t.subst values).plain = true) {x : String} (occurs : x ∈ t.occurrences) :
    ((var x).subst values).plain = true := by
  induction t with
  | var name => exact mem_occurrences_var.mp occurs ▸ written
  | app head name args ih =>
    obtain ⟨t, member, inside⟩ := mem_occurrences_app.mp occurs
    rw [subst_app, plain_app] at written
    exact ih t member (written.2 _ (List.mem_map_of_mem member)) inside
  | letIn body bindings => simp [subst_letIn] at written

/-- The variables of a term are the names of its traversal, each where it comes first, and they are
what a substitution looks at: two substitutions make the same of the term exactly if they give the
same to each variable, where a name without a value keeps itself. A term is ground exactly if it has
no variables. -/
theorem vars_exact (t : Term) :
    t.vars = t.occurrences.eraseDups ∧
    (∀ first second : Substitution, t.subst first = t.subst second ↔
      ∀ x ∈ t.vars, (NameMap.value? first x).getD (var x) =
        (NameMap.value? second x).getD (var x)) ∧
    (t.ground = true ↔ t.vars = []) := by
  refine ⟨t.vars_eq_eraseDups, fun first second => ?_, ?_⟩
  · rw [subst_eq_subst_iff]
    apply forall_congr'
    intro x
    rw [mem_vars, subst_var, subst_var]
  · rw [ground_iff, List.eq_nil_iff_forall_not_mem]
    apply forall_congr'
    intro x
    rw [mem_vars]

/-- A name that is bound and not used is no variable, and a name that is used twice is one variable:
the body comes before the bound values. -/
example : (letIn (app .ctor "P" [var "y", var "x"]) [("z", var "w"), ("u", var "y")]).vars =
    ["y", "x", "w"] := by
  cbv

end Term

end Supercompilation
