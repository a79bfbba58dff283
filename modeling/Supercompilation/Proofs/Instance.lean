import Mathlib.Data.List.Permutation
import Mathlib.Data.Set.Function
import Supercompilation.Proofs.Matching

/-!
# Instances and variants

A match is exact: it is found exactly if the term is an instance of the pattern, it binds the
variables of the pattern and no others, and no other substitution of these variables makes the
pattern the term. Without `let` terms in the pattern the variables are bound in the order of their
first occurrence; a `let` term has its values matched before its body.

Being an instance is reflexive and transitive. Two terms that are instances of each other are equal
up to a renaming: the two matches undo each other, so each variable becomes a variable, and no two
become the same.
-/

namespace Supercompilation

namespace Term

mutual

/-- A term without `let` terms. -/
def letFree : Term → Bool
  | var _ => true
  | app _ _ args => letFreeArgs args
  | letIn _ _ => false

/-- Terms without `let` terms. -/
def letFreeArgs : List Term → Bool
  | [] => true
  | t :: ts => t.letFree && letFreeArgs ts

end

/-- Arguments are without `let` terms if each of them is. -/
theorem letFreeArgs_iff {args : List Term} :
    letFreeArgs args = true ↔ ∀ t ∈ args, t.letFree = true := by
  induction args with
  | nil => simp [letFreeArgs]
  | cons t ts ih => simp [letFreeArgs, ih]

/-- Binding a variable puts its name behind the names that are bound, unless it is one of them. -/
theorem names_of_extend {values found : Substitution} {seen : NameSet} {x : String} {t : Term}
    (listed : NameMap.names values = seen.toList) (extended : values.extend x t = some found) :
    NameMap.names found = (seen.insert x).toList := by
  rw [Substitution.extend] at extended
  rw [NameSet.toList_insert, ← listed]
  cases bound : NameMap.value? values x with
  | none =>
    rw [bound] at extended
    obtain rfl := Option.some.inj extended
    rw [if_neg (NameMap.value?_eq_none_iff.mp bound), NameMap.names, List.map_append]
    rfl
  | some u =>
    rw [bound] at extended
    have named : x ∈ NameMap.names values := List.mem_map_of_mem (NameMap.mem_of_value? bound)
    rw [if_pos named]
    dsimp only at extended
    split at extended
    · rw [Option.some.inj extended]
    · contradiction

/-- Matching arguments puts their names in from left to right, if matching each of them does. -/
theorem names_of_matchArgs {args args' : List Term}
    (each : ∀ t ∈ args, ∀ {u values found} {seen : NameSet}, NameMap.names values = seen.toList →
      t.matchInto u values = some found →
      NameMap.names found = (seen.insertAll t.occurrences).toList)
    {values found : Substitution} {seen : NameSet} (listed : NameMap.names values = seen.toList)
    (matched : matchArgs args args' values = some found) :
    NameMap.names found = (seen.insertAll (occurrencesArgs args)).toList := by
  induction args generalizing args' values seen with
  | nil =>
    cases args' with
    | nil =>
      rw [matchArgs] at matched
      rw [← Option.some.inj matched]
      exact listed
    | cons u us => simp [matchArgs] at matched
  | cons t ts ih =>
    cases args' with
    | nil => simp [matchArgs] at matched
    | cons u us =>
      rw [List.forall_mem_cons] at each
      rw [matchArgs] at matched
      split at matched
      · rename_i middle first
        rw [occurrencesArgs, NameSet.insertAll_append]
        exact ih each.2 (each.1 listed first) matched
      · contradiction

/-- Matching a pattern without `let` terms puts its variables in from left to right. -/
theorem names_of_matchInto {pattern : Term} (noLet : pattern.letFree = true) {t : Term}
    {values found : Substitution} {seen : NameSet} (listed : NameMap.names values = seen.toList)
    (matched : pattern.matchInto t values = some found) :
    NameMap.names found = (seen.insertAll pattern.occurrences).toList := by
  induction pattern generalizing t values found seen with
  | var name =>
    rw [matchInto] at matched
    exact names_of_extend listed matched
  | app head name args ih =>
    rw [letFree, letFreeArgs_iff] at noLet
    cases t with
    | app head' name' args' =>
      rw [matchInto] at matched
      split at matched
      · rw [occurrences]
        exact names_of_matchArgs (fun t member => ih t member (noLet t member)) listed matched
      · contradiction
    | _ => simp [matchInto] at matched
  | letIn body bindings => simp [letFree] at noLet

/-- The variables of a pattern without `let` terms are bound in the order of their first
occurrence. -/
theorem names_of_matchAgainst {pattern t : Term} (noLet : pattern.letFree = true)
    {found : Substitution} (matched : pattern.matchAgainst t = some found) :
    NameMap.names found = pattern.vars := by
  rw [matchAgainst_eq_matchInto] at matched
  have none : NameMap.names ([] : Substitution) = NameSet.empty.toList := rfl
  rw [names_of_matchInto noLet none matched, vars_eq]

/-- The substitution that a match yields binds exactly the variables of the pattern. -/
theorem perm_names_of_matchAgainst {pattern t : Term} {found : Substitution}
    (matched : pattern.matchAgainst t = some found) :
    (NameMap.names found).Perm pattern.vars :=
  (List.perm_ext_iff_of_nodup (nodup_names_of_matchAgainst matched) pattern.nodup_vars).mpr
    fun _ => (mem_names_of_matchAgainst matched).trans mem_vars.symm

/-- A substitution of the variables of a pattern that makes the pattern the term is the one that a
match yields. -/
theorem value?_of_matchAgainst {pattern t : Term} {found values : Substitution}
    (matched : pattern.matchAgainst t = some found)
    (domain : ∀ x, x ∈ NameMap.names values ↔ x ∈ pattern.vars)
    (makes : pattern.subst values = t) (x : String) :
    NameMap.value? values x = NameMap.value? found x := by
  have names : x ∈ NameMap.names values ↔ x ∈ NameMap.names found := by
    rw [domain, mem_vars, mem_names_of_matchAgainst matched]
  have same := subst_eq_subst_iff.mp (makes.trans (subst_of_matchAgainst matched).symm) x
  cases bound : NameMap.value? values x with
  | none =>
    rw [NameMap.value?_eq_none_iff, names, ← NameMap.value?_eq_none_iff] at bound
    exact bound.symm
  | some u =>
    cases bound' : NameMap.value? found x with
    | none =>
      rw [NameMap.value?_eq_none_iff, ← names, ← NameMap.value?_eq_none_iff, bound] at bound'
      contradiction
    | some v =>
      have occurs : x ∈ pattern.occurrences := (mem_names_of_matchAgainst matched).mp
        (List.mem_map_of_mem (NameMap.mem_of_value? bound'))
      rw [← subst_var_of_value? bound, ← subst_var_of_value? bound', same occurs]

/-- Matching is exact. A match is found exactly if some substitution makes the pattern the term. The
substitution found makes the pattern the term, binds exactly the variables of the pattern, in the
order of their first occurrence if the pattern holds no `let` term, and is the only substitution of
these variables that makes the pattern the term. -/
theorem matchAgainst_exact (pattern t : Term) :
    ((∃ found, pattern.matchAgainst t = some found) ↔
      ∃ values : Substitution, pattern.subst values = t) ∧
    ∀ found, pattern.matchAgainst t = some found →
      (pattern.subst found).equals t = true ∧
      (NameMap.names found).Perm pattern.vars ∧
      (pattern.letFree = true → NameMap.names found = pattern.vars) ∧
      ∀ values : Substitution, (∀ x, x ∈ NameMap.names values ↔ x ∈ pattern.vars) →
        (pattern.subst values).equals t = true →
          ∀ x, NameMap.value? values x = NameMap.value? found x := by
  refine ⟨?_, fun found matched => ⟨?_, ?_, ?_, ?_⟩⟩
  · rw [← hasInstance_iff, hasInstance, Option.isSome_iff_exists]
  · exact equals_iff.mpr (subst_of_matchAgainst matched)
  · exact perm_names_of_matchAgainst matched
  · exact fun noLet => names_of_matchAgainst noLet matched
  · exact fun values domain makes =>
      value?_of_matchAgainst matched domain (equals_iff.mp makes)

/-- A `let` term of two terms: it adds them and binds the successor of the second. -/
def sumLet (t u : Term) : Term :=
  letIn (gCall "gAdd" [t, u]) [("z", ctor "S" [u])]

/-- A `let` term is matched with its values first, so that the variable of its value is bound before
that of its body, and no other values of the two variables make the pattern the term. -/
theorem matchAgainst_exact_let :
    (sumLet (var "x") (var "y")).matchAgainst (sumLet (ctor "Z" []) (var "x")) =
      some [("y", var "x"), ("x", ctor "Z" [])] ∧
    ∀ values : Substitution,
      (∀ x, x ∈ NameMap.names values ↔ x ∈ (sumLet (var "x") (var "y")).vars) →
      ((sumLet (var "x") (var "y")).subst values).equals (sumLet (ctor "Z" []) (var "x")) = true →
      ∀ x, NameMap.value? values x =
        NameMap.value? [("y", var "x"), ("x", ctor "Z" [])] x := by
  have matched : (sumLet (var "x") (var "y")).matchAgainst (sumLet (ctor "Z" []) (var "x")) =
      some [("y", var "x"), ("x", ctor "Z" [])] := by cbv
  exact ⟨matched, ((matchAgainst_exact _ _).2 _ matched).2.2.2⟩

/-- An instance of an instance is an instance. -/
theorem hasInstance_trans {t u v : Term} (early : t.hasInstance u = true)
    (late : u.hasInstance v = true) : t.hasInstance v = true := by
  obtain ⟨first, rfl⟩ := hasInstance_iff.mp early
  obtain ⟨second, rfl⟩ := hasInstance_iff.mp late
  exact hasInstance_iff.mpr ⟨andThen first second, (subst_subst t first second).symm⟩

/-- An instance is not smaller than what it is an instance of. -/
theorem size_le_of_hasInstance {t u : Term} (isInstance : t.hasInstance u = true) :
    t.size ≤ u.size := by
  rw [hasInstance, Option.isSome_iff_exists] at isInstance
  obtain ⟨found, matched⟩ := isInstance
  rw [matchAgainst_eq_matchInto] at matched
  exact size_le_of_matchInto matched

/-- Substitution composes, and being an instance is a preorder along which terms do not shrink. A
substitution that has the values of a first one with a second applied to them, and for other names
the values of the second, does in one step what the two do in two. There is such a substitution for
any two. -/
theorem subst_composes :
    (∀ first second both : Substitution, Composes first second both →
      ∀ t : Term, (t.subst first).subst second = t.subst both) ∧
    (∀ first second : Substitution, ∃ both, Composes first second both) ∧
    (∀ (t : Term) (values : Substitution), t.size ≤ (t.subst values).size) ∧
    (∀ t : Term, t.hasInstance t = true) ∧
    ∀ t u v : Term, t.hasInstance u = true → u.hasInstance v = true → t.hasInstance v = true := by
  refine ⟨fun first second both composed => composed.subst_subst,
    fun first second => ⟨_, composes_andThen first second⟩, fun t values => ?_, fun t => ?_,
    fun t u v => hasInstance_trans⟩
  · exact size_le_of_hasInstance (hasInstance_iff.mpr ⟨values, rfl⟩)
  · exact hasInstance_iff.mpr ⟨[], subst_nil t⟩

/-- Two substitutions that both have values for one name: the second changes the value that the
first gives to it, in the body and in the bound value of a `let` term. -/
theorem subst_composes_let :
    (((sumLet (var "x") (var "y")).subst [("x", var "y")]).subst
      [("y", ctor "Z" []), ("x", var "w")] =
        (sumLet (var "x") (var "y")).subst [("x", ctor "Z" []), ("y", ctor "Z" [])]) ∧
    (sumLet (var "x") (var "y")).hasInstance (sumLet (ctor "Z" []) (ctor "Z" [])) = true := by
  refine ⟨subst_composes.1 _ _ _ (fun x => ?_) _, subst_composes.2.2.2.2 _
    (sumLet (var "y") (var "y")) _ (by cbv) (by cbv)⟩
  by_cases isX : x = "x"
  · subst isX
    rfl
  · simp [NameMap.value?, isX]

/-- The substitution that renames some names. -/
def renamingOf (ρ : String → String) (names : List String) : Substitution :=
  names.map fun x => (x, var (ρ x))

/-- A renaming of some names renames them. -/
theorem subst_var_renaming (ρ : String → String) {names : List String} {x : String}
    (named : x ∈ names) : (var x).subst (renamingOf ρ names) = var (ρ x) := by
  cases found : NameMap.value? (renamingOf ρ names) x with
  | none =>
    rw [NameMap.value?_eq_none_iff, NameMap.names, renamingOf, List.map_map] at found
    exact absurd (List.mem_map.mpr ⟨x, named, rfl⟩) found
  | some t =>
    obtain ⟨y, -, same⟩ := List.mem_map.mp (NameMap.mem_of_value? found)
    obtain ⟨rfl, rfl⟩ := Prod.mk.inj same
    exact subst_var_of_value? found

/-- A term that a substitution makes a variable is a variable. -/
theorem exists_eq_var_of_subst {t : Term} {values : Substitution} {y : String}
    (becomes : t.subst values = var y) : ∃ x, t = var x := by
  cases t with
  | var x => exact ⟨x, rfl⟩
  | app head name args => simp at becomes
  | letIn body bindings => simp at becomes

/-- If one substitution undoes another on a term, the other gives each variable of the term a
variable. -/
theorem exists_subst_var_of_undone {t : Term} {values back : Substitution}
    (undone : (t.subst values).subst back = t) {x : String} (occurs : x ∈ t.occurrences) :
    ∃ y, (var x).subst values = var y ∧ (var y).subst back = var x := by
  rw [subst_subst, subst_eq_self_iff] at undone
  have here := undone x occurs
  rw [← subst_subst] at here
  obtain ⟨y, becomes⟩ := exists_eq_var_of_subst here
  exact ⟨y, becomes, becomes ▸ here⟩

/-- If one substitution undoes another on a term, the other renames the variables of the term one to
one. -/
theorem exists_bijOn_of_undone {t : Term} {values back : Substitution}
    (undone : (t.subst values).subst back = t) :
    ∃ ρ : String → String, Set.BijOn ρ {x | x ∈ t.vars} {x | x ∈ (t.subst values).vars} ∧
      t.subst (renamingOf ρ t.vars) = t.subst values := by
  -- A renaming is a function on all names, so the names that do not occur keep themselves.
  have each : ∀ x, ∃ y, x ∈ t.occurrences →
      (var x).subst values = var y ∧ (var y).subst back = var x := by
    intro x
    by_cases occurs : x ∈ t.occurrences
    · obtain ⟨y, both⟩ := exists_subst_var_of_undone undone occurs
      exact ⟨y, fun _ => both⟩
    · exact ⟨x, fun occurs' => absurd occurs' occurs⟩
  choose ρ renames using each
  refine ⟨ρ, ⟨?_, ?_, ?_⟩, ?_⟩
  · intro x isVar
    have occurs := mem_vars.mp isVar
    refine mem_vars.mpr (mem_occurrences_subst.mpr ⟨x, occurs, ?_⟩)
    rw [(renames x occurs).1]
    exact mem_occurrences_var.mpr rfl
  · intro x isVar y isVar' same
    have back_x := (renames x (mem_vars.mp isVar)).2
    have back_y := (renames y (mem_vars.mp isVar')).2
    rw [same, back_y] at back_x
    exact (var.inj back_x).symm
  · intro y isVar
    obtain ⟨x, occurs, inside⟩ := mem_occurrences_subst.mp (mem_vars.mp isVar)
    rw [(renames x occurs).1, mem_occurrences_var] at inside
    exact ⟨x, mem_vars.mpr occurs, inside.symm⟩
  · apply subst_congr
    intro x occurs
    rw [subst_var_renaming ρ (mem_vars.mpr occurs), (renames x occurs).1]

/-- Renaming the variables of a term one to one is undone by the inverse renaming. -/
theorem subst_renaming_inverse {t : Term} {ρ inverse : String → String}
    (undoes : ∀ x ∈ t.vars, inverse (ρ x) = x) :
    (t.subst (renamingOf ρ t.vars)).subst
      (renamingOf inverse (t.subst (renamingOf ρ t.vars)).vars) = t := by
  rw [subst_subst, subst_eq_self_iff]
  intro x occurs
  have isVar := mem_vars.mpr occurs
  have renamed : ρ x ∈ (t.subst (renamingOf ρ t.vars)).vars := by
    refine mem_vars.mpr (mem_occurrences_subst.mpr ⟨x, occurs, ?_⟩)
    rw [subst_var_renaming ρ isVar]
    exact mem_occurrences_var.mpr rfl
  rw [← subst_subst, subst_var_renaming ρ isVar, subst_var_renaming inverse renamed,
    undoes x isVar]

/-- Two terms are instances of each other exactly if renaming the variables of the one, one to one,
to those of the other makes it the other. This is an equivalence of terms, and equivalent terms have
equal sizes. -/
theorem equiv_iff_renaming :
    (∀ t u : Term, t.equiv u = true ↔
      ∃ ρ : String → String, Set.BijOn ρ {x | x ∈ t.vars} {x | x ∈ u.vars} ∧
        (t.subst (renamingOf ρ t.vars)).equals u = true) ∧
    Equivalence (fun t u : Term => t.equiv u = true) ∧
    ∀ t u : Term, t.equiv u = true → t.size = u.size := by
  refine ⟨fun t u => ?_, ⟨equiv_self, ?_, ?_⟩, fun t u same => ?_⟩
  · rw [equiv_iff]
    constructor
    · rintro ⟨⟨values, rfl⟩, back, undone⟩
      obtain ⟨ρ, bijective, makes⟩ := exists_bijOn_of_undone undone
      exact ⟨ρ, bijective, equals_iff.mpr makes⟩
    · rintro ⟨ρ, bijective, makes⟩
      rw [equals_iff] at makes
      subst makes
      have undoes : ∀ x ∈ t.vars, Function.invFunOn ρ {x | x ∈ t.vars} (ρ x) = x :=
        fun x isVar => bijective.injOn.leftInvOn_invFunOn isVar
      exact ⟨⟨_, rfl⟩, _, subst_renaming_inverse undoes⟩
  · intro t u same
    rw [equiv, Bool.and_comm]
    exact same
  · intro t u v early late
    rw [equiv, Bool.and_eq_true] at early late ⊢
    exact ⟨hasInstance_trans early.1 late.1, hasInstance_trans late.2 early.2⟩
  · rw [equiv, Bool.and_eq_true] at same
    exact Nat.le_antisymm (size_le_of_hasInstance same.1) (size_le_of_hasInstance same.2)

/-- Two `let` terms that differ in the names of their variables only. A name of the one is that of
another variable in the other. -/
theorem equiv_iff_renaming_let :
    (∃ ρ : String → String,
      Set.BijOn ρ {x | x ∈ (sumLet (var "x") (var "y")).vars}
        {x | x ∈ (sumLet (var "y") (var "w")).vars} ∧
      ((sumLet (var "x") (var "y")).subst
        (renamingOf ρ (sumLet (var "x") (var "y")).vars)).equals (sumLet (var "y") (var "w")) =
          true) ∧
    (sumLet (var "x") (var "y")).size = (sumLet (var "y") (var "w")).size := by
  have same : (sumLet (var "x") (var "y")).equiv (sumLet (var "y") (var "w")) = true := by cbv
  exact ⟨(equiv_iff_renaming.1 _ _).mp same, equiv_iff_renaming.2.2 _ _ same⟩

end Term

end Supercompilation
