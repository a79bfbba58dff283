import Mathlib.Data.List.Nodup
import Mathlib.Data.List.Permutation
import Supercompilation.Proofs.Driving

/-!
# Driving a specialised term

A driving step of a term is a driving step of all its instances. Where the step makes no case
distinction, driving an instance yields the instance of the result. Where it splits a variable,
every instance that gives the variable a constructor selects the branch for this constructor, and
driving it yields the instance of that branch, with the fields of the constructor for the fresh
names.

An instance that selects no branch is not covered by the rules of its function. Whether it is
refused then depends on the keys of rules alone: two pairs of a function and a constructor may share
a key, and then the rule of the one replaces calls of the other.
-/

namespace Supercompilation

namespace Program

variable {rules : List Rule}

/-- A substitution passes through closed rules. -/
theorem passesRules_subst (closed : ∀ rule ∈ rules, rule.Closed) (values : Substitution) :
    PassesRules rules (Term.subst values) := by
  refine ⟨Term.subst_app values, fun rule member args same => ?_⟩
  apply Term.subst_subst_eq
  intro x occurs
  obtain ⟨arg, found, mapped⟩ :=
    exists_value?_of_closed (closed rule member) same (Term.subst values) occurs
  rw [Term.subst_var_of_value? found, Term.subst_var_of_value? mapped]

/-- Driving an instance of a term without a case distinction yields the instance of its result. -/
theorem driveTerm_subst_single (closed : ∀ rule ∈ rules, rule.Closed) {t : Term}
    (written : t.plain = true) (call : t.isCall = true) (noSplit : t.splitCall? = none)
    {supply later : NameSupply} {u : Term}
    (driven : (ofRules rules).driveTerm t supply = (.ok [⟨u, none⟩], later))
    (values : Substitution) (other : NameSupply) :
    (ofRules rules).driveTerm (t.subst values) other = (.ok [⟨u.subst values, none⟩], other) := by
  have passes := passesRules_subst closed values
  revert noSplit u
  refine Term.callInduction ?_ ?_ ?_ ?_ ?_ t written call
  · intro name args _ _ u driven
    rw [driveTerm_fCall, Prod.mk.injEq, map_single_eq_ok] at driven
    obtain ⟨⟨v, unfolded, same⟩, -⟩ := driven
    obtain rfl : u = v := by simpa using same
    rw [Term.subst_app, driveTerm_fCall, unfold_map passes, unfolded, mapOutcome_ok]
    rfl
  · intro name _ u driven
    simp [driveTerm] at driven
  · intro name constructor fields rest _ _ u driven
    cases found : (ofRules rules).gs.value? name with
    | none => simp [driveTerm_unlisted found] at driven
    | some listed =>
      rw [driveTerm_ctor found, Prod.mk.injEq, map_single_eq_ok] at driven
      obtain ⟨⟨v, replaced, same⟩, -⟩ := driven
      obtain rfl : u = v := by simpa using same
      rw [Term.subst_app, List.map_cons, Term.subst_app, driveTerm_ctor found,
        applyG_map passes, replaced, mapOutcome_ok]
      rfl
  · intro name x rest _ noSplit
    simp [Term.splitCall?] at noSplit
  · intro name inner rest written call ih noSplit u driven
    rw [Term.splitCall?_nested call] at noSplit
    have plainInner := (Term.plain_app.mp written).2 inner List.mem_cons_self
    obtain ⟨listed, results, found, inside, same⟩ := driveTerm_nested_ok call driven
    obtain ⟨-, v, rfl⟩ := driveTerm_single plainInner call noSplit inside
    obtain rfl : u = .gCall name (v :: rest) := by simpa [Branch.inside] using same
    rw [Term.subst_app, List.map_cons, driveTerm_nested found (Term.isCall_subst call values),
      ih noSplit inside]
    simp [Except.map, Branch.inside]

/-- Names that are given values leave the other variables alone. -/
theorem subst_var_of_not_mem {names : List String} {y : String} (unnamed : y ∉ names)
    (fields : List Term) (values : Substitution) :
    (Term.var y).subst (names.zip fields ++ values) = (Term.var y).subst values := by
  have unbound : NameMap.value? (names.zip fields) y = none := by
    rw [NameMap.value?_eq_none_iff]
    intro named
    obtain ⟨pair, member, rfl⟩ := List.mem_map.mp named
    exact unnamed (List.of_mem_zip member).1
  rw [Term.subst_var, NameMap.value?_append, unbound, Option.none_or, ← Term.subst_var]

/-- Specialising a term to a pattern with fresh fields and then giving these fields values is giving
the contracted variable the constructor with these values. -/
theorem subst_contraction {t : Term} {x constructor : String} {names : List String}
    {fields : List Term} {values : Substitution}
    (fresh : ∀ y ∈ names, y ∉ t.occurrences)
    (supplied : names.map (fun y => (Term.var y).subst (names.zip fields ++ values)) = fields)
    (here : (Term.var x).subst values = .ctor constructor fields) :
    (t.subst [(x, .ctor constructor (names.map .var))]).subst (names.zip fields ++ values) =
      t.subst values := by
  apply Term.subst_subst_eq
  intro y occurs
  by_cases contracted : y = x
  · subst contracted
    rw [Term.subst_var_of_value? (t := .ctor constructor (names.map .var))
      (by simp [NameMap.value?]), here, Term.subst_app, List.map_map]
    exact congrArg (Term.ctor constructor) supplied
  · rw [Term.subst_var_of_none (by simp [NameMap.value?, contracted])]
    exact subst_var_of_not_mem (fun named => fresh y named occurs) fields values

/-- Distinct names that are given values become these values. -/
theorem subst_vars_zip {names : List String} (distinct : names.Nodup) {fields : List Term}
    (same : names.length = fields.length) (values : Substitution) :
    names.map (fun y => (Term.var y).subst (names.zip fields ++ values)) = fields := by
  have supplied := NameMap.map_value?_zip distinct fields same values
  calc
    names.map (fun y => (Term.var y).subst (names.zip fields ++ values)) =
        names.map (fun y => (NameMap.value? (names.zip fields ++ values) y).getD (.var y)) :=
      List.map_congr_left fun y _ => Term.subst_var _ y
    _ = fields := by
      apply List.ext_getElem
      · rw [List.length_map, same]
      · intro i inNames inFields
        have here := congrArg (fun found => found[i]?) supplied
        simp only [List.getElem?_map] at here
        rw [List.length_map] at inNames
        rw [List.getElem?_eq_getElem inNames, List.getElem?_eq_getElem inFields, Option.map_some,
          Option.map_some, Option.some.injEq] at here
        rw [List.getElem_map, here, Option.getD_some]

/-- If the fields of a branch are given values, the branch becomes what its rule makes of the
constructor with these values and of the other arguments of the instance. -/
theorem applyG_subst_branch (closed : ∀ rule ∈ rules, rule.Closed) {name x constructor : String}
    {names : List String} {rest : List Term} {u : Term}
    (replaced : (ofRules rules).applyG name constructor (names.map .var)
      (rest.map (Term.subst [(x, .ctor constructor (names.map .var))])) = .ok u)
    (distinct : names.Nodup) (fresh : ∀ y ∈ names, ∀ r ∈ rest, y ∉ r.occurrences)
    {fields : List Term} (same : names.length = fields.length) {values : Substitution}
    (here : (Term.var x).subst values = .ctor constructor fields) :
    (ofRules rules).applyG name constructor fields (rest.map (Term.subst values)) =
      .ok (u.subst (names.zip fields ++ values)) := by
  have supplied := subst_vars_zip distinct same values
  have fieldsEq : (names.map Term.var).map (Term.subst (names.zip fields ++ values)) =
      fields := by
    rw [List.map_map]
    exact supplied
  have restEq : (rest.map (Term.subst [(x, .ctor constructor (names.map .var))])).map
      (Term.subst (names.zip fields ++ values)) = rest.map (Term.subst values) := by
    rw [List.map_map]
    apply List.map_congr_left
    intro r inRest
    exact subst_contraction (fun y named => fresh y named r inRest) supplied here
  have specialised := applyG_map (passesRules_subst closed (names.zip fields ++ values)) name
    constructor (names.map .var)
    (rest.map (Term.subst [(x, .ctor constructor (names.map .var))]))
  rwa [replaced, mapOutcome_ok, fieldsEq, restEq] at specialised

/-- Driving an instance of a term that gives the split variable a constructor yields the instance of
the branch for this constructor. -/
theorem driveTerm_subst_split (closed : ∀ rule ∈ rules, rule.Closed) {t : Term}
    (written : t.plain = true) (call : t.isCall = true) {supply later : NameSupply}
    (branches : List Branch)
    (driven : (ofRules rules).driveTerm t supply = (.ok branches, later))
    (branch : Branch) (member : branch ∈ branches) {x constructor : String} {names : List String}
    (contracted : branch.contraction = some ⟨x, .pattern constructor (names.map .var)⟩)
    (distinct : names.Nodup) (fresh : ∀ y ∈ names, y ∉ t.occurrences)
    {fields : List Term} (same : names.length = fields.length) {values : Substitution}
    (here : (Term.var x).subst values = .ctor constructor fields) (other : NameSupply) :
    (ofRules rules).driveTerm (t.subst values) other =
      (.ok [⟨branch.term.subst (names.zip fields ++ values), none⟩], other) := by
  revert branches branch fresh
  refine Term.callInduction ?_ ?_ ?_ ?_ ?_ t written call
  · intro name args _ branches driven branch member contracted
    rw [driveTerm_fCall, Prod.mk.injEq, map_single_eq_ok] at driven
    obtain ⟨⟨v, -, rfl⟩, -⟩ := driven
    obtain rfl := List.mem_singleton.mp member
    contradiction
  · intro name branches driven
    simp [driveTerm] at driven
  · intro name constructor' fields' rest _ branches driven branch member contracted
    cases found : (ofRules rules).gs.value? name with
    | none => simp [driveTerm_unlisted found] at driven
    | some listed =>
      rw [driveTerm_ctor found, Prod.mk.injEq, map_single_eq_ok] at driven
      obtain ⟨⟨v, -, rfl⟩, -⟩ := driven
      obtain rfl := List.mem_singleton.mp member
      contradiction
  · intro name y rest _ branches driven branch member contracted fresh
    cases found : (ofRules rules).gs.value? name with
    | none => simp [driveTerm_unlisted found] at driven
    | some listed =>
      rw [driveTerm_var found] at driven
      obtain ⟨rule, -, fields', -, contracted', replaced⟩ :=
        exists_left_of_forall₂ (split_ok driven).1 member
      rw [contracted, Option.some.injEq, Contraction.mk.injEq, Term.app.injEq] at contracted'
      obtain ⟨rfl, -, rfl, sameVars⟩ := contracted'
      rw [← sameVars] at replaced
      have freshRest : ∀ z ∈ names, ∀ r ∈ rest, z ∉ r.occurrences := fun z named r inRest occurs =>
        fresh z named (Term.mem_occurrences_app.mpr ⟨r, List.mem_cons_of_mem _ inRest, occurs⟩)
      rw [Term.subst_app, List.map_cons, here, driveTerm_ctor found,
        applyG_subst_branch closed replaced distinct freshRest same here]
      rfl
  · intro name inner rest written call ih branches driven branch member contracted fresh
    obtain ⟨listed, results, found, inside, rfl⟩ := driveTerm_nested_ok call driven
    obtain ⟨result, isResult, rfl⟩ := List.mem_map.mp member
    have freshInner : ∀ y ∈ names, y ∉ inner.occurrences := fun y named occurs =>
      fresh y named (Term.mem_occurrences_app.mpr ⟨inner, List.mem_cons_self, occurs⟩)
    have others : rest.map (Term.subst (names.zip fields ++ values)) =
        rest.map (Term.subst values) := by
      apply List.map_congr_left
      intro r inRest
      apply Term.subst_congr
      intro z occurs
      refine subst_var_of_not_mem (fun named => fresh z named ?_) fields values
      exact Term.mem_occurrences_app.mpr ⟨r, List.mem_cons_of_mem _ inRest, occurs⟩
    rw [Term.subst_app, List.map_cons, driveTerm_nested found (Term.isCall_subst call values),
      ih _ inside _ isResult contracted freshInner]
    simp [Except.map, Branch.inside, others]

/-- An instance that gives the split variable a constructor is refused for want of a rule exactly if
no rule is in force for the split function and the constructor. -/
theorem driveTerm_subst_nonExhaustive_iff {t : Term} (written : t.plain = true)
    (call : t.isCall = true) {function x : String} (splits : t.splitCall? = some (function, x))
    {supply later : NameSupply} {branches : List Branch}
    (driven : (ofRules rules).driveTerm t supply = (.ok branches, later))
    {constructor : String} {fields : List Term} {values : Substitution}
    (here : (Term.var x).subst values = .ctor constructor fields) (other : NameSupply) :
    (∃ e, ((ofRules rules).driveTerm (t.subst values) other).1 = .error e ∧
      e.kind = .nonExhaustive) ↔ (ofRules rules).gRule? function constructor = none := by
  revert splits branches
  refine Term.callInduction ?_ ?_ ?_ ?_ ?_ t written call
  · intro name args _ splits
    simp [Term.splitCall?] at splits
  · intro name splits
    simp [Term.splitCall?] at splits
  · intro name constructor' fields' rest _ splits
    simp [Term.splitCall?] at splits
  · intro name y rest _ splits branches driven
    simp only [Term.splitCall?, Option.some.injEq, Prod.mk.injEq] at splits
    obtain ⟨rfl, rfl⟩ := splits
    cases found : (ofRules rules).gs.value? name with
    | none => simp [driveTerm_unlisted found] at driven
    | some listed =>
      rw [Term.subst_app, List.map_cons, here, driveTerm_ctor found, ← applyG_nonExhaustive_iff]
      cases (ofRules rules).applyG name constructor fields (rest.map (Term.subst values)) with
      | error e => simp [Except.map]
      | ok u => simp [Except.map]
  · intro name inner rest _ call ih splits branches driven
    rw [Term.splitCall?_nested call] at splits
    obtain ⟨listed, results, found, inside, rfl⟩ := driveTerm_nested_ok call driven
    rw [Term.subst_app, List.map_cons, driveTerm_nested found (Term.isCall_subst call values),
      ← ih splits inside]
    cases ((ofRules rules).driveTerm (inner.subst values) other).1 with
    | error e => rfl
    | ok u => simp [Except.map]

end Program

namespace Supercompiler

/-- A driving step that succeeds, with the names of the program and the term reserved. -/
theorem driveTerm_of_drive {sc : Supercompiler} {t : Term} {branches : List Branch}
    (driven : (sc.drive t).1 = .ok branches) :
    ∃ later, sc.program.driveTerm t ((sc.supply.reserve sc.program.vars).reserve t.vars) =
      (.ok branches, later) :=
  ⟨_, Prod.ext driven rfl⟩

/-- Driving commutes with substitution. A step without a contraction has one result, and driving an
instance yields its instance. A step that splits a variable tells what driving an instance yields if
the instance gives the variable a constructor: the instance of the branch for the constructor, with
the fields for the fresh names. If there is no such branch, the instance is refused for want of a
rule, unless a rule of another function or constructor has the key of the split function and the
constructor. -/
theorem drive_subst {rules : List Rule} (closed : ∀ rule ∈ rules, rule.Closed)
    (supply other : NameSupply) {t : Term} (written : t.plain = true) (call : t.isCall = true)
    {branches : List Branch} (driven : (drive ⟨.ofRules rules, supply⟩ t).1 = .ok branches)
    (values : Substitution) :
    ((∀ branch ∈ branches, branch.contraction = none) →
      ∃ u, branches = [⟨u, none⟩] ∧
        (drive ⟨.ofRules rules, other⟩ (t.subst values)).1 = .ok [⟨u.subst values, none⟩]) ∧
    ((∃ branch ∈ branches, branch.contraction ≠ none) →
      ∃ function x, t.splitCall? = some (function, x) ∧
        (∀ branch ∈ branches, ∃ (constructor : String) (names : List String),
          branch.contraction = some ⟨x, .pattern constructor (names.map .var)⟩ ∧
          ∀ fields : List Term, fields.length = names.length →
            (Term.var x).subst values = .ctor constructor fields →
            (drive ⟨.ofRules rules, other⟩ (t.subst values)).1 =
              .ok [⟨branch.term.subst (names.zip fields ++ values), none⟩]) ∧
        ∀ constructor fields, (Term.var x).subst values = .ctor constructor fields →
          (∀ branch ∈ branches, ∀ contraction, branch.contraction = some contraction →
            contraction.pattern.name? ≠ some constructor) →
          ((∃ e, (drive ⟨.ofRules rules, other⟩ (t.subst values)).1 = .error e ∧
            e.kind = .nonExhaustive) ↔
            ¬ ∃ rule, .g rule ∈ rules ∧ rule.key = ruleKey function constructor ∧
              (rule.name ≠ function ∨ rule.pattern.name ≠ constructor))) := by
  obtain ⟨later, driven⟩ := driveTerm_of_drive driven
  cases splits : t.splitCall? with
  | none =>
    obtain ⟨-, u, rfl⟩ := Program.driveTerm_single written call splits driven
    refine ⟨fun _ => ⟨u, rfl, ?_⟩, fun contracted => ?_⟩
    · exact congrArg Prod.fst
        (Program.driveTerm_subst_single closed written call splits driven values _)
    · simp at contracted
  | some place =>
    obtain ⟨function, x⟩ := place
    obtain ⟨issued, listed, own, each⟩ := Program.driveTerm_split written call splits driven
    have avoids : ∀ branch ∈ branches, ∀ y ∈ branch.freshVars, y ∉ t.occurrences :=
      fun branch member y named occurs => issued.unknown y
        (List.mem_flatMap.mpr ⟨branch, member, named⟩)
        (NameSupply.knows_reserve.mpr (.inr (Term.mem_vars.mpr occurs)))
    refine ⟨fun uncontracted => ?_, fun _ => ⟨function, x, rfl, ?_, ?_⟩⟩
    · -- A function that is listed has a rule, so there is a branch, and it has a contraction.
      obtain ⟨rule, isRule⟩ := List.exists_mem_of_ne_nil _ (Program.ne_nil_of_value?_gs own)
      obtain ⟨branch, member, names, contracted⟩ := Program.exists_right_of_forall₂ each isRule
      rw [uncontracted branch member] at contracted
      contradiction
    · intro branch member
      obtain ⟨rule, -, names, contracted⟩ := Program.exists_left_of_forall₂ each member
      have named : branch.freshVars = names := by
        rw [Branch.freshVars_of_contraction contracted, Program.occurrences_vars]
      refine ⟨rule.pattern.name, names, contracted, fun fields same here => ?_⟩
      refine congrArg Prod.fst (Program.driveTerm_subst_split closed written call branches driven
        branch member contracted ?_ ?_ same.symm here _)
      · rw [← named]
        exact (List.nodup_flatMap.mp issued.distinct).1 branch member
      · rw [← named]
        exact avoids branch member
    · intro constructor fields here noBranch
      have refused := Program.driveTerm_subst_nonExhaustive_iff written call splits driven here
        ((other.reserve (Program.ofRules rules).vars).reserve (t.subst values).vars)
      refine refused.trans (Program.gRule?_eq_none_iff.trans ⟨?_, ?_⟩)
      · rintro different ⟨rule, isRule, sameKey, -⟩
        exact different rule isRule sameKey
      · intro unshared rule isRule sameKey
        apply unshared
        refine ⟨rule, isRule, sameKey, ?_⟩
        by_contra both
        rw [not_or, not_not, not_not] at both
        have isListed := (Program.mem_of_value?_gs own rule).mpr ⟨isRule, both.1⟩
        obtain ⟨branch, member, names, contracted⟩ :=
          Program.exists_right_of_forall₂ each isListed
        exact noBranch branch member _ contracted (congrArg some both.2)

/-- A nested call of addition is split on its inner variable; the instance that makes this variable
one is driven to the instance of the second branch. -/
theorem drive_subst_addition :
    (drive ⟨.ofRules Program.additionRules, {}⟩
      (.gCall "gAdd" [.gCall "gAdd" [.var "a", .var "b"], .var "a"])).1 =
        .ok [⟨.gCall "gAdd" [.var "b", .var "a"], some ⟨"a", .pattern "Z" []⟩⟩,
          ⟨.gCall "gAdd" [.ctor "S" [.gCall "gAdd" [.var "v_1", .var "b"]], .var "a"],
            some ⟨"a", .pattern "S" [.var "v_1"]⟩⟩] ∧
    (drive ⟨.ofRules Program.additionRules, {}⟩
      ((Term.gCall "gAdd" [.gCall "gAdd" [.var "a", .var "b"], .var "a"]).subst
        [("a", .ctor "S" [.ctor "Z" []])])).1 =
      .ok [⟨(Term.gCall "gAdd" [.ctor "S" [.gCall "gAdd" [.var "v_1", .var "b"]], .var "a"]).subst
        [("v_1", .ctor "Z" []), ("a", .ctor "S" [.ctor "Z" []])], none⟩] := by
  have driven : (drive ⟨.ofRules Program.additionRules, {}⟩
      (.gCall "gAdd" [.gCall "gAdd" [.var "a", .var "b"], .var "a"])).1 =
        .ok [⟨.gCall "gAdd" [.var "b", .var "a"], some ⟨"a", .pattern "Z" []⟩⟩,
          ⟨.gCall "gAdd" [.ctor "S" [.gCall "gAdd" [.var "v_1", .var "b"]], .var "a"],
            some ⟨"a", .pattern "S" [.var "v_1"]⟩⟩] := by cbv
  obtain ⟨function, x, -, each, -⟩ :=
    (drive_subst (by decide) {} {} rfl rfl driven [("a", .ctor "S" [.ctor "Z" []])]).2
      ⟨_, List.mem_cons_self, by simp⟩
  obtain ⟨constructor, names, contracted, yields⟩ :=
    each _ (List.mem_cons_of_mem _ List.mem_cons_self)
  obtain ⟨rfl, rfl, fields⟩ : "a" = x ∧ "S" = constructor ∧ [Term.var "v_1"] = names.map .var := by
    simpa using contracted
  obtain rfl : names = ["v_1"] := by
    have named := congrArg (Term.occurrences ∘ Term.ctor "S") fields
    simp only [Function.comp_apply] at named
    rw [Program.occurrences_vars] at named
    exact named.symm
  exact ⟨driven, yields [.ctor "Z" []] rfl rfl⟩

/-- The rules of two functions may share a key with a pair of a function and a constructor that has
no rule. The split of a call then has no branch for the constructor, and no two rules share a key,
but the instance is not refused: the rule of the other function replaces it. -/
theorem drive_subst_foreign_rule :
    let rules : List Rule :=
      [.g ⟨"gA", ⟨"B_C", []⟩, ["y"], .var "y"⟩, .g ⟨"gA_B", ⟨"D", []⟩, ["y"], .var "y"⟩]
    (∀ rule ∈ rules, rule.Closed) ∧
    (∀ r ∈ rules.filterMap Rule.gEntry?, ∀ s ∈ rules.filterMap Rule.gEntry?,
      r.1 = s.1 → r.2.name = s.2.name ∧ r.2.pattern.name = s.2.pattern.name) ∧
    (drive ⟨.ofRules rules, {}⟩ (.gCall "gA_B" [.var "x", .var "y"])).1 =
      .ok [⟨.var "y", some ⟨"x", .pattern "D" []⟩⟩] ∧
    (drive ⟨.ofRules rules, {}⟩
      ((Term.gCall "gA_B" [.var "x", .var "y"]).subst [("x", .ctor "C" [])])).1 =
      .ok [⟨.var "y", none⟩] := by
  refine ⟨by decide, by decide, rfl, rfl⟩

end Supercompiler

end Supercompilation
