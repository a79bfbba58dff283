import Supercompilation.Proofs.Freshness
import Supercompilation.Proofs.Specialization

/-!
# Case distinctions

A branch of a case distinction is about the instance of the driven call in which the contracted
variable is the constructor of the branch: driving this instance yields the branch, with the
variable replaced there too.

The call that is split is specialised as a whole before its rule replaces it, so nothing is left of
the variable in what the rule makes of it. The calls around it are put back as they were. Therefore
the variable is left in the branch exactly if it occurs behind the first argument of one of these
calls, and exactly then driving the instance yields something other than the branch.
-/

namespace Supercompilation

/-- The substitution of a contraction: its variable becomes the constructor of the pattern, with the
same fields. -/
def Contraction.values (contraction : Contraction) : Substitution :=
  match contraction.pattern with
  | .app _ constructor fields => [(contraction.var, .ctor constructor fields)]
  | _ => []

namespace Term

/-- What stands behind the first argument in the calls around the one that a case distinction is
about. -/
def surroundings : Term → List Term
  | app .gCall _ (var _ :: _) => []
  | app .gCall _ (scrutinee :: rest) => rest ++ scrutinee.surroundings
  | _ => []

/-- The surroundings in a call around a call. -/
theorem surroundings_nested {inner : Term} (call : inner.isCall = true) (name : String)
    (rest : List Term) :
    (gCall name (inner :: rest)).surroundings = rest ++ inner.surroundings := by
  cases inner with
  | var x => simp [isCall] at call
  | letIn body bindings => simp [isCall] at call
  | app head name' args => rw [surroundings]; simp

/-- A case distinction is about a variable of the call. -/
theorem mem_occurrences_of_splitCall? {t : Term} (written : t.plain = true)
    (call : t.isCall = true) {function x : String} (splits : t.splitCall? = some (function, x)) :
    x ∈ t.occurrences := by
  revert splits
  refine callInduction ?_ ?_ ?_ ?_ ?_ t written call
  · intro name args _ splits
    simp [splitCall?] at splits
  · intro name splits
    simp [splitCall?] at splits
  · intro name constructor fields rest _ splits
    simp [splitCall?] at splits
  · intro name y rest _ splits
    simp only [splitCall?, Option.some.injEq, Prod.mk.injEq] at splits
    exact mem_occurrences_app.mpr
      ⟨var y, List.mem_cons_self, mem_occurrences_var.mpr splits.2.symm⟩
  · intro name inner rest _ call ih splits
    rw [splitCall?_nested call] at splits
    exact mem_occurrences_app.mpr ⟨inner, List.mem_cons_self, ih splits⟩

/-- Replacing a variable by another term leaves a term alone exactly if the variable does not
occur. -/
theorem subst_single_eq_self_iff {t value : Term} {x : String} (other : value ≠ var x) :
    t.subst [(x, value)] = t ↔ x ∉ t.occurrences := by
  rw [subst_eq_self_iff]
  constructor
  · intro kept occurs
    have here := kept x occurs
    rw [subst_var_single, if_pos rfl] at here
    exact other here
  · intro absent y occurs
    have differs : y ≠ x := fun same => absent (same ▸ occurs)
    rw [subst_var_single, if_neg differs]

end Term

namespace Program

variable {rules : List Rule}

/-- In a branch of the call that is split nothing is left of the variable, if its fields are new. -/
theorem not_mem_occurrences_of_branchFor (closed : ∀ rule ∈ rules, rule.Closed) {name x : String}
    {rest : List Term} {rule : GRule} {branch : Branch}
    (isBranch : (ofRules rules).BranchFor name x rest rule branch)
    (fresh : x ∉ branch.freshVars) : x ∉ branch.term.occurrences := by
  obtain ⟨fields, -, contracted, replaced⟩ := isBranch
  rw [Branch.freshVars_of_contraction contracted, occurrences_vars] at fresh
  intro occurs
  rcases occurrences_of_makes (makes_of_applyG replaced) occurs with ⟨arg, member, inArg⟩ | free
  · rcases List.mem_append.mp member with inFields | inRest
    · obtain ⟨y, named, rfl⟩ := List.mem_map.mp inFields
      exact fresh (Term.mem_occurrences_var.mp inArg ▸ named)
    · obtain ⟨r, -, rfl⟩ := List.mem_map.mp inRest
      obtain ⟨y, -, here⟩ := Term.mem_occurrences_subst.mp inArg
      rw [Term.subst_var_single] at here
      split at here
      · exact fresh (occurrences_vars .ctor rule.pattern.name fields ▸ here)
      · rename_i differs
        exact differs (Term.mem_occurrences_var.mp here).symm
  · exact not_freeIn closed free

/-- The contracted variable is left in a branch exactly if it occurs in the surroundings of the call
that is split. -/
theorem mem_occurrences_branch_iff (closed : ∀ rule ∈ rules, rule.Closed) {t : Term}
    (written : t.plain = true) (call : t.isCall = true) {supply later : NameSupply}
    (branches : List Branch)
    (driven : (ofRules rules).driveTerm t supply = (.ok branches, later))
    (branch : Branch) (member : branch ∈ branches) {contraction : Contraction}
    (contracted : branch.contraction = some contraction)
    (fresh : contraction.var ∉ branch.freshVars) :
    contraction.var ∈ branch.term.occurrences ↔
      ∃ r ∈ t.surroundings, contraction.var ∈ r.occurrences := by
  revert branches branch
  refine Term.callInduction ?_ ?_ ?_ ?_ ?_ t written call
  · intro name args _ branches driven branch member contracted
    rw [driveTerm_fCall, Prod.mk.injEq, map_single_eq_ok] at driven
    obtain ⟨⟨u, -, rfl⟩, -⟩ := driven
    obtain rfl := List.mem_singleton.mp member
    contradiction
  · intro name branches driven
    simp [driveTerm] at driven
  · intro name constructor fields rest _ branches driven branch member contracted
    cases found : (ofRules rules).gs.value? name with
    | none => simp [driveTerm_unlisted found] at driven
    | some listed =>
      rw [driveTerm_ctor found, Prod.mk.injEq, map_single_eq_ok] at driven
      obtain ⟨⟨u, -, rfl⟩, -⟩ := driven
      obtain rfl := List.mem_singleton.mp member
      contradiction
  · intro name x rest _ branches driven branch member contracted fresh
    cases found : (ofRules rules).gs.value? name with
    | none => simp [driveTerm_unlisted found] at driven
    | some listed =>
      rw [driveTerm_var found] at driven
      obtain ⟨rule, -, isBranch⟩ := exists_left_of_forall₂ (split_ok driven).1 member
      obtain ⟨fields, -, contracted', -⟩ := id isBranch
      obtain rfl := Option.some.inj (contracted.symm.trans contracted')
      simpa [Term.surroundings] using not_mem_occurrences_of_branchFor closed isBranch fresh
  · intro name inner rest _ call ih branches driven branch member contracted fresh
    obtain ⟨listed, results, -, inside, rfl⟩ := driveTerm_nested_ok call driven
    obtain ⟨result, isResult, rfl⟩ := List.mem_map.mp member
    rw [Term.surroundings_nested call]
    simp only [Branch.inside, Term.mem_occurrences_app, List.mem_cons, List.mem_append,
      or_and_right, exists_or, exists_eq_left]
    rw [ih results inside result isResult contracted fresh, or_comm]

end Program

namespace Supercompiler

open Term

/-- A contraction gives a variable of the driven call a pattern with distinct new fields. -/
theorem contraction_of_drive {rules : List Rule} {supply : NameSupply} {t : Term}
    (written : t.plain = true) (call : t.isCall = true) {branches : List Branch}
    (driven : (drive ⟨.ofRules rules, supply⟩ t).1 = .ok branches) {branch : Branch}
    (member : branch ∈ branches) {contraction : Contraction}
    (contracted : branch.contraction = some contraction) :
    contraction.var ∈ t.occurrences ∧
      ∃ (constructor : String) (names : List String),
        contraction = ⟨contraction.var, .pattern constructor (names.map .var)⟩ ∧
        names.Nodup ∧ ∀ y ∈ names, y ∉ t.occurrences := by
  obtain ⟨later, driven⟩ := driveTerm_of_drive driven
  cases splits : t.splitCall? with
  | none =>
    obtain ⟨-, u, rfl⟩ := Program.driveTerm_single written call splits driven
    obtain rfl := List.mem_singleton.mp member
    contradiction
  | some place =>
    obtain ⟨function, x⟩ := place
    obtain ⟨issued, listed, -, each⟩ := Program.driveTerm_split written call splits driven
    obtain ⟨rule, -, names, here⟩ := Program.exists_left_of_forall₂ each member
    have fields : branch.freshVars = names := by
      rw [Branch.freshVars_of_contraction here, Program.occurrences_vars]
    obtain rfl := Option.some.inj (contracted.symm.trans here)
    refine ⟨mem_occurrences_of_splitCall? written call splits, rule.pattern.name, names, rfl, ?_, ?_⟩
    · rw [← fields]
      exact (List.nodup_flatMap.mp issued.distinct).1 branch member
    · intro y named occurs
      exact issued.unknown y (List.mem_flatMap.mpr ⟨branch, member, fields ▸ named⟩)
        (NameSupply.knows_reserve.mpr (.inr (mem_vars.mpr occurs)))

/-- A branch of a case distinction and the driven call with the contracted variable replaced. Driving
this instance has a single result, the branch with the variable replaced. That is the branch itself
exactly if the variable does not occur in the branch, and the variable occurs there exactly if it
occurs in a call around the one that is split, behind the first argument. -/
theorem drive_contracted {rules : List Rule} (closed : ∀ rule ∈ rules, rule.Closed)
    (supply other : NameSupply) {t : Term} (written : t.plain = true) (call : t.isCall = true)
    {branches : List Branch} (driven : (drive ⟨.ofRules rules, supply⟩ t).1 = .ok branches)
    {branch : Branch} (member : branch ∈ branches) {contraction : Contraction}
    (contracted : branch.contraction = some contraction) :
    (∃ (constructor : String) (names : List String),
      contraction.pattern = .pattern constructor (names.map .var) ∧
      contraction.values = [(contraction.var, .ctor constructor (names.map .var))]) ∧
    (drive ⟨.ofRules rules, other⟩ (t.subst contraction.values)).1 =
      .ok [⟨branch.term.subst contraction.values, none⟩] ∧
    ((drive ⟨.ofRules rules, other⟩ (t.subst contraction.values)).1 =
      .ok [⟨branch.term, none⟩] ↔ contraction.var ∉ branch.term.occurrences) ∧
    (contraction.var ∈ branch.term.occurrences ↔
      ∃ r ∈ t.surroundings, contraction.var ∈ r.occurrences) := by
  obtain ⟨isVar, constructor, names, shape, distinct, fresh⟩ :=
    contraction_of_drive written call driven member contracted
  obtain ⟨later, driven⟩ := driveTerm_of_drive driven
  have pattern : contraction.pattern = .pattern constructor (names.map .var) :=
    congrArg Contraction.pattern shape
  have values : contraction.values = [(contraction.var, .ctor constructor (names.map .var))] := by
    rw [Contraction.values, pattern]
  have newVar : contraction.var ∉ names := fun named => fresh _ named isVar
  -- The fields are not replaced, so it does not matter that they are given themselves as values.
  have idle : branch.term.subst (names.zip (names.map .var) ++ contraction.values) =
      branch.term.subst contraction.values := by
    apply subst_congr
    intro y _
    by_cases named : y ∈ names
    · have supplied := List.map_inj_left.mp
        (Program.subst_vars_zip distinct (List.length_map .var).symm contraction.values) y named
      have differs : y ≠ contraction.var := fun same => newVar (same ▸ named)
      rw [supplied, values, subst_var_single, if_neg differs]
    · exact Program.subst_var_of_not_mem named _ _
  have specialised : (drive ⟨.ofRules rules, other⟩ (t.subst contraction.values)).1 =
      .ok [⟨branch.term.subst contraction.values, none⟩] := by
    rw [← idle]
    refine congrArg Prod.fst (Program.driveTerm_subst_split closed written call branches driven
      branch member (contracted.trans (congrArg some shape)) distinct fresh (by simp) ?_ _)
    rw [values, subst_var_single, if_pos rfl]
  refine ⟨⟨constructor, names, pattern, values⟩, specialised, ?_, ?_⟩
  · have isCtor : Term.ctor constructor (names.map .var) ≠ .var contraction.var := by simp
    rw [specialised, ← subst_single_eq_self_iff isCtor, values]
    simp
  · refine Program.mem_occurrences_branch_iff closed written call branches driven branch member
      contracted ?_
    rwa [Branch.freshVars_of_contraction contracted, pattern, Program.occurrences_vars]

/-- A nested call of addition is split on its inner variable, which does not occur behind it. The
instance that makes the variable a successor is driven to the second branch. -/
theorem drive_contracted_addition :
    (drive ⟨.ofRules Program.additionRules, {}⟩
      (.gCall "gAdd" [.gCall "gAdd" [.var "a", .var "a"], .var "b"])).1 =
        .ok [⟨.gCall "gAdd" [.ctor "Z" [], .var "b"], some ⟨"a", .pattern "Z" []⟩⟩,
          ⟨.gCall "gAdd" [.ctor "S" [.gCall "gAdd" [.var "v_1", .ctor "S" [.var "v_1"]]], .var "b"],
            some ⟨"a", .pattern "S" [.var "v_1"]⟩⟩] ∧
    (drive ⟨.ofRules Program.additionRules, {}⟩
      ((Term.gCall "gAdd" [.gCall "gAdd" [.var "a", .var "a"], .var "b"]).subst
        [("a", .ctor "S" [.var "v_1"])])).1 =
      .ok [⟨.gCall "gAdd" [.ctor "S" [.gCall "gAdd" [.var "v_1", .ctor "S" [.var "v_1"]]],
        .var "b"], none⟩] := by
  have driven : (drive ⟨.ofRules Program.additionRules, {}⟩
      (.gCall "gAdd" [.gCall "gAdd" [.var "a", .var "a"], .var "b"])).1 =
        .ok [⟨.gCall "gAdd" [.ctor "Z" [], .var "b"], some ⟨"a", .pattern "Z" []⟩⟩,
          ⟨.gCall "gAdd" [.ctor "S" [.gCall "gAdd" [.var "v_1", .ctor "S" [.var "v_1"]]], .var "b"],
            some ⟨"a", .pattern "S" [.var "v_1"]⟩⟩] := by cbv
  obtain ⟨-, -, itself, -⟩ := drive_contracted (by decide) {} {} rfl rfl driven
    (List.mem_cons_of_mem _ List.mem_cons_self) rfl
  exact ⟨driven, itself.mpr (by simp)⟩

/-- If the variable occurs behind the inner call, the outer call is put back with it. Driving the
instance then has another result than the branch: the outer argument is replaced in the one and left
in the other. -/
theorem drive_contracted_outside :
    (∀ rule ∈ Program.additionRules, rule.Closed) ∧
    (drive ⟨.ofRules Program.additionRules, {}⟩
      (.gCall "gAdd" [.gCall "gAdd" [.var "a", .var "b"], .var "a"])).1 =
        .ok [⟨.gCall "gAdd" [.var "b", .var "a"], some ⟨"a", .pattern "Z" []⟩⟩,
          ⟨.gCall "gAdd" [.ctor "S" [.gCall "gAdd" [.var "v_1", .var "b"]], .var "a"],
            some ⟨"a", .pattern "S" [.var "v_1"]⟩⟩] ∧
    "a" ∈ (Term.gCall "gAdd" [.var "b", .var "a"]).vars ∧
    (drive ⟨.ofRules Program.additionRules, {}⟩
      ((Term.gCall "gAdd" [.gCall "gAdd" [.var "a", .var "b"], .var "a"]).subst
        [("a", .ctor "Z" [])])).1 ≠ .ok [⟨.gCall "gAdd" [.var "b", .var "a"], none⟩] := by
  have instanceDriven : (drive ⟨.ofRules Program.additionRules, {}⟩
      ((Term.gCall "gAdd" [.gCall "gAdd" [.var "a", .var "b"], .var "a"]).subst
        [("a", .ctor "Z" [])])).1 = .ok [⟨.gCall "gAdd" [.var "b", .ctor "Z" []], none⟩] := by cbv
  refine ⟨by decide, by cbv, by simp, ?_⟩
  rw [instanceDriven]
  simp

end Supercompiler

end Supercompilation
