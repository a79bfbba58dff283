import Supercompilation.Proofs.Selection

/-!
# Redefined rules in case distinctions

A case distinction has a branch for every rule of the function, also for the rules that were
redefined, and asks for as many fields as the listed rule has. What stands in the branch is made by
the rule that is found for the constructor. A case distinction therefore succeeds exactly if each
listed rule has as many fields as the rule that is found in its place, and that rule takes the other
arguments of the call. Otherwise it fails, and the error is about a number of fields or arguments.
-/

namespace Supercompilation

namespace GRule

/-- A rule takes a constructor with some number of fields and some number of other arguments. -/
def Takes (rule : GRule) (fields others : Nat) : Prop :=
  rule.pattern.fields.length = fields ∧ rule.params.length = others

instance (rule : GRule) (fields others : Nat) : Decidable (rule.Takes fields others) :=
  inferInstanceAs (Decidable (rule.pattern.fields.length = fields ∧ rule.params.length = others))

/-- A branch that a rule opens in a case distinction: the variable is contracted to a pattern with a
variable for each field of the rule, and the term is the body of the rule with these variables for
its fields and the specialised arguments for its parameters. -/
def Opens (rule : GRule) (constructor x : String) (rest : List Term) (branch : Branch) : Prop :=
  ∃ names : List String, names.length = rule.pattern.fields.length ∧
    branch.contraction = some ⟨x, .pattern constructor (names.map .var)⟩ ∧
    branch.term = rule.body.subst (.ofPairs (rule.pattern.fields.zip (names.map .var) ++
      rule.params.zip (rest.map (Term.subst [(x, .ctor constructor (names.map .var))]))))

/-- A rule replaces exactly the calls that it takes. -/
theorem outcome_eq_ok_iff {rule : GRule} {function constructor : String} {fields rest : List Term}
    {t : Term} : rule.outcome function constructor fields rest = .ok t ↔
      rule.Takes fields.length rest.length ∧ t = rule.body.subst
        (.ofPairs (rule.pattern.fields.zip fields ++ rule.params.zip rest)) := by
  rw [outcome]
  by_cases sameFields : rule.pattern.fields.length = fields.length
  · by_cases sameParams : rule.params.length = rest.length
    · simp [Takes, sameFields, sameParams, eq_comm]
    · simp [Takes, sameFields, sameParams]
  · simp [Takes, sameFields]

/-- What a rule complains about is a number of fields or arguments. -/
theorem kind_of_outcome_error {rule : GRule} {function constructor : String}
    {fields rest : List Term} {e : DriveError}
    (refused : rule.outcome function constructor fields rest = .error e) : e.kind = .arity := by
  rw [outcome] at refused
  split at refused
  · exact Except.error.inj refused ▸ rfl
  · split at refused
    · exact Except.error.inj refused ▸ rfl
    · contradiction

end GRule

namespace Program

/-- A listed rule that does not obstruct a case distinction: the rule in force for its constructor
takes as many fields as the listed rule has, and some number of other arguments. -/
def Replaceable (program : Program) (name : String) (others : Nat) (rule : GRule) : Prop :=
  ∃ found, program.gRule? name rule.pattern.name = some found ∧
    found.Takes rule.pattern.fields.length others

variable {program : Program} {name x : String} {rest : List Term}

/-- A case distinction succeeds if no listed rule obstructs it. -/
theorem exists_split_ok {listed : List GRule}
    (replaceable : ∀ rule ∈ listed, program.Replaceable name rest.length rule)
    (supply : NameSupply) :
    ∃ branches, (program.split name x rest listed supply).1 = .ok branches := by
  induction listed generalizing supply with
  | nil => exact ⟨[], rfl⟩
  | cons rule rules ih =>
    obtain ⟨found, inForce, takes⟩ := replaceable rule List.mem_cons_self
    obtain ⟨branches, others⟩ := ih (fun other member =>
      replaceable other (List.mem_cons_of_mem _ member))
      (supply.freshMany rule.pattern.fields.length).2
    generalize asked : supply.freshMany rule.pattern.fields.length = issued at others
    have counted : (issued.1.map Term.var).length = rule.pattern.fields.length := by
      rw [List.length_map, ← asked, NameSupply.length_freshMany]
    have applied : found.outcome name rule.pattern.name (issued.1.map .var)
        (Term.substArgs [(x, .ctor rule.pattern.name (issued.1.map .var))] rest) = .ok _ :=
      GRule.outcome_eq_ok_iff.mpr
        ⟨by simpa [Term.substArgs_eq_map, counted] using takes, rfl⟩
    simp only [split, applyG_eq, inForce, asked, applied, others]
    exact ⟨_, rfl⟩

/-- If there is a rule in force for every listed rule, a case distinction that fails does so over a
number of fields or arguments. -/
theorem kind_of_split_error {listed : List GRule}
    (inForce : ∀ rule ∈ listed, ∃ found, program.gRule? name rule.pattern.name = some found)
    {supply : NameSupply} {e : DriveError}
    (fails : (program.split name x rest listed supply).1 = .error e) : e.kind = .arity := by
  induction listed generalizing supply with
  | nil => simp [split] at fails
  | cons rule rules ih =>
    obtain ⟨found, here⟩ := inForce rule List.mem_cons_self
    simp only [split, applyG_eq, here] at fails
    split at fails
    · rename_i e' refused
      obtain rfl := Except.error.inj fails
      exact GRule.kind_of_outcome_error refused
    · generalize later : (supply.freshMany rule.pattern.fields.length).2 = supply' at fails
      cases others : (program.split name x rest rules supply').1 with
      | ok branches => simp [others, Except.map] at fails
      | error e' =>
        simp only [others, Except.map, Except.error.injEq] at fails
        subst fails
        exact ih (fun other member => inForce other (List.mem_cons_of_mem _ member)) others

/-- The branch for a listed rule is opened by the rule in force for its constructor. -/
theorem BranchFor.opens {rule : GRule} {branch : Branch}
    (isFor : program.BranchFor name x rest rule branch) :
    ∃ found, program.gRule? name rule.pattern.name = some found ∧
      found.Takes rule.pattern.fields.length rest.length ∧
      found.Opens rule.pattern.name x rest branch := by
  obtain ⟨names, counted, contracted, replaced⟩ := isFor
  rw [applyG_eq] at replaced
  cases inForce : program.gRule? name rule.pattern.name with
  | none => simp [inForce] at replaced
  | some found =>
    simp only [inForce] at replaced
    obtain ⟨takes, made⟩ := GRule.outcome_eq_ok_iff.mp replaced
    rw [List.length_map, List.length_map] at takes
    exact ⟨found, rfl, counted ▸ takes, names, takes.1.symm, contracted, made⟩

/-- The index of all g-rules lists those of a function with rules. -/
theorem value?_gs_of_defined {rules : List Rule} {function : String}
    (defined : ∃ rule, .g rule ∈ rules ∧ rule.name = function) :
    (ofRules rules).gs.value? function = some (rules.filterMap (Rule.gRuleOf? function)) := by
  obtain ⟨rule, member, rfl⟩ := defined
  obtain ⟨listed, found⟩ := exists_value?_gs member
  rw [value?_gs_ofRules] at found ⊢
  split at found
  · contradiction
  · rename_i some
    rw [if_neg some]

end Program

namespace Supercompiler

/-- For every rule of a function, the rule that is found for its constructor takes as many fields as
the rule has, and some number of other arguments. -/
def Uniform (rules : List Rule) (function : String) (others : Nat) : Prop :=
  ∀ rule, .g rule ∈ rules → rule.name = function →
    ∀ found, LastRule rules (GRule.IsFoundFor function rule.pattern.name) found →
      found.Takes rule.pattern.fields.length others

/-- For every rule of a function, the rule that is found for its constructor is a rule of the
function for this constructor. -/
def Apart (rules : List Rule) (function : String) : Prop :=
  ∀ rule, .g rule ∈ rules → rule.name = function →
    ∀ found, LastRule rules (GRule.IsFoundFor function rule.pattern.name) found →
      found.IsFor function rule.pattern.name

/-- The rules of a function for one constructor have as many fields as the last of them. -/
def SameFields (rules : List Rule) (function : String) : Prop :=
  ∀ rule, .g rule ∈ rules → rule.name = function →
    ∀ own, LastRule rules (GRule.IsFor function rule.pattern.name) own →
      own.pattern.fields.length = rule.pattern.fields.length

/-- The outcome of driving a call of a g-function on a variable. -/
def distinguish (rules : List Rule) (supply : NameSupply) (function x : String)
    (rest : List Term) : Except DriveError (List Branch) :=
  (drive ⟨.ofRules rules, supply⟩ (.gCall function (.var x :: rest))).1

variable {rules : List Rule} {supply : NameSupply} {function x : String} {rest : List Term}

/-- A call on a variable is split over the rules of its function, in order. -/
theorem distinguish_eq (defined : ∃ rule, .g rule ∈ rules ∧ rule.name = function) :
    distinguish rules supply function x rest =
      ((Program.ofRules rules).split function x rest (rules.filterMap (Rule.gRuleOf? function))
        ((supply.reserve (Program.ofRules rules).vars).reserve
          (Term.gCall function (.var x :: rest)).vars)).1 :=
  congrArg Prod.fst (Program.driveTerm_var (Program.value?_gs_of_defined defined) x rest _)

/-- The branches of a case distinction stand for the rules of the function, in order, and each is
opened by the rule that is found in the place of its rule. Their fields are distinct and new. -/
theorem branches_of_distinguish (defined : ∃ rule, .g rule ∈ rules ∧ rule.name = function)
    {branches : List Branch} (split : distinguish rules supply function x rest = .ok branches) :
    List.Forall₂ (fun (rule : GRule) branch => ∃ found,
        LastRule rules (GRule.IsFoundFor function rule.pattern.name) found ∧
        found.Takes rule.pattern.fields.length rest.length ∧
        found.Opens rule.pattern.name x rest branch)
      (rules.filterMap (Rule.gRuleOf? function)) branches ∧
    (branches.flatMap Branch.freshVars).Nodup ∧
    ∀ y ∈ branches.flatMap Branch.freshVars, ¬ supply.Knows y ∧
      y ∉ (Program.ofRules rules).vars ∧ y ∉ (Term.gCall function (.var x :: rest)).vars := by
  rw [distinguish_eq defined] at split
  obtain ⟨each, issued⟩ := Program.split_ok (Prod.ext split rfl)
  refine ⟨each.imp fun rule branch isFor => ?_, issued.distinct, fun y member => ?_⟩
  · obtain ⟨found, inForce, takes, opens⟩ := isFor.opens
    exact ⟨found, Program.gRule?_eq_some_iff.mp inForce, takes, opens⟩
  · have unknown := issued.unknown y member
    simp only [NameSupply.knows_reserve, not_or] at unknown
    exact ⟨unknown.1.1, unknown.1.2, unknown.2⟩

/-- A case distinction succeeds exactly if the rules of its function are uniform. -/
theorem distinguish_ok_iff (defined : ∃ rule, .g rule ∈ rules ∧ rule.name = function) :
    (∃ branches, distinguish rules supply function x rest = .ok branches) ↔
      Uniform rules function rest.length := by
  have listed := Program.mem_of_value?_gs (Program.value?_gs_of_defined defined)
  constructor
  · rintro ⟨branches, split⟩ rule member named found last
    obtain ⟨branch, -, found', last', takes, -⟩ := Program.exists_right_of_forall₂
      (branches_of_distinguish defined split).1 ((listed rule).mpr ⟨member, named⟩)
    exact last.unique last' ▸ takes
  · intro uniform
    rw [distinguish_eq defined]
    refine Program.exists_split_ok (fun rule member => ?_) _
    obtain ⟨isRule, named⟩ := (listed rule).mp member
    obtain ⟨found, last⟩ := LastRule.exists_of_mem isRule
      (GRule.IsFor.isFoundFor ⟨named, rfl⟩)
    exact ⟨found, Program.gRule?_eq_some_iff.mpr last, uniform rule isRule named found last⟩

/-- A case distinction that fails does so over a number of fields or arguments. -/
theorem kind_of_distinguish_error (defined : ∃ rule, .g rule ∈ rules ∧ rule.name = function)
    {e : DriveError} (fails : distinguish rules supply function x rest = .error e) :
    e.kind = .arity := by
  rw [distinguish_eq defined] at fails
  refine Program.kind_of_split_error (fun rule member => ?_) fails
  obtain ⟨isRule, named⟩ :=
    (Program.mem_of_value?_gs (Program.value?_gs_of_defined defined) rule).mp member
  obtain ⟨found, last⟩ := LastRule.exists_of_mem isRule (GRule.IsFor.isFoundFor ⟨named, rfl⟩)
  exact ⟨found, Program.gRule?_eq_some_iff.mpr last⟩

/-- If the rules of a function are found in their own places, the last rule for the constructor of
one of them is the one that is found. -/
theorem lastRule_of_apart (apart : Apart rules function) {rule : GRule} (member : .g rule ∈ rules)
    (named : rule.name = function) {own : GRule} :
    LastRule rules (GRule.IsFor function rule.pattern.name) own ↔
      LastRule rules (GRule.IsFoundFor function rule.pattern.name) own := by
  have forward : ∀ own, LastRule rules (GRule.IsFoundFor function rule.pattern.name) own →
      LastRule rules (GRule.IsFor function rule.pattern.name) own :=
    fun own last => (lastRule_isFor_iff last).mpr (apart rule member named own last)
  refine ⟨fun last => ?_, forward own⟩
  obtain ⟨found, found'⟩ := LastRule.exists_of_mem member (GRule.IsFor.isFoundFor ⟨named, rfl⟩)
  exact last.unique (forward found found') ▸ found'

/-- If the rules of a function are found in their own places, and those in force take the other
arguments, the rules are uniform exactly if those for one constructor have as many fields as the
last of them. -/
theorem uniform_iff_sameFields (apart : Apart rules function) {others : Nat}
    (takeOthers : ∀ constructor own, LastRule rules (GRule.IsFor function constructor) own →
      own.params.length = others) :
    Uniform rules function others ↔ SameFields rules function := by
  constructor
  · intro uniform rule member named own last
    exact (uniform rule member named own ((lastRule_of_apart apart member named).mp last)).1
  · intro same rule member named found last
    have own := (lastRule_of_apart apart member named).mpr last
    exact ⟨same rule member named found own, takeOthers _ found own⟩

/-- A call of a function with rules on a variable is split exactly if, for every rule of the
function, the rule that is found for its constructor takes the fields of the rule and the other
arguments of the call; otherwise the error is about a number of fields or arguments. The branches
then stand for the rules of the function, in order; each is opened by the rule found for its
constructor, and their fields are distinct and new. As long as rules are found in their own places
and those in force take the other arguments, the call is split exactly if the rules for one
constructor have as many fields as the last of them, and every rule in force opens a branch. -/
theorem drive_redefined (defined : ∃ rule, .g rule ∈ rules ∧ rule.name = function)
    (supply : NameSupply) (x : String) (rest : List Term) :
    ((∃ branches, distinguish rules supply function x rest = .ok branches) ↔
      Uniform rules function rest.length) ∧
    (∀ e, distinguish rules supply function x rest = .error e → e.kind = .arity) ∧
    (∀ branches, distinguish rules supply function x rest = .ok branches →
      List.Forall₂ (fun (rule : GRule) branch => ∃ found,
          LastRule rules (GRule.IsFoundFor function rule.pattern.name) found ∧
          found.Takes rule.pattern.fields.length rest.length ∧
          found.Opens rule.pattern.name x rest branch)
        (rules.filterMap (Rule.gRuleOf? function)) branches ∧
      (branches.flatMap Branch.freshVars).Nodup ∧
      ∀ y ∈ branches.flatMap Branch.freshVars, ¬ supply.Knows y ∧
        y ∉ (Program.ofRules rules).vars ∧ y ∉ (Term.gCall function (.var x :: rest)).vars) ∧
    (Apart rules function →
      (∀ constructor own, LastRule rules (GRule.IsFor function constructor) own →
        own.params.length = rest.length) →
      ((∃ branches, distinguish rules supply function x rest = .ok branches) ↔
        SameFields rules function) ∧
      ∀ branches, distinguish rules supply function x rest = .ok branches →
        ∀ constructor own, LastRule rules (GRule.IsFor function constructor) own →
          ∃ branch ∈ branches, own.Opens constructor x rest branch) := by
  refine ⟨distinguish_ok_iff defined, fun e => kind_of_distinguish_error defined,
    fun branches => branches_of_distinguish defined, fun apart takeOthers => ⟨?_, ?_⟩⟩
  · rw [distinguish_ok_iff defined, uniform_iff_sameFields apart takeOthers]
  · intro branches split constructor own last
    obtain ⟨named, rfl⟩ := last.1
    have listed := (Program.mem_of_value?_gs (Program.value?_gs_of_defined defined) own).mpr
      ⟨last.mem, named⟩
    obtain ⟨branch, member, found, last', -, opens⟩ :=
      Program.exists_right_of_forall₂ (branches_of_distinguish defined split).1 listed
    have inPlace := (lastRule_of_apart apart last.mem named).mp last
    exact ⟨branch, member, inPlace.unique last' ▸ opens⟩

/-- Rules of a function with a redefinition that keeps the number of fields. -/
def redefinedRules : List Rule :=
  [.g ⟨"gA", ⟨"C", ["a"]⟩, ["y"], .var "y"⟩, .g ⟨"gA", ⟨"D", []⟩, ["y"], .var "y"⟩,
    .g ⟨"gA", ⟨"C", ["b"]⟩, ["y"], .var "b"⟩]

/-- A redefinition that keeps the number of fields does not obstruct a case distinction, and the
redefined rule opens a branch. -/
theorem drive_redefined_repeated :
    ∃ branches, distinguish redefinedRules {} "gA" "x" [.ctor "Z" []] = .ok branches ∧
      ∃ branch ∈ branches, GRule.Opens ⟨"gA", ⟨"C", ["b"]⟩, ["y"], .var "b"⟩ "C" "x"
        [.ctor "Z" []] branch := by
  have defined : ∃ rule, .g rule ∈ redefinedRules ∧ rule.name = "gA" := by decide
  have listed : ∀ {rule}, .g rule ∈ redefinedRules →
      rule = ⟨"gA", ⟨"C", ["a"]⟩, ["y"], .var "y"⟩ ∨ rule = ⟨"gA", ⟨"D", []⟩, ["y"], .var "y"⟩ ∨
        rule = ⟨"gA", ⟨"C", ["b"]⟩, ["y"], .var "b"⟩ := by simp [redefinedRules]
  have apart : Apart redefinedRules "gA" := by
    rintro rule member - found last
    rcases listed member with rfl | rfl | rfl <;> rcases listed last.mem with rfl | rfl | rfl <;>
      first | decide | exact absurd last.1 (by decide)
  have same : SameFields redefinedRules "gA" := by
    rintro rule member - own last
    rcases listed member with rfl | rfl | rfl <;> rcases listed last.mem with rfl | rfl | rfl <;>
      first | decide | exact absurd last.1 (by decide)
  have takeOthers : ∀ constructor own,
      LastRule redefinedRules (GRule.IsFor "gA" constructor) own → own.params.length = 1 := by
    intro constructor own last
    rcases listed last.mem with rfl | rfl | rfl <;> rfl
  have last : LastRule redefinedRules (GRule.IsFor "gA" "C")
      ⟨"gA", ⟨"C", ["b"]⟩, ["y"], .var "b"⟩ :=
    ⟨by decide, redefinedRules.take 2, [], rfl, by decide⟩
  obtain ⟨succeeds, opens⟩ :=
    (drive_redefined defined {} "x" [.ctor "Z" []]).2.2.2 apart takeOthers
  obtain ⟨branches, split⟩ := succeeds.mpr same
  exact ⟨branches, split, opens branches split "C" _ last⟩

/-- A case distinction fails if a rule was redefined with another number of fields, and if a rule of
another function with the same key is found in its place, although the last rules of the function
for its constructors take the other arguments of the call. -/
theorem drive_redefined_fields :
    (∃ rules, Program.parse "gA(C(a)) = Z(); gA(C(a, b)) = Z();" = .ok (.ofRules rules) ∧
      (∃ rule, .g rule ∈ rules ∧ rule.name = "gA") ∧
      (∀ constructor own, LastRule rules (GRule.IsFor "gA" constructor) own →
        own.params.length = 0) ∧
      distinguish rules {} "gA" "x" [] = .error (.wrongFields ⟨"C", ["a", "b"]⟩
        (.gCall "gA" [.ctor "C" [.var "v_1"]]) 1)) ∧
    ∃ rules, Program.parse "gA_B(C()) = Z(); gA(B_C(), y) = y;" = .ok (.ofRules rules) ∧
      (∃ rule, .g rule ∈ rules ∧ rule.name = "gA_B") ∧
      (∀ constructor own, LastRule rules (GRule.IsFor "gA_B" constructor) own →
        own.params.length = 0) ∧
      distinguish rules {} "gA_B" "x" [] =
        .error (.wrongArity "gA_B" 2 (.gCall "gA_B" [.ctor "C" []]) 1) := by
  constructor
  · refine ⟨[.g ⟨"gA", ⟨"C", ["a"]⟩, [], .ctor "Z" []⟩,
      .g ⟨"gA", ⟨"C", ["a", "b"]⟩, [], .ctor "Z" []⟩], by rfl, by decide, ?_, by cbv⟩
    intro constructor own last
    have member := last.mem
    simp only [List.mem_cons, Rule.g.injEq, List.not_mem_nil, or_false] at member
    rcases member with rfl | rfl <;> rfl
  · refine ⟨[.g ⟨"gA_B", ⟨"C", []⟩, [], .ctor "Z" []⟩,
      .g ⟨"gA", ⟨"B_C", []⟩, ["y"], .var "y"⟩], by rfl, by decide, ?_, by rfl⟩
    intro constructor own last
    have member := last.mem
    simp only [List.mem_cons, Rule.g.injEq, List.not_mem_nil, or_false] at member
    rcases member with rfl | rfl
    · rfl
    · exact absurd last.1.1 (by decide)

end Supercompiler

end Supercompilation
