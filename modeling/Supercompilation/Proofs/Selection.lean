import Supercompilation.Proofs.Driving

/-!
# Selection of rules

A call of a g-function on a constructor is replaced by the last rule of the program that has the key
of the function and the constructor. That is the last rule of the function for the constructor, as
long as no rule behind it is for another function or constructor and has the same key: the two parts
of a key are written one behind the other, so that two pairs may have the same key.
-/

namespace Supercompilation

/-- What a g-rule makes of a call for which it is selected: its body, if the constructor has the
fields of the pattern and the call as many other arguments as the rule. -/
def GRule.outcome (rule : GRule) (function constructor : String) (fields rest : List Term) :
    Except DriveError Term :=
  if rule.pattern.fields.length ≠ fields.length then
    .error (.wrongFields rule.pattern (.gCall function (.ctor constructor fields :: rest))
      fields.length)
  else if rule.params.length ≠ rest.length then
    .error (.wrongArity function (rule.params.length + 1)
      (.gCall function (.ctor constructor fields :: rest)) (rest.length + 1))
  else
    .ok (rule.body.subst
      (.ofPairs (rule.pattern.fields.zip fields ++ rule.params.zip rest)))

/-- A g-rule of a function for a constructor. -/
def GRule.IsFor (function constructor : String) (rule : GRule) : Prop :=
  rule.name = function ∧ rule.pattern.name = constructor

/-- A g-rule that is found for a function and a constructor: it has their key. -/
def GRule.IsFoundFor (function constructor : String) (rule : GRule) : Prop :=
  rule.key = ruleKey function constructor

instance (function constructor : String) (rule : GRule) :
    Decidable (rule.IsFor function constructor) :=
  inferInstanceAs (Decidable (rule.name = function ∧ rule.pattern.name = constructor))

instance (function constructor : String) (rule : GRule) :
    Decidable (rule.IsFoundFor function constructor) :=
  inferInstanceAs (Decidable (rule.key = ruleKey function constructor))

/-- The rules of a function for a constructor are found for them. -/
theorem GRule.IsFor.isFoundFor {function constructor : String} {rule : GRule}
    (own : rule.IsFor function constructor) : rule.IsFoundFor function constructor := by
  rw [IsFoundFor, key, own.1, own.2]

/-- Whether a rule is a g-rule with a property. -/
def Rule.isGRuleWith (property : GRule → Prop) [DecidablePred property] : Rule → Bool
  | .f _ => false
  | .g rule => property rule

/-- Some rule is a g-rule with a property exactly if there is a g-rule with it among the rules. -/
theorem exists_isGRuleWith_iff {rules : List Rule} {property : GRule → Prop}
    [DecidablePred property] : (∃ entry ∈ rules, entry.isGRuleWith property = true) ↔
      ∃ rule, .g rule ∈ rules ∧ property rule := by
  constructor
  · rintro ⟨entry, member, holds⟩
    cases entry with
    | f rule => contradiction
    | g rule => exact ⟨rule, member, of_decide_eq_true holds⟩
  · rintro ⟨rule, member, holds⟩
    exact ⟨.g rule, member, decide_eq_true holds⟩

instance (rules : List Rule) (property : GRule → Prop) [DecidablePred property] :
    Decidable (∃ rule, .g rule ∈ rules ∧ property rule) :=
  decidable_of_iff _ exists_isGRuleWith_iff

instance (rules : List Rule) (property : GRule → Prop) [DecidablePred property] :
    Decidable (∀ rule, .g rule ∈ rules → ¬ property rule) :=
  decidable_of_iff (¬ ∃ rule, .g rule ∈ rules ∧ property rule) (by simp)

/-- The last g-rule with a property: no g-rule behind it has the property. -/
def LastRule (rules : List Rule) (property : GRule → Prop) (rule : GRule) : Prop :=
  property rule ∧ ∃ before after, rules = before ++ .g rule :: after ∧
    ∀ later, .g later ∈ after → ¬ property later

namespace LastRule

variable {rules : List Rule} {property : GRule → Prop}

/-- The last g-rule with a property is one of the rules. -/
theorem mem {rule : GRule} (last : LastRule rules property rule) : .g rule ∈ rules := by
  obtain ⟨-, before, after, rfl, -⟩ := last
  exact List.mem_append_right _ List.mem_cons_self

/-- A rule with the property that is added at the end is the last one. -/
theorem concat_self {rule : GRule} (here : property rule) :
    LastRule (rules ++ [.g rule]) property rule :=
  ⟨here, rules, [], rfl, by simp⟩

/-- A rule without the property that is added at the end changes nothing. -/
theorem concat {entry : Rule} (other : ∀ rule, entry = .g rule → ¬ property rule) {rule : GRule}
    (last : LastRule rules property rule) : LastRule (rules ++ [entry]) property rule := by
  obtain ⟨here, before, after, rfl, none⟩ := last
  refine ⟨here, before, after ++ [entry], by simp, fun later member => ?_⟩
  rcases List.mem_append.mp member with old | new
  · exact none later old
  · exact other later (List.mem_singleton.mp new).symm

/-- Among rules some of which have a property there is a last one with it. -/
theorem exists_of_mem {rule : GRule} (member : .g rule ∈ rules) (here : property rule) :
    ∃ rule, LastRule rules property rule := by
  induction rules using List.reverseRecOn with
  | nil => contradiction
  | append_singleton rules entry ih =>
    by_cases new : ∃ rule, entry = .g rule ∧ property rule
    · obtain ⟨rule, rfl, here⟩ := new
      exact ⟨rule, concat_self here⟩
    · have other : ∀ rule, entry = .g rule → ¬ property rule :=
        fun rule same here => new ⟨rule, same, here⟩
      rcases List.mem_append.mp member with old | same
      · obtain ⟨rule, last⟩ := ih old
        exact ⟨rule, last.concat other⟩
      · exact absurd here (other rule (List.mem_singleton.mp same).symm)

/-- There is at most one last rule with a property. -/
theorem unique {first second : GRule} (last : LastRule rules property first)
    (last' : LastRule rules property second) : first = second := by
  obtain ⟨here, before, after, rfl, none⟩ := last
  obtain ⟨here', before', after', same, none'⟩ := last'
  -- Of two rules at different places the one in front has the other behind it.
  rcases List.append_eq_append_iff.mp same with ⟨middle, -, rest⟩ | ⟨middle, -, rest⟩
  · cases middle with
    | nil => exact Rule.g.inj (List.cons.inj rest).1
    | cons entry middle =>
      obtain ⟨rfl, rfl⟩ := List.cons.inj rest
      exact absurd here' (none second (by simp))
  · cases middle with
    | nil => exact (Rule.g.inj (List.cons.inj rest).1).symm
    | cons entry middle =>
      obtain ⟨rfl, rfl⟩ := List.cons.inj rest
      exact absurd here (none' first (by simp))

end LastRule

namespace Program

variable {rules : List Rule}

/-- The g-rule in force for a function and a constructor is the last one with their key. -/
theorem gRule?_eq_some_iff {function constructor : String} {rule : GRule} :
    (ofRules rules).gRule? function constructor = some rule ↔
      LastRule rules (GRule.IsFoundFor function constructor) rule := by
  have forward : ∀ rule, (ofRules rules).gRule? function constructor = some rule →
      LastRule rules (GRule.IsFoundFor function constructor) rule := by
    -- The rule added last overrides the others, so the induction takes rules off the end.
    induction rules using List.reverseRecOn with
    | nil => simp [gRule?, ofRules, NameMap.value?]
    | append_singleton rules entry ih =>
      intro rule found
      rw [ofRules_concat] at found
      cases entry with
      | f r => exact (ih rule found).concat (by simp)
      | g r =>
        rw [gRule?, add, NameMap.value?_put] at found
        split at found
        · rename_i same
          obtain rfl := Option.some.inj found
          exact .concat_self same.symm
        · rename_i differs
          refine (ih rule found).concat fun other same key => differs ?_
          obtain rfl := Rule.g.inj same
          exact key.symm
  refine ⟨forward rule, fun last => ?_⟩
  cases found : (ofRules rules).gRule? function constructor with
  | none => exact absurd last.1 (gRule?_eq_none_iff.mp found rule last.mem)
  | some other => rw [(forward other found).unique last]

/-- A call on a constructor becomes what the rule in force makes of it. -/
theorem applyG_eq (program : Program) (function constructor : String) (fields rest : List Term) :
    program.applyG function constructor fields rest =
      match program.gRule? function constructor with
      | none => .error (.noRule function constructor
          (.gCall function (.ctor constructor fields :: rest)))
      | some rule => rule.outcome function constructor fields rest := by
  rw [applyG]
  cases program.gRule? function constructor <;> rfl

/-- A function with a rule is listed. -/
theorem exists_value?_gs {rule : GRule} (member : .g rule ∈ rules) :
    ∃ listed, (ofRules rules).gs.value? rule.name = some listed := by
  rw [value?_gs_ofRules]
  have own : rule ∈ rules.filterMap (Rule.gRuleOf? rule.name) :=
    List.mem_filterMap.mpr ⟨.g rule, member, if_pos rfl⟩
  rw [if_neg (by simpa using List.ne_nil_of_mem own)]
  exact ⟨_, rfl⟩

end Program

namespace Supercompiler

/-- Driving a call on a constructor replaces the call by a rule, if the numbers of fields and
arguments are right, and complains about them otherwise. -/
def Selects (sc : Supercompiler) (function constructor : String) (fields rest : List Term)
    (rule : GRule) : Prop :=
  (sc.drive (.gCall function (.ctor constructor fields :: rest))).1 =
    (rule.outcome function constructor fields rest).map fun t => [⟨t, none⟩]

/-- Driving a term fails for want of a rule. -/
def LacksRule (sc : Supercompiler) (t : Term) : Prop :=
  ∃ e, (sc.drive t).1 = .error e ∧ e.kind = .nonExhaustive

variable {rules : List Rule}

/-- A call on a constructor of a function with rules is handed to the rule in force. -/
theorem drive_gCall_ctor {function : String}
    (defined : ∃ rule, .g rule ∈ rules ∧ rule.name = function) (constructor : String)
    (fields rest : List Term) (supply : NameSupply) :
    (drive ⟨.ofRules rules, supply⟩ (.gCall function (.ctor constructor fields :: rest))).1 =
      ((Program.ofRules rules).applyG function constructor fields rest).map
        fun t => [⟨t, none⟩] := by
  obtain ⟨rule, member, rfl⟩ := defined
  obtain ⟨listed, found⟩ := Program.exists_value?_gs member
  exact congrArg Prod.fst (Program.driveTerm_ctor found constructor fields rest _)

/-- The last rule with the key of a function and a constructor is selected. -/
theorem selects_of_lastRule {function constructor : String} (fields rest : List Term)
    (supply : NameSupply) (defined : ∃ rule, .g rule ∈ rules ∧ rule.name = function)
    {rule : GRule} (last : LastRule rules (GRule.IsFoundFor function constructor) rule) :
    Selects ⟨.ofRules rules, supply⟩ function constructor fields rest rule := by
  rw [Selects, drive_gCall_ctor defined, Program.applyG_eq, Program.gRule?_eq_some_iff.mpr last]

/-- A call on a constructor fails for want of a rule exactly if no rule has the key. -/
theorem lacksRule_iff {function constructor : String} (fields rest : List Term)
    (supply : NameSupply) (defined : ∃ rule, .g rule ∈ rules ∧ rule.name = function) :
    LacksRule ⟨.ofRules rules, supply⟩ (.gCall function (.ctor constructor fields :: rest)) ↔
      ¬ ∃ rule, .g rule ∈ rules ∧ rule.IsFoundFor function constructor := by
  have noRule : (¬ ∃ rule, .g rule ∈ rules ∧ rule.IsFoundFor function constructor) ↔
      (Program.ofRules rules).gRule? function constructor = none := by
    rw [Program.gRule?_eq_none_iff, not_exists]
    exact forall_congr' fun rule => not_and
  rw [noRule, LacksRule, drive_gCall_ctor defined, ← Program.applyG_nonExhaustive_iff]
  cases (Program.ofRules rules).applyG function constructor fields rest with
  | error e => simp [Except.map]
  | ok t => simp [Except.map]

/-- The last rule with the key of a function and a constructor is their last rule exactly if it is
one of their rules at all. -/
theorem lastRule_isFor_iff {function constructor : String} {rule : GRule}
    (last : LastRule rules (GRule.IsFoundFor function constructor) rule) :
    LastRule rules (GRule.IsFor function constructor) rule ↔ rule.IsFor function constructor := by
  refine ⟨fun own => own.1, fun own => ⟨own, ?_⟩⟩
  obtain ⟨-, before, after, split, none⟩ := last
  exact ⟨before, after, split, fun later member own' => none later member own'.isFoundFor⟩

/-- A call of a g-function with rules on a constructor is replaced by the last rule that has the key
of the function and the constructor, and fails for want of a rule exactly if no rule has this key.
The selected rule is the last rule of the function for the constructor exactly if it is a rule of the
function for the constructor. As long as this is so, the last such rule is selected, and the call
fails for want of a rule exactly if there is no such rule. -/
theorem drive_selects {function : String}
    (defined : ∃ rule, .g rule ∈ rules ∧ rule.name = function) (constructor : String)
    (fields rest : List Term) (supply : NameSupply) :
    (∀ rule, LastRule rules (GRule.IsFoundFor function constructor) rule →
      Selects ⟨.ofRules rules, supply⟩ function constructor fields rest rule ∧
      (LastRule rules (GRule.IsFor function constructor) rule ↔
        rule.IsFor function constructor)) ∧
    (LacksRule ⟨.ofRules rules, supply⟩ (.gCall function (.ctor constructor fields :: rest)) ↔
      ¬ ∃ rule, .g rule ∈ rules ∧ rule.IsFoundFor function constructor) ∧
    ((∀ rule, LastRule rules (GRule.IsFoundFor function constructor) rule →
        rule.IsFor function constructor) →
      (∀ rule, LastRule rules (GRule.IsFor function constructor) rule →
        Selects ⟨.ofRules rules, supply⟩ function constructor fields rest rule) ∧
      (LacksRule ⟨.ofRules rules, supply⟩ (.gCall function (.ctor constructor fields :: rest)) ↔
        ¬ ∃ rule, .g rule ∈ rules ∧ rule.IsFor function constructor)) := by
  refine ⟨fun rule last => ⟨selects_of_lastRule fields rest supply defined last,
    lastRule_isFor_iff last⟩, lacksRule_iff fields rest supply defined, fun apart => ⟨?_, ?_⟩⟩
  · intro rule own
    obtain ⟨found, last⟩ := LastRule.exists_of_mem own.mem own.1.isFoundFor
    obtain rfl := own.unique ((lastRule_isFor_iff last).mpr (apart found last))
    exact selects_of_lastRule fields rest supply defined last
  · rw [lacksRule_iff fields rest supply defined, not_iff_not]
    constructor
    · rintro ⟨rule, member, isFound⟩
      obtain ⟨found, last⟩ := LastRule.exists_of_mem member isFound
      exact ⟨found, last.mem, apart found last⟩
    · rintro ⟨rule, member, own⟩
      exact ⟨rule, member, own.isFoundFor⟩

/-- Two rules of a function for one constructor. -/
def repeatedRules : List Rule :=
  [.g ⟨"gA", ⟨"Z", []⟩, [], .ctor "A" []⟩, .g ⟨"gA", ⟨"Z", []⟩, [], .ctor "B" []⟩]

/-- Of two rules of a function for a constructor the second is selected; another constructor has no
rule. -/
theorem drive_selects_second :
    Selects ⟨.ofRules repeatedRules, {}⟩ "gA" "Z" [] [] ⟨"gA", ⟨"Z", []⟩, [], .ctor "B" []⟩ ∧
    LacksRule ⟨.ofRules repeatedRules, {}⟩ (.gCall "gA" [.ctor "S" []]) := by
  have defined : ∃ rule, .g rule ∈ repeatedRules ∧ rule.name = "gA" := by decide
  have last : LastRule repeatedRules (GRule.IsFoundFor "gA" "Z")
      ⟨"gA", ⟨"Z", []⟩, [], .ctor "B" []⟩ :=
    ⟨by decide, [.g ⟨"gA", ⟨"Z", []⟩, [], .ctor "A" []⟩], [], rfl, by decide⟩
  exact ⟨((drive_selects defined "Z" [] [] {}).1 _ last).1,
    (drive_selects defined "S" [] [] {}).2.1.mpr (by decide)⟩

/-- The key of a function and a constructor may be that of another pair. A call that none of the
rules of its function is for is then replaced by the rule of the other function, and a call that one
of them is for is taken from it by a later rule of the other function. -/
theorem drive_selects_foreign :
    (∃ rules, Program.parse "gA(B_C(), y) = y; gA_B(D(), y) = y;" = .ok (.ofRules rules) ∧
      (∃ rule, .g rule ∈ rules ∧ rule.name = "gA_B") ∧
      (¬ ∃ rule, .g rule ∈ rules ∧ rule.IsFor "gA_B" "C") ∧
      (drive ⟨.ofRules rules, {}⟩ (.gCall "gA_B" [.ctor "C" [], .ctor "Z" []])).1 =
        .ok [⟨.ctor "Z" [], none⟩]) ∧
    ∃ rules rule, Program.parse "gA_B(C(), y) = y; gA(B_C(), y) = S(y);" = .ok (.ofRules rules) ∧
      LastRule rules (GRule.IsFor "gA_B" "C") rule ∧
      rule.outcome "gA_B" "C" [] [.ctor "Z" []] = .ok (.ctor "Z" []) ∧
      (drive ⟨.ofRules rules, {}⟩ (.gCall "gA_B" [.ctor "C" [], .ctor "Z" []])).1 =
        .ok [⟨.ctor "S" [.ctor "Z" []], none⟩] := by
  constructor
  · exact ⟨[.g ⟨"gA", ⟨"B_C", []⟩, ["y"], .var "y"⟩, .g ⟨"gA_B", ⟨"D", []⟩, ["y"], .var "y"⟩],
      by rfl, by decide, by decide, by rfl⟩
  · exact ⟨[.g ⟨"gA_B", ⟨"C", []⟩, ["y"], .var "y"⟩,
        .g ⟨"gA", ⟨"B_C", []⟩, ["y"], .ctor "S" [.var "y"]⟩],
      ⟨"gA_B", ⟨"C", []⟩, ["y"], .var "y"⟩, by rfl, ⟨by decide, [], _, rfl, by decide⟩,
      by rfl, by rfl⟩

end Supercompiler

end Supercompilation
