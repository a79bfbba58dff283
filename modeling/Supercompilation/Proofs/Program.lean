import Mathlib.Data.List.Induction
import Supercompilation.Program
import Supercompilation.Proofs.Substitution

/-!
# Indexes of programs

The indexes `f` and `g` of a program are maps made from its rules in order, so a later rule of the
same function or key replaces an earlier one. The index `gs` lists the rules of each g-function that
has any. A look-up that succeeds therefore yields a rule of the program.

A rule is closed if its body uses no variables beside those of its head.
-/

namespace Supercompilation

namespace Rule

/-- The variables in the head of a rule. -/
def headVars : Rule → List String
  | f rule => rule.params
  | g rule => rule.pattern.fields ++ rule.params

/-- The body uses only variables of the head. -/
def Closed (rule : Rule) : Prop := ∀ x ∈ rule.body.vars, x ∈ rule.headVars

instance : DecidablePred Closed := fun rule =>
  decidable_of_iff (∀ x ∈ rule.body.occurrences, x ∈ rule.headVars) (by simp [Closed])

/-- An f-rule under the name of its function. -/
def fEntry? : Rule → Option (String × FRule)
  | f rule => some (rule.name, rule)
  | g _ => none

/-- A g-rule under its key. -/
def gEntry? : Rule → Option (String × GRule)
  | f _ => none
  | g rule => some (rule.key, rule)

/-- A g-rule. -/
def asG? : Rule → Option GRule
  | f _ => none
  | g rule => some rule

/-- A g-rule of a function. -/
def gRuleOf? (function : String) : Rule → Option GRule
  | f _ => none
  | g rule => if rule.name = function then some rule else none

/-- A rule mentions the variables of its head and of its body. -/
theorem mem_vars {rule : Rule} {x : String} :
    x ∈ rule.vars ↔ x ∈ rule.headVars ∨ x ∈ rule.body.vars := by
  cases rule with
  | f rule => simp [vars, headVars, body]
  | g rule => simp [vars, headVars, body, or_assoc]

end Rule

namespace Program

/-- The g-rules of a program, in order. -/
def gRules (program : Program) : List GRule := program.rules.filterMap Rule.asG?

/-- A g-rule of a program is one of its rules. -/
theorem mem_gRules {program : Program} {rule : GRule} :
    rule ∈ program.gRules ↔ .g rule ∈ program.rules := by
  rw [gRules, List.mem_filterMap]
  constructor
  · rintro ⟨entry, member, isG⟩
    cases entry with
    | f other => simp [Rule.asG?] at isG
    | g other => exact Option.some.inj isG ▸ member
  · exact fun member => ⟨.g rule, member, rfl⟩

/-- A program with one more rule. -/
theorem ofRules_concat (rules : List Rule) (rule : Rule) :
    ofRules (rules ++ [rule]) = (ofRules rules).add rule := by
  rw [ofRules, List.foldl_append]
  rfl

/-- A program keeps its rules in order. -/
@[simp]
theorem rules_ofRules (rules : List Rule) : (ofRules rules).rules = rules := by
  induction rules using List.reverseRecOn with
  | nil => rfl
  | append_singleton rules rule ih =>
    rw [ofRules_concat]
    cases rule with
    | f r => rw [add, ih]
    | g r => rw [add, ih]

/-- The index of f-rules is the map made from them in order. -/
theorem f_ofRules (rules : List Rule) :
    (ofRules rules).f = NameMap.ofPairs (rules.filterMap Rule.fEntry?) := by
  induction rules using List.reverseRecOn with
  | nil => rfl
  | append_singleton rules rule ih =>
    rw [ofRules_concat, List.filterMap_append]
    cases rule with
    | f r =>
      have entry : [Rule.f r].filterMap Rule.fEntry? = [(r.name, r)] := rfl
      rw [add, ih, entry, NameMap.ofPairs, NameMap.ofPairs, List.foldl_append]
      rfl
    | g r =>
      have noEntry : [Rule.g r].filterMap Rule.fEntry? = [] := rfl
      rw [add, ih, noEntry, List.append_nil]

/-- The index of g-rules is the map made from them in order, under their keys. -/
theorem g_ofRules (rules : List Rule) :
    (ofRules rules).g = NameMap.ofPairs (rules.filterMap Rule.gEntry?) := by
  induction rules using List.reverseRecOn with
  | nil => rfl
  | append_singleton rules rule ih =>
    rw [ofRules_concat, List.filterMap_append]
    cases rule with
    | f r =>
      have noEntry : [Rule.f r].filterMap Rule.gEntry? = [] := rfl
      rw [add, ih, noEntry, List.append_nil]
    | g r =>
      have entry : [Rule.g r].filterMap Rule.gEntry? = [(r.key, r)] := rfl
      rw [add, ih, entry, NameMap.ofPairs, NameMap.ofPairs, List.foldl_append]
      rfl

/-- The index of all g-rules lists those of a function in order, if there are any. -/
theorem value?_gs_ofRules (rules : List Rule) (function : String) :
    (ofRules rules).gs.value? function =
      if (rules.filterMap (Rule.gRuleOf? function)).isEmpty then none
      else some (rules.filterMap (Rule.gRuleOf? function)) := by
  induction rules using List.reverseRecOn with
  | nil => rfl
  | append_singleton rules rule ih =>
    rw [ofRules_concat, List.filterMap_append]
    cases rule with
    | f r =>
      have noRule : [Rule.f r].filterMap (Rule.gRuleOf? function) = [] := rfl
      rw [noRule, List.append_nil]
      exact ih
    | g r =>
      simp only [add, NameMap.value?_put]
      by_cases own : function = r.name
      · subst own
        simp only [↓reduceIte, ih, Rule.gRuleOf?, List.filterMap_cons, List.filterMap_nil]
        by_cases none : rules.filterMap (Rule.gRuleOf? r.name) = []
        · simp [none]
        · simp [none]
      · simp [own, Ne.symm own, ih, Rule.gRuleOf?]

/-- The f-rule in force for a function is an f-rule of the program for the function. -/
theorem mem_of_value?_f {rules : List Rule} {name : String} {rule : FRule}
    (found : (ofRules rules).f.value? name = some rule) : .f rule ∈ rules ∧ rule.name = name := by
  rw [f_ofRules] at found
  obtain ⟨entry, member, listed⟩ :=
    List.mem_filterMap.mp (NameMap.mem_of_value?_ofPairs found)
  cases entry with
  | f r =>
    simp only [Rule.fEntry?, Option.some.injEq, Prod.mk.injEq] at listed
    obtain ⟨named, rfl⟩ := listed
    exact ⟨member, named⟩
  | g r => simp [Rule.fEntry?] at listed

/-- The g-rule in force for a function and a constructor is a g-rule of the program with their
key. -/
theorem mem_of_gRule? {rules : List Rule} {function constructor : String} {rule : GRule}
    (found : (ofRules rules).gRule? function constructor = some rule) :
    .g rule ∈ rules ∧ rule.key = ruleKey function constructor := by
  rw [gRule?, g_ofRules] at found
  obtain ⟨entry, member, listed⟩ :=
    List.mem_filterMap.mp (NameMap.mem_of_value?_ofPairs found)
  cases entry with
  | f r => simp [Rule.gEntry?] at listed
  | g r =>
    simp only [Rule.gEntry?, Option.some.injEq, Prod.mk.injEq] at listed
    obtain ⟨key, rfl⟩ := listed
    exact ⟨member, key⟩

/-- No g-rule is in force for a function and a constructor if no g-rule has their key. -/
theorem gRule?_eq_none_iff {rules : List Rule} {function constructor : String} :
    (ofRules rules).gRule? function constructor = none ↔
      ∀ rule, .g rule ∈ rules → rule.key ≠ ruleKey function constructor := by
  constructor
  · intro missing rule member same
    rw [gRule?, g_ofRules] at missing
    have listed : (ruleKey function constructor, rule) ∈ rules.filterMap Rule.gEntry? :=
      List.mem_filterMap.mpr ⟨.g rule, member, by rw [Rule.gEntry?, same]⟩
    obtain ⟨other, found, -⟩ := NameMap.exists_value?_ofPairs (List.mem_map_of_mem listed)
    rw [missing] at found
    contradiction
  · intro different
    cases found : (ofRules rules).gRule? function constructor with
    | none => rfl
    | some rule =>
      obtain ⟨member, same⟩ := mem_of_gRule? found
      exact absurd same (different rule member)

/-- The g-rules listed for a function are its g-rules in the program. -/
theorem mem_of_value?_gs {rules : List Rule} {function : String} {listed : List GRule}
    (found : (ofRules rules).gs.value? function = some listed) (rule : GRule) :
    rule ∈ listed ↔ .g rule ∈ rules ∧ rule.name = function := by
  rw [value?_gs_ofRules] at found
  split at found
  · contradiction
  · obtain rfl := Option.some.inj found
    rw [List.mem_filterMap]
    constructor
    · rintro ⟨entry, member, own⟩
      cases entry with
      | f r => simp [Rule.gRuleOf?] at own
      | g r =>
        rw [Rule.gRuleOf?] at own
        split at own
        · rename_i named
          obtain rfl := Option.some.inj own
          exact ⟨member, named⟩
        · contradiction
    · rintro ⟨member, named⟩
      exact ⟨.g rule, member, by rw [Rule.gRuleOf?, if_pos named]⟩

/-- A function that is listed has a rule. -/
theorem ne_nil_of_value?_gs {rules : List Rule} {function : String} {listed : List GRule}
    (found : (ofRules rules).gs.value? function = some listed) : listed ≠ [] := by
  rw [value?_gs_ofRules] at found
  split at found
  · contradiction
  · rename_i some
    obtain rfl := Option.some.inj found
    simpa using some

/-- The variables of a program are those of its rules. -/
theorem mem_vars {program : Program} {x : String} :
    x ∈ program.vars ↔ ∃ rule ∈ program.rules, x ∈ rule.vars :=
  List.mem_flatMap

/-- Addition of numbers in unary notation. -/
def additionRules : List Rule :=
  [.g ⟨"gAdd", ⟨"Z", []⟩, ["y"], .var "y"⟩,
    .g ⟨"gAdd", ⟨"S", ["x"]⟩, ["y"], .ctor "S" [.gCall "gAdd" [.var "x", .var "y"]]⟩]

end Program

end Supercompilation
