import Supercompilation.Proofs.Acceptance
import Supercompilation.Proofs.Outcome
import Supercompilation.Proofs.Ranking
import Supercompilation.Proofs.Redefinition

/-!
# Which call is to blame

An error of a driving step carries a call that is wrong by itself. It is a call to which the first
arguments lead from the driven one, or, if this call is split, what it becomes for one of the rules
of its function; and it fails with the same error when it is driven alone. So whether a call can be
driven does not depend on the calls around it, as long as these are calls of functions with rules.

`Program.AtFault` says what is known of a call that is to blame. It is established for each kind of
call that ends a chain of first arguments, and the chain itself is one induction.
-/

namespace Supercompilation

namespace Rule

/-- What the calls apply that a rule is for. -/
def head : Rule → Head
  | f _ => .fCall
  | g _ => .gCall

/-- The name of the function of a well named rule is right for its calls. -/
theorem admits_function {rule : Rule} (named : rule.wellNamed = true) :
    rule.head.admits rule.function = true := by
  cases rule with
  | f rule =>
    simp only [wellNamed, FRule.wellNamed, Bool.and_eq_true] at named
    exact named.1.1
  | g rule =>
    simp only [wellNamed, GRule.wellNamed, Bool.and_eq_true] at named
    exact named.1.1.1

end Rule

namespace Term

/-- A term leads to another one: through calls of g-functions, from each to its first argument. -/
inductive Leads : Term → Term → Prop where
  /-- To itself. -/
  | here (t : Term) : Leads t t
  /-- To where its first argument leads. -/
  | inside {inner s : Term} (name : String) (rest : List Term) (leads : Leads inner s) :
      Leads (gCall name (inner :: rest)) s

/-- The term as the first argument of calls of g-functions, the last of the list inside. -/
def wrapped (t : Term) (outer : List (String × List Term)) : Term :=
  outer.foldr (fun call inner => gCall call.1 (inner :: call.2)) t

end Term

namespace Program

/-- No rule defines the function of a call, which has an argument if the function is a
g-function. -/
def Undefined (program : Program) (call : Term) : Prop :=
  (∀ rule ∈ program.rules, call.name? ≠ some rule.function) ∧ ∀ name, call ≠ .gCall name []

/-- A call of an f-function is undefined if no rule is for the function. -/
theorem undefined_fCall_iff {program : Program} {name : String} {args : List Term} :
    program.Undefined (.fCall name args) ↔ ∀ rule ∈ program.rules, rule.function ≠ name := by
  simp [Undefined, Term.name?, eq_comm]

/-- A call of a g-function with an argument is undefined if no rule is for the function. -/
theorem undefined_gCall_iff {program : Program} {name : String} {scrutinee : Term}
    {rest : List Term} :
    program.Undefined (.gCall name (scrutinee :: rest)) ↔
      ∀ rule ∈ program.rules, rule.function ≠ name := by
  simp [Undefined, Term.name?, eq_comm]

/-- A call is at fault for an error: the error carries it, driving it alone fails in the same way,
and the error says that the function is unknown exactly if it is undefined. -/
structure AtFault (program : Program) (e : DriveError) (call : Term) : Prop where
  /-- The error carries the call. -/
  carried : e.call? = some call
  /-- The call alone fails with the error, whatever the supply. -/
  alone : ∀ supply, (program.driveTerm call supply).1 = .error e
  /-- The kind of the error tells whether the function is undefined. -/
  unknown_iff : e.kind = .unknownFunction ↔ program.Undefined call

/-- A call that driving a term comes to: the term leads to it, or the term leads to a call on a
variable, and it is what this call becomes for a rule of its function, with the constructor of the
rule for the variable. The fields of the constructor are then distinct and new. -/
inductive ComesTo (program : Program) (new : String → Prop) (t : Term) : Term → Prop where
  /-- The call itself. -/
  | call {s : Term} (isCall : s.isCall = true) (leads : t.Leads s) : ComesTo program new t s
  /-- The call for one of the rules. -/
  | branch {name x : String} {rest : List Term} {rule : GRule} {fields : List String}
      (leads : t.Leads (.gCall name (.var x :: rest))) (isRule : .g rule ∈ program.rules)
      (own : rule.name = name) (counted : fields.length = rule.pattern.fields.length)
      (distinct : fields.Nodup) (unused : ∀ y ∈ fields, new y) :
      ComesTo program new t (Term.subst [(x, .ctor rule.pattern.name (fields.map .var))]
        (.gCall name (.var x :: rest)))

variable {program : Program} {new : String → Prop}

/-- What driving the first argument comes to is what driving the call comes to. -/
theorem ComesTo.inside {inner s : Term} (comes : program.ComesTo new inner s) (name : String)
    (rest : List Term) : program.ComesTo new (.gCall name (inner :: rest)) s := by
  cases comes with
  | call isCall leads => exact .call isCall (leads.inside name rest)
  | branch leads isRule own counted distinct unused =>
    exact .branch (leads.inside name rest) isRule own counted distinct unused

/-- Names that are new in one sense may be new in another one. -/
theorem ComesTo.imp {new' : String → Prop} {t s : Term} (comes : program.ComesTo new t s)
    (weaker : ∀ y, new y → new' y) : program.ComesTo new' t s := by
  cases comes with
  | call isCall leads => exact .call isCall leads
  | branch leads isRule own counted distinct unused =>
    exact .branch leads isRule own counted distinct fun y member => weaker y (unused y member)

/-- An error in unfolding a call carries the call, and says that the function is unknown exactly if
it has no rule. -/
theorem error_of_unfold {name : String} {args : List Term} {e : DriveError}
    (failed : program.unfold name args = .error e) :
    e.call? = some (.fCall name args) ∧
      (e.kind = .unknownFunction ↔ program.f.value? name = none) := by
  rw [unfold] at failed
  cases found : program.f.value? name with
  | none =>
    rw [found] at failed
    obtain rfl := Except.error.inj failed
    exact ⟨rfl, by simp [DriveError.kind]⟩
  | some rule =>
    simp only [found] at failed
    split at failed
    · contradiction
    · obtain rfl := Except.error.inj failed
      exact ⟨rfl, by simp [DriveError.kind]⟩

/-- An error in replacing a call carries the call, and never says that the function is unknown. -/
theorem error_of_applyG {name constructor : String} {fields rest : List Term} {e : DriveError}
    (failed : program.applyG name constructor fields rest = .error e) :
    e.call? = some (.gCall name (.ctor constructor fields :: rest)) ∧
      e.kind ≠ .unknownFunction := by
  rw [applyG_eq] at failed
  cases found : program.gRule? name constructor with
  | none =>
    rw [found] at failed
    obtain rfl := Except.error.inj failed
    exact ⟨rfl, by simp [DriveError.kind]⟩
  | some rule =>
    simp only [found, GRule.outcome] at failed
    split at failed
    · obtain rfl := Except.error.inj failed
      exact ⟨rfl, by simp [DriveError.kind]⟩
    · split at failed
      · obtain rfl := Except.error.inj failed
        exact ⟨rfl, by simp [DriveError.kind]⟩
      · contradiction

/-- A case distinction fails for one of its rules: what the call becomes for the rule, with fields
that the supply did not know, cannot be replaced. -/
theorem exists_rule_of_split_error {name x : String} {rest : List Term} {listed : List GRule}
    {supply : NameSupply} {e : DriveError}
    (failed : (program.split name x rest listed supply).1 = .error e) :
    ∃ rule ∈ listed, ∃ fields : List String, fields.length = rule.pattern.fields.length ∧
      fields.Nodup ∧ (∀ y ∈ fields, ¬ supply.Knows y) ∧
      program.applyG name rule.pattern.name (fields.map .var)
        (rest.map (Term.subst [(x, .ctor rule.pattern.name (fields.map .var))])) = .error e := by
  induction listed generalizing supply with
  | nil => simp [split] at failed
  | cons rule rules ih =>
    have issued := NameSupply.issued_freshMany rule.pattern.fields.length supply
    have counted := NameSupply.length_freshMany rule.pattern.fields.length supply
    rw [split] at failed
    generalize NameSupply.freshMany rule.pattern.fields.length supply = fresh
      at failed issued counted
    obtain ⟨names, later⟩ := fresh
    dsimp only at failed issued counted
    rw [Term.substArgs_eq_map] at failed
    split at failed
    · rename_i e' refused
      obtain rfl := Except.error.inj failed
      exact ⟨rule, List.mem_cons_self, names, counted, issued.distinct, issued.unknown, refused⟩
    · -- The rule opens a branch, and the error comes from a later rule.
      obtain ⟨other, member, fields, counted, distinct, unknown, refused⟩ :=
        ih (map_eq_error failed)
      exact ⟨other, List.mem_cons_of_mem _ member, fields, counted, distinct,
        fun y isField known => unknown y isField (issued.grows y known), refused⟩

section Named

variable {rules : List Rule} (named : ∀ rule ∈ rules, rule.wellNamed = true) {name : String}

include named

/-- An f-function has no rule in force exactly if no rule defines it. -/
theorem value?_f_eq_none_iff (admits : Head.fCall.admits name = true) :
    (ofRules rules).f.value? name = none ↔ ∀ rule ∈ rules, rule.function ≠ name := by
  constructor
  · rintro missing rule member rfl
    cases rule with
    | f rule =>
      have entry : rule.name ∈ (rules.filterMap Rule.fEntry?).map Prod.fst :=
        List.mem_map.mpr ⟨(rule.name, rule), List.mem_filterMap.mpr ⟨_, member, rfl⟩, rfl⟩
      obtain ⟨found, inForce, -⟩ := NameMap.exists_value?_ofPairs entry
      rw [f_ofRules, Rule.function, inForce] at missing
      contradiction
    | g rule =>
      have same : Head.fCall = .gCall :=
        Head.eq_of_admits admits (Rule.admits_function (named _ member))
      contradiction
  · intro undefined
    cases found : (ofRules rules).f.value? name with
    | none => rfl
    | some rule =>
      obtain ⟨member, own⟩ := mem_of_value?_f found
      exact absurd own (undefined _ member)

/-- A g-function is not listed exactly if no rule defines it. -/
theorem value?_gs_eq_none_iff (admits : Head.gCall.admits name = true) :
    (ofRules rules).gs.value? name = none ↔ ∀ rule ∈ rules, rule.function ≠ name := by
  constructor
  · rintro missing rule member rfl
    cases rule with
    | f rule =>
      have same : Head.gCall = .fCall :=
        Head.eq_of_admits admits (Rule.admits_function (named _ member))
      contradiction
    | g rule =>
      obtain ⟨listed, found⟩ := exists_value?_gs member
      rw [Rule.function, found] at missing
      contradiction
  · intro undefined
    cases found : (ofRules rules).gs.value? name with
    | none => rfl
    | some listed =>
      obtain ⟨rule, member⟩ := List.exists_mem_of_ne_nil _ (ne_nil_of_value?_gs found)
      obtain ⟨isRule, own⟩ := (mem_of_value?_gs found rule).mp member
      exact absurd own (undefined _ isRule)

/-- A call of an f-function that fails is at fault. -/
theorem atFault_fCall {args : List Term} {e : DriveError} (admits : Head.fCall.admits name = true)
    (failed : (ofRules rules).unfold name args = .error e) :
    (ofRules rules).AtFault e (.fCall name args) := by
  obtain ⟨carried, unknown⟩ := error_of_unfold failed
  refine ⟨carried, fun supply => ?_, ?_⟩
  · rw [driveTerm_fCall, failed]
    rfl
  · rw [unknown, value?_f_eq_none_iff named admits, undefined_fCall_iff, rules_ofRules]

/-- A call of a g-function that fails is at fault, unless the function is listed. -/
theorem atFault_or_listed {scrutinee : Term} {rest : List Term} {supply : NameSupply}
    {e : DriveError} (admits : Head.gCall.admits name = true)
    (failed : ((ofRules rules).driveTerm (.gCall name (scrutinee :: rest)) supply).1 = .error e) :
    (ofRules rules).AtFault e (.gCall name (scrutinee :: rest)) ∨
      ∃ listed, (ofRules rules).gs.value? name = some listed := by
  cases found : (ofRules rules).gs.value? name with
  | some listed => exact .inr ⟨listed, rfl⟩
  | none =>
    rw [driveTerm_unlisted found] at failed
    obtain rfl := Except.error.inj failed
    refine .inl ⟨rfl, fun supply => by rw [driveTerm_unlisted found], ?_⟩
    rw [undefined_gCall_iff, rules_ofRules, ← value?_gs_eq_none_iff named admits, found]
    simp [DriveError.kind]

/-- A call of a g-function on a constructor that cannot be replaced is at fault. -/
theorem atFault_ctor {constructor : String} {fields rest : List Term} {listed : List GRule}
    {e : DriveError} (admits : Head.gCall.admits name = true)
    (found : (ofRules rules).gs.value? name = some listed)
    (failed : (ofRules rules).applyG name constructor fields rest = .error e) :
    (ofRules rules).AtFault e (.gCall name (.ctor constructor fields :: rest)) := by
  obtain ⟨carried, notUnknown⟩ := error_of_applyG failed
  refine ⟨carried, fun supply => ?_, ?_⟩
  · rw [driveTerm_ctor found, failed]
    rfl
  · rw [undefined_gCall_iff, rules_ofRules, ← value?_gs_eq_none_iff named admits, found]
    simp [notUnknown]

omit named in
/-- A call of a g-function without arguments is at fault. -/
theorem atFault_bare (rules : List Rule) (name : String) :
    (ofRules rules).AtFault (.noScrutinee name (.gCall name [])) (.gCall name []) := by
  refine ⟨rfl, fun supply => by rw [driveTerm], ?_⟩
  simp [DriveError.kind, Undefined]

/-- If driving a call fails, driving it comes to a call that is at fault. -/
theorem exists_atFault {t : Term} (written : t.plain = true) (call : t.isCall = true)
    (lawful : t.wellNamed = true) {supply : NameSupply} {e : DriveError}
    (failed : ((ofRules rules).driveTerm t supply).1 = .error e) :
    ∃ s, (ofRules rules).ComesTo (fun y => ¬ supply.Knows y) t s ∧
      (ofRules rules).AtFault e s := by
  revert lawful failed
  refine Term.callInduction ?_ ?_ ?_ ?_ ?_ t written call
  · intro name args _ lawful failed
    have admits := (Term.wellNamed_app.mp lawful).1
    rw [driveTerm_fCall] at failed
    exact ⟨_, .call rfl (.here _), atFault_fCall named admits (map_eq_error failed)⟩
  · intro name _ failed
    rw [driveTerm] at failed
    obtain rfl := Except.error.inj failed
    exact ⟨_, .call rfl (.here _), atFault_bare rules name⟩
  · intro name constructor fields rest _ lawful failed
    have admits := (Term.wellNamed_app.mp lawful).1
    refine ⟨_, .call rfl (.here _), ?_⟩
    rcases atFault_or_listed named admits failed with fault | ⟨listed, found⟩
    · exact fault
    · rw [driveTerm_ctor found] at failed
      exact atFault_ctor named admits found (map_eq_error failed)
  · intro name x rest _ lawful failed
    have admits := (Term.wellNamed_app.mp lawful).1
    rcases atFault_or_listed named admits failed with fault | ⟨listed, found⟩
    · exact ⟨_, .call rfl (.here _), fault⟩
    · rw [driveTerm_var found] at failed
      obtain ⟨rule, member, fields, counted, distinct, unknown, refused⟩ :=
        exists_rule_of_split_error failed
      obtain ⟨isRule, own⟩ := (mem_of_value?_gs found rule).mp member
      rw [← rules_ofRules rules] at isRule
      refine ⟨_, .branch (.here _) isRule own counted distinct unknown, ?_⟩
      rw [Term.subst_app, List.map_cons, Term.subst_var_single, if_pos rfl]
      exact atFault_ctor named admits found refused
  · intro name inner rest _ call ih lawful failed
    obtain ⟨admits, lawfulArgs⟩ := Term.wellNamed_app.mp lawful
    rcases atFault_or_listed named admits failed with fault | ⟨listed, found⟩
    · exact ⟨_, .call rfl (.here _), fault⟩
    · rw [driveTerm_nested found call] at failed
      obtain ⟨s, comes, fault⟩ := ih (lawfulArgs inner List.mem_cons_self) (map_eq_error failed)
      exact ⟨s, comes.inside name rest, fault⟩

end Named

/-- Whether a call can be driven, and with how many results, does not depend on the supply. -/
theorem exists_driveTerm_ok {t : Term} (written : t.plain = true) (call : t.isCall = true)
    (supply supply' : NameSupply) :
    ∀ branches, (program.driveTerm t supply).1 = .ok branches →
      ∃ branches', (program.driveTerm t supply').1 = .ok branches' ∧
        branches'.length = branches.length := by
  refine Term.callInduction ?_ ?_ ?_ ?_ ?_ t written call
  · intro name args _ branches driven
    rw [driveTerm_fCall] at driven ⊢
    exact ⟨branches, driven, rfl⟩
  · intro name branches driven
    simp [driveTerm] at driven
  · intro name constructor fields rest _ branches driven
    cases found : program.gs.value? name with
    | none => simp [driveTerm_unlisted found] at driven
    | some listed =>
      rw [driveTerm_ctor found] at driven ⊢
      exact ⟨branches, driven, rfl⟩
  · intro name x rest _ branches driven
    cases found : program.gs.value? name with
    | none => simp [driveTerm_unlisted found] at driven
    | some listed =>
      rw [driveTerm_var found] at driven ⊢
      -- Only the names of the fields come from the supply, and the rules in force do not ask for
      -- them.
      have each := (split_ok (Prod.ext driven rfl)).1
      have replaceable : ∀ rule ∈ listed, program.Replaceable name rest.length rule := by
        intro rule member
        obtain ⟨branch, -, isFor⟩ := exists_right_of_forall₂ each member
        obtain ⟨inForce, isInForce, takes, -⟩ := isFor.opens
        exact ⟨inForce, isInForce, takes⟩
      obtain ⟨branches', driven'⟩ := exists_split_ok (x := x) replaceable supply'
      have each' := (split_ok (Prod.ext driven' rfl)).1
      exact ⟨branches', driven', each'.length_eq.symm.trans each.length_eq⟩
  · intro name inner rest _ call ih branches driven
    obtain ⟨listed, results, found, inside, rfl⟩ :=
      driveTerm_nested_ok call (Prod.ext driven rfl)
    obtain ⟨results', inside', same⟩ := ih results (congrArg Prod.fst inside)
    refine ⟨results'.map (Branch.inside name rest), ?_, ?_⟩
    · rw [driveTerm_nested found call, inside']
      rfl
    · rw [List.length_map, List.length_map, same]

/-- A call inside calls of listed functions is driven as by itself, with as many results. -/
theorem driveTerm_wrapped {s : Term} (call : s.isCall = true) {supply : NameSupply}
    {branches : List Branch} (driven : (program.driveTerm s supply).1 = .ok branches)
    {outer : List (String × List Term)}
    (listed : ∀ around ∈ outer, ∃ found, program.gs.value? around.1 = some found) :
    (s.wrapped outer).isCall = true ∧
      ∃ branches', (program.driveTerm (s.wrapped outer) supply).1 = .ok branches' ∧
        branches'.length = branches.length := by
  induction outer with
  | nil => exact ⟨call, branches, driven, rfl⟩
  | cons around outer ih =>
    rw [List.forall_mem_cons] at listed
    obtain ⟨found, isListed⟩ := listed.1
    obtain ⟨callInside, results, inside, same⟩ := ih listed.2
    refine ⟨rfl, results.map (Branch.inside around.1 around.2), ?_, ?_⟩
    · change (program.driveTerm (.gCall around.1 (s.wrapped outer :: around.2)) supply).1 = _
      rw [driveTerm_nested isListed callInside, inside]
      rfl
    · rw [List.length_map, same]

end Program

namespace Supercompiler

/-- If driving a call fails, it fails because the program does not support a call, and the error
carries a call that is to blame: one to which first arguments lead from the driven call, or what a
call on a variable becomes for a rule of its function, with fields that are distinct and new. Driven
alone, it fails with the same error, and the error is about an unknown function exactly if no rule
defines the function and, in a call of a g-function, there is an argument. If driving a call
succeeds, so does driving it inside calls of functions with rules, with as many results. -/
theorem drive_blames {programText termText : String} {program : Program} {t : Term}
    (parsedProgram : Program.parse programText = .ok program)
    (parsedTerm : Term.parse termText = .ok t) (call : t.isCall = true) (supply : NameSupply) :
    (∀ e, (drive ⟨program, supply⟩ t).1 = .error e →
      e.kind ∈ [ErrorKind.unknownFunction, .arity, .nonExhaustive] ∧
      ∃ s, e.call? = some s ∧
        program.ComesTo (fun y => ¬ supply.Knows y ∧ y ∉ program.vars ∧ y ∉ t.vars) t s ∧
        (∀ supply', (drive ⟨program, supply'⟩ s).1 = .error e) ∧
        (e.kind = .unknownFunction ↔ program.Undefined s)) ∧
    ∀ branches, (drive ⟨program, supply⟩ t).1 = .ok branches →
      ∀ outer : List (String × List Term),
        (∀ around ∈ outer, ∃ rule, .g rule ∈ program.rules ∧ rule.name = around.1) →
        ∀ supply', ∃ branches', (drive ⟨program, supply'⟩ (t.wrapped outer)).1 = .ok branches' ∧
          branches'.length = branches.length := by
  have written := Term.plain_of_parse parsedTerm
  obtain ⟨lawful, -⟩ := Term.parse_eq_ok.mp parsedTerm
  obtain ⟨rules, rfl, named, -⟩ := Program.parse_eq_ok.mp parsedProgram
  constructor
  · intro e failed
    refine ⟨DriveError.kind_mem (Program.kind_of_driveTerm written call failed), ?_⟩
    obtain ⟨s, comes, fault⟩ := Program.exists_atFault named written call lawful failed
    refine ⟨s, fault.carried, comes.imp fun y unknown => ?_, fun supply' => fault.alone _,
      fault.unknown_iff⟩
    simp only [NameSupply.knows_reserve, not_or] at unknown
    exact ⟨unknown.1.1, unknown.1.2, unknown.2⟩
  · intro branches driven outer defined supply'
    have listed : ∀ around ∈ outer,
        ∃ found, (Program.ofRules rules).gs.value? around.1 = some found := by
      intro around member
      obtain ⟨rule, isRule, own⟩ := defined around member
      rw [Program.rules_ofRules] at isRule
      exact own ▸ Program.exists_value?_gs isRule
    obtain ⟨middle, driven', same⟩ := Program.exists_driveTerm_ok written call _
      ((supply'.reserve (Program.ofRules rules).vars).reserve (t.wrapped outer).vars)
      branches driven
    obtain ⟨-, branches', wrapped, same'⟩ := Program.driveTerm_wrapped call driven' listed
    exact ⟨branches', wrapped, same'.trans same⟩

/-- A call on a variable inside another call fails for the second rule of its function, and what it
becomes for this rule is to blame. A call on a constructor has one result, inside a call, too. -/
theorem drive_blames_second :
    ∃ program, Program.parse "gA(Z()) = Z(); gA(S(a), y) = y;" = .ok program ∧
      (∃ e, (drive ⟨program, {}⟩ (.gCall "gA" [.gCall "gA" [.var "x"]])).1 = .error e ∧
        e.call? = some (.gCall "gA" [.ctor "S" [.var "v_1"]]) ∧
        (drive ⟨program, {}⟩ (.gCall "gA" [.ctor "S" [.var "v_1"]])).1 = .error e ∧
        ¬ program.Undefined (.gCall "gA" [.ctor "S" [.var "v_1"]])) ∧
      ∃ branches, (drive ⟨program, {}⟩
        (.gCall "gA" [.gCall "gA" [.ctor "Z" []], .var "x"])).1 = .ok branches ∧
        branches.length = 1 := by
  let rules : List Rule :=
    [.g ⟨"gA", ⟨"Z", []⟩, [], .ctor "Z" []⟩, .g ⟨"gA", ⟨"S", ["a"]⟩, ["y"], .var "y"⟩]
  have parsed : Program.parse "gA(Z()) = Z(); gA(S(a), y) = y;" = .ok (.ofRules rules) := by rfl
  refine ⟨.ofRules rules, parsed, ?_, ?_⟩
  · have term : Term.parse "gA(gA(x))" = .ok (.gCall "gA" [.gCall "gA" [.var "x"]]) := by rfl
    have failed : (drive ⟨.ofRules rules, {}⟩ (.gCall "gA" [.gCall "gA" [.var "x"]])).1 =
        .error (.wrongArity "gA" 2 (.gCall "gA" [.ctor "S" [.var "v_1"]]) 1) := by cbv
    obtain ⟨-, s, carried, -, alone, unknown⟩ := (drive_blames parsed term rfl {}).1 _ failed
    obtain rfl := Option.some.inj carried
    exact ⟨_, failed, rfl, alone {}, fun undefined => absurd (unknown.mpr undefined) (by decide)⟩
  · have term : Term.parse "gA(Z())" = .ok (.gCall "gA" [.ctor "Z" []]) := by rfl
    have driven : (drive ⟨.ofRules rules, {}⟩ (.gCall "gA" [.ctor "Z" []])).1 =
        .ok [⟨.ctor "Z" [], none⟩] := by rfl
    refine (drive_blames parsed term rfl {}).2 _ driven [("gA", [.var "x"])] ?_ {}
    rintro around member
    obtain rfl := List.mem_singleton.mp member
    exact ⟨⟨"gA", ⟨"Z", []⟩, [], .ctor "Z" []⟩, by simp [rules], rfl⟩

end Supercompiler

end Supercompilation
