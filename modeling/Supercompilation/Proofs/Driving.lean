import Mathlib.Data.List.Forall2
import Supercompilation.ErrorKind
import Supercompilation.Proofs.NameSupply
import Supercompilation.Proofs.Program

/-!
# Driving calls

A plain call is driven at one place: the chain of first arguments leads through calls of g-functions
to a call that is unfolded, replaced by a rule, or split. The results stand inside the outer calls
of the chain. `Term.callInduction` is the induction along this chain, and the lemmas below say once
what driving does at each kind of place.

What a rule makes of a call is its body with the arguments for the variables of its head. Any map of
terms that passes through the bodies of the rules therefore passes through driving, as long as no
name is split.
-/

namespace Supercompilation

namespace Term

/-- Induction along the chain of first arguments of a plain call. -/
@[elab_as_elim]
theorem callInduction {motive : Term → Prop}
    (unfolds : ∀ name args, (fCall name args).plain = true → motive (fCall name args))
    (bare : ∀ name, motive (gCall name []))
    (applies : ∀ name constructor fields rest,
      (gCall name (ctor constructor fields :: rest)).plain = true →
        motive (gCall name (ctor constructor fields :: rest)))
    (splits : ∀ name x rest, (gCall name (var x :: rest)).plain = true →
      motive (gCall name (var x :: rest)))
    (nests : ∀ name inner rest, (gCall name (inner :: rest)).plain = true →
      inner.isCall = true → motive inner → motive (gCall name (inner :: rest)))
    (t : Term) (written : t.plain = true) (call : t.isCall = true) : motive t := by
  induction t with
  | var name => simp [isCall] at call
  | letIn body bindings => simp [isCall] at call
  | app head name args ih =>
    cases head with
    | ctor => simp [isCall] at call
    | pattern => simp [isCall] at call
    | fCall => exact unfolds name args written
    | gCall =>
      cases args with
      | nil => exact bare name
      | cons scrutinee rest =>
        have plainScrutinee := (plain_app.mp written).2 scrutinee List.mem_cons_self
        have inner := ih scrutinee List.mem_cons_self plainScrutinee
        cases scrutinee with
        | var x => exact splits name x rest written
        | letIn body bindings => simp at plainScrutinee
        | app head' name' args' =>
          cases head' with
          | ctor => exact applies name name' args' rest written
          | pattern => simp at plainScrutinee
          | fCall => exact nests name _ rest written rfl (inner rfl)
          | gCall => exact nests name _ rest written rfl (inner rfl)

/-- The function and the variable of the call that a case distinction is about, if driving a call
comes to one. -/
def splitCall? : Term → Option (String × String)
  | app .gCall name (var x :: _) => some (name, x)
  | app .gCall _ (scrutinee :: _) => scrutinee.splitCall?
  | _ => none

/-- The case distinction of a call inside a call. -/
theorem splitCall?_nested {inner : Term} (call : inner.isCall = true) (name : String)
    (rest : List Term) : (gCall name (inner :: rest)).splitCall? = inner.splitCall? := by
  cases inner with
  | var x => simp [isCall] at call
  | letIn body bindings => simp [isCall] at call
  | app head name' args => rw [splitCall?]; simp

/-- An application is a call if its head is a function. -/
theorem isCall_app {head : Head} {name : String} {args : List Term} :
    (app head name args).isCall = true ↔ head = .fCall ∨ head = .gCall := by
  cases head <;> simp [isCall]

/-- Whether a term is a call depends on its kind alone. -/
theorem isCall_iff_kind {t : Term} :
    t.isCall = true ↔ t.kind = .app .fCall ∨ t.kind = .app .gCall := by
  cases t with
  | var name => simp [isCall, kind]
  | letIn body bindings => simp [isCall, kind]
  | app head name args => simp [isCall_app, kind]

/-- A substitution leaves a call a call. -/
theorem isCall_subst {t : Term} (call : t.isCall = true) (values : Substitution) :
    (t.subst values).isCall = true := by
  cases t with
  | var name => simp [isCall] at call
  | letIn body bindings => simp [isCall] at call
  | app head name args =>
    rw [subst_app, isCall_app]
    exact isCall_app.mp call

end Term

/-- The fresh names of a result: the fields of its contraction. -/
def Branch.freshVars (branch : Branch) : List String :=
  match branch.contraction with
  | none => []
  | some contraction => contraction.pattern.occurrences

/-- The fresh names of a result with a contraction. -/
theorem Branch.freshVars_of_contraction {branch : Branch} {contraction : Contraction}
    (contracted : branch.contraction = some contraction) :
    branch.freshVars = contraction.pattern.occurrences := by
  rw [freshVars, contracted]

/-- A result inside a call of a g-function. -/
def Branch.inside (name : String) (rest : List Term) (branch : Branch) : Branch :=
  ⟨.gCall name (branch.term :: rest), branch.contraction⟩

@[simp]
theorem Branch.freshVars_inside (name : String) (rest : List Term) (branch : Branch) :
    (branch.inside name rest).freshVars = branch.freshVars := rfl

/-- The error about what a map makes of the call at fault. -/
def DriveError.map (φ : Term → Term) : DriveError → DriveError
  | unknownFunction name call => .unknownFunction name (φ call)
  | wrongArity name expected call given => .wrongArity name expected (φ call) given
  | noScrutinee name call => .noScrutinee name (φ call)
  | wrongFields pattern call given => .wrongFields pattern (φ call) given
  | noRule name constructor call => .noRule name constructor (φ call)
  | undrivable t => .undrivable (φ t)

/-- A map of terms does not change the kind of an error. -/
@[simp]
theorem DriveError.kind_map (φ : Term → Term) (e : DriveError) : (e.map φ).kind = e.kind := by
  cases e <;> rfl

namespace Program

variable {rules : List Rule}

/-- A term that some rule makes of arguments: the body of the rule, with the arguments for the
variables of its head. -/
def Makes (rules : List Rule) (args : List Term) (t : Term) : Prop :=
  ∃ rule ∈ rules, rule.headVars.length = args.length ∧
    t = rule.body.subst (.ofPairs (rule.headVars.zip args))

/-- Fields and other arguments are given to the variables of a head in one go. -/
theorem zip_headVars (rule : GRule) {fields rest : List Term}
    (sameFields : rule.pattern.fields.length = fields.length) :
    rule.pattern.fields.zip fields ++ rule.params.zip rest =
      (Rule.g rule).headVars.zip (fields ++ rest) := by
  rw [Rule.headVars, List.zip_append sameFields]

/-- Unfolding a call replaces it by the body of an f-rule of its function. -/
theorem exists_rule_of_unfold {name : String} {args : List Term} {t : Term}
    (unfolded : (ofRules rules).unfold name args = .ok t) :
    ∃ rule : FRule, .f rule ∈ rules ∧ rule.name = name ∧
      (Rule.f rule).headVars.length = args.length ∧
      t = rule.body.subst (.ofPairs ((Rule.f rule).headVars.zip args)) := by
  rw [unfold] at unfolded
  split at unfolded
  · contradiction
  · rename_i rule found
    split at unfolded
    · rename_i same
      obtain ⟨isRule, named⟩ := mem_of_value?_f found
      exact ⟨rule, isRule, named, same, (Except.ok.inj unfolded).symm⟩
    · contradiction

/-- Replacing a call replaces it by the body of a g-rule with the key of its function and
constructor. -/
theorem exists_rule_of_applyG {name constructor : String} {fields rest : List Term} {t : Term}
    (replaced : (ofRules rules).applyG name constructor fields rest = .ok t) :
    ∃ rule : GRule, .g rule ∈ rules ∧ rule.key = ruleKey name constructor ∧
      (Rule.g rule).headVars.length = (fields ++ rest).length ∧
      t = rule.body.subst (.ofPairs ((Rule.g rule).headVars.zip (fields ++ rest))) := by
  rw [applyG] at replaced
  split at replaced
  · contradiction
  · rename_i rule found
    split at replaced
    · contradiction
    · rename_i sameFields
      split at replaced
      · contradiction
      · rename_i sameParams
        rw [not_not] at sameFields sameParams
        obtain ⟨isRule, key⟩ := mem_of_gRule? found
        refine ⟨rule, isRule, key, ?_, ?_⟩
        · simp [Rule.headVars, sameFields, sameParams]
        · rw [← zip_headVars rule sameFields]
          exact (Except.ok.inj replaced).symm

/-- Unfolding a call yields what an f-rule makes of its arguments. -/
theorem makes_of_unfold {name : String} {args : List Term} {t : Term}
    (unfolded : (ofRules rules).unfold name args = .ok t) : Makes rules args t := by
  obtain ⟨rule, isRule, -, same, made⟩ := exists_rule_of_unfold unfolded
  exact ⟨.f rule, isRule, same, made⟩

/-- Replacing a call yields what a g-rule makes of the fields and the other arguments. -/
theorem makes_of_applyG {name constructor : String} {fields rest : List Term} {t : Term}
    (replaced : (ofRules rules).applyG name constructor fields rest = .ok t) :
    Makes rules (fields ++ rest) t := by
  obtain ⟨rule, isRule, -, same, made⟩ := exists_rule_of_applyG replaced
  exact ⟨.g rule, isRule, same, made⟩

/-- Pairs with mapped values. -/
theorem zip_map_values (names : List String) (args : List Term) (φ : Term → Term) :
    names.zip (args.map φ) = (names.zip args).map fun pair => (pair.1, φ pair.2) := by
  rw [List.zip_map_right]
  rfl

/-- In the body of a closed rule every variable is given an argument, and mapping the arguments maps
what it is given. -/
theorem exists_value?_of_closed {rule : Rule} (closed : rule.Closed) {args : List Term}
    (same : rule.headVars.length = args.length) (φ : Term → Term) {x : String}
    (occurs : x ∈ rule.body.occurrences) :
    ∃ arg, NameMap.value? (NameMap.ofPairs (rule.headVars.zip args)) x = some arg ∧
      NameMap.value? (NameMap.ofPairs (rule.headVars.zip (args.map φ))) x = some (φ arg) := by
  have named : x ∈ (rule.headVars.zip args).map Prod.fst := by
    rw [List.map_fst_zip (Nat.le_of_eq same)]
    exact closed x (Term.mem_vars.mpr occurs)
  obtain ⟨arg, found, -⟩ := NameMap.exists_value?_ofPairs named
  refine ⟨arg, found, ?_⟩
  rw [zip_map_values, NameMap.value?_ofPairs_map, found, Option.map_some]

/-- A map of terms passes through the rules: it leaves applications applications, and applied to
what a rule makes of arguments it gives what the rule makes of the mapped arguments. -/
structure PassesRules (rules : List Rule) (φ : Term → Term) : Prop where
  /-- An application is mapped argument by argument. -/
  app : ∀ head name args, φ (.app head name args) = .app head name (args.map φ)
  /-- The body of a rule may be mapped before or after its variables are replaced. -/
  body : ∀ rule ∈ rules, ∀ args : List Term, rule.headVars.length = args.length →
    φ (rule.body.subst (.ofPairs (rule.headVars.zip args))) =
      rule.body.subst (.ofPairs (rule.headVars.zip (args.map φ)))

/-- What becomes of an outcome if the terms are mapped: the result by one map, the call at fault by
another. -/
def mapOutcome {α β : Type} (φ : Term → Term) (ψ : α → β) (outcome : Except DriveError α) :
    Except DriveError β :=
  (outcome.map ψ).mapError (DriveError.map φ)

@[simp]
theorem mapOutcome_ok {α β : Type} (φ : Term → Term) (ψ : α → β) (result : α) :
    mapOutcome φ ψ (.ok result) = .ok (ψ result) := rfl

@[simp]
theorem mapOutcome_error {α β : Type} (φ : Term → Term) (ψ : α → β) (e : DriveError) :
    mapOutcome φ ψ (.error e) = .error (e.map φ) := rfl

/-- Unfolding passes a map through that the rules pass. -/
theorem unfold_map {φ : Term → Term} (passes : PassesRules rules φ) (name : String)
    (args : List Term) :
    (ofRules rules).unfold name (args.map φ) =
      mapOutcome φ φ ((ofRules rules).unfold name args) := by
  rw [unfold, unfold]
  cases found : (ofRules rules).f.value? name with
  | none => rw [mapOutcome_error, DriveError.map, passes.app]
  | some rule =>
    simp only [List.length_map]
    by_cases same : rule.params.length = args.length
    · rw [if_pos same, if_pos same, mapOutcome_ok]
      exact congrArg Except.ok (passes.body (.f rule) (mem_of_value?_f found).1 args same).symm
    · rw [if_neg same, if_neg same, mapOutcome_error, DriveError.map, passes.app]

/-- Replacing a call passes a map through that the rules pass. -/
theorem applyG_map {φ : Term → Term} (passes : PassesRules rules φ)
    (name constructor : String) (fields rest : List Term) :
    (ofRules rules).applyG name constructor (fields.map φ) (rest.map φ) =
      mapOutcome φ φ ((ofRules rules).applyG name constructor fields rest) := by
  have call : Term.gCall name (.ctor constructor (fields.map φ) :: rest.map φ) =
      φ (.gCall name (.ctor constructor fields :: rest)) := by
    rw [passes.app, List.map_cons, passes.app]
  rw [applyG, applyG]
  simp only [call, List.length_map]
  cases found : (ofRules rules).gRule? name constructor with
  | none => rfl
  | some rule =>
    by_cases sameFields : rule.pattern.fields.length = fields.length
    · by_cases sameParams : rule.params.length = rest.length
      · simp only [sameFields, sameParams, ne_eq, not_true_eq_false, if_false]
        rw [zip_headVars rule sameFields, zip_headVars rule (by simpa using sameFields),
          ← List.map_append, mapOutcome_ok]
        refine congrArg Except.ok (passes.body (.g rule) (mem_of_gRule? found).1 _ ?_).symm
        simp [Rule.headVars, sameFields, sameParams]
      · simp only [sameFields, sameParams, ne_eq, not_true_eq_false, not_false_eq_true, if_false,
          if_true]
        rfl
    · simp only [sameFields, ne_eq, not_false_eq_true, if_true]
      rfl

/-- No rule is for the constructor of a call exactly if no g-rule has its key. -/
theorem applyG_nonExhaustive_iff {name constructor : String} {fields rest : List Term} :
    (∃ e, (ofRules rules).applyG name constructor fields rest = .error e ∧
      e.kind = .nonExhaustive) ↔ (ofRules rules).gRule? name constructor = none := by
  rw [applyG]
  cases found : (ofRules rules).gRule? name constructor with
  | none => simp [DriveError.kind]
  | some rule =>
    by_cases sameFields : rule.pattern.fields.length = fields.length
    · by_cases sameParams : rule.params.length = rest.length
      · simp [sameFields, sameParams]
      · simp [sameFields, sameParams, DriveError.kind]
    · simp [sameFields, DriveError.kind]

/-- A single result without a contraction comes from a term. -/
theorem map_single_eq_ok {outcome : Except DriveError Term} {branches : List Branch} :
    (outcome.map fun t => [⟨t, none⟩]) = .ok branches ↔
      ∃ t, outcome = .ok t ∧ branches = [⟨t, none⟩] := by
  cases outcome with
  | error e => simp [Except.map]
  | ok t => simp [Except.map, eq_comm]

/-- A call of an f-function is unfolded. -/
theorem driveTerm_fCall (program : Program) (name : String) (args : List Term)
    (supply : NameSupply) :
    program.driveTerm (.fCall name args) supply =
      ((program.unfold name args).map fun t => [⟨t, none⟩], supply) := by
  rw [driveTerm]

/-- A call of a g-function without rules cannot be driven. -/
theorem driveTerm_unlisted {program : Program} {name : String}
    (unlisted : program.gs.value? name = none) (scrutinee : Term) (rest : List Term)
    (supply : NameSupply) :
    program.driveTerm (.gCall name (scrutinee :: rest)) supply =
      (.error (.unknownFunction name (.gCall name (scrutinee :: rest))), supply) := by
  rw [driveTerm, unlisted]

/-- A call of a g-function on a constructor is replaced. -/
theorem driveTerm_ctor {program : Program} {name : String} {listed : List GRule}
    (found : program.gs.value? name = some listed) (constructor : String)
    (fields rest : List Term) (supply : NameSupply) :
    program.driveTerm (.gCall name (.ctor constructor fields :: rest)) supply =
      ((program.applyG name constructor fields rest).map fun t => [⟨t, none⟩], supply) := by
  rw [driveTerm, found]

/-- A call of a g-function on a variable is split. -/
theorem driveTerm_var {program : Program} {name : String} {listed : List GRule}
    (found : program.gs.value? name = some listed) (x : String) (rest : List Term)
    (supply : NameSupply) :
    program.driveTerm (.gCall name (.var x :: rest)) supply =
      program.split name x rest listed supply := by
  rw [driveTerm, found]

/-- A call of a g-function on anything but a variable or a constructor is driven inside. -/
theorem driveTerm_inside {program : Program} {name : String} {listed : List GRule}
    (found : program.gs.value? name = some listed) {inner : Term} (notVar : ∀ x, inner ≠ .var x)
    (notCtor : ∀ constructor fields, inner ≠ .ctor constructor fields)
    (rest : List Term) (supply : NameSupply) :
    program.driveTerm (.gCall name (inner :: rest)) supply =
      ((program.driveTerm inner supply).1.map (List.map (Branch.inside name rest)),
        (program.driveTerm inner supply).2) := by
  conv_lhs => rw [driveTerm]
  rw [found]
  cases inner with
  | var x => exact absurd rfl (notVar x)
  | letIn body bindings => rfl
  | app head name' args =>
    cases head with
    | ctor => exact absurd rfl (notCtor name' args)
    | pattern => rfl
    | fCall => rfl
    | gCall => rfl

/-- A call of a g-function on a call is driven inside. -/
theorem driveTerm_nested {program : Program} {name : String} {listed : List GRule}
    (found : program.gs.value? name = some listed) {inner : Term} (call : inner.isCall = true)
    (rest : List Term) (supply : NameSupply) :
    program.driveTerm (.gCall name (inner :: rest)) supply =
      ((program.driveTerm inner supply).1.map (List.map (Branch.inside name rest)),
        (program.driveTerm inner supply).2) := by
  refine driveTerm_inside found ?_ ?_ rest supply
  · rintro x rfl
    simp [Term.isCall] at call
  · rintro constructor fields rfl
    simp [Term.isCall] at call

/-- What stands on the right of a pairing has a partner on the left. -/
theorem exists_left_of_forall₂ {α β : Type} {related : α → β → Prop} {lefts : List α}
    {rights : List β} (paired : List.Forall₂ related lefts rights) {right : β}
    (member : right ∈ rights) : ∃ left ∈ lefts, related left right := by
  induction paired with
  | nil => contradiction
  | cons here _ ih =>
    rcases List.mem_cons.mp member with rfl | later
    · exact ⟨_, List.mem_cons_self, here⟩
    · obtain ⟨left, inside, found⟩ := ih later
      exact ⟨left, List.mem_cons_of_mem _ inside, found⟩

/-- What stands on the left of a pairing has a partner on the right. -/
theorem exists_right_of_forall₂ {α β : Type} {related : α → β → Prop} {lefts : List α}
    {rights : List β} (paired : List.Forall₂ related lefts rights) {left : α}
    (member : left ∈ lefts) : ∃ right ∈ rights, related left right :=
  exists_left_of_forall₂ paired.flip member

/-- The branch of a case distinction for a rule: the variable is contracted to the pattern of the
rule with some fields, and the specialised call is replaced. -/
def BranchFor (program : Program) (name x : String) (rest : List Term) (rule : GRule)
    (branch : Branch) : Prop :=
  ∃ fields : List String, fields.length = rule.pattern.fields.length ∧
    branch.contraction = some ⟨x, .pattern rule.pattern.name (fields.map .var)⟩ ∧
    program.applyG name rule.pattern.name (fields.map .var)
      (rest.map (Term.subst [(x, .ctor rule.pattern.name (fields.map .var))])) = .ok branch.term

/-- The variables of variables are their names. -/
theorem occurrences_vars (head : Head) (name : String) (names : List String) :
    (Term.app head name (names.map .var)).occurrences = names := by
  rw [Term.occurrences]
  induction names with
  | nil => rfl
  | cons x xs ih => rw [List.map_cons, Term.occurrencesArgs, ih, Term.occurrences]; rfl

/-- A case distinction has a branch for each rule, in order, and its fields are issued by the
supply. -/
theorem split_ok {program : Program} {name x : String} {rest : List Term} {listed : List GRule}
    {supply later : NameSupply} {branches : List Branch}
    (splits : program.split name x rest listed supply = (.ok branches, later)) :
    List.Forall₂ (program.BranchFor name x rest) listed branches ∧
      supply.Issued (branches.flatMap Branch.freshVars) later := by
  induction listed generalizing supply later branches with
  | nil =>
    rw [split] at splits
    simp only [Prod.mk.injEq, Except.ok.injEq] at splits
    obtain ⟨rfl, rfl⟩ := splits
    exact ⟨.nil, .nil supply⟩
  | cons rule rules ih =>
    rw [split] at splits
    have issued := NameSupply.issued_freshMany rule.pattern.fields.length supply
    have counted := NameSupply.length_freshMany rule.pattern.fields.length supply
    generalize NameSupply.freshMany rule.pattern.fields.length supply = fresh at *
    obtain ⟨names, middle⟩ := fresh
    dsimp only at splits issued counted
    rw [Term.substArgs_eq_map] at splits
    split at splits
    · simp at splits
    · rename_i t replaced
      cases others : program.split name x rest rules middle with
      | mk driven last =>
        rw [others] at splits
        cases driven with
        | error e => simp [Except.map] at splits
        | ok found =>
          simp only [Except.map, Prod.mk.injEq, Except.ok.injEq] at splits
          obtain ⟨rfl, rfl⟩ := splits
          obtain ⟨each, rest⟩ := ih others
          refine ⟨.cons ⟨names, counted, rfl, replaced⟩ each, ?_⟩
          rw [List.flatMap_cons, Branch.freshVars_of_contraction rfl, occurrences_vars]
          exact issued.append rest

/-- In a case distinction the supply goes on, also if it fails. -/
theorem goesOn_split {program : Program} (name x : String) (rest : List Term)
    (listed : List GRule) (supply : NameSupply) :
    supply.GoesOn (program.split name x rest listed supply).2 := by
  induction listed generalizing supply with
  | nil => exact .refl supply
  | cons rule listed ih =>
    have issued := NameSupply.GoesOn.freshMany rule.pattern.fields.length supply
    rw [split]
    dsimp only
    split
    · exact issued
    · exact issued.trans (ih _)

/-- While a term is driven the supply goes on, also if it fails. -/
theorem goesOn_driveTerm {program : Program} (t : Term) (supply : NameSupply) :
    supply.GoesOn (program.driveTerm t supply).2 := by
  fun_induction driveTerm program t supply with
  | case6 name rest supply listed found x => exact goesOn_split name x rest listed supply
  | case7 name rest supply listed found inner notCtor notVar driven later inside ih =>
    rw [inside] at ih
    exact ih
  | _ => exact .refl _

/-- Results inside a call are results of its first argument. -/
theorem map_inside_eq_ok {driven : Driven} {name : String} {rest : List Term}
    {branches : List Branch} {later : NameSupply}
    (inside : (driven.1.map (List.map (Branch.inside name rest)), driven.2) =
      (.ok branches, later)) :
    ∃ results, driven = (.ok results, later) ∧
      branches = results.map (Branch.inside name rest) := by
  obtain ⟨outcome, last⟩ := driven
  cases outcome with
  | error e => simp [Except.map] at inside
  | ok results =>
    simp only [Except.map, Prod.mk.injEq, Except.ok.injEq] at inside
    obtain ⟨rfl, rfl⟩ := inside
    exact ⟨results, rfl, rfl⟩

/-- A call inside a call: the outer function has rules, and the results are those of the inner call
inside the outer one. -/
theorem driveTerm_nested_ok {program : Program} {name : String} {inner : Term}
    (call : inner.isCall = true) {rest : List Term} {supply later : NameSupply}
    {branches : List Branch}
    (driven : program.driveTerm (.gCall name (inner :: rest)) supply = (.ok branches, later)) :
    ∃ listed found, program.gs.value? name = some listed ∧
      program.driveTerm inner supply = (.ok found, later) ∧
      branches = found.map (Branch.inside name rest) := by
  cases found : program.gs.value? name with
  | none => simp [driveTerm_unlisted found] at driven
  | some listed =>
    rw [driveTerm_nested found call] at driven
    obtain ⟨results, inside, same⟩ := map_inside_eq_ok driven
    exact ⟨listed, results, rfl, inside, same⟩

/-- Driving a term has a result, unless the term is a constructor without arguments: a function that
is listed has a rule, so a case distinction has a branch. -/
theorem ne_nil_of_driveTerm {t : Term} {supply later : NameSupply} {branches : List Branch}
    (driven : (ofRules rules).driveTerm t supply = (.ok branches, later))
    (inner : ∀ name, t ≠ .ctor name []) : branches ≠ [] := by
  -- A single result, of a call that is replaced.
  have single : ∀ {outcome : Except DriveError Term} {branches : List Branch}
      {later : NameSupply}, ((outcome.map fun t => [⟨t, none⟩], supply) : Driven) =
        (.ok branches, later) → branches ≠ [] := by
    intro outcome branches later replaced
    rw [Prod.mk.injEq, map_single_eq_ok] at replaced
    obtain ⟨⟨u, -, rfl⟩, -⟩ := replaced
    exact List.cons_ne_nil _ _
  induction t generalizing branches later with
  | var name => simp [driveTerm] at driven
  | letIn body bindings =>
    simp only [driveTerm, Prod.mk.injEq, Except.ok.injEq] at driven
    rw [← driven.1]
    exact List.cons_ne_nil _ _
  | app head name args ih =>
    cases head with
    | ctor =>
      simp only [driveTerm, Prod.mk.injEq, Except.ok.injEq] at driven
      rw [← driven.1, ne_eq, List.map_eq_nil_iff]
      exact fun none => inner name (by rw [none])
    | pattern => simp [driveTerm] at driven
    | fCall => exact single (driveTerm_fCall _ name args supply ▸ driven)
    | gCall =>
      cases args with
      | nil => simp [driveTerm] at driven
      | cons scrutinee rest =>
        cases found : (ofRules rules).gs.value? name with
        | none => simp [driveTerm_unlisted found] at driven
        | some listed =>
          by_cases isVar : ∃ x, scrutinee = .var x
          · obtain ⟨x, rfl⟩ := isVar
            rw [driveTerm_var found] at driven
            have counted := (split_ok driven).1.length_eq
            have some := List.length_pos_of_ne_nil (ne_nil_of_value?_gs found)
            exact List.ne_nil_of_length_pos (counted ▸ some)
          by_cases isCtor : ∃ constructor fields, scrutinee = .ctor constructor fields
          · obtain ⟨constructor, fields, rfl⟩ := isCtor
            exact single (driveTerm_ctor found constructor fields rest supply ▸ driven)
          · rw [not_exists] at isVar
            have notCtor : ∀ constructor fields, scrutinee ≠ .ctor constructor fields :=
              fun constructor fields same => isCtor ⟨constructor, fields, same⟩
            rw [driveTerm_inside found isVar notCtor] at driven
            obtain ⟨results, inside, rfl⟩ := map_inside_eq_ok driven
            rw [ne_eq, List.map_eq_nil_iff]
            exact ih scrutinee List.mem_cons_self inside fun name => notCtor name []

/-- Driving without a case distinction has one result and issues no name. -/
theorem driveTerm_single {program : Program} {t : Term} (written : t.plain = true)
    (call : t.isCall = true) (noSplit : t.splitCall? = none) {supply later : NameSupply}
    {branches : List Branch}
    (driven : program.driveTerm t supply = (.ok branches, later)) :
    later = supply ∧ ∃ u, branches = [⟨u, none⟩] := by
  revert noSplit supply later branches
  refine Term.callInduction ?_ ?_ ?_ ?_ ?_ t written call
  · intro name args _ _ supply later branches driven
    rw [driveTerm_fCall, Prod.mk.injEq, map_single_eq_ok] at driven
    obtain ⟨⟨u, -, rfl⟩, rfl⟩ := driven
    exact ⟨rfl, u, rfl⟩
  · intro name _ supply later branches driven
    simp [driveTerm] at driven
  · intro name constructor fields rest _ _ supply later branches driven
    cases found : program.gs.value? name with
    | none => simp [driveTerm_unlisted found] at driven
    | some listed =>
      rw [driveTerm_ctor found, Prod.mk.injEq, map_single_eq_ok] at driven
      obtain ⟨⟨u, -, rfl⟩, rfl⟩ := driven
      exact ⟨rfl, u, rfl⟩
  · intro name x rest _ noSplit
    simp [Term.splitCall?] at noSplit
  · intro name inner rest _ call ih noSplit supply later branches driven
    rw [Term.splitCall?_nested call] at noSplit
    obtain ⟨listed, found, -, inside, rfl⟩ := driveTerm_nested_ok call driven
    obtain ⟨rest', u, rfl⟩ := ih noSplit inside
    exact ⟨rest', _, rfl⟩

/-- A case distinction has a result for every rule of the function, with a contraction of the
variable to the pattern of the rule, and its fields are issued by the supply. -/
theorem driveTerm_split {program : Program} {t : Term} (written : t.plain = true)
    (call : t.isCall = true) {function x : String} (splits : t.splitCall? = some (function, x))
    {supply later : NameSupply} {branches : List Branch}
    (driven : program.driveTerm t supply = (.ok branches, later)) :
    supply.Issued (branches.flatMap Branch.freshVars) later ∧
      ∃ listed, program.gs.value? function = some listed ∧
        List.Forall₂ (fun (rule : GRule) (branch : Branch) => ∃ fields : List String,
          branch.contraction = some ⟨x, .pattern rule.pattern.name (fields.map .var)⟩)
          listed branches := by
  revert splits supply later branches
  refine Term.callInduction ?_ ?_ ?_ ?_ ?_ t written call
  · intro name args _ splits
    simp [Term.splitCall?] at splits
  · intro name splits
    simp [Term.splitCall?] at splits
  · intro name constructor fields rest _ splits
    simp [Term.splitCall?] at splits
  · intro name y rest _ splits supply later branches driven
    simp only [Term.splitCall?, Option.some.injEq, Prod.mk.injEq] at splits
    obtain ⟨rfl, rfl⟩ := splits
    cases found : program.gs.value? name with
    | none => simp [driveTerm_unlisted found] at driven
    | some listed =>
      rw [driveTerm_var found] at driven
      obtain ⟨each, issued⟩ := split_ok driven
      refine ⟨issued, listed, rfl, each.imp ?_⟩
      rintro rule branch ⟨fields, -, contracted, -⟩
      exact ⟨fields, contracted⟩
  · intro name inner rest _ call ih splits supply later branches driven
    rw [Term.splitCall?_nested call] at splits
    obtain ⟨_, found, -, inside, rfl⟩ := driveTerm_nested_ok call driven
    obtain ⟨issued, listed, own, each⟩ := ih splits inside
    refine ⟨?_, listed, own, ?_⟩
    · simpa only [List.flatMap_map, Branch.freshVars_inside] using issued
    · rw [List.forall₂_map_right_iff]
      exact each

end Program

end Supercompilation
