import Mathlib.Algebra.GroupWithZero.Nat
import Mathlib.Data.List.Forall2
import Supercompilation.Proofs.Freshness

/-!
# Evaluation of ground terms

A ground call has one result or none: no variable is there to be split, so driving unfolds a call or
replaces it by a rule, and the result is ground again. It does not depend on the supply and issues
no name.

`Supercompiler.evaluate` is normal-order evaluation on top of this: a call is replaced by its result
until a constructor appears, and then the arguments are evaluated. It is given a bound on the
nesting of these steps; a greater bound gives the same value. `Supercompiler.effort` counts the
driving steps of an evaluation, and every part of a term that is evaluated takes less effort than
the whole.
-/

namespace Supercompilation

/-- A partial function has values for all of some arguments if it has them one by one. -/
theorem mapM_eq_some_iff {α β : Type} {f : α → Option β} {as : List α} {bs : List β} :
    as.mapM f = some bs ↔ List.Forall₂ (fun a b => f a = some b) as bs := by
  induction as generalizing bs with
  | nil => simp [List.forall₂_nil_left_iff, eq_comm]
  | cons a as ih =>
    rw [List.mapM_cons, List.forall₂_cons_left_iff]
    constructor
    · intro all
      obtain ⟨b, first, all⟩ := Option.bind_eq_some_iff.mp all
      obtain ⟨rest, others, same⟩ := Option.bind_eq_some_iff.mp all
      exact ⟨b, rest, first, ih.mp others, (Option.some.inj same).symm⟩
    · rintro ⟨b, rest, first, others, rfl⟩
      rw [first, ih.mpr others]
      rfl

namespace Term

/-- A plain term without variables. -/
structure Evaluable (t : Term) : Prop where
  /-- The term is plain. -/
  plain : t.plain = true
  /-- The term has no variables. -/
  ground : t.ground = true

/-- The arguments of an evaluable term are evaluable. -/
theorem Evaluable.arg {head : Head} {name : String} {args : List Term}
    (evaluable : (app head name args).Evaluable) {t : Term} (member : t ∈ args) : t.Evaluable := by
  have ground := evaluable.ground
  rw [ground_app, groundArgs_iff] at ground
  exact ⟨(plain_app.mp evaluable.plain).2 t member, ground t member⟩

/-- An evaluable term is a constructor with its arguments, or a call. -/
theorem Evaluable.cases {t : Term} (evaluable : t.Evaluable) :
    (∃ name args, t = ctor name args) ∨ t.isCall = true := by
  obtain ⟨plain, ground⟩ := evaluable
  cases t with
  | var name => simp at ground
  | letIn body bindings => simp at plain
  | app head name args =>
    cases head with
    | ctor => exact .inl ⟨name, args, rfl⟩
    | pattern => simp at plain
    | fCall => exact .inr rfl
    | gCall => exact .inr rfl

/-- A ground term stays as it is under a substitution. -/
theorem subst_of_ground {t : Term} (ground : t.ground = true) (values : Substitution) :
    t.subst values = t := by
  have unchanged : t.subst values = t.subst [] :=
    subst_congr fun x occurs => absurd occurs (ground_iff.mp ground x)
  rw [unchanged, subst_nil]

/-- A ground term is more general than no term but itself. -/
theorem eq_of_matchAgainst_ground {t u : Term} {values : Substitution} (ground : t.ground = true)
    (matched : t.matchAgainst u = some values) : t = u := by
  rw [← subst_of_matchAgainst matched, subst_of_ground ground]

end Term

namespace Program

/-- Rules that can be used for evaluation: their bodies are plain and use only the variables of
their heads. -/
structure SelfContained (rules : List Rule) : Prop where
  /-- The bodies are plain. -/
  plain : ∀ rule ∈ rules, rule.body.plain = true
  /-- The bodies use only the variables of the heads. -/
  closed : ∀ rule ∈ rules, rule.Closed

variable {rules : List Rule} (contained : SelfContained rules)

include contained

/-- What a rule makes of evaluable arguments is evaluable. -/
theorem evaluable_of_makes {args : List Term} {t : Term} (makes : Makes rules args t)
    (evaluable : ∀ arg ∈ args, arg.Evaluable) : t.Evaluable := by
  refine ⟨plain_of_makes contained.plain makes fun arg member => (evaluable arg member).plain, ?_⟩
  rw [Term.ground_iff]
  intro x occurs
  rcases occurrences_of_makes makes occurs with ⟨arg, member, inArg⟩ | ⟨rule, member, inBody, free⟩
  · exact Term.ground_iff.mp (evaluable arg member).ground x inArg
  · exact free (contained.closed rule member x (Term.mem_vars.mpr inBody))

/-- A ground call has one result, without a contraction, or none. It is the same for every supply,
no name is issued, and the result is evaluable. -/
theorem driveTerm_ground {t : Term} (evaluable : t.Evaluable) (call : t.isCall = true) :
    ∃ outcome : Except DriveError Term,
      (∀ supply, (ofRules rules).driveTerm t supply =
        (outcome.map fun u => [⟨u, none⟩], supply)) ∧
      ∀ u, outcome = .ok u → u.Evaluable := by
  have written := evaluable.plain
  revert evaluable
  refine Term.callInduction ?_ ?_ ?_ ?_ ?_ t written call
  · intro name args _ evaluable
    refine ⟨_, driveTerm_fCall (ofRules rules) name args, fun u unfolded => ?_⟩
    exact evaluable_of_makes contained (makes_of_unfold unfolded) fun arg => evaluable.arg
  · intro name _
    refine ⟨.error (.noScrutinee name (.gCall name [])), fun supply => ?_, by simp⟩
    rw [driveTerm]
    rfl
  · intro name constructor fields rest _ evaluable
    cases found : (ofRules rules).gs.value? name with
    | none => exact ⟨.error _, fun supply => driveTerm_unlisted found _ rest supply, by simp⟩
    | some listed =>
      refine ⟨_, driveTerm_ctor found constructor fields rest, fun u replaced => ?_⟩
      refine evaluable_of_makes contained (makes_of_applyG replaced) fun arg member => ?_
      rcases List.mem_append.mp member with inFields | inRest
      · exact (evaluable.arg List.mem_cons_self).arg inFields
      · exact evaluable.arg (List.mem_cons_of_mem _ inRest)
  · intro name x rest _ evaluable
    have scrutinee := (evaluable.arg List.mem_cons_self).ground
    simp at scrutinee
  · intro name inner rest _ call ih evaluable
    cases found : (ofRules rules).gs.value? name with
    | none => exact ⟨.error _, fun supply => driveTerm_unlisted found _ rest supply, by simp⟩
    | some listed =>
      obtain ⟨outcome, drives, result⟩ := ih (evaluable.arg List.mem_cons_self)
      refine ⟨outcome.map fun u => .gCall name (u :: rest), fun supply => ?_, fun u made => ?_⟩
      · rw [driveTerm_nested found call, drives]
        cases outcome <;> rfl
      · cases outcome with
        | error e => simp [Except.map] at made
        | ok v =>
          obtain rfl := Except.ok.inj made
          have parts : ∀ arg ∈ v :: rest, arg.Evaluable := by
            rw [List.forall_mem_cons]
            exact ⟨result v rfl, fun arg member => evaluable.arg (List.mem_cons_of_mem _ member)⟩
          refine ⟨Term.plain_app.mpr ⟨by simp, fun arg member => (parts arg member).plain⟩, ?_⟩
          rw [Term.ground_app, Term.groundArgs_iff]
          exact fun arg member => (parts arg member).ground

end Program

/-- What the values of the parts of a term make: a constructor is applied to them, and a call has
the value of its only part. -/
def Term.assemble : Term → List Term → Option Term
  | .app .ctor name _, values => some (.ctor name values)
  | .app .fCall _ _, [value] => some value
  | .app .gCall _ _, [value] => some value
  | _, _ => none

/-- A call has the value of its only part. -/
theorem Term.assemble_call {t : Term} (call : t.isCall = true) {values : List Term} {v : Term} :
    t.assemble values = some v ↔ values = [v] := by
  cases t with
  | var name => simp [isCall] at call
  | letIn body bindings => simp [isCall] at call
  | app head name args =>
    rcases values with _ | ⟨value, _ | ⟨second, others⟩⟩ <;>
      rcases isCall_app.mp call with rfl | rfl <;> simp [assemble]

/-- The terms of branches without contractions. -/
theorem toOption_map_terms (outcome : Except DriveError (List Term)) :
    (outcome.map (List.map fun u => (⟨u, none⟩ : Branch))).toOption.map (List.map Branch.term) =
      outcome.toOption := by
  cases outcome with
  | error e => rfl
  | ok parts =>
    change some ((parts.map fun u => (⟨u, none⟩ : Branch)).map Branch.term) = some parts
    rw [List.map_map]
    exact congrArg some (List.map_id parts)

namespace Supercompiler

/-- The result of driving a term, if there is just one. -/
def reduct? (sc : Supercompiler) (t : Term) : Option Term :=
  match (sc.drive t).1 with
  | .ok [branch] => some branch.term
  | _ => none

/-- The value of a term, by at most some nested steps: a call is replaced by the single result of
driving it until a constructor appears, and then the arguments are evaluated. -/
def evaluate (sc : Supercompiler) : Nat → Term → Option Term
  | 0, _ => none
  | steps + 1, .app .ctor name args => (args.mapM (sc.evaluate steps)).map (.ctor name)
  | steps + 1, t => if t.isCall then (sc.reduct? t).bind (sc.evaluate steps) else none

/-- The terms that driving a term yields, if it can be driven. -/
def parts? (sc : Supercompiler) (t : Term) : Option (List Term) :=
  (sc.drive t).1.toOption.map (List.map Branch.term)

/-- The number of driving steps in the evaluation of a term, by at most some nested steps. -/
def effort (sc : Supercompiler) : Nat → Term → Nat
  | 0, _ => 0
  | steps + 1, t => (((sc.parts? t).getD []).map (sc.effort steps)).sum + 1

section Evaluation

variable {rules : List Rule} {sc sc' : Supercompiler} {t v : Term} {steps : Nat}

/-- Evaluating a constructor is evaluating its arguments. -/
theorem evaluate_ctor (sc : Supercompiler) (steps : Nat) (name : String) (args : List Term) :
    sc.evaluate (steps + 1) (.ctor name args) =
      (args.mapM (sc.evaluate steps)).map (.ctor name) := by
  rw [evaluate]

/-- Evaluating a call is evaluating what it is replaced by. -/
theorem evaluate_call (sc : Supercompiler) (steps : Nat) (call : t.isCall = true) :
    sc.evaluate (steps + 1) t = (sc.reduct? t).bind (sc.evaluate steps) := by
  cases t with
  | var name => simp [Term.isCall] at call
  | letIn body bindings => simp [Term.isCall] at call
  | app head name args =>
    rcases Term.isCall_app.mp call with rfl | rfl <;> simp [evaluate, Term.isCall]

/-- The parts of a constructor are its arguments. -/
theorem parts?_ctor (sc : Supercompiler) (name : String) (args : List Term) :
    sc.parts? (.ctor name args) = some args := by
  rw [parts?, drive, Program.driveTerm]
  exact toOption_map_terms (.ok args)

variable (contained : Program.SelfContained rules) (program : sc.program = .ofRules rules)

include contained

/-- A ground term falls into ground parts or cannot be driven, whatever the supply is, and no name
is issued. A call has one part. -/
theorem drive_ground (evaluable : t.Evaluable) :
    ∃ outcome : Except DriveError (List Term),
      (∀ supply, (drive ⟨.ofRules rules, supply⟩ t).1 =
          outcome.map (List.map fun u => ⟨u, none⟩) ∧
        (drive ⟨.ofRules rules, supply⟩ t).2.supply.last = supply.last) ∧
      ∀ parts, outcome = .ok parts →
        (∀ u ∈ parts, u.Evaluable) ∧ (t.isCall = true → ∃ u, parts = [u]) := by
  rcases evaluable.cases with ⟨name, args, rfl⟩ | call
  · refine ⟨.ok args, fun supply => ?_, fun parts same => ?_⟩
    · rw [drive, Program.driveTerm]
      exact ⟨rfl, rfl⟩
    · obtain rfl := Except.ok.inj same
      exact ⟨fun u => evaluable.arg, by simp [Term.isCall]⟩
  · obtain ⟨outcome, drives, result⟩ := Program.driveTerm_ground contained evaluable call
    refine ⟨outcome.map fun u => [u], fun supply => ?_, fun parts same => ?_⟩
    · rw [drive, drives]
      cases outcome <;> exact ⟨rfl, rfl⟩
    · cases outcome with
      | error e => simp [Except.map] at same
      | ok u =>
        obtain rfl := Except.ok.inj same
        exact ⟨by simpa using result u rfl, fun _ => ⟨u, rfl⟩⟩

include program

/-- A ground term falls into the same parts for every supply. -/
theorem parts?_congr (program' : sc'.program = .ofRules rules) (evaluable : t.Evaluable) :
    sc'.parts? t = sc.parts? t := by
  obtain ⟨P, supply⟩ := sc
  obtain ⟨P', supply'⟩ := sc'
  obtain rfl : P = .ofRules rules := program
  obtain rfl : P' = .ofRules rules := program'
  obtain ⟨outcome, drives, -⟩ := drive_ground contained evaluable
  rw [parts?, parts?, (drives supply).1, (drives supply').1]

/-- The parts of a ground term are ground, and a call has one part. -/
theorem evaluable_of_parts? (evaluable : t.Evaluable) {parts : List Term}
    (falls : sc.parts? t = some parts) :
    (∀ u ∈ parts, u.Evaluable) ∧ (t.isCall = true → ∃ u, parts = [u]) := by
  obtain ⟨P, supply⟩ := sc
  obtain rfl : P = .ofRules rules := program
  obtain ⟨outcome, drives, result⟩ := drive_ground contained evaluable
  rw [parts?, (drives supply).1, toOption_map_terms] at falls
  cases outcome with
  | error e => contradiction
  | ok found => exact result parts (congrArg Except.ok (Option.some.inj falls))

/-- A ground term that can be driven has the parts as branches without contractions, and no name is
issued. -/
theorem drive_of_parts? (evaluable : t.Evaluable) {branches : List Branch}
    (driven : sc.drive t = (.ok branches, sc')) :
    ∃ parts, sc.parts? t = some parts ∧ branches = parts.map fun u => ⟨u, none⟩ := by
  obtain ⟨P, supply⟩ := sc
  obtain rfl : P = .ofRules rules := program
  obtain ⟨outcome, drives, -⟩ := drive_ground contained evaluable
  have same := congrArg Prod.fst driven
  rw [(drives supply).1] at same
  cases outcome with
  | error e => simp [Except.map] at same
  | ok parts =>
    refine ⟨parts, ?_, (Except.ok.inj same).symm⟩
    rw [parts?, (drives supply).1, toOption_map_terms]
    rfl

/-- Driving a ground term issues no name, also if it fails. -/
theorem last_of_drive (evaluable : t.Evaluable) :
    (sc.drive t).2.supply.last = sc.supply.last := by
  obtain ⟨P, supply⟩ := sc
  obtain rfl : P = .ofRules rules := program
  obtain ⟨outcome, drives, -⟩ := drive_ground contained evaluable
  exact (drives supply).2

/-- A call is replaced by its only part. -/
theorem reduct?_eq_some_iff (evaluable : t.Evaluable) (call : t.isCall = true) {u : Term} :
    sc.reduct? t = some u ↔ sc.parts? t = some [u] := by
  obtain ⟨P, supply⟩ := sc
  obtain rfl : P = .ofRules rules := program
  obtain ⟨outcome, drives, result⟩ := drive_ground contained evaluable
  rw [reduct?, parts?, (drives supply).1, toOption_map_terms]
  cases outcome with
  | error e => simp [Except.map, Except.toOption]
  | ok parts =>
    obtain ⟨w, rfl⟩ := (result parts rfl).2 call
    simp [Except.map, Except.toOption]

/-- A term has the value that the values of its parts make. -/
theorem evaluate_succ (evaluable : t.Evaluable) :
    sc.evaluate (steps + 1) t = some v ↔
      ∃ parts values, sc.parts? t = some parts ∧
        List.Forall₂ (fun u w => sc.evaluate steps u = some w) parts values ∧
        t.assemble values = some v := by
  rcases evaluable.cases with ⟨name, args, rfl⟩ | call
  · simp only [evaluate_ctor, Option.map_eq_some_iff, mapM_eq_some_iff, parts?_ctor,
      Option.some.injEq, Term.assemble]
    constructor
    · rintro ⟨values, each, rfl⟩
      exact ⟨args, values, rfl, each, rfl⟩
    · rintro ⟨_, values, rfl, each, rfl⟩
      exact ⟨values, each, rfl⟩
  · simp only [evaluate_call sc steps call, Option.bind_eq_some_iff,
      reduct?_eq_some_iff contained program evaluable call, Term.assemble_call call]
    constructor
    · rintro ⟨u, falls, value⟩
      exact ⟨[u], [v], falls, .cons value .nil, rfl⟩
    · rintro ⟨parts, _, falls, each, rfl⟩
      obtain ⟨u, rfl⟩ := (evaluable_of_parts? contained program evaluable falls).2 call
      rw [List.forall₂_cons] at each
      exact ⟨u, falls, each.1⟩

/-- As many values as there are parts make a value. -/
theorem exists_assemble (evaluable : t.Evaluable) {parts values : List Term}
    (falls : sc.parts? t = some parts) (same : parts.length = values.length) :
    ∃ v, t.assemble values = some v := by
  rcases evaluable.cases with ⟨name, args, rfl⟩ | call
  · exact ⟨.ctor name values, rfl⟩
  · obtain ⟨u, rfl⟩ := (evaluable_of_parts? contained program evaluable falls).2 call
    obtain ⟨v, rfl⟩ := List.length_eq_one_iff.mp same.symm
    exact ⟨v, (Term.assemble_call call).mpr rfl⟩

/-- With more steps a term has the same value. -/
theorem evaluate_mono (evaluable : t.Evaluable) (value : sc.evaluate steps t = some v) {more : Nat}
    (enough : steps ≤ more) : sc.evaluate more t = some v := by
  induction steps generalizing t v more with
  | zero => simp [evaluate] at value
  | succ steps ih =>
    obtain ⟨more, rfl⟩ := Nat.exists_eq_add_of_le' enough
    rw [← Nat.add_assoc, evaluate_succ contained program evaluable]
    obtain ⟨parts, values, falls, each, made⟩ :=
      (evaluate_succ contained program evaluable).mp value
    have evaluableParts := (evaluable_of_parts? contained program evaluable falls).1
    have each' := (List.forall₂_and_left parts values).mpr ⟨evaluableParts, each⟩
    exact ⟨parts, values, falls, each'.imp fun _ _ part => ih part.1 part.2 (by omega), made⟩

/-- A term has at most one value. -/
theorem evaluate_unique (evaluable : t.Evaluable) {steps' : Nat} {v' : Term}
    (value : sc.evaluate steps t = some v) (value' : sc.evaluate steps' t = some v') : v = v' := by
  have more := evaluate_mono contained program evaluable value (Nat.le_max_left steps steps')
  have more' := evaluate_mono contained program evaluable value' (Nat.le_max_right steps steps')
  exact Option.some.inj (more.symm.trans more')

/-- The effort for a term that has a value does not grow with the bound. -/
theorem effort_stable (evaluable : t.Evaluable) (value : sc.evaluate steps t = some v) {more : Nat}
    (enough : steps ≤ more) : sc.effort more t = sc.effort steps t := by
  induction steps generalizing t v more with
  | zero => simp [evaluate] at value
  | succ steps ih =>
    obtain ⟨more, rfl⟩ := Nat.exists_eq_add_of_le' enough
    obtain ⟨parts, values, falls, each, -⟩ := (evaluate_succ contained program evaluable).mp value
    have evaluableParts := (evaluable_of_parts? contained program evaluable falls).1
    have same : parts.map (sc.effort (more + steps)) = parts.map (sc.effort steps) := by
      refine List.map_congr_left fun u member => ?_
      obtain ⟨w, -, part⟩ := Program.exists_right_of_forall₂ each member
      exact ih (evaluableParts u member) part (Nat.le_add_left steps more)
    rw [← Nat.add_assoc, effort, effort, falls, Option.getD_some, same]

/-- The parts of a term that has a value have values, and together they take one step less. -/
theorem effort_parts (evaluable : t.Evaluable) (value : sc.evaluate steps t = some v) :
    ∃ parts, sc.parts? t = some parts ∧ (∀ u ∈ parts, ∃ w, sc.evaluate steps u = some w) ∧
      sc.effort steps t = (parts.map (sc.effort steps)).sum + 1 := by
  cases steps with
  | zero => simp [evaluate] at value
  | succ steps =>
    obtain ⟨parts, values, falls, each, -⟩ := (evaluate_succ contained program evaluable).mp value
    have evaluableParts := (evaluable_of_parts? contained program evaluable falls).1
    have part : ∀ u ∈ parts, ∃ w, sc.evaluate steps u = some w := fun u member => by
      obtain ⟨w, -, part⟩ := Program.exists_right_of_forall₂ each member
      exact ⟨w, part⟩
    refine ⟨parts, falls, fun u member => ?_, ?_⟩
    · obtain ⟨w, found⟩ := part u member
      exact ⟨w, evaluate_mono contained program (evaluableParts u member) found (Nat.le_succ steps)⟩
    · have same : parts.map (sc.effort steps) = parts.map (sc.effort (steps + 1)) := by
        refine List.map_congr_left fun u member => ?_
        obtain ⟨w, found⟩ := part u member
        exact (effort_stable contained program (evaluableParts u member) found
          (Nat.le_succ steps)).symm
      conv_lhs => rw [effort]
      rw [falls, Option.getD_some, same]

end Evaluation

end Supercompiler

end Supercompilation
