import Mathlib.Order.Iterate
import Mathlib.Order.WellFounded
import Supercompilation.Proofs.Freshness

/-!
# Ranked programs

The functions of a program without recursion can be ranked so that the calls in the body of a rule
have a smaller rank than the function of the rule. Driving a call of such a program makes terms
larger without bound: an argument is copied as often as a body mentions it, calls and all, and a
case distinction puts a constructor in the place of a variable.

`Term.weight` falls nevertheless with every driving step of a call. A call weighs more than anything
that a body of smaller rank can be made of with arguments of the same weight; `stretch` is the bound
for this, by recursion on the rank. A constructor weighs as much as its arguments together, so that
constructors of variables weigh nothing, as variables do, and a case distinction changes no weight.
-/

namespace Supercompilation

namespace Term

mutual

/-- What is applied in a term, from left to right. -/
def applications : Term → List (Head × String)
  | var _ => []
  | app head name args => (head, name) :: applicationsArgs args
  | letIn body bindings => body.applications ++ applicationsBindings bindings

/-- What is applied in some terms. -/
def applicationsArgs : List Term → List (Head × String)
  | [] => []
  | t :: ts => t.applications ++ applicationsArgs ts

/-- What is applied in some bound values. -/
def applicationsBindings : List (String × Term) → List (Head × String)
  | [] => []
  | (_, value) :: rest => value.applications ++ applicationsBindings rest

end

/-- The functions that a term calls. -/
def calls (t : Term) : List String :=
  t.applications.filterMap fun (head, name) =>
    if head = .fCall ∨ head = .gCall then some name else none

/-- The constructors of a term. -/
def constructors (t : Term) : List String :=
  t.applications.filterMap fun (head, name) => if head = .ctor then some name else none

end Term

/-- The function that a rule defines. -/
def Rule.function : Rule → String
  | f rule => rule.name
  | g rule => rule.name

/-- The constructors in the head and in the body of a rule. -/
def Rule.constructors : Rule → List String
  | f rule => rule.body.constructors
  | g rule => rule.pattern.name :: rule.body.constructors

namespace Program

/-- The constructors of a program. -/
def constructors (program : Program) : List String := program.rules.flatMap Rule.constructors

/-- The functions of a program are ranked: the body of a rule calls functions of smaller rank
only. -/
def Ranked (rank : String → Nat) (program : Program) : Prop :=
  ∀ rule ∈ program.rules, ∀ name ∈ rule.body.calls, rank name < rank rule.function

/-- A g-function of the program and one of some constructors lead to no rule of another function. -/
def Unambiguous (program : Program) (constructors : List String) : Prop :=
  ∀ rule ∈ program.gRules, ∀ other ∈ program.gRules, ∀ constructor ∈ constructors,
    rule.key = ruleKey other.name constructor → rule.name = other.name

/-- Rules that share a key are for the same function and the same constructor. -/
def KeysApart (program : Program) : Prop :=
  ∀ rule ∈ program.gRules, ∀ other ∈ program.gRules, rule.key = other.key →
    rule.name = other.name ∧ rule.pattern.name = other.pattern.name

/-- If the functions and constructors of a program lead to no rule of another function, its rules
have keys apart. -/
theorem Unambiguous.keysApart {program : Program} {constructors : List String}
    (unambiguous : program.Unambiguous constructors)
    (inUse : ∀ constructor ∈ program.constructors, constructor ∈ constructors) :
    program.KeysApart := by
  intro rule isRule other isOther key
  have used : other.pattern.name ∈ program.constructors :=
    List.mem_flatMap.mpr ⟨.g other, mem_gRules.mp isOther, List.mem_cons_self⟩
  have name : rule.name = other.name := unambiguous rule isRule other isOther _ (inUse _ used) key
  refine ⟨name, ?_⟩
  rwa [GRule.key, GRule.key, name, ruleKey, ruleKey, String.append_right_inj] at key

end Program

namespace Term

section Applications

variable {head : Head} {name : String} {args : List Term} {entry : Head × String} {x : String}

/-- A variable applies nothing. -/
@[simp]
theorem applications_var (name : String) : (var name).applications = [] := by
  rw [applications]

/-- What an application applies: itself, and what its arguments apply. -/
@[simp]
theorem mem_applications_app :
    entry ∈ (app head name args).applications ↔
      entry = (head, name) ∨ ∃ t ∈ args, entry ∈ t.applications := by
  rw [applications, List.mem_cons]
  apply or_congr Iff.rfl
  induction args with
  | nil => simp [applicationsArgs]
  | cons t ts ih => simp [applicationsArgs, ih]

/-- What a `let` term applies is applied in its body or in a value. -/
@[simp]
theorem mem_applications_letIn {body : Term} {bindings : List (String × Term)} :
    entry ∈ (letIn body bindings).applications ↔
      entry ∈ body.applications ∨ ∃ binding ∈ bindings, entry ∈ binding.2.applications := by
  rw [applications, List.mem_append]
  apply or_congr Iff.rfl
  induction bindings with
  | nil => simp [applicationsBindings]
  | cons binding rest ih => simp [applicationsBindings, ih]

/-- What is applied after a substitution is applied in the term or in a value. -/
theorem mem_applications_subst {t : Term} {values : Substitution} :
    entry ∈ (t.subst values).applications ↔ entry ∈ t.applications ∨
      ∃ x ∈ t.occurrences, entry ∈ ((var x).subst values).applications := by
  induction t with
  | var name => simp
  | app head name args ih =>
    rw [subst_app, mem_applications_app, mem_applications_app]
    constructor
    · rintro (here | ⟨u, member, inside⟩)
      · exact .inl (.inl here)
      · obtain ⟨t, isArg, rfl⟩ := List.mem_map.mp member
        rcases (ih t isArg).mp inside with inArg | ⟨x, occurs, inValue⟩
        · exact .inl (.inr ⟨t, isArg, inArg⟩)
        · exact .inr ⟨x, mem_occurrences_app.mpr ⟨t, isArg, occurs⟩, inValue⟩
    · rintro ((here | ⟨t, isArg, inArg⟩) | ⟨x, occurs, inValue⟩)
      · exact .inl here
      · exact .inr ⟨_, List.mem_map_of_mem isArg, (ih t isArg).mpr (.inl inArg)⟩
      · obtain ⟨t, isArg, occurs⟩ := mem_occurrences_app.mp occurs
        exact .inr ⟨_, List.mem_map_of_mem isArg, (ih t isArg).mpr (.inr ⟨x, occurs, inValue⟩)⟩
  | letIn body bindings bodyIh valueIh =>
    rw [subst_letIn, mem_applications_letIn, mem_applications_letIn, bodyIh]
    constructor
    · rintro ((inBody | ⟨x, occurs, inValue⟩) | ⟨u, member, inside⟩)
      · exact .inl (.inl inBody)
      · exact .inr ⟨x, mem_occurrences_letIn.mpr (.inl occurs), inValue⟩
      · obtain ⟨binding, isBinding, rfl⟩ := List.mem_map.mp member
        rcases (valueIh binding isBinding).mp inside with here | ⟨x, occurs, inValue⟩
        · exact .inl (.inr ⟨binding, isBinding, here⟩)
        · exact .inr ⟨x, mem_occurrences_letIn.mpr (.inr ⟨binding, isBinding, occurs⟩), inValue⟩
    · rintro ((inBody | ⟨binding, isBinding, here⟩) | ⟨x, occurs, inValue⟩)
      · exact .inl (.inl inBody)
      · exact .inr ⟨_, List.mem_map_of_mem isBinding,
          (valueIh binding isBinding).mpr (.inl here)⟩
      · rcases mem_occurrences_letIn.mp occurs with inBody | ⟨binding, isBinding, inBinding⟩
        · exact .inl (.inr ⟨x, inBody, inValue⟩)
        · exact .inr ⟨_, List.mem_map_of_mem isBinding,
            (valueIh binding isBinding).mpr (.inr ⟨x, inBinding, inValue⟩)⟩

end Applications

section Stretch

variable {base : Nat}

/-- What a call of a rank weighs, by the weight of its arguments: more than what is got by as many
rounds as the base says, each of which multiplies by the base and applies the bound for the rank
below. -/
def stretch (base : Nat) : Nat → Nat → Nat
  | 0 => fun n => n
  | rank + 1 => fun n => (fun m => stretch base rank (base * m))^[base] n + 1

/-- One round in the bound for a rank. -/
def spread (base rank n : Nat) : Nat := stretch base rank (base * n)

/-- The bound for a rank by the rounds of the rank below. -/
theorem stretch_succ (base rank n : Nat) :
    stretch base (rank + 1) n = (spread base rank)^[base] n + 1 := rfl

/-- The bound for a rank grows with the weight. -/
theorem strictMono_stretch (positive : 0 < base) (rank : Nat) :
    StrictMono (stretch base rank) := by
  induction rank with
  | zero => exact strictMono_id
  | succ rank ih =>
    have round : StrictMono (spread base rank) :=
      ih.comp fun m n less => Nat.mul_lt_mul_of_pos_left less positive
    intro m n less
    rw [stretch_succ, stretch_succ]
    exact Nat.succ_lt_succ (round.iterate base less)

/-- A round takes a multiple of a weight to no less. -/
theorem mul_le_spread (positive : 0 < base) (rank n : Nat) : base * n ≤ spread base rank n :=
  (strictMono_stretch positive rank).le_apply

/-- A round grows with the weight. -/
theorem monotone_spread (positive : 0 < base) (rank : Nat) : Monotone (spread base rank) := by
  intro m n less
  exact (strictMono_stretch positive rank).monotone (Nat.mul_le_mul_left base less)

/-- More rounds lead to no less. -/
theorem monotone_rounds (positive : 0 < base) (rank n : Nat) :
    Monotone fun rounds => (spread base rank)^[rounds] n := by
  refine (monotone_spread positive rank).monotone_iterate_of_le_map ?_
  calc
    n ≤ base * n := Nat.le_mul_of_pos_left n positive
    _ ≤ spread base rank n := mul_le_spread positive rank n

/-- The bound grows with the rank. -/
theorem monotone_stretch_rank (positive : 0 < base) (n : Nat) :
    Monotone fun rank => stretch base rank n := by
  refine monotone_nat_of_le_succ fun rank => ?_
  calc
    stretch base rank n ≤ spread base rank n :=
      (strictMono_stretch positive rank).monotone (Nat.le_mul_of_pos_left n positive)
    _ ≤ (spread base rank)^[base] n := monotone_rounds positive rank n positive
    _ ≤ stretch base (rank + 1) n := Nat.le_succ _

end Stretch

section Weight

variable (rank : String → Nat) (base : Nat)

mutual

/-- What a term weighs: nothing for a variable, as much as the arguments together for a constructor,
and more than all that can become of the arguments for a call. The weight of a `let` term is not
asked for. -/
def weight : Term → Nat
  | var _ => 0
  | app head name args =>
    match head with
    | .ctor | .pattern => weightArgs args
    | .fCall | .gCall => stretch base (rank name + 1) (weightArgs args)
  | letIn _ _ => 0

/-- What some terms weigh together. -/
def weightArgs : List Term → Nat
  | [] => 0
  | t :: ts => t.weight + weightArgs ts

end

variable {rank base}

@[simp]
theorem weight_var (name : String) : (var name).weight rank base = 0 := by
  rw [weight]

/-- A constructor weighs as much as its arguments. -/
@[simp]
theorem weight_ctor (name : String) (args : List Term) :
    (ctor name args).weight rank base = weightArgs rank base args := by
  rw [weight]

/-- A call weighs what its rank and its arguments say. -/
theorem weight_call {head : Head} {name : String} {args : List Term}
    (call : (app head name args).isCall = true) :
    (app head name args).weight rank base =
      stretch base (rank name + 1) (weightArgs rank base args) := by
  rcases isCall_app.mp call with rfl | rfl <;> rw [weight]

/-- Terms one behind the other weigh what they weigh together. -/
theorem weightArgs_append (ts us : List Term) :
    weightArgs rank base (ts ++ us) = weightArgs rank base ts + weightArgs rank base us := by
  induction ts with
  | nil => simp [weightArgs]
  | cons t ts ih => rw [List.cons_append, weightArgs, weightArgs, ih, Nat.add_assoc]

/-- A term weighs no more than the terms that it is among. -/
theorem weight_le_weightArgs {t : Term} {args : List Term} (member : t ∈ args) :
    t.weight rank base ≤ weightArgs rank base args := by
  obtain ⟨before, after, rfl⟩ := List.append_of_mem member
  rw [weightArgs_append, weightArgs]
  omega

/-- Terms weigh no more than as many times the heaviest of them. -/
theorem weightArgs_le {args : List Term} {n : Nat}
    (each : ∀ t ∈ args, t.weight rank base ≤ n) :
    weightArgs rank base args ≤ args.length * n := by
  induction args with
  | nil => simp [weightArgs]
  | cons t ts ih =>
    rw [List.forall_mem_cons] at each
    have here := each.1
    have others := ih each.2
    rw [weightArgs, List.length_cons, Nat.succ_mul]
    omega

/-- An application weighs no less than its arguments. -/
theorem weightArgs_le_weight (positive : 0 < base) (head : Head) (name : String)
    (args : List Term) : weightArgs rank base args ≤ (app head name args).weight rank base := by
  by_cases call : (app head name args).isCall = true
  · rw [weight_call call]
    exact (strictMono_stretch positive _).le_apply
  · cases head with
    | ctor => rw [weight]
    | pattern => rw [weight]
    | fCall => exact absurd rfl call
    | gCall => exact absurd rfl call

/-- A map that changes no weight of some terms does not change what they weigh together. -/
theorem weightArgs_map {args : List Term} {φ : Term → Term}
    (each : ∀ t ∈ args, (φ t).weight rank base = t.weight rank base) :
    weightArgs rank base (args.map φ) = weightArgs rank base args := by
  induction args with
  | nil => rfl
  | cons t ts ih =>
    rw [List.forall_mem_cons] at each
    rw [List.map_cons, weightArgs, weightArgs, each.1, ih each.2]

/-- Variables weigh nothing together. -/
theorem weightArgs_vars (names : List String) :
    weightArgs rank base (names.map var) = 0 := by
  induction names with
  | nil => rfl
  | cons name names ih => rw [List.map_cons, weightArgs, weight_var, ih]

/-- A substitution of terms without weight changes no weight. -/
theorem weight_subst_of_weightless {t : Term} (written : t.plain = true) {values : Substitution}
    (weightless : ∀ x ∈ t.occurrences, ((var x).subst values).weight rank base = 0) :
    (t.subst values).weight rank base = t.weight rank base := by
  induction t with
  | var name => rw [weightless name (mem_occurrences_var.mpr rfl), weight_var]
  | letIn body bindings => simp at written
  | app head name args ih =>
    have each : ∀ t ∈ args, (t.subst values).weight rank base = t.weight rank base :=
      fun t member => ih t member ((plain_app.mp written).2 t member) fun x occurs =>
        weightless x (mem_occurrences_app.mpr ⟨t, member, occurs⟩)
    rw [subst_app]
    cases head <;> simp only [weight, weightArgs_map each]

/-- An argument has no more nodes than the arguments together. -/
theorem size_le_sizeArgs {t : Term} {args : List Term} (member : t ∈ args) :
    t.size ≤ sizeArgs args := by
  obtain ⟨before, after, rfl⟩ := List.append_of_mem member
  rw [sizeArgs_append, sizeArgs]
  omega

/-- There are no more arguments than nodes in them. -/
theorem length_le_sizeArgs (args : List Term) : args.length ≤ sizeArgs args := by
  induction args with
  | nil => rfl
  | cons t ts ih =>
    have positive := t.size_pos
    rw [List.length_cons, sizeArgs]
    omega

/-- A function is called if it is applied. -/
theorem mem_calls {t : Term} {name : String} :
    name ∈ t.calls ↔ (.fCall, name) ∈ t.applications ∨ (.gCall, name) ∈ t.applications := by
  rw [calls, List.mem_filterMap]
  constructor
  · rintro ⟨⟨head, function⟩, applied, called⟩
    simp only [Option.ite_none_right_eq_some, Option.some.injEq] at called
    obtain ⟨rfl | rfl, rfl⟩ := called
    · exact .inl applied
    · exact .inr applied
  · rintro (applied | applied)
    · exact ⟨_, applied, rfl⟩
    · exact ⟨_, applied, rfl⟩

/-- A constructor of a term is applied in it. -/
theorem mem_constructors {t : Term} {name : String} :
    name ∈ t.constructors ↔ (.ctor, name) ∈ t.applications := by
  rw [constructors, List.mem_filterMap]
  constructor
  · rintro ⟨⟨head, constructor⟩, applied, used⟩
    simp only [Option.ite_none_right_eq_some, Option.some.injEq] at used
    obtain ⟨rfl, rfl⟩ := used
    exact applied
  · exact fun applied => ⟨_, applied, rfl⟩

/-- The constructors of an application: its own name, if it applies one, and those of its
arguments. -/
theorem mem_constructors_app {head : Head} {name : String} {args : List Term}
    {constructor : String} :
    constructor ∈ (app head name args).constructors ↔
      head = .ctor ∧ constructor = name ∨ ∃ t ∈ args, constructor ∈ t.constructors := by
  rw [mem_constructors, mem_applications_app, Prod.mk.injEq, eq_comm (a := Head.ctor)]
  simp only [mem_constructors]

/-- The constructors of a `let` term are those of its body and of its values. -/
theorem mem_constructors_letIn {body : Term} {bindings : List (String × Term)}
    {constructor : String} :
    constructor ∈ (letIn body bindings).constructors ↔
      constructor ∈ body.constructors ∨
        ∃ binding ∈ bindings, constructor ∈ binding.2.constructors := by
  simp only [mem_constructors, mem_applications_letIn]

/-- The constructors after a substitution are those of the term and of the values. -/
theorem mem_constructors_subst {t : Term} {values : Substitution} {constructor : String} :
    constructor ∈ (t.subst values).constructors ↔ constructor ∈ t.constructors ∨
      ∃ x ∈ t.occurrences, constructor ∈ ((var x).subst values).constructors := by
  rw [mem_constructors, mem_applications_subst]
  simp only [mem_constructors]

/-- The constructors of an argument are constructors of the application. -/
theorem constructors_of_arg {head : Head} {name : String} {args : List Term} {t : Term}
    (member : t ∈ args) {constructor : String} (applied : constructor ∈ t.constructors) :
    constructor ∈ (app head name args).constructors :=
  mem_constructors_app.mpr (.inr ⟨t, member, applied⟩)

/-- A variable weighs nothing, also after a contraction. -/
theorem weight_contracted (x y constructor : String) (fields : List String) :
    ((var y).subst [(x, ctor constructor (fields.map var))]).weight rank base = 0 := by
  rw [subst_var_single]
  split
  · rw [weight_ctor, weightArgs_vars]
  · rw [weight_var]

/-- A contraction of a variable brings in the constructor of the pattern only. -/
theorem eq_of_mem_constructors_contracted {x y constructor name : String} {fields : List String}
    (applied : name ∈ ((var y).subst [(x, ctor constructor (fields.map var))]).constructors) :
    name = constructor := by
  rw [subst_var_single] at applied
  split at applied
  · rcases mem_constructors_app.mp applied with ⟨-, same⟩ | ⟨field, isField, inField⟩
    · exact same
    · obtain ⟨z, -, rfl⟩ := List.mem_map.mp isField
      simp [mem_constructors] at inField
  · simp [mem_constructors] at applied

/-- What a body that calls functions of smaller rank weighs, once its variables have been given
values: no more than is got from the heaviest value in a round for every node of the body. -/
theorem weight_subst_le (positive : 0 < base) {t : Term} (written : t.plain = true) {below : Nat}
    (ranked : ∀ name ∈ t.calls, rank name < below) (small : t.size ≤ base)
    {values : Substitution} {n : Nat}
    (bounded : ∀ x ∈ t.occurrences, ((var x).subst values).weight rank base ≤ n) :
    (t.subst values).weight rank base ≤ (spread base below)^[t.size] n := by
  induction t with
  | var name =>
    have rounds := monotone_rounds positive below n (Nat.zero_le (var name).size)
    exact (bounded name (mem_occurrences_var.mpr rfl)).trans rounds
  | letIn body bindings => simp at written
  | app head name args ih =>
    rw [size_app] at small
    rw [size_app, Nat.add_comm, Function.iterate_succ_apply']
    -- The arguments together are a multiple of what has been reached before the last round.
    have each : ∀ u ∈ args.map (subst values),
        u.weight rank base ≤ (spread base below)^[sizeArgs args] n := by
      intro u member
      obtain ⟨t, isArg, rfl⟩ := List.mem_map.mp member
      have smaller := size_le_sizeArgs isArg
      have inside := ih t isArg ((plain_app.mp written).2 t isArg)
        (fun called inArg => ranked called <| by
          simp only [mem_calls, mem_applications_app] at inArg ⊢
          exact inArg.imp (fun here => .inr ⟨t, isArg, here⟩) fun here => .inr ⟨t, isArg, here⟩)
        (by omega) (fun x occurs => bounded x (mem_occurrences_app.mpr ⟨t, isArg, occurs⟩))
      exact inside.trans (monotone_rounds positive below n smaller)
    have together : weightArgs rank base (args.map (subst values)) ≤
        base * (spread base below)^[sizeArgs args] n := by
      have few := length_le_sizeArgs args
      calc
        weightArgs rank base (args.map (subst values)) ≤
            args.length * (spread base below)^[sizeArgs args] n := by
          simpa using weightArgs_le each
        _ ≤ base * (spread base below)^[sizeArgs args] n := Nat.mul_le_mul_right _ (by omega)
    rw [subst_app]
    by_cases call : (app head name args).isCall = true
    · have smaller : rank name + 1 ≤ below := by
        refine ranked name (mem_calls.mpr ?_)
        rcases isCall_app.mp call with rfl | rfl
        · exact .inl (mem_applications_app.mpr (.inl rfl))
        · exact .inr (mem_applications_app.mpr (.inl rfl))
      rw [weight_call (isCall_app.mpr (isCall_app.mp call))]
      exact (monotone_stretch_rank positive _ smaller).trans
        ((strictMono_stretch positive below).monotone together)
    · cases head with
      | ctor =>
        rw [weight_ctor]
        exact together.trans (mul_le_spread positive below _)
      | pattern => simp at written
      | fCall => exact absurd rfl call
      | gCall => exact absurd rfl call

end Weight

end Term

namespace Program

variable {rank : String → Nat} {rules : List Rule} {used : List String}

/-- One more than the nodes of all bodies: the base for the weights of terms of a program. -/
def span (rules : List Rule) : Nat := 1 + Term.sizeArgs (rules.map Rule.body)

/-- The span is positive. -/
theorem span_pos (rules : List Rule) : 0 < span rules := by
  rw [span]
  omega

/-- No body has more nodes than the span says. -/
theorem size_le_span {rule : Rule} (isRule : rule ∈ rules) : rule.body.size ≤ span rules := by
  have smaller := Term.size_le_sizeArgs (List.mem_map_of_mem (f := Rule.body) isRule)
  rw [span]
  omega

/-- Ranked rules with plain bodies, in which a g-function and a constructor in use lead to the rules
of the function only. -/
structure Tame (rank : String → Nat) (rules : List Rule) (used : List String) : Prop where
  /-- The bodies are plain. -/
  bodies : ∀ rule ∈ rules, rule.body.plain = true
  /-- The functions are ranked. -/
  ranked : (ofRules rules).Ranked rank
  /-- No rule is taken for one of another function. -/
  unambiguous : (ofRules rules).Unambiguous used
  /-- The constructors of the rules are in use. -/
  inUse : ∀ constructor ∈ (ofRules rules).constructors, constructor ∈ used

/-- A term with constructors in use only that weighs less than a bound. -/
structure Lighter (rank : String → Nat) (rules : List Rule) (used : List String) (bound : Nat)
    (t : Term) : Prop where
  /-- It weighs less. -/
  weight_lt : t.weight rank (span rules) < bound
  /-- Its constructors are in use. -/
  inUse : ∀ constructor ∈ t.constructors, constructor ∈ used

/-- A call with a lighter first argument is lighter. -/
theorem Lighter.inside {name : String} {inner : Term} {rest : List Term} {branch : Branch}
    (lighter : Lighter rank rules used (inner.weight rank (span rules)) branch.term)
    (inUse : ∀ r ∈ rest, ∀ constructor ∈ r.constructors, constructor ∈ used) :
    Lighter rank rules used ((Term.gCall name (inner :: rest)).weight rank (span rules))
      (Branch.inside name rest branch).term := by
  refine ⟨?_, fun constructor applied => ?_⟩
  · rw [Branch.inside, Term.weight_call rfl, Term.weight_call rfl, Term.weightArgs,
      Term.weightArgs]
    exact Term.strictMono_stretch (span_pos rules) _ (Nat.add_lt_add_right lighter.weight_lt _)
  · rcases Term.mem_constructors_app.mp applied with ⟨isCtor, -⟩ | ⟨r, isArg, inArg⟩
    · contradiction
    · rcases List.mem_cons.mp isArg with rfl | isRest
      · exact lighter.inUse constructor inArg
      · exact inUse r isRest constructor inArg

namespace Tame

variable (tame : Tame rank rules used)

include tame

/-- What a rule makes of arguments is lighter than a call of its function with these arguments. -/
theorem lighter_of_rule {rule : Rule} (isRule : rule ∈ rules) {args : List Term}
    (inUse : ∀ arg ∈ args, ∀ constructor ∈ arg.constructors, constructor ∈ used) :
    Lighter rank rules used
      (Term.stretch (span rules) (rank rule.function + 1)
        (Term.weightArgs rank (span rules) args))
      (rule.body.subst (.ofPairs (rule.headVars.zip args))) := by
  -- A variable of the body is given an argument or stays.
  have given : ∀ x, (Term.var x).subst (.ofPairs (rule.headVars.zip args)) ∈ args ∨
      (Term.var x).subst (.ofPairs (rule.headVars.zip args)) = .var x := by
    intro x
    cases found : NameMap.value? (NameMap.ofPairs (rule.headVars.zip args)) x with
    | none => exact .inr (Term.subst_var_of_none found)
    | some arg =>
      rw [Term.subst_var_of_value? found]
      exact .inl (List.of_mem_zip (NameMap.mem_of_value?_ofPairs found)).2
  refine ⟨?_, fun constructor applied => ?_⟩
  · have bounded : ∀ x ∈ rule.body.occurrences,
        ((Term.var x).subst (.ofPairs (rule.headVars.zip args))).weight rank (span rules) ≤
          Term.weightArgs rank (span rules) args := by
      intro x _
      rcases given x with isArg | stays
      · exact Term.weight_le_weightArgs isArg
      · rw [stays, Term.weight_var]
        exact Nat.zero_le _
    have ranked : ∀ name ∈ rule.body.calls, rank name < rank rule.function :=
      tame.ranked rule (by rwa [rules_ofRules])
    rw [Term.stretch_succ, Nat.lt_succ_iff]
    exact (Term.weight_subst_le (span_pos rules) (tame.bodies rule isRule) ranked
      (size_le_span isRule) bounded).trans
        (Term.monotone_rounds (span_pos rules) _ _ (size_le_span isRule))
  · rcases Term.mem_constructors_subst.mp applied with inBody | ⟨x, -, inValue⟩
    · refine tame.inUse constructor (List.mem_flatMap.mpr ⟨rule, ?_, ?_⟩)
      · rwa [rules_ofRules]
      · cases rule with
        | f rule => exact inBody
        | g rule => exact List.mem_cons_of_mem _ inBody
    · rcases given x with isArg | stays
      · exact inUse _ isArg constructor inValue
      · simp [stays, Term.mem_constructors] at inValue

/-- A rule that replaces a call of a g-function with a constructor in use is a rule of the
function. -/
theorem name_of_key {name constructor : String} {listed : List GRule}
    (found : (ofRules rules).gs.value? name = some listed) (inUse : constructor ∈ used)
    {rule : GRule} (isRule : .g rule ∈ rules) (key : rule.key = ruleKey name constructor) :
    rule.name = name := by
  obtain ⟨other, member⟩ := List.exists_mem_of_ne_nil listed (ne_nil_of_value?_gs found)
  obtain ⟨isOther, rfl⟩ := (mem_of_value?_gs found other).mp member
  refine tame.unambiguous rule ?_ other ?_ constructor inUse key
  · rwa [mem_gRules, rules_ofRules]
  · rwa [mem_gRules, rules_ofRules]

/-- Replacing a call of a g-function with a constructor in use makes it lighter. -/
theorem lighter_of_applyG {name constructor : String} {listed : List GRule}
    (found : (ofRules rules).gs.value? name = some listed) (inUse : constructor ∈ used)
    {fields rest : List Term} {u : Term}
    (argsInUse : ∀ arg ∈ fields ++ rest, ∀ c ∈ arg.constructors, c ∈ used)
    (replaced : (ofRules rules).applyG name constructor fields rest = .ok u) :
    Lighter rank rules used
      (Term.stretch (span rules) (rank name + 1)
        (Term.weightArgs rank (span rules) (fields ++ rest))) u := by
  obtain ⟨rule, isRule, key, -, rfl⟩ := exists_rule_of_applyG replaced
  have lighter := tame.lighter_of_rule isRule argsInUse
  rwa [Rule.function, tame.name_of_key found inUse isRule key] at lighter

/-- What replaces a call of a g-function with a constructor is lighter than the call. -/
theorem lighter_of_ctorCall {name constructor : String} {fields rest : List Term}
    {listed : List GRule} (found : (ofRules rules).gs.value? name = some listed)
    (inUse : ∀ c ∈ (Term.gCall name (.ctor constructor fields :: rest)).constructors, c ∈ used)
    {u : Term} (replaced : (ofRules rules).applyG name constructor fields rest = .ok u) :
    Lighter rank rules used
      ((Term.gCall name (.ctor constructor fields :: rest)).weight rank (span rules)) u := by
  have first : ∀ c ∈ (Term.ctor constructor fields).constructors, c ∈ used :=
    fun c applied => inUse c (Term.constructors_of_arg List.mem_cons_self applied)
  have together : Term.weightArgs rank (span rules) (.ctor constructor fields :: rest) =
      Term.weightArgs rank (span rules) (fields ++ rest) := by
    rw [Term.weightArgs, Term.weight_ctor, Term.weightArgs_append]
  rw [Term.weight_call rfl, together]
  refine tame.lighter_of_applyG found ?_ (List.forall_mem_append.mpr ⟨?_, ?_⟩) replaced
  · exact first constructor (Term.mem_constructors_app.mpr (.inl ⟨rfl, rfl⟩))
  · exact fun field isField c applied => first c (Term.constructors_of_arg isField applied)
  · exact fun r isRest c applied =>
      inUse c (Term.constructors_of_arg (List.mem_cons_of_mem _ isRest) applied)

/-- The branch of a case distinction is lighter than the call that is split: the constructor that
takes the place of the variable weighs nothing, as the variable does. -/
theorem lighter_of_branchFor {name x : String} {rest : List Term} {listed : List GRule}
    (found : (ofRules rules).gs.value? name = some listed) {rule : GRule} (member : rule ∈ listed)
    (written : ∀ r ∈ rest, r.plain = true)
    (inUse : ∀ r ∈ rest, ∀ constructor ∈ r.constructors, constructor ∈ used) {branch : Branch}
    (isBranch : (ofRules rules).BranchFor name x rest rule branch) :
    Lighter rank rules used
      (Term.stretch (span rules) (rank name + 1) (Term.weightArgs rank (span rules) rest))
      branch.term := by
  obtain ⟨fields, -, -, replaced⟩ := isBranch
  have named : rule.pattern.name ∈ used := by
    refine tame.inUse _ (List.mem_flatMap.mpr ⟨.g rule, ?_, List.mem_cons_self⟩)
    rw [rules_ofRules]
    exact ((mem_of_value?_gs found rule).mp member).1
  have same : Term.weightArgs rank (span rules) (fields.map .var ++
      rest.map (Term.subst [(x, .ctor rule.pattern.name (fields.map .var))])) =
        Term.weightArgs rank (span rules) rest := by
    rw [Term.weightArgs_append, Term.weightArgs_vars, Nat.zero_add]
    exact Term.weightArgs_map fun r isRest => Term.weight_subst_of_weightless (written r isRest)
      fun y _ => Term.weight_contracted x y _ fields
  rw [← same]
  refine tame.lighter_of_applyG found named (List.forall_mem_append.mpr ⟨?_, ?_⟩) replaced
  · intro field isField constructor applied
    obtain ⟨y, -, rfl⟩ := List.mem_map.mp isField
    simp [Term.mem_constructors] at applied
  · intro changed isChanged constructor applied
    obtain ⟨r, isRest, rfl⟩ := List.mem_map.mp isChanged
    rcases Term.mem_constructors_subst.mp applied with inRest | ⟨y, -, inValue⟩
    · exact inUse r isRest constructor inRest
    · exact Term.eq_of_mem_constructors_contracted inValue ▸ named

/-- Every result of driving a plain call is lighter than the call. -/
theorem lighter_of_driveTerm {t : Term} (written : t.plain = true) (call : t.isCall = true)
    (inUse : ∀ constructor ∈ t.constructors, constructor ∈ used) {supply later : NameSupply}
    {branches : List Branch}
    (driven : (ofRules rules).driveTerm t supply = (.ok branches, later)) :
    ∀ branch ∈ branches,
      Lighter rank rules used (t.weight rank (span rules)) branch.term := by
  revert inUse branches
  refine Term.callInduction ?_ ?_ ?_ ?_ ?_ t written call
  · intro name args _ inUse branches driven branch member
    rw [driveTerm_fCall, Prod.mk.injEq, map_single_eq_ok] at driven
    obtain ⟨⟨u, unfolded, rfl⟩, -⟩ := driven
    obtain rfl := List.mem_singleton.mp member
    obtain ⟨rule, isRule, rfl, -, rfl⟩ := exists_rule_of_unfold unfolded
    rw [Term.weight_call rfl]
    exact tame.lighter_of_rule isRule fun arg isArg constructor applied =>
      inUse constructor (Term.constructors_of_arg isArg applied)
  · intro name _ branches driven
    simp [driveTerm] at driven
  · intro name constructor fields rest _ inUse branches driven branch member
    cases found : (ofRules rules).gs.value? name with
    | none => simp [driveTerm_unlisted found] at driven
    | some listed =>
      rw [driveTerm_ctor found, Prod.mk.injEq, map_single_eq_ok] at driven
      obtain ⟨⟨u, replaced, rfl⟩, -⟩ := driven
      obtain rfl := List.mem_singleton.mp member
      exact tame.lighter_of_ctorCall found inUse replaced
  · intro name x rest written inUse branches driven branch member
    cases found : (ofRules rules).gs.value? name with
    | none => simp [driveTerm_unlisted found] at driven
    | some listed =>
      rw [driveTerm_var found] at driven
      obtain ⟨rule, isListed, isBranch⟩ := exists_left_of_forall₂ (split_ok driven).1 member
      rw [Term.weight_call rfl, Term.weightArgs, Term.weight_var, Nat.zero_add]
      refine tame.lighter_of_branchFor found isListed ?_ ?_ isBranch
      · exact fun r isRest => (Term.plain_app.mp written).2 r (List.mem_cons_of_mem _ isRest)
      · exact fun r isRest c applied =>
          inUse c (Term.constructors_of_arg (List.mem_cons_of_mem _ isRest) applied)
  · intro name inner rest _ call ih inUse branches driven branch member
    obtain ⟨listed, results, -, inside, rfl⟩ := driveTerm_nested_ok call driven
    obtain ⟨result, isResult, rfl⟩ := List.mem_map.mp member
    have innerInUse : ∀ c ∈ inner.constructors, c ∈ used := fun c applied =>
      inUse c (Term.constructors_of_arg List.mem_cons_self applied)
    exact (ih innerInUse inside result isResult).inside fun r isRest c applied =>
      inUse c (Term.constructors_of_arg (List.mem_cons_of_mem _ isRest) applied)

end Tame

end Program

end Supercompilation
