import Supercompilation.Proofs.GroundRun
import Supercompilation.Proofs.Worklist

/-!
# Constructions without an end

A ground call whose evaluation goes on for ever, through calls that are all different, has a
construction without an end. The tree is a chain: its only leaf holds the latest of the calls, and
no ancestor repeats it. So there is always one more step to take, and every limit cuts the
construction.
-/

namespace Supercompilation

open ProcessTree

namespace BuildState

variable {rules : List Rule} {issued : Int} {calls : Nat → Term} {n : Nat}
  {state next : BuildState}

/-- A construction that has come to one of a sequence of terms: the only leaf holds it, and the
ancestors of the leaf hold terms that come before. -/
structure Unwinding (rules : List Rule) (issued : Int) (calls : Nat → Term) (n : Nat)
    (state : BuildState) : Prop where
  /-- The construction evaluates. -/
  evaluating : state.Evaluating rules issued
  /-- The chain of terms. -/
  chain : ∃ leaf, state.tree.leaves = [leaf] ∧ state.tree.HasTerm leaf (calls n) ∧
    ∀ a ∈ state.tree.ancestors leaf, ∃ m < n, state.tree.HasTerm a (calls m)

/-- A construction starts with the first of the terms. -/
theorem unwinding_start (supply : NameSupply) (evaluable : (calls 0).Evaluable) :
    (start ⟨.ofRules rules, supply⟩ (calls 0)).Unwinding rules supply.last calls 0 := by
  refine ⟨evaluating_start supply evaluable, 0, rfl, ⟨_, rfl, rfl⟩, fun a above => ?_⟩
  rw [ancestors_of_no_parent rfl] at above
  contradiction

/-- A leaf that needs more work is the only leaf. -/
theorem Unwinding.chain_of_pending (unwinding : state.Unwinding rules issued calls n) {leaf : Nat}
    {node : Node} (pending : state.Pending leaf node) :
    state.tree.leaves = [leaf] ∧ node.term = calls n ∧
      ∀ a ∈ state.tree.ancestors leaf, ∃ m < n, state.tree.HasTerm a (calls m) := by
  obtain ⟨only, leaves, ⟨_, found, term⟩, before⟩ := unwinding.chain
  obtain rfl : leaf = only := by
    simpa [leaves] using pending.mem_leaves unwinding.evaluating.ordered
  obtain rfl := Option.some.inj (pending.found.symm.trans found)
  exact ⟨leaves, term, before⟩

section Steps

variable (contained : Program.SelfContained rules)
  (falls : ∀ n, Supercompiler.parts? ⟨.ofRules rules, {}⟩ (calls n) = some [calls (n + 1)])
  (unwinding : state.Unwinding rules issued calls n)

include contained falls unwinding

/-- Driving the latest call yields the next one, whatever the supply is. -/
theorem Unwinding.parts?_eq : state.supercompiler.parts? (calls n) = some [calls (n + 1)] := by
  obtain ⟨leaf, -, ⟨node, found, term⟩, -⟩ := unwinding.chain
  rw [← falls n]
  exact Supercompiler.parts?_congr contained rfl unwinding.evaluating.program
    (term ▸ unwinding.evaluating.evaluable found)

/-- A step leads to the next call. -/
theorem Unwinding.of_grows (grows : state.Grows next) :
    next.Unwinding rules issued calls (n + 1) := by
  have evaluating := unwinding.evaluating
  have ordered := evaluating.ordered
  obtain ⟨leaf, node, branches, drives⟩ := evaluating.drives grows
  obtain ⟨leaves, term, before⟩ := unwinding.chain_of_pending drives.pending
  -- The leaf gets one child, which holds the next call.
  obtain ⟨parts, parted, rfl⟩ := evaluating.parts_of_drives contained drives
  rw [term, unwinding.parts?_eq contained falls] at parted
  obtain rfl := Option.some.inj parted
  have children : next.tree.children leaf = [state.tree.nodes.size] := by
    rw [drives.growth.children_eq, if_pos rfl]
    rfl
  have child : next.tree.node? state.tree.nodes.size =
      some ⟨calls (n + 1), none, some leaf, []⟩ := drives.growth.new 0
  refine ⟨evaluating.of_drives contained drives, state.tree.nodes.size, ?_, ⟨_, child, rfl⟩,
    fun a above => ?_⟩
  · rw [drives.leaves evaluating.program ordered, leaves, children]
    simp [inPlace]
  · rw [drives.growth.ancestors_new ordered (Nat.le_refl _) (node?_isSome_iff.mp ⟨_, child⟩),
      List.mem_cons] at above
    rcases above with rfl | above
    · exact ⟨n, Nat.lt_succ_self n, drives.growth.hasTerm_old ⟨_, drives.pending.found, term⟩⟩
    · obtain ⟨m, earlier, holds⟩ := before a above
      exact ⟨m, Nat.lt_succ_of_lt earlier, drives.growth.hasTerm_old holds⟩

variable (isCall : ∀ n, (calls n).isCall = true) (distinct : Function.Injective calls)

include isCall distinct

omit contained falls in
/-- There is a leaf that needs more work: no ancestor repeats the latest call. -/
theorem Unwinding.unprocessed?_ne_none : state.tree.unprocessed? ≠ none := by
  obtain ⟨leaf, leaves, ⟨node, found, term⟩, before⟩ := unwinding.chain
  intro none
  have processed : state.tree.isProcessed leaf = true := by
    have each := List.find?_eq_none.mp none leaf (leaves ▸ List.mem_singleton_self leaf)
    simpa using each
  have call := isCall n
  rcases finished_of_isProcessed found processed with ⟨x, held⟩ | ⟨name, held⟩ | ⟨-, repeated⟩
  · rw [← term, held] at call
    contradiction
  · rw [← term, held] at call
    contradiction
  · obtain ⟨a, above, other, there, -, same⟩ := repeated
    obtain ⟨m, earlier, _, there', term'⟩ := before a above
    obtain rfl := Option.some.inj (there.symm.trans there')
    rw [Term.equiv, Bool.and_eq_true, Term.hasInstance, Option.isSome_iff_exists] at same
    obtain ⟨values, matched⟩ := same.1
    have equal :=
      Term.eq_of_matchAgainst_ground (unwinding.evaluating.evaluable found).ground matched
    rw [term, term'] at equal
    exact absurd (distinct equal) (Nat.ne_of_gt earlier)

/-- Without a bound on frames there is a round that goes on, to the next call. -/
theorem Unwinding.exists_round {options : BuildOptions} (unbounded : options.frames = none) :
    ∃ step next, state.round options true = .go step next ∧
      next.Unwinding rules issued calls (n + 1) := by
  cases turn : state.round options true with
  | go step next =>
    exact ⟨step, next, rfl, unwinding.of_grows contained falls (grows_of_round turn)⟩
  | stop ending final =>
    have evaluating := unwinding.evaluating
    have here := evaluating.evaluates contained options true
    have accounted := accounts_round options true state
    rw [turn] at here accounted
    obtain ⟨-, unfailed, bounded, idle⟩ := here
    cases ending with
    | completed =>
      obtain ⟨rfl, done⟩ := accounted.2 rfl
      exact absurd done (unwinding.unprocessed?_ne_none isCall distinct)
    | exhausted => simp at idle
    | tooDeep => exact absurd unbounded (bounded rfl)
    | failed e =>
      obtain ⟨leaf, node, pending, stuck⟩ := unfailed e rfl
      obtain ⟨-, term, -⟩ := unwinding.chain_of_pending pending
      rw [term, unwinding.parts?_eq contained falls] at stuck
      contradiction

end Steps

end BuildState

/-- The construction for a ground call that goes on for ever through different calls is given up at
every limit, if there is no bound on frames. -/
theorem Supercompiler.abortsAt_of_endless {α : Type} {rules : List Rule} {calls : Nat → Term}
    (contained : Program.SelfContained rules) (evaluable : (calls 0).Evaluable)
    (isCall : ∀ n, (calls n).isCall = true) (distinct : Function.Injective calls)
    (falls : ∀ n, parts? ⟨.ofRules rules, {}⟩ (calls n) = some [calls (n + 1)])
    (supply : NameSupply) {options : BuildOptions} (unbounded : options.frames = none)
    (watch : Step → ProcessTree → α) (limit : Nat) :
    AbortsAt ⟨.ofRules rules, supply⟩ options watch (calls 0) limit := by
  have goesOn : ∀ rounds, ∃ last,
      BuildState.Advances options rounds (.start ⟨.ofRules rules, supply⟩ (calls 0)) last ∧
        last.Unwinding rules supply.last calls rounds := by
    intro rounds
    induction rounds with
    | zero => exact ⟨_, .refl _, BuildState.unwinding_start supply evaluable⟩
    | succ rounds ih =>
      obtain ⟨last, advances, unwinding⟩ := ih
      obtain ⟨step, next, went, later⟩ :=
        unwinding.exists_round contained falls isCall distinct unbounded
      exact ⟨next, advances.tail went, later⟩
  obtain ⟨last, advances, unwinding⟩ := goesOn limit
  obtain ⟨step, next, went, -⟩ :=
    unwinding.exists_round contained falls isCall distinct unbounded
  exact (abortsAt_of_advances watch advances (BuildState.round_false_of_go went)).1

end Supercompilation
