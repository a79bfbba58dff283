import Mathlib.Logic.Relation
import Supercompilation.Build
import Supercompilation.Proofs.Preorder

/-!
# Steps and runs of a construction

A step of a construction either drives the first unprocessed leaf or folds it.
`BuildState.Grows.cases` says once what each of the two does to the tree and to the supply; the
properties of whole constructions follow from it by induction along `BuildState.Reaches`.

Every construction, however it ends, leaves the tree of a state that is reached by such steps, and a
completed one ends in a state in which no leaf needs more work.
-/

namespace Supercompilation

open ProcessTree

namespace BuildState

/-- A step of a construction: the first unprocessed leaf grows. -/
def Grows (state next : BuildState) : Prop :=
  ∃ (leaf : Nat) (grown : Grown), state.tree.unprocessed? = some leaf ∧
    state.supercompiler.step state.tree leaf = (.ok grown, next.supercompiler) ∧
    next.tree = grown.tree ∧ next.count = state.count + 1

/-- A state is reached from another by steps of a construction. -/
abbrev Reaches : BuildState → BuildState → Prop := Relation.ReflTransGen Grows

/-- The state in which the construction for a term starts. -/
def start (sc : Supercompiler) (t : Term) : BuildState := ⟨.ofTerm t, sc, 0⟩

/-- A leaf that a step can take: it is attached, has no children and needs more work. -/
structure Pending (state : BuildState) (leaf : Nat) (node : Node) : Prop where
  /-- The leaf is attached to the root. -/
  attached : state.tree.Attached leaf
  /-- The node of the leaf. -/
  found : state.tree.node? leaf = some node
  /-- It has no children. -/
  childless : state.tree.children leaf = []
  /-- It needs more work. -/
  unprocessed : state.tree.isProcessed leaf = false

/-- A step that drives a leaf. -/
structure Drives (state next : BuildState) (leaf : Nat) (node : Node) (branches : List Branch) :
    Prop where
  /-- The leaf needs more work. -/
  pending : state.Pending leaf node
  /-- Its term is driven. -/
  driven : state.supercompiler.drive node.term = (.ok branches, next.supercompiler)
  /-- The leaf gets a child for every branch. -/
  growth : Growth state.tree leaf
    ((List.range branches.length).map (state.tree.nodes.size + ·)) branches next.tree

/-- A step that folds a leaf: a `let` term over the term of an ancestor takes its place. -/
structure Folds (state next : BuildState) (leaf : Nat) (node : Node) (place ancestor : Nat)
    (above : Node) (values : Substitution) : Prop where
  /-- The leaf needs more work. -/
  pending : state.Pending leaf node
  /-- It holds a call. -/
  call : node.term.isCall = true
  /-- It has a parent. -/
  parent : node.parent = some place
  /-- It is a child of its parent. -/
  child : leaf ∈ state.tree.children place
  /-- It is folded to an ancestor. -/
  ancestor_mem : ancestor ∈ state.tree.ancestors leaf
  /-- The node of the ancestor. -/
  foundAbove : state.tree.node? ancestor = some above
  /-- The ancestor holds a term of the same kind. -/
  kind : above.term.kind = node.term.kind
  /-- The leaf is an instance of the ancestor. -/
  matched : above.term.matchAgainst node.term = some values
  /-- No name is issued. -/
  supercompiler : next.supercompiler = state.supercompiler
  /-- The `let` term takes the place of the leaf below its parent. -/
  growth : Growth state.tree place ((state.tree.children place).replace leaf state.tree.nodes.size)
    [⟨.letIn above.term values, node.contraction⟩] next.tree

/-- The first unprocessed leaf needs more work. -/
theorem pending_of_unprocessed? {state : BuildState} (ordered : state.tree.WellFormed) {leaf : Nat}
    (first : state.tree.unprocessed? = some leaf) : ∃ node, state.Pending leaf node := by
  have isLeaf := (mem_leaves ordered).mp (List.mem_of_find?_eq_some first)
  obtain ⟨node, found⟩ := node?_isSome_iff.mpr (isLeaf.1.lt_size ordered)
  exact ⟨node, isLeaf.1, found, isLeaf.2, by simpa using List.find?_some first⟩

/-- A node that needs more work is a leaf. -/
theorem Pending.mem_leaves {state : BuildState} {leaf : Nat} {node : Node}
    (pending : state.Pending leaf node) (ordered : state.tree.WellFormed) :
    leaf ∈ state.tree.leaves :=
  (ProcessTree.mem_leaves ordered).mpr ⟨pending.attached, pending.childless⟩

/-- What is found in looking for an ancestor to fold to. -/
theorem fold?_eq_some {tree : ProcessTree} {i a : Nat} {node : Node} {values : Substitution}
    (found : tree.node? i = some node) (folds : tree.fold? i = some (a, values)) :
    a ∈ tree.ancestors i ∧ ∃ above, tree.node? a = some above ∧
      above.term.kind = node.term.kind ∧ above.term.matchAgainst node.term = some values := by
  rw [fold?, found] at folds
  obtain ⟨b, member, here⟩ := List.exists_of_findSome?_eq_some folds
  split at here
  · contradiction
  · rename_i above there
    split at here
    · rename_i sameKind
      rw [Option.map_eq_some_iff] at here
      obtain ⟨values', matched, same⟩ := here
      obtain ⟨rfl, rfl⟩ := Prod.mk.inj same
      exact ⟨member, above, there, sameKind, matched⟩
    · contradiction

/-- A driven leaf gets its branches as children. -/
theorem drives_of_driveNode {state next : BuildState} (ordered : state.tree.WellFormed) {leaf : Nat}
    {node : Node} {grown : Grown} (pending : state.Pending leaf node)
    (driven : state.supercompiler.driveNode state.tree leaf node.term =
      (.ok grown, next.supercompiler)) (tree : next.tree = grown.tree) :
    grown.action = .drive ∧ Drives state next leaf node grown.results := by
  rw [Supercompiler.driveNode] at driven
  split at driven
  · simp at driven
  · rename_i branches sc result
    simp only [Prod.mk.injEq, Except.ok.injEq] at driven
    obtain ⟨rfl, rfl⟩ := driven
    refine ⟨rfl, pending, result, ?_⟩
    have growth := growth_addChildren ordered (pending.attached.lt_size ordered) branches
    rw [pending.childless, List.nil_append] at growth
    rwa [tree]

/-- A step at a leaf drives it, or folds it to the ancestor that is found for it; its results are
the new nodes. -/
theorem step_cases {state next : BuildState} (ordered : state.tree.WellFormed) {leaf : Nat}
    {node : Node} {grown : Grown} (pending : state.Pending leaf node)
    (stepped : state.supercompiler.step state.tree leaf = (.ok grown, next.supercompiler))
    (tree : next.tree = grown.tree) :
    (grown.action = .drive ∧ Drives state next leaf node grown.results) ∨
    (grown.action = .fold ∧ ∃ place ancestor above values,
      grown.results = [⟨.letIn above.term values, node.contraction⟩] ∧
      state.tree.fold? leaf = some (ancestor, values) ∧
      Folds state next leaf node place ancestor above values) := by
  rw [Supercompiler.step, pending.found] at stepped
  simp only at stepped
  split at stepped
  · rename_i call
    split at stepped
    · exact .inl (drives_of_driveNode ordered pending stepped tree)
    · rename_i folded here
      obtain ⟨⟨a, values⟩, folds, made⟩ := Option.bind_eq_some_iff.mp here
      obtain ⟨member, above, there, sameKind, matched⟩ := fold?_eq_some pending.found folds
      simp only [Supercompiler.foldTerm, there, Option.map_some, Option.some.injEq] at made
      -- A node with an ancestor has a parent.
      cases parent : node.parent with
      | none =>
        rw [← parent?_of_node? pending.found] at parent
        rw [ancestors_of_no_parent parent] at member
        contradiction
      | some place =>
        split at stepped
        · simp at stepped
        · rename_i new tree' replaced
          obtain ⟨child, rfl, growth⟩ := growth_replace ordered pending.found parent replaced
          simp only [Prod.mk.injEq, Except.ok.injEq] at stepped
          obtain ⟨rfl, same⟩ := stepped
          have newest : tree'.node? state.tree.nodes.size =
              some ⟨folded, node.contraction, some place, []⟩ := growth.new 0
          refine .inr ⟨rfl, place, a, above, values, ?_, folds, pending, call, parent, child,
            member, there, sameKind, matched, same.symm, ?_⟩
          · rw [newest, made]
            rfl
          · rw [← made] at growth
            exact tree ▸ growth
  · exact .inl (drives_of_driveNode ordered pending stepped tree)

/-- A step drives a leaf or folds it. -/
theorem Grows.cases {state next : BuildState} (grows : state.Grows next)
    (ordered : state.tree.WellFormed) :
    (∃ leaf node branches, Drives state next leaf node branches) ∨
    (∃ leaf node place ancestor above values,
      Folds state next leaf node place ancestor above values) := by
  obtain ⟨leaf, grown, first, stepped, tree, -⟩ := grows
  obtain ⟨node, pending⟩ := pending_of_unprocessed? ordered first
  rcases step_cases ordered pending stepped tree with
    ⟨-, drives⟩ | ⟨-, place, ancestor, above, values, -, -, folds⟩
  · exact .inl ⟨leaf, node, grown.results, drives⟩
  · exact .inr ⟨leaf, node, place, ancestor, above, values, folds⟩

/-- In every step the tree grows at one node. -/
theorem Grows.exists_growth {state next : BuildState} (grows : state.Grows next)
    (ordered : state.tree.WellFormed) :
    ∃ place kids added, Growth state.tree place kids added next.tree := by
  rcases grows.cases ordered with ⟨_, _, _, drives⟩ | ⟨_, _, _, _, _, _, folds⟩
  · exact ⟨_, _, _, drives.growth⟩
  · exact ⟨_, _, _, folds.growth⟩

/-- The links stay in order. -/
theorem Reaches.wellFormed {state next : BuildState} (reaches : state.Reaches next)
    (ordered : state.tree.WellFormed) : next.tree.WellFormed := by
  induction reaches with
  | refl => exact ordered
  | tail _ grows ih =>
    obtain ⟨_, _, _, growth⟩ := grows.exists_growth ih
    exact growth.wellFormed ih

/-- The root keeps its term and its contraction. -/
theorem Reaches.root {state next : BuildState} (reaches : state.Reaches next)
    (ordered : state.tree.WellFormed) {node : Node}
    (found : state.tree.node? state.tree.root = some node) :
    ∃ after, next.tree.node? next.tree.root = some after ∧ after.term = node.term ∧
      after.contraction = node.contraction := by
  induction reaches with
  | refl => exact ⟨node, found, rfl, rfl⟩
  | tail early grows ih =>
    obtain ⟨before, there, term, contraction⟩ := ih
    obtain ⟨_, _, _, growth⟩ := grows.exists_growth (Reaches.wellFormed early ordered)
    obtain ⟨after, here, term', contraction', -⟩ := growth.exists_node?_old there
    rw [growth.root]
    exact ⟨after, here, term'.trans term, contraction'.trans contraction⟩

/-- Driving a leaf leaves the program alone. -/
theorem Drives.program {state next : BuildState} {leaf : Nat} {node : Node}
    {branches : List Branch} (drives : Drives state next leaf node branches) :
    next.supercompiler.program = state.supercompiler.program :=
  congrArg (fun outcome => outcome.2.program) drives.driven.symm

/-- A step leaves the program alone. -/
theorem Grows.program {state next : BuildState} (grows : state.Grows next)
    (ordered : state.tree.WellFormed) :
    next.supercompiler.program = state.supercompiler.program := by
  rcases grows.cases ordered with ⟨_, _, _, drives⟩ | ⟨_, _, _, _, _, _, folds⟩
  · exact drives.program
  · rw [folds.supercompiler]

/-- The program stays the same. -/
theorem Reaches.program {state next : BuildState} (reaches : state.Reaches next)
    (ordered : state.tree.WellFormed) :
    next.supercompiler.program = state.supercompiler.program := by
  induction reaches with
  | refl => rfl
  | tail early grows ih => rw [grows.program (Reaches.wellFormed early ordered), ih]

/-- What a round says about the state in which it starts: it stops without a step or after one, it
stops with a completed tree only if no leaf needs more work, and it goes on only after a step. -/
def Accounts (state : BuildState) : Round → Prop
  | .stop ending next =>
    ((next.tree = state.tree ∧ next.count = state.count) ∨ state.Grows next) ∧
      (ending = .completed → next = state ∧ state.tree.unprocessed? = none)
  | .go _ next => state.Grows next

/-- Recording a step either gives up in the state after it or goes on from there. -/
theorem record_cases (options : BuildOptions) (before : Term) (grown : Grown)
    (state : BuildState) :
    record options before grown state = .stop .tooDeep state ∨
      ∃ step, record options before grown state = .go step state := by
  rw [record]
  split
  · exact .inl rfl
  · exact .inr ⟨_, rfl⟩

/-- Growing a leaf goes on only after a step, and the record tells what the step did. -/
theorem growAt_eq_go {options : BuildOptions} {state next : BuildState} {leaf : Nat} {step : Step}
    (went : state.growAt options leaf = .go step next) :
    ∃ grown, state.supercompiler.step state.tree leaf = (.ok grown, next.supercompiler) ∧
      next.tree = grown.tree ∧ next.count = state.count + 1 ∧ step.action = grown.action ∧
      step.results = grown.results ∧
      step.before = ((state.tree.node? leaf).map Node.term).getD default := by
  rw [growAt] at went
  split at went
  · contradiction
  · simp only at went
    split at went
    · contradiction
    · rename_i grown sc stepped
      rw [record] at went
      split at went
      · contradiction
      · rw [Round.go.injEq] at went
        obtain ⟨rfl, rfl⟩ := went
        exact ⟨grown, stepped, rfl, rfl, rfl, rfl, rfl⟩

/-- Growing the first unprocessed leaf is accounted for. -/
theorem accounts_growAt (options : BuildOptions) {state : BuildState} {leaf : Nat}
    (first : state.tree.unprocessed? = some leaf) :
    state.Accounts (state.growAt options leaf) := by
  rw [growAt]
  split
  · exact ⟨.inl ⟨rfl, rfl⟩, by simp⟩
  · simp only
    split
    · exact ⟨.inl ⟨rfl, rfl⟩, by simp⟩
    · rename_i grown sc stepped
      have grows : state.Grows ⟨grown.tree, sc, state.count + 1⟩ :=
        ⟨leaf, grown, first, stepped, rfl, rfl⟩
      rcases record_cases options (((state.tree.node? leaf).map Node.term).getD default) grown
          ⟨grown.tree, sc, state.count + 1⟩ with deep | ⟨step, recorded⟩
      · rw [deep]
        exact ⟨.inr grows, by simp⟩
      · rw [recorded]
        exact grows

/-- Every round is accounted for. -/
theorem accounts_round (options : BuildOptions) (mayGrow : Bool) (state : BuildState) :
    state.Accounts (state.round options mayGrow) := by
  rw [round]
  split
  · exact ⟨.inl ⟨rfl, rfl⟩, by simp⟩
  · split
    · rename_i none
      exact ⟨.inl ⟨rfl, rfl⟩, fun _ => ⟨rfl, none⟩⟩
    · rename_i leaf first
      split
      · exact accounts_growAt options first
      · exact ⟨.inl ⟨rfl, rfl⟩, by simp⟩

/-- A construction ends with the tree and the count of a state that it reaches. -/
structure EndsIn {α : Type} (state : BuildState) (run : Run α) (final : BuildState) : Prop where
  /-- The state is reached. -/
  reaches : state.Reaches final
  /-- The tree at the end. -/
  tree : run.tree = final.tree
  /-- The number of steps at the end. -/
  count : run.count = final.count
  /-- A construction is completed only in a state in which no leaf needs more work. -/
  completed : run.ending = .completed →
    run.supercompiler = final.supercompiler ∧ final.tree.unprocessed? = none

/-- A round that stops ends the construction in a reached state. -/
theorem endsIn_of_stop {α : Type} {state next : BuildState} {ending : Ending}
    (accounted : state.Accounts (.stop ending next)) :
    ∃ final, EndsIn state (Run.ofState ending next : Run α) final := by
  obtain ⟨kept | grows, completed⟩ := accounted
  · refine ⟨state, .refl, kept.1, kept.2, fun done => ?_⟩
    obtain ⟨rfl, finished⟩ := completed done
    exact ⟨rfl, finished⟩
  · refine ⟨next, .single grows, rfl, rfl, fun done => ?_⟩
    obtain ⟨rfl, finished⟩ := completed done
    exact ⟨rfl, finished⟩

/-- Every construction ends in a reached state. -/
theorem exists_endsIn {α : Type} (options : BuildOptions) (watch : Step → ProcessTree → α)
    (allowed : Nat) (state : BuildState) :
    ∃ final, EndsIn state (Supercompiler.grow options watch allowed state) final := by
  induction allowed generalizing state with
  | zero =>
    have accounted := accounts_round options false state
    rw [Supercompiler.grow]
    split
    · rename_i ending next stopped
      rw [stopped] at accounted
      exact endsIn_of_stop accounted
    · rename_i step next went
      rw [went] at accounted
      exact ⟨next, .single accounted, rfl, rfl, by simp [Run.ofState]⟩
  | succ allowed ih =>
    have accounted := accounts_round options true state
    rw [Supercompiler.grow]
    split
    · rename_i ending next stopped
      rw [stopped] at accounted
      exact endsIn_of_stop accounted
    · rename_i step next went
      rw [went] at accounted
      obtain ⟨final, ends⟩ := ih next
      exact ⟨final, .head accounted ends.reaches, ends.tree, ends.count, ends.completed⟩

/-- The construction for a term ends in a state that is reached from its start. -/
theorem exists_endsIn_build {α : Type} (sc : Supercompiler) (options : BuildOptions)
    (patience : Nat) (watch : Step → ProcessTree → α) (t : Term) :
    ∃ final, EndsIn (start sc t) (sc.build options patience watch t) final :=
  exists_endsIn options watch _ (start sc t)

end BuildState

end Supercompilation
