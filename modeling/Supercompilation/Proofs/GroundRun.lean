import Supercompilation.Proofs.Evaluation
import Supercompilation.Proofs.RenamedDriving
import Supercompilation.Proofs.StepLimit

/-!
# Constructions for ground terms

The construction for a ground term only drives: a ground ancestor is more general than no call but
itself, and a call that repeats an ancestor needs no more work. So there are no `let` terms, no
contractions and no fresh names, and a call has one child at most.

`BuildState.Evaluating` is the invariant behind this and `BuildState.Evaluates` says what a round
may do under it; `Run.EvaluatesOnly` collects what follows for whole constructions, however they
end.
-/

namespace Supercompilation

open ProcessTree

/-- A node holds a term. -/
def ProcessTree.HasTerm (tree : ProcessTree) (i : Nat) (t : Term) : Prop :=
  ∃ node, tree.node? i = some node ∧ node.term = t

/-- Old nodes go on holding their terms. -/
theorem ProcessTree.Growth.hasTerm_old {tree grown : ProcessTree} {place : Nat} {kids : List Nat}
    {added : List Branch} (growth : Growth tree place kids added grown) {i : Nat} {t : Term}
    (holds : tree.HasTerm i t) : grown.HasTerm i t := by
  obtain ⟨node, found, term⟩ := holds
  obtain ⟨after, there, same, -⟩ := growth.exists_node?_old found
  exact ⟨after, there, same.trans term⟩

/-- A call that an ancestor holds too counts as processed. -/
theorem ProcessTree.isProcessed_of_hasTerm {tree : ProcessTree} {i a : Nat} {node : Node}
    (found : tree.node? i = some node) (call : node.term.isCall = true)
    (member : a ∈ tree.ancestors i) (holds : tree.HasTerm a node.term) :
    tree.isProcessed i = true := by
  obtain ⟨above, there, same⟩ := holds
  have repeated : (tree.ancestors i).any (tree.repeats node.term) = true :=
    List.any_eq_true.mpr ⟨a, member, by simp [repeats, there, same, Term.equiv_self]⟩
  cases held : node.term with
  | var x => simp [held, Term.isCall] at call
  | letIn body bindings => simp [held, Term.isCall] at call
  | app head name args =>
    rw [held] at call repeated
    rcases Term.isCall_app.mp call with rfl | rfl <;>
      simpa [isProcessed, found, held] using repeated

/-- Driving a ground term that goes too deep issues no name before. -/
theorem Program.driveBlocked_ground {program : Program} (frames : Nat) {t : Term}
    (evaluable : t.Evaluable) {supply later : NameSupply}
    (blocked : program.driveBlocked frames t supply = some later) : later = supply := by
  have ifBlocked : ∀ {deep : Prop} [Decidable deep],
      (if deep then some supply else none) = some later → later = supply := by
    intro deep _ blocked
    split at blocked
    · exact (Option.some.inj blocked).symm
    · contradiction
  rcases evaluable.cases with ⟨name, args, rfl⟩ | call
  · simp [driveBlocked] at blocked
  have written := evaluable.plain
  revert frames evaluable blocked
  refine Term.callInduction ?_ ?_ ?_ ?_ ?_ t written call
  · intro name args _ frames _ blocked
    rw [driveBlocked] at blocked
    exact ifBlocked blocked
  · intro name frames _ blocked
    simp [driveBlocked] at blocked
  · intro name constructor fields rest _ frames _ blocked
    rw [driveBlocked] at blocked
    split at blocked
    · exact ifBlocked blocked
    · exact ifBlocked blocked
  · intro name x rest _ frames evaluable
    have scrutinee := (evaluable.arg List.mem_cons_self).ground
    simp at scrutinee
  · intro name inner rest _ call ih frames evaluable blocked
    cases found : program.gs.value? name with
    | none =>
      rw [driveBlocked, found] at blocked
      exact ifBlocked blocked
    | some listed =>
      rw [driveBlocked_nested found call] at blocked
      split at blocked
      · exact (Option.some.inj blocked).symm
      · exact ih _ (evaluable.arg List.mem_cons_self) blocked

namespace BuildState

variable {rules : List Rule} {issued : Int} {state next : BuildState} {leaf : Nat} {node : Node}

/-- A construction that evaluates: all nodes hold ground terms and have no contractions, and no name
has been issued. -/
structure Evaluating (rules : List Rule) (issued : Int) (state : BuildState) : Prop where
  /-- The program is made of the rules. -/
  program : state.supercompiler.program = .ofRules rules
  /-- The links are in order. -/
  ordered : state.tree.WellFormed
  /-- Every node holds a ground term. -/
  evaluable : ∀ {i : Nat} {node : Node}, state.tree.node? i = some node → node.term.Evaluable
  /-- No node has a contraction. -/
  contraction : ∀ {i : Nat} {node : Node}, state.tree.node? i = some node →
    node.contraction = none
  /-- The number of the name issued last. -/
  issued : state.supercompiler.supply.last = issued

/-- The construction for a ground term starts with a ground term. -/
theorem evaluating_start (supply : NameSupply) {t : Term} (evaluable : t.Evaluable) :
    (start ⟨.ofRules rules, supply⟩ t).Evaluating rules supply.last := by
  refine ⟨rfl, .ofTerm t, fun found => ?_, fun found => ?_, rfl⟩
  · rw [eq_of_node?_ofTerm found]
    exact evaluable
  · rw [eq_of_node?_ofTerm found]

/-- What a round of a construction that evaluates may do. If it goes on, a term was driven, and a
call has one result without a contraction. If it stops, no name has been issued; it fails only at a
term that cannot be driven, and is given up only because of a bound. -/
def Evaluates (options : BuildOptions) (mayGrow : Bool) (issued : Int) (state : BuildState) :
    Round → Prop
  | .stop ending final =>
    final.supercompiler.supply.last = issued ∧
      (∀ e, ending = .failed e → ∃ leaf node, state.Pending leaf node ∧
        state.supercompiler.parts? node.term = none) ∧
      (ending = .tooDeep → options.frames ≠ none) ∧ (ending = .exhausted → mayGrow = false)
  | .go step _ =>
    step.action = .drive ∧ (step.before.isCall = true → ∃ u, step.results = [⟨u, none⟩])

section Steps

variable (evaluating : state.Evaluating rules issued)

include evaluating

/-- No call is folded: an ancestor that is more general holds the same call, and then the call needs
no more work. -/
theorem Evaluating.fold?_eq_none (pending : state.Pending leaf node)
    (call : node.term.isCall = true) : state.tree.fold? leaf = none := by
  by_contra some
  obtain ⟨⟨a, values⟩, folds⟩ := Option.ne_none_iff_exists'.mp some
  obtain ⟨member, above, there, -, matched⟩ := fold?_eq_some pending.found folds
  have same : above.term = node.term :=
    Term.eq_of_matchAgainst_ground (evaluating.evaluable there).ground matched
  have processed := isProcessed_of_hasTerm pending.found call member ⟨above, there, same⟩
  rw [pending.unprocessed] at processed
  contradiction

/-- Every step drives. -/
theorem Evaluating.step_eq (pending : state.Pending leaf node) :
    state.supercompiler.step state.tree leaf =
      state.supercompiler.driveNode state.tree leaf node.term := by
  rw [Supercompiler.step, pending.found]
  simp only
  split
  · rename_i call
    rw [evaluating.fold?_eq_none pending call]
    rfl
  · rfl

/-- A step of the construction drives a leaf. -/
theorem Evaluating.drives (grows : state.Grows next) :
    ∃ leaf node branches, Drives state next leaf node branches := by
  obtain ⟨leaf, grown, first, stepped, tree, -⟩ := grows
  obtain ⟨node, pending⟩ := pending_of_unprocessed? evaluating.ordered first
  rw [evaluating.step_eq pending] at stepped
  exact ⟨leaf, node, _, (drives_of_driveNode evaluating.ordered pending stepped tree).2⟩

/-- A step that goes too deep issues no name before. -/
theorem Evaluating.last_of_stepBlocked {frames : Nat} {sc : Supercompiler}
    (pending : state.Pending leaf node)
    (blocked : state.supercompiler.stepBlocked frames state.tree leaf = some sc) :
    sc.supply.last = issued := by
  have inDrive : state.supercompiler.driveBlocked frames node.term = some sc →
      sc.supply.last = issued := by
    intro blocked
    obtain ⟨supply, deep, rfl⟩ := Option.map_eq_some_iff.mp blocked
    rw [Program.driveBlocked_ground frames (evaluating.evaluable pending.found) deep]
    exact evaluating.issued
  rw [Supercompiler.stepBlocked, pending.found] at blocked
  split at blocked
  · simp only at blocked
    split at blocked
    · split at blocked
      · exact Option.some.inj blocked ▸ evaluating.issued
      · split at blocked
        · contradiction
        · exact inDrive blocked
    · exact inDrive blocked
  · contradiction

/-- How growing a leaf goes: it is given up before, and only if there is a bound on the frames, or
its term is driven. -/
theorem Evaluating.growAt_cases (options : BuildOptions) (pending : state.Pending leaf node) :
    (options.frames ≠ none ∧ ∃ sc, sc.supply.last = issued ∧
      state.growAt options leaf = .stop .tooDeep { state with supercompiler := sc }) ∨
    (∃ e sc, state.supercompiler.drive node.term = (.error e, sc) ∧
      state.growAt options leaf = .stop (.failed (.drive e)) { state with supercompiler := sc }) ∨
    (∃ branches sc, state.supercompiler.drive node.term = (.ok branches, sc) ∧
      state.growAt options leaf =
        record options node.term ⟨.drive, branches, state.tree.addChildren leaf branches⟩
          ⟨state.tree.addChildren leaf branches, sc, state.count + 1⟩) := by
  rw [growAt]
  split
  · rename_i sc blocked
    obtain ⟨frames, some, blocked⟩ := Option.bind_eq_some_iff.mp blocked
    exact .inl ⟨by simp [some], sc, evaluating.last_of_stepBlocked pending blocked, rfl⟩
  · rw [evaluating.step_eq pending, Supercompiler.driveNode, pending.found]
    cases driven : state.supercompiler.drive node.term with
    | mk outcome sc =>
      cases outcome with
      | error e => exact .inr (.inl ⟨e, sc, rfl, rfl⟩)
      | ok branches => exact .inr (.inr ⟨branches, sc, rfl, rfl⟩)

/-- A round stops where it is, without a failure, or grows a leaf. It is given up there only if
there is a bound on the frames or no step may be taken. -/
theorem Evaluating.round_cases (options : BuildOptions) (mayGrow : Bool) :
    (∃ ending, state.round options mayGrow = .stop ending state ∧ (∀ e, ending ≠ .failed e) ∧
      (ending = .tooDeep → options.frames ≠ none) ∧ (ending = .exhausted → mayGrow = false)) ∨
    (∃ leaf node, state.Pending leaf node ∧
      state.round options mayGrow = state.growAt options leaf) := by
  rw [round]
  split
  · rename_i deep
    refine .inl ⟨.tooDeep, rfl, by simp, fun _ none => ?_, by simp⟩
    simp [scanTooDeep, none] at deep
  · split
    · exact .inl ⟨.completed, rfl, by simp, by simp, by simp⟩
    · rename_i leaf first
      cases mayGrow with
      | false => exact .inl ⟨.exhausted, rfl, by simp, by simp, by simp⟩
      | true =>
        obtain ⟨node, pending⟩ := pending_of_unprocessed? evaluating.ordered first
        exact .inr ⟨leaf, node, pending, rfl⟩

variable (contained : Program.SelfContained rules)

include contained

/-- A leaf that is driven gets its parts as children. -/
theorem Evaluating.parts_of_drives {branches : List Branch}
    (drives : Drives state next leaf node branches) :
    ∃ parts, state.supercompiler.parts? node.term = some parts ∧
      branches = parts.map fun u => ⟨u, none⟩ :=
  Supercompiler.drive_of_parts? contained evaluating.program
    (evaluating.evaluable drives.pending.found) drives.driven

/-- A leaf that needs more work has parts: it is a call or a constructor with arguments. -/
theorem Evaluating.parts_ne_nil (pending : state.Pending leaf node) {parts : List Term}
    (falls : state.supercompiler.parts? node.term = some parts) : parts ≠ [] := by
  have ground := evaluating.evaluable pending.found
  rcases ground.cases with ⟨name, args, held⟩ | call
  · rw [held, Supercompiler.parts?_ctor] at falls
    obtain rfl := Option.some.inj falls
    rintro rfl
    have unprocessed := pending.unprocessed
    simp [isProcessed, pending.found, held] at unprocessed
  · obtain ⟨u, rfl⟩ :=
      (Supercompiler.evaluable_of_parts? contained evaluating.program ground falls).2 call
    exact List.cons_ne_nil u []

/-- Driving a leaf leaves the construction evaluating. -/
theorem Evaluating.of_drives {branches : List Branch}
    (drives : Drives state next leaf node branches) : next.Evaluating rules issued := by
  have ground := evaluating.evaluable drives.pending.found
  obtain ⟨parts, falls, rfl⟩ := evaluating.parts_of_drives contained drives
  have evaluable := (Supercompiler.evaluable_of_parts? contained evaluating.program ground falls).1
  refine ⟨drives.program.trans evaluating.program, drives.growth.wellFormed evaluating.ordered,
    fun found => ?_, fun found => ?_, ?_⟩
  · rcases drives.growth.node?_cases found with ⟨before, there, term, -⟩ |
      ⟨branch, member, -, -, rfl⟩
    · exact term ▸ evaluating.evaluable there
    · obtain ⟨u, inside, rfl⟩ := List.mem_map.mp member
      exact evaluable u inside
  · rcases drives.growth.node?_cases found with ⟨before, there, -, contraction, -⟩ |
      ⟨branch, member, -, -, rfl⟩
    · exact contraction.trans (evaluating.contraction there)
    · obtain ⟨u, -, rfl⟩ := List.mem_map.mp member
      rfl
  · have last := Supercompiler.last_of_drive contained evaluating.program ground
    rw [drives.driven] at last
    exact last.trans evaluating.issued

/-- Every round of a construction that evaluates does what it may do. -/
theorem Evaluating.evaluates (options : BuildOptions) (mayGrow : Bool) :
    state.Evaluates options mayGrow issued (state.round options mayGrow) := by
  rcases evaluating.round_cases options mayGrow with
    ⟨ending, stopped, unfailed, bounded, idle⟩ | ⟨leaf, node, pending, grows⟩
  · rw [stopped]
    exact ⟨evaluating.issued, fun e failed => absurd failed (unfailed e), bounded, idle⟩
  have ground := evaluating.evaluable pending.found
  have last := Supercompiler.last_of_drive contained evaluating.program ground
  rw [grows]
  rcases evaluating.growAt_cases options pending with
    ⟨bounded, sc, kept, blocked⟩ | ⟨e, sc, driven, failed⟩ | ⟨branches, sc, driven, went⟩
  · rw [blocked]
    exact ⟨kept, by simp, fun _ => bounded, by simp⟩
  · rw [driven] at last
    rw [failed]
    have stuck : state.supercompiler.parts? node.term = none := by
      rw [Supercompiler.parts?, driven]
      rfl
    exact ⟨last.trans evaluating.issued, fun _ _ => ⟨leaf, node, pending, stuck⟩, by simp, by simp⟩
  · rw [driven] at last
    rw [went, record]
    split
    · rename_i deep
      refine ⟨last.trans evaluating.issued, by simp, fun _ none => ?_, by simp⟩
      simp [none] at deep
    · refine ⟨rfl, fun call => ?_⟩
      obtain ⟨parts, falls, rfl⟩ :=
        Supercompiler.drive_of_parts? contained evaluating.program ground driven
      obtain ⟨u, rfl⟩ :=
        (Supercompiler.evaluable_of_parts? contained evaluating.program ground falls).2 call
      exact ⟨u, rfl⟩

/-- A construction that evaluates goes on evaluating. -/
theorem Evaluating.reaches (reaches : state.Reaches next) : next.Evaluating rules issued := by
  induction reaches with
  | refl => exact evaluating
  | tail _ grows ih =>
    obtain ⟨leaf, node, branches, drives⟩ := ih.drives grows
    exact ih.of_drives contained drives

/-- Every recorded step drives, and a driven call has one result. -/
theorem Evaluating.steps_grow {α : Type} (options : BuildOptions)
    (watch : Step → ProcessTree → α) (allowed : Nat) :
    ∀ step ∈ (Supercompiler.grow options watch allowed state).stepList,
      step.action = .drive ∧ (step.before.isCall = true → ∃ u, step.results = [⟨u, none⟩]) := by
  induction allowed generalizing state with
  | zero =>
    rw [Supercompiler.grow]
    split <;> simp [Run.stepList, Run.ofState]
  | succ allowed ih =>
    rw [Supercompiler.grow]
    cases turn : state.round options true with
    | stop ending final => simp [Run.stepList, Run.ofState]
    | go step next =>
      have here := evaluating.evaluates contained options true
      rw [turn] at here
      have later := ih (evaluating.reaches contained (.single (grows_of_round turn)))
      rw [Run.stepList, List.map_cons, List.forall_mem_cons]
      exact ⟨here, later⟩

/-- The construction issues no name. -/
theorem Evaluating.last_grow {α : Type} (options : BuildOptions)
    (watch : Step → ProcessTree → α) (allowed : Nat) :
    (Supercompiler.grow options watch allowed state).supercompiler.supply.last = issued := by
  obtain ⟨rounds, -, last, advances, stopped⟩ :=
    Supercompiler.exists_advances_grow options watch allowed state
  have now := evaluating.reaches contained advances.reaches
  have here := now.evaluates contained options (decide (rounds < allowed))
  rw [stopped] at here
  exact here.1

end Steps

section Trees

variable {sc : Supercompiler} {t : Term} (contained : Program.SelfContained rules)
  (evaluating : (start sc t).Evaluating rules issued) (reaches : (start sc t).Reaches state)

include contained evaluating reaches

/-- The children of a node that has some hold the parts of its term. -/
theorem hasTerm_children {i : Nat} (found : state.tree.node? i = some node)
    (inner : node.children ≠ []) :
    ∃ parts, sc.parts? node.term = some parts ∧
      List.Forall₂ state.tree.HasTerm node.children parts := by
  have now := evaluating.reaches contained reaches
  obtain ⟨between, branches, early, -, driven, stand⟩ := reaches.expanded found inner
  have atPoint := evaluating.reaches contained early
  obtain ⟨parts, falls, rfl⟩ := Supercompiler.drive_of_parts? contained atPoint.program
    (now.evaluable found) (Prod.ext driven rfl)
  refine ⟨parts, ?_, ?_⟩
  · rw [← falls]
    exact Supercompiler.parts?_congr contained atPoint.program evaluating.program
      (now.evaluable found)
  · rw [List.forall₂_map_right_iff] at stand
    refine stand.imp fun c u stands => ?_
    obtain ⟨below, there, -, same | ⟨_, _, _, _, _, folded, _⟩⟩ := stands
    · exact ⟨below, there, same⟩
    · have plain := (now.evaluable there).plain
      rw [folded] at plain
      simp at plain

/-- A call has one child, if it has any. -/
theorem children_of_call {i : Nat} (found : state.tree.node? i = some node)
    (call : node.term.isCall = true) : node.children = [] ∨ ∃ child, node.children = [child] := by
  rw [or_iff_not_imp_left]
  intro inner
  have ground := (evaluating.reaches contained reaches).evaluable found
  obtain ⟨parts, falls, holds⟩ := hasTerm_children contained evaluating reaches found inner
  obtain ⟨u, rfl⟩ :=
    (Supercompiler.evaluable_of_parts? contained evaluating.program ground falls).2 call
  obtain ⟨child, rest, -, none, same⟩ := List.forall₂_cons_right_iff.mp holds
  rw [List.forall₂_nil_right_iff.mp none] at same
  exact ⟨child, same⟩

end Trees

end BuildState

/-- What holds of a construction that evaluates, however it ends. -/
structure Run.EvaluatesOnly {α : Type} (run : Run α) (issued : Int) : Prop where
  /-- Every recorded step drives. -/
  drives : ∀ step ∈ run.stepList, step.action = .drive
  /-- A driven call has one result, without a contraction. -/
  results : ∀ step ∈ run.stepList, step.before.isCall = true → ∃ u, step.results = [⟨u, none⟩]
  /-- No node has a contraction. -/
  contraction : ∀ {i : Nat} {node : Node}, run.tree.node? i = some node → node.contraction = none
  /-- A call has one child, if it has any. -/
  children : ∀ {i : Nat} {node : Node}, run.tree.node? i = some node →
    node.term.isCall = true → node.children = [] ∨ ∃ child, node.children = [child]
  /-- The number of the name issued last is the one before the construction. -/
  issued : run.supercompiler.supply.last = issued

/-- The construction for a ground term evaluates and does nothing else. -/
theorem Supercompiler.evaluatesOnly_build {α : Type} {rules : List Rule} {issued : Int}
    {sc : Supercompiler} {t : Term} (contained : Program.SelfContained rules)
    (evaluating : (BuildState.start sc t).Evaluating rules issued) (options : BuildOptions)
    (patience : Nat) (watch : Step → ProcessTree → α) :
    (sc.build options patience watch t).EvaluatesOnly issued := by
  obtain ⟨final, ends⟩ := BuildState.exists_endsIn_build sc options patience watch t
  have atEnd := evaluating.reaches contained ends.reaches
  have steps := evaluating.steps_grow contained options watch
    ((options.limit.map Int.toNat).getD patience)
  refine ⟨fun step member => (steps step member).1, fun step member => (steps step member).2,
    fun found => ?_, fun found call => ?_, evaluating.last_grow contained options watch _⟩
  · exact atEnd.contraction (ends.tree ▸ found)
  · exact BuildState.children_of_call contained evaluating ends.reaches (ends.tree ▸ found) call

end Supercompilation
