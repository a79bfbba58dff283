import Mathlib.Algebra.GroupWithZero.Nat
import Supercompilation.Proofs.Census
import Supercompilation.Proofs.Outcome

/-!
# Traces of constructions

A construction that is traced, put into words or watched is the same construction: it takes the same
steps, issues the same names and ends in the same way, as long as walks through terms are not
bounded. What is recorded differs in the texts of the trees alone.

The trace of a completed construction tells all of it. Its steps are numbered from one; the text in
a step is that of the tree after as many steps; and carrying out the recorded results one after
another, each at the first leaf that needs more work, leads from the root alone to the finished
tree. Every drive makes an inner node and every fold a `let` term, for good, so the numbers of the
two actions can be read off the finished tree.

`BuildState.Records` says which steps are recorded on the way from one state to another. All that a
trace tells is proved of it by induction, with one lemma for one round.
-/

namespace Supercompilation

/-- The step without the text of the tree after it. -/
def Step.withoutText (step : Step) : Step := { step with treeText := none }

/-- The round without the text that is recorded in it. -/
def Round.withoutText : Round → Round
  | .stop ending state => .stop ending state
  | .go step state => .go step.withoutText state

/-- The construction without the texts of its trees and what a watcher made of its steps. -/
def Run.bare {α : Type} (run : Run α) : Run Unit :=
  ⟨run.ending, run.tree, run.supercompiler, run.count,
    run.steps.map fun entry => (entry.1.withoutText, ())⟩

section Inertness

variable {α : Type} (limit : Option Int) (traced shown : Bool)

/-- If walks are not bounded, a step is recorded, whatever is recorded beside it. -/
theorem BuildState.withoutText_record (before : Term) (grown : Grown) (state : BuildState) :
    (record { limit, traced, shown } before grown state).withoutText =
      record { limit } before grown state := by
  simp [record, Round.withoutText, Step.withoutText]

/-- If walks are not bounded, a round does the same when it is traced or put into words. -/
theorem BuildState.withoutText_round (mayGrow : Bool) (state : BuildState) :
    (state.round { limit, traced, shown } mayGrow).withoutText = state.round { limit } mayGrow := by
  rw [round, round]
  simp only [scanTooDeep, Option.any_none, Bool.false_eq_true, if_false]
  cases state.tree.unprocessed? with
  | none => rfl
  | some leaf =>
    cases mayGrow with
    | false => rfl
    | true =>
      simp only [growAt, Option.bind_none, if_true]
      rcases state.supercompiler.step state.tree leaf with ⟨_ | grown, sc⟩
      · rfl
      · exact withoutText_record ..

/-- If walks are not bounded, a construction does the same whether or not it is traced, put into
words or watched. -/
theorem Supercompiler.bare_grow (watch : Step → ProcessTree → α) (allowed : Nat)
    (state : BuildState) :
    (grow { limit, traced, shown } watch allowed state).bare =
      grow { limit } (fun _ _ => ()) allowed state := by
  induction allowed generalizing state with
  | zero =>
    rw [grow, grow, ← BuildState.withoutText_round limit traced shown]
    cases state.round { limit, traced, shown } false <;> rfl
  | succ allowed ih =>
    rw [grow, grow, ← BuildState.withoutText_round limit traced shown]
    cases state.round { limit, traced, shown } true with
    | stop ending state => rfl
    | go step next =>
      simp only [Round.withoutText, ← ih]
      rfl

end Inertness

namespace ProcessTree

/-- Carry out a recorded step at the first leaf that needs more work: the results become children of
a driven leaf, and the result of a fold takes the place of the leaf. -/
def redo? (tree : ProcessTree) (step : Step) : Option ProcessTree :=
  tree.unprocessed?.bind fun leaf =>
    match step.action, step.results with
    | .fold, result :: _ => ((tree.replace leaf result.term).toOption).map Prod.snd
    | .fold, [] => none
    | _, results => some (tree.addChildren leaf results)

/-- Carry out recorded steps one after another. -/
def replay? (tree : ProcessTree) (steps : List Step) : Option ProcessTree :=
  steps.foldlM redo? tree

end ProcessTree

namespace BuildState

open ProcessTree

variable {rules : List Rule} {t : Term} {options : BuildOptions} {state next last : BuildState}
  {step : Step} {steps : List Step}

/-- What is recorded in a round that goes on: the step at the first leaf that needs more work, with
its number, and the text of the tree if it is asked for. -/
theorem recorded_of_round {mayGrow : Bool} (went : state.round options mayGrow = .go step next) :
    ∃ leaf grown, state.tree.unprocessed? = some leaf ∧
      state.supercompiler.step state.tree leaf = (.ok grown, next.supercompiler) ∧
      next.tree = grown.tree ∧ step.action = grown.action ∧ step.results = grown.results ∧
      step.index = next.count ∧
      step.treeText = if options.traced then some next.tree.format else none := by
  obtain ⟨leaf, first, grew⟩ := growAt_of_round went
  refine ⟨leaf, ?_⟩
  rw [growAt] at grew
  split at grew
  · contradiction
  · dsimp only at grew
    split at grew
    · contradiction
    · rename_i grown sc stepped
      rw [record] at grew
      dsimp only at grew
      split at grew
      · contradiction
      · rw [Round.go.injEq] at grew
        obtain ⟨rfl, rfl⟩ := grew
        exact ⟨grown, first, stepped, rfl, rfl, rfl, rfl, rfl⟩

/-- A step at a node drives it, and the results become its children; or it folds it, and the only
result takes its place. -/
theorem step_eq {sc later : Supercompiler} {tree : ProcessTree} {i : Nat} {node : Node}
    {grown : Grown} (found : tree.node? i = some node)
    (stepped : sc.step tree i = (.ok grown, later)) :
    (grown.action = .drive ∧ grown.tree = tree.addChildren i grown.results) ∨
    ∃ result new, grown.action = .fold ∧ grown.results = [result] ∧
      tree.replace i result.term = .ok (new, grown.tree) := by
  have driven : sc.driveNode tree i node.term = (.ok grown, later) →
      grown.action = .drive ∧ grown.tree = tree.addChildren i grown.results := by
    intro driven
    rw [Supercompiler.driveNode] at driven
    split at driven
    · simp at driven
    · rw [Prod.mk.injEq, Except.ok.injEq] at driven
      obtain ⟨rfl, -⟩ := driven
      exact ⟨rfl, rfl⟩
  rw [Supercompiler.step, found] at stepped
  simp only at stepped
  split at stepped
  · split at stepped
    · exact .inl (driven stepped)
    · split at stepped
      · simp at stepped
      · rename_i replaced
        rw [Prod.mk.injEq, Except.ok.injEq] at stepped
        obtain ⟨rfl, -⟩ := stepped
        exact .inr ⟨_, _, rfl, rfl, replaced⟩
  · exact .inl (driven stepped)

/-- Carrying out what is recorded in a round leads to the tree after the round. -/
theorem redo?_of_round {mayGrow : Bool} (ordered : state.tree.WellFormed)
    (went : state.round options mayGrow = .go step next) :
    state.tree.redo? step = some next.tree := by
  obtain ⟨leaf, grown, first, stepped, tree, action, results, -⟩ := recorded_of_round went
  obtain ⟨node, pending⟩ := pending_of_unprocessed? ordered first
  rw [redo?, first, Option.bind_some, action, results, tree]
  rcases step_eq pending.found stepped with
    ⟨driven, added⟩ | ⟨result, new, folded, single, replaced⟩
  · rw [driven, added]
  · rw [folded, single]
    simp [replaced, Except.toOption]

/-- The action that is recorded in a round, and what it adds to the tree. -/
theorem adds_of_round {mayGrow : Bool} (accounted : Accounted rules t state)
    (bodies : ∀ rule ∈ rules, rule.body.plain = true)
    (went : state.round options mayGrow = .go step next) :
    (step.action = .drive ∧ Adds state next 1 0 step.results.length) ∨
    (step.action = .fold ∧ Adds state next 0 1 0) := by
  obtain ⟨leaf, grown, first, stepped, tree, action, results, -⟩ := recorded_of_round went
  obtain ⟨node, pending⟩ := pending_of_unprocessed? accounted.ordered first
  rw [action, results]
  rcases step_cases accounted.ordered pending stepped tree with
    ⟨driven, drives⟩ | ⟨folded, _, _, _, _, -, -, folds⟩
  · exact .inl ⟨driven, drives.adds accounted bodies (drives.branches_ne_nil accounted.program)⟩
  · exact .inr ⟨folded, folds.adds accounted.ordered⟩

/-- The steps that rounds record on the way from one state to another. -/
inductive Records (options : BuildOptions) : List Step → BuildState → BuildState → Prop where
  /-- No round. -/
  | nil (state : BuildState) : Records options [] state state
  /-- A round that goes on, and then others. -/
  | cons {step : Step} {steps : List Step} {state next last : BuildState}
      (went : state.round options true = .go step next) (later : Records options steps next last) :
      Records options (step :: steps) state last

namespace Records

/-- A round records one step. -/
theorem advances (records : Records options steps state last) :
    Advances options steps.length state last := by
  induction records with
  | nil state => exact .refl state
  | cons went _ ih => exact .head went ih

/-- The first recorded steps are those on the way to the state after as many steps. -/
theorem take (records : Records options steps state last) (number : Nat) :
    ∃ middle, Records options (steps.take number) state middle := by
  induction number generalizing steps state with
  | zero => exact ⟨state, by rw [List.take_zero]; exact .nil state⟩
  | succ number ih =>
    cases records with
    | nil => exact ⟨last, .nil last⟩
    | cons went later =>
      obtain ⟨middle, first⟩ := ih later
      exact ⟨middle, .cons went first⟩

/-- Replaying the recorded steps leads from the tree of one state to that of the other. -/
theorem replay?_eq (records : Records options steps state last)
    (ordered : state.tree.WellFormed) : state.tree.replay? steps = some last.tree := by
  induction records with
  | nil state => rfl
  | cons went _ ih =>
    rw [replay?, List.foldlM_cons, redo?_of_round ordered went]
    exact ih (Reaches.wellFormed (.single (grows_of_round went)) ordered)

/-- A recorded step has the number of the state after it, and the text of the tree there if it is
asked for. -/
theorem exists_after? (records : Records options steps state last) {i : Nat} {step : Step}
    (here : steps[i]? = some step) :
    ∃ after, state.after? (i + 1) = some after ∧ step.index = state.count + i + 1 ∧
      step.treeText = if options.traced then some after.tree.format else none := by
  induction records generalizing i with
  | nil => simp at here
  | @cons _ _ _ next _ went _ ih =>
    have grows := grows_of_round went
    obtain ⟨_, _, _, _, _, counted⟩ := grows
    rw [after?, next?_of_grows (grows_of_round went), Option.bind_some]
    cases i with
    | zero =>
      obtain rfl := Option.some.inj here
      obtain ⟨_, _, _, _, _, _, _, index, text⟩ := recorded_of_round went
      exact ⟨next, rfl, by omega, text⟩
    | succ i =>
      obtain ⟨after, reached, index, text⟩ := ih here
      exact ⟨after, reached, by omega, text⟩

/-- The recorded drives and folds account for all nodes that have been added. -/
theorem adds (records : Records options steps state last) (accounted : Accounted rules t state)
    (bodies : ∀ rule ∈ rules, rule.body.plain = true) :
    Adds state last (steps.countP (·.action.word = "drive")) (steps.countP (·.action.word = "fold"))
      ((steps.filter (·.action = .drive)).map (·.results.length)).sum := by
  induction records with
  | nil state => exact ⟨rfl, rfl, rfl⟩
  | cons went _ ih =>
    have later := ih (Grows.accounted (grows_of_round went) accounted bodies)
    rcases adds_of_round accounted bodies went with ⟨driven, here⟩ | ⟨folded, here⟩
    · have word : Action.drive.word = "drive" := rfl
      simpa [driven, word, Nat.add_comm] using here.trans later
    · have word : Action.fold.word = "fold" := rfl
      simpa [folded, word, Nat.add_comm] using here.trans later

end Records

end BuildState

namespace Trace

/-- How often a word stands for the action of a step. -/
theorem value?_counts (trace : Trace) (word : String) :
    (trace.counts.value? word).getD 0 = trace.steps.countP (·.action.word = word) := by
  have counting : ∀ (steps : List Step) (counts : NameMap Nat),
      (NameMap.value? (steps.foldl (fun counts step =>
        counts.put step.action.word ((counts.value? step.action.word).getD 0 + 1)) counts)
          word).getD 0 = (counts.value? word).getD 0 + steps.countP (·.action.word = word) := by
    intro steps
    induction steps with
    | nil => intro counts; rfl
    | cons step steps ih =>
      intro counts
      rw [List.foldl_cons, ih, NameMap.value?_put, List.countP_cons]
      by_cases same : word = step.action.word
      · simp [same]
        omega
      · simp [same, Ne.symm same]
  rw [counts, counting]
  simp [NameMap.value?]

/-- What the trace of a construction tells about the way from its first state to its last. -/
structure Tells (trace : Trace) (first last : BuildState) : Prop where
  /-- The steps are numbered from one up to the number of steps taken. -/
  numbered : trace.steps.map Step.index = (List.range last.count).map fun i : Nat => (i : Int) + 1
  /-- The text in a step is that of the tree after as many steps. -/
  texts : ∀ (i : Nat) (step : Step), trace.steps[i]? = some step →
    ∃ state, first.after? (i + 1) = some state ∧ step.treeText = some state.tree.format
  /-- Replaying the steps up to one of them leads to the tree after as many steps. -/
  replayed : ∀ i ≤ last.count, ∃ state, first.after? i = some state ∧
    first.tree.replay? (trace.steps.take i) = some state.tree
  /-- Replaying all steps from the initial term leads to the tree at the end. -/
  rebuilt : (trace.initial.bind fun t => (ProcessTree.ofTerm t).replay? trace.steps) =
    some last.tree
  /-- The tree at the end is kept. -/
  kept : trace.tree = some last.tree
  /-- The drives are the nodes with children. -/
  drives : (trace.counts.value? "drive").getD 0 = last.tree.innerCount
  /-- The folds are the nodes with `let` terms. -/
  folds : (trace.counts.value? "fold").getD 0 = last.tree.letCount
  /-- Every node but the root is a result of a drive. -/
  size : last.tree.size =
    1 + ((trace.steps.filter (·.action = .drive)).map (·.results.length)).sum

end Trace

namespace Supercompiler

open BuildState

variable {α : Type} {options : BuildOptions} {watch : Step → ProcessTree → α}
  {state last : BuildState}

/-- A construction records the steps of the rounds that it goes through. -/
theorem records_of_advances (watch : Step → ProcessTree → α) {rounds allowed : Nat}
    (advances : Advances options rounds state last) (within : rounds ≤ allowed) {ending : Ending}
    {final : BuildState}
    (stopped : last.round options (decide (rounds < allowed)) = .stop ending final) :
    Records options (grow options watch allowed state).stepList state last := by
  induction advances generalizing allowed with
  | refl state =>
    cases allowed with
    | zero =>
      rw [grow, show state.round options false = .stop ending final from stopped]
      exact .nil state
    | succ allowed =>
      rw [decide_eq_true (Nat.succ_pos allowed)] at stopped
      rw [grow, stopped]
      exact .nil state
  | head went _ ih =>
    cases allowed with
    | zero => contradiction
    | succ allowed =>
      simp only [Nat.add_lt_add_iff_right] at stopped
      rw [grow, went]
      exact .cons went (ih (Nat.le_of_succ_le_succ within) stopped)

/-- A completed construction records all steps on the way from its start to its end. -/
theorem records_of_completed {sc : Supercompiler} {patience : Nat} {t : Term}
    (completed : (sc.build options patience watch t).ending = .completed) :
    Records options (sc.build options patience watch t).stepList (.start sc t)
      (sc.build options patience watch t).final := by
  obtain ⟨rounds, within, last, advances, stopped⟩ := exists_advances_grow options watch
    ((options.limit.map Int.toNat).getD patience) (.start sc t)
  have records := records_of_advances watch advances within stopped
  change _ = Round.stop (sc.build options patience watch t).ending
    (sc.build options patience watch t).final at stopped
  rw [completed] at stopped
  rcases round_eq_stop stopped with ⟨deep, -⟩ | ⟨-, same, -⟩ | ⟨cut, -⟩ | ⟨_, _, _, failed, -⟩
  · contradiction
  · rw [same]
    exact records
  · contradiction
  · contradiction

/-- The steps recorded on the way from the start tell what a construction does. -/
theorem tells_of_records {rules : List Rule} {sc : Supercompiler} {t : Term} {steps : List Step}
    (program : sc.program = .ofRules rules) (bodies : ∀ rule ∈ rules, rule.body.plain = true)
    (written : t.plain = true) (traced : options.traced = true)
    (records : Records options steps (.start sc t) last) :
    Trace.Tells ⟨some t, some last.tree, steps⟩ (.start sc t) last := by
  have ordered : (BuildState.start sc t).tree.WellFormed := .ofTerm t
  have count : last.count = steps.length := by
    rw [records.advances.count, BuildState.start, Nat.zero_add]
  obtain ⟨inner, lets, all⟩ := records.adds (accounted_start program written) bodies
  refine ⟨?_, ?_, ?_, records.replay?_eq ordered, rfl, ?_, ?_, ?_⟩
  · refine List.ext_getElem? fun i => ?_
    rw [List.getElem?_map, List.getElem?_map, count]
    cases here : steps[i]? with
    | none =>
      have outside : steps.length ≤ i := List.getElem?_eq_none_iff.mp here
      simp [outside]
    | some step =>
      obtain ⟨_, _, index, -⟩ := records.exists_after? here
      have within : i < steps.length := (List.getElem?_eq_some_iff.mp here).1
      simp [index, within, BuildState.start]
  · intro i step here
    obtain ⟨state, reached, -, text⟩ := records.exists_after? here
    exact ⟨state, reached, by rw [text, if_pos traced]⟩
  · intro i within
    obtain ⟨middle, first⟩ := records.take i
    have reached := first.advances.after?
    rw [List.length_take_of_le (count ▸ within)] at reached
    exact ⟨middle, reached, first.replay?_eq ordered⟩
  · rw [Trace.value?_counts, inner]
    exact (Nat.zero_add _).symm
  · rw [Trace.value?_counts, lets, BuildState.start, ProcessTree.letCount_ofTerm written,
      Nat.zero_add]
  · exact all

/-- Tracing a construction, putting its steps into words and watching them changes nothing: it ends
in the same way, with the same tree, the same supply of names and the same steps but for the texts
that were asked for. The trace of a completed construction tells all of its steps, what the tree was
after each of them, and of which kinds its nodes are. -/
theorem build_traced {programText termText : String} {program : Program} {t : Term}
    (programParsed : Program.parse programText = .ok program)
    (termParsed : Term.parse termText = .ok t) (supply : NameSupply) (limit : Option Int)
    (patience : Nat) :
    let sc : Supercompiler := ⟨program, supply⟩
    let plain := sc.build { limit } patience (fun _ _ => ()) t
    (∀ {α : Type} (watch : Step → ProcessTree → α) (traced shown : Bool),
      let run := sc.build { limit, traced, shown } patience watch t
      run.bare = plain ∧ run.error? { limit, traced, shown } = plain.error? { limit }) ∧
    ∀ {α : Type} (watch : Step → ProcessTree → α) (shown : Bool),
      let run := sc.build { limit, traced := true, shown } patience watch t
      run.ending = .completed → (run.trace t).Tells (.start sc t) run.final := by
  intro sc plain
  obtain ⟨rules, isProgram, bodies⟩ := Program.exists_rules_of_parse programParsed
  have written := Term.plain_of_parse termParsed
  refine ⟨fun watch traced shown => ?_, fun watch shown completed => ?_⟩
  · have bare :=
      bare_grow limit traced shown watch ((limit.map Int.toNat).getD patience) (.start sc t)
    exact ⟨bare, congrArg (fun run => run.error? { limit }) bare⟩
  · exact tells_of_records isProgram bodies written rfl (records_of_completed completed)

/-- The construction for the numbers from a number on drives the root and the constructor, folds the
recursive call, and drives the `let` term that took its place. -/
theorem build_traced_upward :
    Program.parse "fUp(n) = Cons(n, fUp(S(n)));" = .ok (.ofRules upwardRules) ∧
    Term.parse "fUp(n)" = .ok (.fCall "fUp" [.var "n"]) ∧
    (build ⟨.ofRules upwardRules, {}⟩ { traced := true } 9 (fun _ _ => ())
      (.fCall "fUp" [.var "n"])).ending = .completed ∧
    ((build ⟨.ofRules upwardRules, {}⟩ { traced := true } 9 (fun _ _ => ())
      (.fCall "fUp" [.var "n"])).trace (.fCall "fUp" [.var "n"])).Tells
        (.start ⟨.ofRules upwardRules, {}⟩ (.fCall "fUp" [.var "n"]))
        (build ⟨.ofRules upwardRules, {}⟩ { traced := true } 9 (fun _ _ => ())
          (.fCall "fUp" [.var "n"])).final := by
  have program : Program.parse "fUp(n) = Cons(n, fUp(S(n)));" = .ok (.ofRules upwardRules) := by rfl
  have term : Term.parse "fUp(n)" = .ok (.fCall "fUp" [.var "n"]) := by rfl
  have completed : (build ⟨.ofRules upwardRules, {}⟩ { traced := true } 9 (fun _ _ => ())
      (.fCall "fUp" [.var "n"])).ending = .completed := by cbv
  exact ⟨program, term, completed,
    (build_traced program term {} none 9).2 (fun _ _ => ()) false completed⟩

end Supercompiler

end Supercompilation
