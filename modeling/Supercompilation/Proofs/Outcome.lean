import Supercompilation.Proofs.Freshness
import Supercompilation.Proofs.Reader
import Supercompilation.Proofs.Worklist

/-!
# How constructions end

Driving refuses a pattern, and makes no sense of a `let` term in the place of a first argument.
Neither comes up: the program and the term are read from texts, driving yields plain terms only, and
a fold puts a `let` term over a plain call in the place of a whole node.

So a leaf that needs more work is a constructor with arguments, a `let` term or a plain call, and
growing it fails only if the program does not support a call. A leaf that grows gets a child or
makes way for one node, so a construction does not come back to it.
-/

namespace Supercompilation

namespace Term

/-- What a node holds in a construction for what texts stand for: a plain term, or a `let` term with
a plain call as its body and plain values. -/
def Held : Term → Prop
  | letIn body bindings =>
    body.isCall = true ∧ body.plain = true ∧ ∀ binding ∈ bindings, binding.2.plain = true
  | t => t.plain = true

/-- Plain terms can be held. -/
theorem Held.of_plain {t : Term} (written : t.plain = true) : t.Held := by
  cases t with
  | var name => exact written
  | app head name args => exact written
  | letIn body bindings => simp at written

/-- A call that is held is plain. -/
theorem Held.plain_of_isCall {t : Term} (held : t.Held) (call : t.isCall = true) :
    t.plain = true := by
  cases t with
  | var name => exact held
  | app head name args => exact held
  | letIn body bindings => simp [isCall] at call

end Term

/-- An error that is not about an undrivable term is about a call that the program does not
support. -/
theorem DriveError.kind_mem {e : DriveError} (drivable : e.kind ≠ .driving) :
    e.kind ∈ [ErrorKind.unknownFunction, .arity, .nonExhaustive] := by
  cases e <;> simp_all [kind]

namespace Program

variable {program : Program}

/-- An outcome that is mapped fails as it does. -/
theorem map_eq_error {α β : Type} {outcome : Except DriveError α} {result : α → β}
    {e : DriveError} (failed : outcome.map result = .error e) : outcome = .error e := by
  cases outcome with
  | error e' => exact congrArg Except.error (Except.error.inj failed)
  | ok value => simp [Except.map] at failed

/-- Unfolding a call fails only if the program does not support it. -/
theorem kind_of_unfold {name : String} {args : List Term} {e : DriveError}
    (failed : program.unfold name args = .error e) : e.kind ≠ .driving := by
  rw [unfold] at failed
  split at failed
  · rw [← Except.error.inj failed]
    simp [DriveError.kind]
  · split at failed
    · contradiction
    · rw [← Except.error.inj failed]
      simp [DriveError.kind]

/-- Replacing a call fails only if the program does not support it. -/
theorem kind_of_applyG {name constructor : String} {fields rest : List Term} {e : DriveError}
    (failed : program.applyG name constructor fields rest = .error e) : e.kind ≠ .driving := by
  rw [applyG] at failed
  split at failed
  · rw [← Except.error.inj failed]
    simp [DriveError.kind]
  · split at failed
    · rw [← Except.error.inj failed]
      simp [DriveError.kind]
    · split at failed
      · rw [← Except.error.inj failed]
        simp [DriveError.kind]
      · contradiction

/-- A case distinction fails only if the program does not support one of its calls. -/
theorem kind_of_split {name x : String} {rest : List Term} {listed : List GRule}
    {supply : NameSupply} {e : DriveError}
    (failed : (program.split name x rest listed supply).1 = .error e) : e.kind ≠ .driving := by
  induction listed generalizing supply with
  | nil => simp [split] at failed
  | cons rule listed ih =>
    rw [split] at failed
    dsimp only at failed
    split at failed
    · rename_i e' refused
      rw [← Except.error.inj failed]
      exact kind_of_applyG refused
    · exact ih (map_eq_error failed)

/-- Driving a plain call fails only if the program does not support a call. -/
theorem kind_of_driveTerm {t : Term} (written : t.plain = true) (call : t.isCall = true)
    {supply : NameSupply} {e : DriveError}
    (failed : (program.driveTerm t supply).1 = .error e) : e.kind ≠ .driving := by
  revert failed
  refine Term.callInduction ?_ ?_ ?_ ?_ ?_ t written call
  · intro name args _ failed
    rw [driveTerm_fCall] at failed
    exact kind_of_unfold (map_eq_error failed)
  · intro name failed
    rw [driveTerm] at failed
    rw [← Except.error.inj failed]
    simp [DriveError.kind]
  · intro name constructor fields rest _ failed
    cases found : program.gs.value? name with
    | none =>
      rw [driveTerm_unlisted found] at failed
      rw [← Except.error.inj failed]
      simp [DriveError.kind]
    | some listed =>
      rw [driveTerm_ctor found] at failed
      exact kind_of_applyG (map_eq_error failed)
  · intro name x rest _ failed
    cases found : program.gs.value? name with
    | none =>
      rw [driveTerm_unlisted found] at failed
      rw [← Except.error.inj failed]
      simp [DriveError.kind]
    | some listed =>
      rw [driveTerm_var found] at failed
      exact kind_of_split failed
  · intro name inner rest _ call ih failed
    cases found : program.gs.value? name with
    | none =>
      rw [driveTerm_unlisted found] at failed
      rw [← Except.error.inj failed]
      simp [DriveError.kind]
    | some listed =>
      rw [driveTerm_nested found call] at failed
      exact ih (map_eq_error failed)

end Program

namespace BuildState

open ProcessTree

variable {rules : List Rule} {t : Term} {sc : Supercompiler} {options : BuildOptions}
  {state next final : BuildState} {leaf : Nat} {node : Node}

/-- Every node that a construction makes holds a plain term, or a `let` term over a plain call. -/
theorem Reaches.held (program : sc.program = .ofRules rules)
    (bodies : ∀ rule ∈ rules, rule.body.plain = true) (written : t.plain = true)
    (reaches : (start sc t).Reaches state) {i : Nat} (found : state.tree.node? i = some node) :
    node.term.Held := by
  induction reaches generalizing i node with
  | refl =>
    rw [eq_of_node?_ofTerm found]
    exact .of_plain written
  | @tail before after early grows ih =>
    have accounted := Reaches.accounted program bodies written early
    rcases grows.cases accounted.ordered with ⟨_, _, _, drives⟩ |
      ⟨_, _, _, _, above, values, folds⟩
    · rcases drives.growth.node?_cases found with ⟨old, there, term, -⟩ |
        ⟨branch, member, -, -, rfl⟩
      · exact term ▸ ih there
      · exact .of_plain ((drives.descends accounted bodies).1 branch member).plain
    · rcases folds.growth.node?_cases found with ⟨old, there, term, -⟩ |
        ⟨branch, member, -, -, rfl⟩
      · exact term ▸ ih there
      · obtain rfl := List.mem_singleton.mp member
        obtain ⟨plainBody, values⟩ := (folds.occurrences accounted).1
        exact ⟨folds.call_above, plainBody, fun binding member => (values binding member).2⟩

/-- Driving what a leaf holds fails only if the program does not support a call. -/
theorem Pending.kind_of_drive (pending : state.Pending leaf node) (held : node.term.Held)
    {e : DriveError} (failed : (state.supercompiler.drive node.term).1 = .error e) :
    e.kind ≠ .driving := by
  rw [Supercompiler.drive] at failed
  by_cases call : node.term.isCall = true
  · exact Program.kind_of_driveTerm (held.plain_of_isCall call) call failed
  · have unprocessed := pending.unprocessed
    rw [isProcessed, pending.found] at unprocessed
    cases holds : node.term with
    | var name => simp [holds] at unprocessed
    | letIn body bindings => simp [holds, Program.driveTerm] at failed
    | app head name args =>
      cases head with
      | ctor => simp [holds, Program.driveTerm] at failed
      | pattern => simp [Term.Held, holds] at held
      | fCall => exact absurd (by rw [holds, Term.isCall_app]; exact .inl rfl) call
      | gCall => exact absurd (by rw [holds, Term.isCall_app]; exact .inr rfl) call

/-- A leaf that is attached is among the children of its parent, so it can be replaced. -/
theorem Pending.replace_ne_error (pending : state.Pending leaf node)
    (ordered : state.tree.WellFormed) (u : Term) (e : Detached) :
    state.tree.replace leaf u ≠ .error e := by
  rw [replace, pending.found]
  cases parent : node.parent with
  | none => simp [parent]
  | some place =>
    have child : leaf ∈ state.tree.children place :=
      (pending.attached.of_parent ordered (parent?_of_node? pending.found ▸ parent)).2
    simp [parent, child]

/-- A step at a leaf fails only if the program does not support a call. -/
theorem Pending.kind_of_step (pending : state.Pending leaf node) (ordered : state.tree.WellFormed)
    (held : node.term.Held) {e : GrowthError} {later : Supercompiler}
    (failed : state.supercompiler.step state.tree leaf = (.error e, later)) :
    ∃ refusal, e = .drive refusal ∧ refusal.kind ≠ .driving := by
  have driven : state.supercompiler.driveNode state.tree leaf node.term = (.error e, later) →
      ∃ refusal, e = .drive refusal ∧ refusal.kind ≠ .driving := by
    intro failed
    rw [Supercompiler.driveNode] at failed
    split at failed
    · rename_i refusal _ refused
      rw [Prod.mk.injEq, Except.error.injEq] at failed
      exact ⟨refusal, failed.1.symm, pending.kind_of_drive held (congrArg Prod.fst refused)⟩
    · simp at failed
  rw [Supercompiler.step, pending.found] at failed
  simp only at failed
  split at failed
  · split at failed
    · exact driven failed
    · split at failed
      · rename_i detached replaced
        exact absurd replaced (pending.replace_ne_error ordered _ detached)
      · simp at failed
  · exact driven failed

/-- A round goes on with a step at the first unprocessed leaf. -/
theorem growAt_of_round {mayGrow : Bool} {step : Step}
    (went : state.round options mayGrow = .go step next) :
    ∃ leaf, state.tree.unprocessed? = some leaf ∧ state.growAt options leaf = .go step next := by
  rw [round] at went
  split at went
  · contradiction
  · split at went
    · contradiction
    · rename_i leaf first
      split at went
      · exact ⟨leaf, first, went⟩
      · contradiction

/-- Growing a leaf stops because a walk goes too deep, which takes a bound on frames, or because the
step fails. -/
theorem growAt_eq_stop {ending : Ending}
    (stopped : state.growAt options leaf = .stop ending final) :
    (ending = .tooDeep ∧ options.frames ≠ none) ∨
    ∃ e sc, ending = .failed e ∧ state.supercompiler.step state.tree leaf = (.error e, sc) := by
  rw [growAt] at stopped
  split at stopped
  · rename_i blocked
    rw [Round.stop.injEq] at stopped
    refine .inl ⟨stopped.1.symm, fun unbounded => ?_⟩
    simp [unbounded] at blocked
  · dsimp only at stopped
    split at stopped
    · rename_i e sc failed
      rw [Round.stop.injEq] at stopped
      exact .inr ⟨e, sc, stopped.1.symm, failed⟩
    · rw [record] at stopped
      split at stopped
      · rename_i deep
        rw [Round.stop.injEq] at stopped
        refine .inl ⟨stopped.1.symm, fun unbounded => ?_⟩
        simp [unbounded] at deep
      · contradiction

/-- Why a round stops. -/
theorem round_eq_stop {mayGrow : Bool} {ending : Ending}
    (stopped : state.round options mayGrow = .stop ending final) :
    (ending = .tooDeep ∧ options.frames ≠ none) ∨
    (ending = .completed ∧ final = state ∧ state.tree.unprocessed? = none) ∨
    (ending = .exhausted ∧ final = state ∧ mayGrow = false ∧
      ∃ leaf, state.tree.unprocessed? = some leaf) ∨
    ∃ e leaf sc, ending = .failed e ∧ state.tree.unprocessed? = some leaf ∧
      state.supercompiler.step state.tree leaf = (.error e, sc) := by
  rw [round] at stopped
  split at stopped
  · rename_i deep
    rw [Round.stop.injEq] at stopped
    refine .inl ⟨stopped.1.symm, fun unbounded => ?_⟩
    simp [scanTooDeep, unbounded] at deep
  · split at stopped
    · rename_i done
      rw [Round.stop.injEq] at stopped
      exact .inr (.inl ⟨stopped.1.symm, stopped.2.symm, done⟩)
    · rename_i leaf first
      split at stopped
      · rcases growAt_eq_stop stopped with deep | ⟨e, sc, ends, failed⟩
        · exact .inl deep
        · exact .inr (.inr (.inr ⟨e, leaf, sc, ends, first, failed⟩))
      · rename_i may
        rw [Round.stop.injEq] at stopped
        exact .inr (.inr (.inl ⟨stopped.1.symm, stopped.2.symm, by simpa using may, leaf, first⟩))

/-- A step that is recorded has a result and can be put into words. -/
theorem results_of_round {mayGrow : Bool} {step : Step}
    (program : state.supercompiler.program = .ofRules rules) (ordered : state.tree.WellFormed)
    (went : state.round options mayGrow = .go step next) :
    step.results ≠ [] ∧ step.text?.isSome = true := by
  obtain ⟨leaf, first, grew⟩ := growAt_of_round went
  obtain ⟨node, pending⟩ := pending_of_unprocessed? ordered first
  obtain ⟨grown, stepped, tree, -, action, results, -⟩ := growAt_eq_go grew
  rw [Step.text?, action, results]
  rcases step_cases ordered pending stepped tree with
    ⟨driven, drives⟩ | ⟨folded, _, _, _, _, single, -⟩
  · rw [driven]
    exact ⟨drives.branches_ne_nil program, rfl⟩
  · rw [folded, single]
    exact ⟨List.cons_ne_nil _ _, rfl⟩

/-- Every step that a construction records is taken in a round from a reached state, and the state
after the round leads to the tree at the end. -/
theorem exists_round_of_mem_steps {α : Type} {watch : Step → ProcessTree → α} {allowed : Nat}
    {entry : Step × α} (member : entry ∈ (Supercompiler.grow options watch allowed state).steps) :
    ∃ between after last, state.Reaches between ∧
      between.round options true = .go entry.1 after ∧ after.Reaches last ∧
      (Supercompiler.grow options watch allowed state).tree = last.tree := by
  induction allowed generalizing state with
  | zero =>
    rw [Supercompiler.grow] at member
    split at member <;> simp [Run.ofState] at member
  | succ allowed ih =>
    rw [Supercompiler.grow] at member ⊢
    split at member
    · simp [Run.ofState] at member
    · rename_i step next went
      dsimp only
      rcases List.mem_cons.mp member with rfl | later
      · obtain ⟨last, ends⟩ := exists_endsIn options watch allowed next
        exact ⟨state, next, last, .refl, went, ends.reaches, ends.tree⟩
      · obtain ⟨between, after, last, reaches, goes, onward⟩ := ih later
        exact ⟨between, after, last, .head (grows_of_round went) reaches, goes, onward⟩

end BuildState

/-- The ways in which a construction for what texts stand for ends. -/
inductive Run.EndsAsDocumented {α : Type} (run : Run α) (options : BuildOptions)
    (patience : Nat) : Prop where
  /-- There is a finished tree. -/
  | completed (error : run.error? options = none) (finished : run.tree.isComplete = true)
  /-- A call has no rules, the wrong number of arguments or fields, or a constructor that no rule is
  for. -/
  | refused (e : DriveError) (error : run.error? options = some (.growth (.drive e)))
      (kind : e.kind ∈ [ErrorKind.unknownFunction, .arity, .nonExhaustive])
  /-- There is a limit, and it is reached. -/
  | aborted (limit : Int) (limited : options.limit = some limit)
      (error : run.error? options = some (.aborted ⟨limit.toNat, limit, none⟩))
  /-- There is no limit, and the construction could go on after as many steps as were asked for. -/
  | unfinished (unlimited : options.limit = none) (count : run.count = patience)
      (more : run.tree.isComplete = false)
  /-- There is a bound on frames, and a walk through a term would go deeper. -/
  | tooDeep (bounded : options.frames ≠ none) (error : run.error? options =
      some (.aborted ⟨run.count, options.limit, some "expressions nested too deeply"⟩))

namespace Supercompiler

variable {α : Type} {rules : List Rule} {t : Term} {sc : Supercompiler}

/-- A construction under rules with plain bodies, for a plain term, ends as documented. -/
theorem endsAsDocumented (program : sc.program = .ofRules rules)
    (bodies : ∀ rule ∈ rules, rule.body.plain = true) (written : t.plain = true)
    (options : BuildOptions) (patience : Nat) (watch : Step → ProcessTree → α) :
    (sc.build options patience watch t).EndsAsDocumented options patience := by
  obtain ⟨rounds, within, last, advances, stopped⟩ := exists_advances_grow options watch
    ((options.limit.map Int.toNat).getD patience) (.start sc t)
  change _ = Round.stop (sc.build options patience watch t).ending
    (sc.build options patience watch t).final at stopped
  generalize sc.build options patience watch t = run at stopped ⊢
  have ordered := advances.reaches.wellFormed (.ofTerm t)
  rcases BuildState.round_eq_stop stopped with ⟨deep, bounded⟩ | ⟨done, same, finished⟩ |
    ⟨cut, same, spent, leaf, first⟩ | ⟨e, leaf, _, fails, first, failed⟩
  · exact .tooDeep bounded (by rw [Run.error?, deep])
  · refine .completed (by rw [Run.error?, done]) ?_
    rw [← same] at finished
    exact Option.isNone_iff_eq_none.mpr finished
  · have counted : run.count = rounds := by
      rw [show run.count = last.count from congrArg BuildState.count same, advances.count,
        BuildState.start, Nat.zero_add]
    have all : run.count = (options.limit.map Int.toNat).getD patience := by
      have notLess : ¬ rounds < (options.limit.map Int.toNat).getD patience :=
        of_decide_eq_false spent
      omega
    cases limited : options.limit with
    | none =>
      refine .unfinished limited (by simpa [limited] using all) ?_
      rw [← same] at first
      exact Option.isNone_eq_false_iff.mpr (Option.isSome_iff_exists.mpr ⟨leaf, first⟩)
    | some limit =>
      refine .aborted limit limited ?_
      have steps : run.count = limit.toNat := by simpa [limited] using all
      rw [Run.error?, cut, steps, limited]
  · obtain ⟨node, pending⟩ := BuildState.pending_of_unprocessed? ordered first
    have held := advances.reaches.held program bodies written pending.found
    obtain ⟨refusal, rfl, drivable⟩ := pending.kind_of_step ordered held failed
    exact .refused refusal (by rw [Run.error?, fails]) (DriveError.kind_mem drivable)

/-- Constructions for what texts stand for end as documented, whatever the supply and the bounds
are. In every tree on the way the nodes hold plain terms or `let` terms over plain calls; every leaf
that is driven gets a child; and every recorded step has a result and can be put into words. -/
theorem build_documented {programText termText : String} {program : Program} {t : Term}
    (programParsed : Program.parse programText = .ok program)
    (termParsed : Term.parse termText = .ok t) (supply : NameSupply) (options : BuildOptions)
    (patience : Nat) (watch : Step → ProcessTree → α) :
    let sc : Supercompiler := ⟨program, supply⟩
    (∀ {state : BuildState}, (BuildState.start sc t).Reaches state →
      (∀ {i : Nat} {node : Node}, state.tree.node? i = some node → node.term.Held) ∧
      ∀ {next : BuildState} {leaf : Nat} {node : Node} {branches : List Branch},
        BuildState.Drives state next leaf node branches →
          branches ≠ [] ∧ next.tree.children leaf ≠ []) ∧
    (∀ step ∈ (sc.build options patience watch t).stepList,
      step.results ≠ [] ∧ step.text?.isSome = true) ∧
    (sc.build options patience watch t).EndsAsDocumented options patience := by
  intro sc
  obtain ⟨rules, isProgram, bodies⟩ := Program.exists_rules_of_parse programParsed
  have written := Term.plain_of_parse termParsed
  have same : ∀ {state : BuildState}, (BuildState.start sc t).Reaches state →
      state.supercompiler.program = .ofRules rules := fun reaches =>
    (BuildState.Reaches.program reaches (.ofTerm t)).trans isProgram
  refine ⟨fun reaches => ⟨fun found => reaches.held isProgram bodies written found, ?_⟩, ?_,
    endsAsDocumented isProgram bodies written options patience watch⟩
  · intro next leaf node branches drives
    have some := drives.branches_ne_nil (same reaches)
    refine ⟨some, ?_⟩
    rw [drives.growth.children_eq, if_pos rfl]
    simpa using some
  · intro step recorded
    obtain ⟨entry, member, rfl⟩ := List.mem_map.mp recorded
    obtain ⟨between, after, -, reaches, went, -⟩ :=
      BuildState.exists_round_of_mem_steps member
    exact BuildState.results_of_round (same reaches) (reaches.wellFormed (.ofTerm t)) went

/-- The construction for an addition of variables ends as documented, and every step that it records
has a result. -/
theorem build_documented_addition :
    Program.parse "gAdd(Z(), y) = y; gAdd(S(x), y) = S(gAdd(x, y));" =
      .ok (.ofRules Program.additionRules) ∧
    Term.parse "gAdd(a, b)" = .ok (.gCall "gAdd" [.var "a", .var "b"]) ∧
    (∀ step ∈ (build ⟨.ofRules Program.additionRules, {}⟩ {} 9 (fun _ _ => ())
        (.gCall "gAdd" [.var "a", .var "b"])).stepList,
      step.results ≠ [] ∧ step.text?.isSome = true) ∧
    (build ⟨.ofRules Program.additionRules, {}⟩ {} 9 (fun _ _ => ())
      (.gCall "gAdd" [.var "a", .var "b"])).EndsAsDocumented {} 9 := by
  have program : Program.parse "gAdd(Z(), y) = y; gAdd(S(x), y) = S(gAdd(x, y));" =
      .ok (.ofRules Program.additionRules) := by rfl
  have term : Term.parse "gAdd(a, b)" = .ok (.gCall "gAdd" [.var "a", .var "b"]) := by rfl
  exact ⟨program, term, (build_documented program term {} {} 9 fun _ _ => ()).2⟩

end Supercompiler

end Supercompilation
