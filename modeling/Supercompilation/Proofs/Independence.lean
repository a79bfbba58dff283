import Mathlib.Data.List.Dedup
import Mathlib.Data.Set.Function
import Supercompilation.Proofs.Reader
import Supercompilation.Proofs.RenamedDriving

/-!
# Independence of names

Constructions do not depend on the names of variables, nor on the supply that names are taken from.
Two constructions are run side by side, one for a term and one for the renamed term, each with its
own supply. `BuildState.Linked` says that the two states correspond under a renaming. A step keeps
the states linked, under a renaming that is extended by the names that the two supplies issue in the
step; it keeps its values on all names in use, since both supplies know these.

The main statement is `Supercompiler.build_rename`.
-/

namespace Supercompilation

/-- Rename what an error is about. -/
def GrowthError.rename (ρ : String → String) : GrowthError → GrowthError
  | .drive e => .drive (e.map (Term.rename ρ))
  | .detached e => .detached ⟨e.node.rename ρ⟩

/-- Rename what a step did. -/
def Grown.rename (ρ : String → String) (grown : Grown) : Grown :=
  ⟨grown.action, grown.results.map (Branch.rename ρ), grown.tree.rename ρ⟩

/-- Rename what the error is about, if a construction ends with one. -/
def Ending.rename (ρ : String → String) : Ending → Ending
  | .failed e => .failed (e.rename ρ)
  | ending => ending

/-- Rename the outcome of a step. -/
def renameOutcome (ρ : String → String) (outcome : Except GrowthError Grown) :
    Except GrowthError Grown :=
  (outcome.map (Grown.rename ρ)).mapError (GrowthError.rename ρ)

/-- Whether putting a step into words goes too deep does not depend on the names in its results. -/
theorem Step.tooDeep_rename (ρ : String → String) (frames : Nat) {step renamed : Step}
    (height : renamed.before.height = step.before.height)
    (results : renamed.results = step.results.map (Branch.rename ρ)) :
    renamed.tooDeep frames = step.tooDeep frames := by
  rw [tooDeep, tooDeep, height, results, List.any_map]
  simp only [Function.comp_def, Branch.rename, Term.height_rename]

/-- The `let` term that folds a node of a renamed tree is the renamed `let` term. -/
theorem Supercompiler.foldTerm_rename (ρ : String → String) (tree : ProcessTree) (ancestor : Nat)
    (values : Substitution) :
    foldTerm (tree.rename ρ) ancestor (values.rename ρ) =
      (foldTerm tree ancestor values).map (Term.rename ρ) := by
  rw [foldTerm, foldTerm, ProcessTree.node?_rename]
  cases tree.node? ancestor with
  | none => rfl
  | some above =>
    simp only [Option.map_some, Node.rename, Term.rename_letIn]
    rfl

/-- Two states look the same up to a renaming: the trees are the same up to the renaming, and as
many steps were taken. -/
structure BuildState.LooksLike (ρ : String → String) (first second : BuildState) : Prop where
  /-- The second tree is the renamed first tree. -/
  tree : second.tree = first.tree.rename ρ
  /-- As many steps were taken. -/
  count : second.count = first.count

/-- Two rounds have the same result up to a renaming: both stop with the same ending, or both go on
after the same action. -/
inductive Round.LooksLike (ρ : String → String) : Round → Round → Prop where
  /-- Both stop. -/
  | stop {ending : Ending} {first second : BuildState} (same : first.LooksLike ρ second) :
      LooksLike ρ (.stop ending first) (.stop (ending.rename ρ) second)
  /-- Both go on. -/
  | go {step step' : Step} {first second : BuildState} (action : step'.action = step.action)
      (same : first.LooksLike ρ second) : LooksLike ρ (.go step first) (.go step' second)

namespace BuildState

variable {rules : List Rule} {t : Term} {first second : BuildState}

/-- Two states of constructions for a term and for the renamed term correspond: they look the same
up to the renaming, and in both the names are accounted for. -/
structure Linked (rules : List Rule) (t : Term) (ρ : String → String)
    (first second : BuildState) : Prop extends LooksLike ρ first second where
  /-- The names of the first state are accounted for. -/
  early : Accounted rules t first
  /-- The names of the second state are accounted for. -/
  late : Accounted rules (t.rename ρ) second

/-- A renaming that agrees with another on the root and on a tree. -/
structure Agrees (t : Term) (tree : ProcessTree) (ρ σ : String → String) : Prop where
  /-- They agree on the variables of the root. -/
  root : ∀ x ∈ t.occurrences, σ x = ρ x
  /-- They agree on the tree. -/
  tree : tree.rename σ = tree.rename ρ

/-- The outcome of driving a node, by what driving its term yields. -/
theorem driveNode_fst (state : BuildState) (tree : ProcessTree) (i : Nat) (u : Term) :
    (state.supercompiler.driveNode tree i u).1 =
      match (state.supercompiler.program.driveTerm u (state.reservedFor u)).1 with
      | .error e => .error (.drive e)
      | .ok branches => .ok ⟨.drive, branches, tree.addChildren i branches⟩ := by
  have driven : (state.supercompiler.drive u).1 =
      (state.supercompiler.program.driveTerm u (state.reservedFor u)).1 := rfl
  rw [← driven, Supercompiler.driveNode]
  rcases state.supercompiler.drive u with ⟨_ | _, _⟩ <;> rfl

/-- Recording the same step looks the same. -/
theorem looksLike_record (options : BuildOptions) {before before' : Term}
    (height : before'.height = before.height) (grown : Grown) {ρ : String → String}
    (same : first.LooksLike ρ second) :
    (record options before grown first).LooksLike ρ
      (record options before' (grown.rename ρ) second) := by
  have deepTree : ∀ frames, (grown.rename ρ).tree.printTooDeep frames =
      grown.tree.printTooDeep frames := fun frames =>
    ProcessTree.printTooDeep_rename ρ grown.tree frames
  have deepStep : ∀ frames,
      Step.tooDeep frames
        ⟨second.count, (grown.rename ρ).action, before', (grown.rename ρ).results, none⟩ =
      Step.tooDeep frames ⟨first.count, grown.action, before, grown.results, none⟩ :=
    fun frames => Step.tooDeep_rename ρ frames height rfl
  rw [record, record]
  simp only [deepTree, deepStep]
  split
  · exact .stop same
  · exact .go rfl same

namespace Linked

variable {ρ : Equiv.Perm String}

/-- The renamed node stands at the same place in the second tree. -/
theorem found (linked : Linked rules t ρ first second) {i : Nat} {node : Node}
    (here : first.tree.node? i = some node) : second.tree.node? i = some (node.rename ρ) := by
  rw [linked.tree, ProcessTree.node?_rename, here, Option.map_some]

/-- When corresponding nodes are driven, the two supplies share all names of the tree. -/
theorem shared_names (linked : Linked rules t ρ first second) {i : Nat} {node : Node}
    (here : first.tree.node? i = some node) {j : Nat} {other : Node}
    (there : first.tree.node? j = some other) {x : String} (named : x ∈ other.branch.names) :
    NameSupply.Shared ρ (first.reservedFor node.term) (second.reservedFor (node.term.rename ρ)) x :=
  ⟨linked.early.knows_names here there named,
    linked.late.knows_names (linked.found here) (linked.found there)
      (Node.branch_rename ρ other ▸ Branch.mem_names_rename named)⟩

/-- When corresponding nodes are driven, the two supplies share the variables of the root. -/
theorem shared_root (linked : Linked rules t ρ first second) {i : Nat} {node : Node}
    (here : first.tree.node? i = some node) {x : String} (occurs : x ∈ t.occurrences) :
    NameSupply.Shared ρ (first.reservedFor node.term)
      (second.reservedFor (node.term.rename ρ)) x := by
  refine ⟨linked.early.knows_root here occurs, linked.late.knows_root (linked.found here) ?_⟩
  rw [Term.occurrences_rename]
  exact List.mem_map_of_mem occurs

/-- When corresponding nodes are driven, the two supplies share the variables of the term. -/
theorem sharedIn (linked : Linked rules t ρ first second) {i : Nat} {node : Node}
    (here : first.tree.node? i = some node) :
    Program.SharedIn ρ (first.reservedFor node.term) (second.reservedFor (node.term.rename ρ))
      node.term := fun _ occurs =>
  linked.shared_names here here
    (List.mem_append_left _ (Term.mem_mentions_of_mem_occurrences occurs))

/-- A renaming that keeps its values on shared names agrees on the root and on the tree. -/
theorem agrees (linked : Linked rules t ρ first second) {i : Nat} {node : Node}
    (here : first.tree.node? i = some node) {σ : String → String}
    (keeps : ∀ x, NameSupply.Shared ρ (first.reservedFor node.term)
      (second.reservedFor (node.term.rename ρ)) x → σ x = ρ x) :
    Agrees t first.tree ρ σ where
  root x occurs := keeps x (linked.shared_root here occurs)
  tree := ProcessTree.rename_congr fun there x named =>
    keeps x (linked.shared_names here there named)

/-- Driving corresponding nodes yields corresponding outcomes. -/
theorem driveNode (linked : Linked rules t ρ first second)
    (closed : ∀ rule ∈ rules, rule.Closed) (bodies : ∀ rule ∈ rules, rule.body.plain = true)
    {i : Nat} {node : Node} (here : first.tree.node? i = some node) :
    ∃ σ : Equiv.Perm String, Agrees t first.tree ρ σ ∧
      (second.supercompiler.driveNode second.tree i (node.term.rename ρ)).1 =
        renameOutcome σ (first.supercompiler.driveNode first.tree i node.term).1 := by
  obtain ⟨σ, keeps, driven⟩ := Program.driveTerm_rename closed bodies (linked.early.shallow here) ρ
    (first.reservedFor node.term) (second.reservedFor (node.term.rename ρ)) (linked.sharedIn here)
  have agrees := linked.agrees here keeps
  refine ⟨σ, agrees, ?_⟩
  rw [driveNode_fst, driveNode_fst, linked.late.program, linked.early.program, driven, linked.tree,
    ← agrees.tree]
  cases ((Program.ofRules rules).driveTerm node.term (first.reservedFor node.term)).1 with
  | error e => rfl
  | ok branches =>
    simp only [Program.mapOutcome_ok, ← ProcessTree.addChildren_rename]
    rfl

/-- Growing corresponding nodes yields corresponding outcomes. -/
theorem step (linked : Linked rules t ρ first second) (closed : ∀ rule ∈ rules, rule.Closed)
    (bodies : ∀ rule ∈ rules, rule.body.plain = true) {i : Nat} {node : Node}
    (here : first.tree.node? i = some node) :
    ∃ σ : Equiv.Perm String, Agrees t first.tree ρ σ ∧
      (second.supercompiler.step second.tree i).1 =
        renameOutcome σ (first.supercompiler.step first.tree i).1 := by
  have driven := linked.driveNode closed bodies here
  rw [Supercompiler.step, Supercompiler.step, linked.found here, here]
  simp only [Node.rename, Term.isCall_rename]
  split
  · have folds : second.tree.fold? i =
        (first.tree.fold? i).map fun found => (found.1, Substitution.rename ρ found.2) := by
      rw [linked.tree, ProcessTree.fold?_rename ρ.injective]
    rw [folds]
    cases first.tree.fold? i with
    | none => exact driven
    | some found =>
      obtain ⟨a, values⟩ := found
      simp only [Option.map_some, Option.bind_some]
      rw [linked.tree, Supercompiler.foldTerm_rename]
      cases Supercompiler.foldTerm first.tree a values with
      | none => rw [← linked.tree]; exact driven
      | some folded =>
        -- A fold takes no names, and the renaming stays as it is.
        refine ⟨ρ, ⟨fun _ _ => rfl, rfl⟩, ?_⟩
        simp only [Option.map_some]
        rw [ProcessTree.replace_rename]
        cases first.tree.replace i folded with
        | error e => rfl
        | ok replaced =>
          have contraction : ((replaced.2.rename ρ).node? replaced.1).bind Node.contraction =
              ((replaced.2.node? replaced.1).bind Node.contraction).map (Contraction.rename ρ) := by
            rw [ProcessTree.node?_rename, Option.bind_map, Option.map_bind]
            rfl
          simp only [Except.map, Except.mapError, contraction]
          rfl
  · exact driven

/-- Whether growing a node goes too deep is the same for corresponding nodes. -/
theorem stepBlocked (linked : Linked rules t ρ first second)
    (closed : ∀ rule ∈ rules, rule.Closed) (bodies : ∀ rule ∈ rules, rule.body.plain = true)
    (frames : Nat) {i : Nat} {node : Node} (here : first.tree.node? i = some node) :
    (second.supercompiler.stepBlocked frames second.tree i).isSome =
      (first.supercompiler.stepBlocked frames first.tree i).isSome := by
  have deep : second.tree.holdsDeep frames = first.tree.holdsDeep frames := by
    rw [linked.tree, ProcessTree.holdsDeep_rename]
  have search : second.tree.foldTooDeep frames (node.term.rename ρ) (second.tree.ancestors i) =
      first.tree.foldTooDeep frames node.term (first.tree.ancestors i) := by
    rw [linked.tree, ProcessTree.ancestors_rename, ProcessTree.foldTooDeep_rename ρ.injective]
  have folds : (second.tree.fold? i).isSome = (first.tree.fold? i).isSome := by
    rw [linked.tree, ProcessTree.fold?_rename ρ.injective, Option.isSome_map]
  have driven : (second.supercompiler.driveBlocked frames (node.term.rename ρ)).isSome =
      (first.supercompiler.driveBlocked frames node.term).isSome := by
    have blocked := Program.driveBlocked_rename closed bodies frames (linked.early.shallow here) ρ
      (first.reservedFor node.term) (second.reservedFor (node.term.rename ρ))
      (linked.sharedIn here)
    rw [Supercompiler.driveBlocked, Supercompiler.driveBlocked, Option.isSome_map,
      Option.isSome_map, linked.late.program, linked.early.program]
    rw [reservedFor, reservedFor, linked.late.program, linked.early.program] at blocked
    exact blocked
  rw [Supercompiler.stepBlocked, Supercompiler.stepBlocked, linked.found here, here]
  simp only [Node.rename, Term.isCall_rename, deep, search, folds, linked.late.program,
    linked.early.program]
  split
  · split
    · split
      · rfl
      · split
        · rfl
        · exact driven
    · exact driven
  · rfl

/-- Growing corresponding nodes has the same result. -/
theorem growAt (linked : Linked rules t ρ first second) (closed : ∀ rule ∈ rules, rule.Closed)
    (bodies : ∀ rule ∈ rules, rule.body.plain = true) (options : BuildOptions) {i : Nat}
    {node : Node} (here : first.tree.node? i = some node) :
    ∃ σ : Equiv.Perm String, (∀ x ∈ t.occurrences, σ x = ρ x) ∧
      (first.growAt options i).LooksLike σ (second.growAt options i) := by
  obtain ⟨σ, agrees, stepped⟩ := linked.step closed bodies here
  have same : first.LooksLike σ second := ⟨agrees.tree ▸ linked.tree, linked.count⟩
  refine ⟨σ, agrees.root, ?_⟩
  have blocked : (options.frames.bind fun frames =>
      second.supercompiler.stepBlocked frames second.tree i).isSome =
        (options.frames.bind fun frames =>
          first.supercompiler.stepBlocked frames first.tree i).isSome := by
    cases options.frames with
    | none => rfl
    | some frames => exact linked.stepBlocked closed bodies frames here
  rw [BuildState.growAt, BuildState.growAt]
  cases early : options.frames.bind fun frames =>
      first.supercompiler.stepBlocked frames first.tree i with
  | some sc =>
    rw [early, Option.isSome_some, Option.isSome_iff_exists] at blocked
    obtain ⟨sc', late⟩ := blocked
    rw [late]
    exact .stop ⟨same.tree, same.count⟩
  | none =>
    rw [early, Option.isSome_none, Option.isSome_eq_false_iff, Option.isNone_iff_eq_none] at blocked
    rw [blocked, here, linked.found here]
    simp only [Option.map_some, Option.getD_some]
    generalize first.supercompiler.step first.tree i = grownFirst at stepped ⊢
    generalize second.supercompiler.step second.tree i = grownSecond at stepped ⊢
    obtain ⟨outcome, sc⟩ := grownFirst
    obtain ⟨outcome', sc'⟩ := grownSecond
    obtain rfl : outcome' = renameOutcome σ outcome := stepped
    cases outcome with
    | error e => exact .stop ⟨same.tree, same.count⟩
    | ok grown =>
      exact looksLike_record options (Term.height_rename ρ node.term) grown
        ⟨rfl, congrArg (· + 1) same.count⟩

/-- A round from corresponding states has the same result. -/
theorem round (linked : Linked rules t ρ first second) (closed : ∀ rule ∈ rules, rule.Closed)
    (bodies : ∀ rule ∈ rules, rule.body.plain = true) (options : BuildOptions) (mayGrow : Bool) :
    ∃ σ : Equiv.Perm String, (∀ x ∈ t.occurrences, σ x = ρ x) ∧
      (first.round options mayGrow).LooksLike σ (second.round options mayGrow) := by
  have scan : second.scanTooDeep options = first.scanTooDeep options := by
    rw [scanTooDeep, scanTooDeep, linked.tree]
    simp only [ProcessTree.holdsDeep_rename, ProcessTree.leaves_rename,
      ProcessTree.scanTooDeep_rename ρ.injective]
  have next : second.tree.unprocessed? = first.tree.unprocessed? := by
    rw [linked.tree, ProcessTree.unprocessed?_rename ρ.injective]
  have stays : ∀ ending : Ending, ending.rename ρ = ending →
      ∃ σ : Equiv.Perm String, (∀ x ∈ t.occurrences, σ x = ρ x) ∧
        (Round.stop ending first).LooksLike σ (.stop ending second) := by
    intro ending kept
    have both : (Round.stop ending first).LooksLike ρ (.stop (ending.rename ρ) second) :=
      .stop linked.toLooksLike
    rw [kept] at both
    exact ⟨ρ, fun _ _ => rfl, both⟩
  rw [BuildState.round, BuildState.round, scan, next]
  split
  · exact stays .tooDeep rfl
  · cases chosen : first.tree.unprocessed? with
    | none => exact stays .completed rfl
    | some leaf =>
      obtain ⟨node, pending⟩ := pending_of_unprocessed? linked.early.ordered chosen
      cases mayGrow with
      | true => exact linked.growAt closed bodies options pending.found
      | false => exact stays .exhausted rfl

end Linked

end BuildState

/-- Two constructions are the same up to a renaming: they take the same actions, end the same way
after as many steps, and leave the same tree. The ending tells what the error is about, if there is
one, and the trees correspond node by node. -/
structure Run.LooksLike {α β : Type} (ρ : String → String) (run : Run α) (run' : Run β) :
    Prop where
  /-- The same actions are taken. -/
  actions : run'.stepList.map Step.action = run.stepList.map Step.action
  /-- As many steps are taken. -/
  count : run'.count = run.count
  /-- The constructions end the same way. -/
  ending : run'.ending = run.ending.rename ρ
  /-- The second tree is the renamed first tree. -/
  tree : run'.tree = run.tree.rename ρ

namespace Supercompiler

variable {α β : Type} {rules : List Rule} {t : Term}

/-- Constructions that go on from corresponding states are the same up to a renaming. -/
theorem grow_rename (closed : ∀ rule ∈ rules, rule.Closed)
    (bodies : ∀ rule ∈ rules, rule.body.plain = true) (written : t.plain = true)
    (options : BuildOptions) (watch : Step → ProcessTree → α) (watch' : Step → ProcessTree → β)
    (allowed : Nat) {ρ : Equiv.Perm String} {first second : BuildState}
    (linked : BuildState.Linked rules t ρ first second) :
    ∃ σ : Equiv.Perm String, (∀ x ∈ t.occurrences, σ x = ρ x) ∧
      Run.LooksLike σ (grow options watch allowed first) (grow options watch' allowed second) := by
  induction allowed generalizing ρ first second with
  | zero =>
    obtain ⟨σ, agree, same⟩ := linked.round closed bodies options false
    refine ⟨σ, agree, ?_⟩
    rw [grow, grow]
    generalize first.round options false = roundFirst at same ⊢
    generalize second.round options false = roundSecond at same ⊢
    cases same with
    | stop same => exact ⟨rfl, same.count, rfl, same.tree⟩
    | go action same => exact ⟨rfl, same.count, rfl, same.tree⟩
  | succ allowed ih =>
    obtain ⟨σ, agree, same⟩ := linked.round closed bodies options true
    have early := BuildState.accounts_round options true first
    have late := BuildState.accounts_round options true second
    rw [grow, grow]
    generalize first.round options true = roundFirst at same early ⊢
    generalize second.round options true = roundSecond at same late ⊢
    cases same with
    | stop same => exact ⟨σ, agree, rfl, same.count, rfl, same.tree⟩
    | go action same =>
      have root : t.rename ρ = t.rename σ :=
        Term.rename_congr_of_plain written fun x occurs => (agree x occurs).symm
      obtain ⟨τ, agreeLater, rest⟩ := ih
        ⟨same, early.accounted linked.early bodies, root ▸ late.accounted linked.late bodies⟩
      refine ⟨τ, fun x occurs => (agreeLater x occurs).trans (agree x occurs), ?_,
        rest.count, rest.ending, rest.tree⟩
      have actions := rest.actions
      simp only [Run.stepList, List.map_cons, action] at actions ⊢
      rw [actions]

/-- Some permutation gives the variables of a plain term the names that an injective renaming gives
them, and renames the term to the instance in which they are replaced by these names. -/
theorem exists_renaming_of_subst {r : String → String} {values : Substitution}
    (written : t.plain = true) (injective : Set.InjOn r {x | x ∈ t.vars})
    (renames : ∀ x ∈ t.vars, values.value? x = some (.var (r x))) :
    ∃ ρ : Equiv.Perm String, (∀ x ∈ t.vars, ρ x = r x) ∧ t.subst values = t.rename ρ := by
  have distinct : t.vars.dedup.Nodup := List.nodup_dedup t.vars
  have distinctImages : (t.vars.dedup.map r).Nodup :=
    distinct.map_on fun x isVar y isVar' => injective (List.mem_dedup.mp isVar)
      (List.mem_dedup.mp isVar')
  obtain ⟨ρ, maps, -⟩ := exists_extension (Equiv.refl String) distinct distinctImages
    (List.length_map r).symm
  have agree : ∀ x ∈ t.vars, ρ x = r x := fun x isVar =>
    List.map_inj_left.mp maps x (List.mem_dedup.mpr isVar)
  refine ⟨ρ, agree, ?_⟩
  have replaced : (t.subst []).rename ρ = t.subst values := by
    refine Term.rename_subst_eq written fun x occurs => ?_
    have isVar := Term.mem_vars.mpr occurs
    rw [Term.subst_nil, Term.rename_var, Term.subst_var_of_value? (renames x isVar), agree x isVar]
  rw [← replaced, Term.subst_nil]

/-- Building the tree of a term does not depend on names: for every program that can be read and
whose rules are closed, every term that can be read, every injective renaming of its variables and
every two supplies, the construction for the renamed term is the construction for the term up to a
renaming that extends the given one. -/
theorem build_rename {source text : String} {program : Program}
    (parsedProgram : Program.parse source = .ok program)
    (closed : ∀ rule ∈ program.rules, rule.Closed) (parsedTerm : Term.parse text = .ok t)
    {r : String → String} (injective : Set.InjOn r {x | x ∈ t.vars}) {values : Substitution}
    (renames : ∀ x ∈ t.vars, values.value? x = some (.var (r x))) (first second : NameSupply)
    (options : BuildOptions) (patience : Nat) (watch : Step → ProcessTree → α)
    (watch' : Step → ProcessTree → β) :
    ∃ σ : Equiv.Perm String, (∀ x ∈ t.vars, σ x = r x) ∧
      Run.LooksLike σ (build ⟨program, first⟩ options patience watch t)
        (build ⟨program, second⟩ options patience watch' (t.subst values)) := by
  obtain ⟨rules, rfl, bodies⟩ := Program.exists_rules_of_parse parsedProgram
  rw [Program.rules_ofRules] at closed
  have written := Term.plain_of_parse parsedTerm
  have writtenInstance : (t.subst values).plain = true := by
    refine Term.plain_subst written fun x occurs => ?_
    rw [Term.subst_var_of_value? (renames x (Term.mem_vars.mpr occurs)), Term.plain_var]
  obtain ⟨ρ, agree, renamed⟩ := exists_renaming_of_subst written injective renames
  have linked : BuildState.Linked rules t ρ (.start ⟨.ofRules rules, first⟩ t)
      (.start ⟨.ofRules rules, second⟩ (t.subst values)) := by
    refine ⟨⟨?_, rfl⟩, BuildState.accounted_start rfl written, ?_⟩
    · rw [BuildState.start, BuildState.start, ProcessTree.rename_ofTerm, renamed]
    · rw [← renamed]
      exact BuildState.accounted_start rfl writtenInstance
  obtain ⟨σ, keeps, same⟩ := grow_rename closed bodies written options watch watch'
    ((options.limit.map Int.toNat).getD patience) linked
  refine ⟨σ, fun x isVar => ?_, same⟩
  rw [keeps x (Term.mem_vars.mp isVar), agree x isVar]

/-- The construction for an addition does not depend on names, also if its variables are given the
name that the supply would issue first and a name that the program uses. -/
theorem build_rename_addition :
    Program.parse "gAdd(Z(), y) = y; gAdd(S(x), y) = S(gAdd(x, y));" =
      .ok (.ofRules Program.additionRules) ∧
    Term.parse "gAdd(a, b)" = .ok (.gCall "gAdd" [.var "a", .var "b"]) ∧
    (Term.gCall "gAdd" [.var "a", .var "b"]).subst [("a", .var "v_1"), ("b", .var "x")] =
      .gCall "gAdd" [.var "v_1", .var "x"] ∧
    ∃ σ : Equiv.Perm String, σ "a" = "v_1" ∧ σ "b" = "x" ∧
      Run.LooksLike σ
        (build ⟨.ofRules Program.additionRules, {}⟩ {} 9 (fun _ _ => ())
          (.gCall "gAdd" [.var "a", .var "b"]))
        (build ⟨.ofRules Program.additionRules, ⟨"y", -1, .empty⟩⟩ {} 9 (fun _ _ => ())
          (.gCall "gAdd" [.var "v_1", .var "x"])) := by
  have parsedProgram : Program.parse "gAdd(Z(), y) = y; gAdd(S(x), y) = S(gAdd(x, y));" =
      .ok (.ofRules Program.additionRules) := by rfl
  have parsedTerm : Term.parse "gAdd(a, b)" = .ok (.gCall "gAdd" [.var "a", .var "b"]) := by rfl
  have vars : ∀ x, x ∈ (Term.gCall "gAdd" [.var "a", .var "b"]).vars ↔ x = "a" ∨ x = "b" := by
    simp
  have injective : Set.InjOn (fun x => if x = "a" then "v_1" else "x")
      {x | x ∈ (Term.gCall "gAdd" [.var "a", .var "b"]).vars} := by
    intro x isVar y isVar' same
    rcases (vars x).mp isVar with rfl | rfl <;> rcases (vars y).mp isVar' with rfl | rfl <;>
      simp_all
  have renames : ∀ x ∈ (Term.gCall "gAdd" [.var "a", .var "b"]).vars,
      NameMap.value? [("a", Term.var "v_1"), ("b", Term.var "x")] x =
        some (.var (if x = "a" then "v_1" else "x")) := by
    intro x isVar
    rcases (vars x).mp isVar with rfl | rfl <;> rfl
  have closed : ∀ rule ∈ (Program.ofRules Program.additionRules).rules, rule.Closed := by
    rw [Program.rules_ofRules]
    decide
  obtain ⟨σ, agree, same⟩ := build_rename parsedProgram closed parsedTerm injective renames {}
    ⟨"y", -1, .empty⟩ {} 9 (fun _ _ => ()) (fun _ _ => ())
  exact ⟨parsedProgram, parsedTerm, rfl, σ, agree "a" ((vars "a").mpr (.inl rfl)),
    agree "b" ((vars "b").mpr (.inr rfl)), same⟩

end Supercompiler

end Supercompilation
