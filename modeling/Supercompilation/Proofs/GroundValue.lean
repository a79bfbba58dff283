import Mathlib
import Supercompilation.Proofs.GroundRun
import Supercompilation.Proofs.Reader

/-!
# Values of ground terms

The construction for a ground term is evaluation. In a completed tree without calls at its leaves,
the value is read off by passing from a call to its child. The other way round, if the term has a
value, every node takes less effort than the nodes above it. Hence no call repeats an ancestor, and
the effort that is due at the nodes without children falls by one with every step: the construction
comes to an end, unless a walk through a term goes too deep.
-/

namespace Supercompilation

open ProcessTree

namespace ProcessTree

variable {tree grown : ProcessTree}

/-- The value that a node stands for, looked for in at most some rounds: a call has the value of its
only child, and a constructor is applied to the values of its children. -/
def valueAt (tree : ProcessTree) : Nat → Nat → Option Term
  | 0, _ => none
  | rounds + 1, i =>
    (tree.node? i).bind fun node =>
      (node.children.mapM (tree.valueAt rounds)).bind node.term.assemble

/-- The value that the tree stands for. A child is younger than its parent, so there are at most as
many rounds as nodes. -/
def value? (tree : ProcessTree) : Option Term := tree.valueAt tree.nodes.size tree.root

/-- Whether a leaf holds a call. -/
def hasCallLeaf (tree : ProcessTree) : Bool :=
  tree.leaves.any fun i => (tree.node? i).any fun node => node.term.isCall

/-- Without a call at a leaf, a leaf holds no call. -/
theorem not_isCall_of_leaf (ordered : tree.WellFormed) (callFree : tree.hasCallLeaf = false)
    {i : Nat} {node : Node} (attached : tree.Attached i) (found : tree.node? i = some node)
    (childless : node.children = []) : node.term.isCall = false := by
  have isLeaf := (mem_leaves ordered).mpr ⟨attached, (children_of_node? found).trans childless⟩
  rw [hasCallLeaf, List.any_eq_false] at callFree
  simpa [found] using callFree i isLeaf

/-- The effort that is due at a node: that for its term, if it has no children yet. -/
def due (weigh : Term → Nat) (tree : ProcessTree) (i : Nat) : Nat :=
  match tree.node? i with
  | none => 0
  | some node => if node.children.isEmpty then weigh node.term else 0

/-- The effort that is due at all nodes. -/
def totalDue (weigh : Term → Nat) (tree : ProcessTree) : Nat :=
  ((List.range tree.nodes.size).map (tree.due weigh)).sum

/-- A sum over distinct numbers changes as much as the only summand that changes. -/
theorem sum_map_congr_except {l : List Nat} (distinct : l.Nodup) {p : Nat} (member : p ∈ l)
    {f g : Nat → Nat} (same : ∀ i ∈ l, i ≠ p → f i = g i) :
    (l.map f).sum + g p = (l.map g).sum + f p := by
  have others : (l.erase p).map f = (l.erase p).map g := by
    refine List.map_congr_left fun i inside => same i (List.mem_of_mem_erase inside) ?_
    rintro rfl
    exact distinct.not_mem_erase inside
  rw [← List.sum_map_erase f member, ← List.sum_map_erase g member, others]
  omega

/-- When a node gets its first children, their effort is due instead of its own. -/
theorem Growth.totalDue (weigh : Term → Nat) {place : Nat} {kids : List Nat} {added : List Branch}
    (growth : Growth tree place kids added grown) {node : Node}
    (found : tree.node? place = some node) (childless : node.children = []) (some : kids ≠ []) :
    grown.totalDue weigh + weigh node.term =
      tree.totalDue weigh + (added.map fun branch => weigh branch.term).sum := by
  have old : ∀ i ∈ List.range tree.nodes.size, i ≠ place →
      grown.due weigh i = tree.due weigh i := by
    intro i inside other
    rw [due, due, growth.old (List.mem_range.mp inside)]
    cases tree.node? i with
    | none => rfl
    | some before => rw [Option.map_some, if_neg other]
  have before : tree.due weigh place = weigh node.term := by
    rw [due, found]
    simp [childless]
  have after : grown.due weigh place = 0 := by
    rw [due, growth.node?_old found, if_pos rfl]
    simp [some]
  have new : (List.range added.length).map (fun k => grown.due weigh (tree.nodes.size + k)) =
      added.map fun branch => weigh branch.term := by
    apply List.ext_getElem (by simp)
    intro k inside inside'
    rw [List.length_map] at inside'
    simp [due, growth.new, List.getElem?_eq_getElem inside']
  have changed := sum_map_congr_except List.nodup_range
    (List.mem_range.mpr growth.place_lt) old
  have split : grown.totalDue weigh = ((List.range tree.nodes.size).map (grown.due weigh)).sum +
      (added.map fun branch => weigh branch.term).sum := by
    rw [ProcessTree.totalDue, growth.size, List.range_add, List.map_append, List.sum_append,
      List.map_map, ← new]
    rfl
  rw [split, ProcessTree.totalDue]
  omega

end ProcessTree

namespace BuildState

variable {rules : List Rule} {issued : Int} {state next : BuildState} {leaf : Nat} {node : Node}

/-- Nodes that have values have them within some common number of steps. -/
theorem exists_values {sc : Supercompiler} (contained : Program.SelfContained rules)
    (program : sc.program = .ofRules rules) {tree : ProcessTree} {rounds : Nat} {kids : List Nat}
    {parts : List Term} (evaluable : ∀ u ∈ parts, u.Evaluable)
    (each : List.Forall₂ (fun c u => ∃ v steps, tree.valueAt rounds c = some v ∧
      sc.evaluate steps u = some v) kids parts) :
    ∃ values steps, List.Forall₂ (fun c v => tree.valueAt rounds c = some v) kids values ∧
      List.Forall₂ (fun u v => sc.evaluate steps u = some v) parts values := by
  induction each with
  | nil => exact ⟨[], 0, .nil, .nil⟩
  | @cons c u kids parts here _ ih =>
    rw [List.forall_mem_cons] at evaluable
    obtain ⟨v, steps, read, value⟩ := here
    obtain ⟨values, steps', reads, others⟩ := ih evaluable.2
    refine ⟨v :: values, max steps steps', .cons read reads, .cons ?_ ?_⟩
    · exact Supercompiler.evaluate_mono contained program evaluable.1 value
        (Nat.le_max_left steps steps')
    · have each := (List.forall₂_and_left parts values).mpr ⟨evaluable.2, others⟩
      exact each.imp fun _ _ part => Supercompiler.evaluate_mono contained program part.1
        part.2 (Nat.le_max_right steps steps')

section Trees

variable {sc : Supercompiler} {t : Term} (contained : Program.SelfContained rules)
  (evaluating : (start sc t).Evaluating rules issued) (reaches : (start sc t).Reaches state)

include contained evaluating reaches

/-- In a completed tree without calls at its leaves, every node stands for the value of its term. -/
theorem exists_valueAt (done : state.tree.unprocessed? = none)
    (callFree : state.tree.hasCallLeaf = false) {rounds i : Nat} (attached : state.tree.Attached i)
    (found : state.tree.node? i = some node) (enough : state.tree.nodes.size ≤ i + rounds) :
    ∃ v steps, state.tree.valueAt rounds i = some v ∧ sc.evaluate steps node.term = some v := by
  have now := evaluating.reaches contained reaches
  induction rounds generalizing i node with
  | zero =>
    have inside := attached.lt_size now.ordered
    omega
  | succ rounds ih =>
    have ground := now.evaluable found
    by_cases childless : node.children = []
    · -- A leaf is finished, and the only finished leaf that is left is a constructor.
      have noCall := not_isCall_of_leaf now.ordered callFree attached found childless
      have processed : state.tree.isProcessed i = true := by
        rw [unprocessed?, List.find?_eq_none] at done
        have isLeaf := (mem_leaves now.ordered).mpr
          ⟨attached, (children_of_node? found).trans childless⟩
        simpa using done i isLeaf
      obtain ⟨x, held⟩ | ⟨name, held⟩ | ⟨call, -⟩ := finished_of_isProcessed found processed
      · have ground := ground.ground
        simp [held] at ground
      · refine ⟨.ctor name [], 1, ?_, ?_⟩
        · simp [valueAt, found, childless, held, Term.assemble]
        · rw [held, Supercompiler.evaluate_ctor]
          rfl
      · rw [noCall] at call
        contradiction
    · obtain ⟨parts, falls, holds⟩ := hasTerm_children contained evaluating reaches found childless
      have evaluable :=
        (Supercompiler.evaluable_of_parts? contained evaluating.program ground falls).1
      have each : List.Forall₂ (fun c u => ∃ v steps, state.tree.valueAt rounds c = some v ∧
          sc.evaluate steps u = some v) node.children parts := by
        have member : ∀ c ∈ node.children, c ∈ state.tree.children i := by
          rw [children_of_node? found]
          exact fun _ inside => inside
        refine ((List.forall₂_and_left node.children parts).mpr ⟨member, holds⟩).imp ?_
        rintro c u ⟨child, below, there, rfl⟩
        have younger := now.ordered.parent_lt (now.ordered.parent_of_child child)
        exact ih (attached.child child) there (by omega)
      obtain ⟨values, steps, reads, evaluated⟩ :=
        exists_values contained evaluating.program evaluable each
      obtain ⟨v, made⟩ := Supercompiler.exists_assemble contained evaluating.program ground falls
        evaluated.length_eq
      refine ⟨v, steps + 1, ?_, ?_⟩
      · rw [valueAt, found, Option.bind_some, mapM_eq_some_iff.mpr reads, Option.bind_some, made]
      · exact (Supercompiler.evaluate_succ contained evaluating.program ground).mpr
          ⟨parts, values, falls, evaluated, made⟩

section Effort

variable {steps : Nat}

/-- A child of a node that has a value has one too, and takes less effort. -/
theorem effort_child {p c : Nat} {above : Node} {w : Term}
    (there : state.tree.node? p = some above) (known : sc.evaluate steps above.term = some w)
    (child : c ∈ state.tree.children p) (found : state.tree.node? c = some node) :
    (∃ u, sc.evaluate steps node.term = some u) ∧
      sc.effort steps node.term < sc.effort steps above.term := by
  have program : sc.program = .ofRules rules := evaluating.program
  have ground := (evaluating.reaches contained reaches).evaluable there
  rw [children_of_node? there] at child
  obtain ⟨parts, falls, each, total⟩ := Supercompiler.effort_parts contained program ground known
  obtain ⟨parts', falls', holds⟩ := hasTerm_children contained evaluating reaches there
    (List.ne_nil_of_mem child)
  obtain rfl := Option.some.inj (falls.symm.trans falls')
  obtain ⟨_, part, below, here, rfl⟩ := Program.exists_right_of_forall₂ holds child
  obtain rfl : node = below := Option.some.inj (found.symm.trans here)
  have summand : sc.effort steps node.term ≤ (parts.map (sc.effort steps)).sum :=
    List.le_sum_of_mem (List.mem_map_of_mem part)
  exact ⟨each _ part, by omega⟩

variable {v : Term} (value : sc.evaluate steps t = some v)

include value

/-- If the term has a value, so have the terms of all nodes. -/
theorem exists_value_of_attached {i : Nat} (attached : state.tree.Attached i)
    (found : state.tree.node? i = some node) : ∃ w, sc.evaluate steps node.term = some w := by
  induction attached generalizing node with
  | root =>
    obtain ⟨root, there, term, -⟩ := reaches.root (.ofTerm t) rfl
    obtain rfl := Option.some.inj (there.symm.trans found)
    exact ⟨v, term ▸ value⟩
  | @child p c _ child ih =>
    obtain ⟨above, there⟩ := node?_isSome_iff.mpr (lt_size_of_child child)
    obtain ⟨w, known⟩ := ih there
    exact (effort_child contained evaluating reaches there known child found).1

/-- If the term has a value, every node takes less effort than the nodes above it. -/
theorem effort_lt_of_mem_ancestors {i a : Nat} {above : Node} (attached : state.tree.Attached i)
    (found : state.tree.node? i = some node) (member : a ∈ state.tree.ancestors i)
    (there : state.tree.node? a = some above) :
    sc.effort steps node.term < sc.effort steps above.term := by
  have ordered := (evaluating.reaches contained reaches).ordered
  induction attached generalizing node with
  | root =>
    rw [ancestors_of_no_parent ordered.root_parent] at member
    contradiction
  | @child p c attached child ih =>
    obtain ⟨parent, foundParent⟩ := node?_isSome_iff.mpr (lt_size_of_child child)
    obtain ⟨w, known⟩ :=
      exists_value_of_attached contained evaluating reaches value attached foundParent
    have less := (effort_child contained evaluating reaches foundParent known child found).2
    rw [ancestors_of_parent ordered (ordered.parent_of_child child)] at member
    rcases List.mem_cons.mp member with rfl | further
    · obtain rfl := Option.some.inj (foundParent.symm.trans there)
      exact less
    · exact Nat.lt_trans less (ih foundParent further)

/-- If the term has a value, no call repeats a call above it. -/
theorem hasCallLeaf_of_done (done : state.tree.unprocessed? = none) :
    state.tree.hasCallLeaf = false := by
  have now := evaluating.reaches contained reaches
  rw [hasCallLeaf, List.any_eq_false]
  intro i isLeaf
  obtain ⟨attached, childless⟩ := (mem_leaves now.ordered).mp isLeaf
  obtain ⟨node, found⟩ := node?_isSome_iff.mpr (attached.lt_size now.ordered)
  rw [found, Option.any_some]
  intro call
  rw [unprocessed?, List.find?_eq_none] at done
  have processed : state.tree.isProcessed i = true := by simpa using done i isLeaf
  obtain ⟨x, held⟩ | ⟨name, held⟩ | ⟨-, a, member, above, there, -, same⟩ :=
    finished_of_isProcessed found processed
  · simp [held, Term.isCall] at call
  · simp [held, Term.isCall] at call
  · rw [Term.equiv, Term.hasInstance, Bool.and_eq_true, Option.isSome_iff_exists] at same
    obtain ⟨⟨values, matched⟩, -⟩ := same
    have equal := Term.eq_of_matchAgainst_ground (now.evaluable found).ground matched
    have less :=
      effort_lt_of_mem_ancestors contained evaluating reaches value attached found member there
    rw [equal] at less
    exact absurd less (Nat.lt_irrefl _)

/-- With every step the effort that is due falls by one. -/
theorem totalDue_of_grows (grows : state.Grows next) :
    next.tree.totalDue (sc.effort steps) + 1 = state.tree.totalDue (sc.effort steps) := by
  have program : sc.program = .ofRules rules := evaluating.program
  have now := evaluating.reaches contained reaches
  obtain ⟨leaf, node, branches, drives⟩ := now.drives grows
  have found := drives.pending.found
  have ground := now.evaluable found
  obtain ⟨w, known⟩ := exists_value_of_attached contained evaluating reaches value
    drives.pending.attached found
  obtain ⟨parts, falls, -, total⟩ := Supercompiler.effort_parts contained program ground known
  obtain ⟨parts', falls', rfl⟩ := now.parts_of_drives contained drives
  have some := now.parts_ne_nil contained drives.pending falls'
  rw [Supercompiler.parts?_congr contained program now.program ground] at falls'
  obtain rfl := Option.some.inj (falls.symm.trans falls')
  have childless := (children_of_node? found).symm.trans drives.pending.childless
  have moved := drives.growth.totalDue (sc.effort steps) found childless (by simpa using some)
  rw [List.map_map] at moved
  change _ = _ + (parts.map (sc.effort steps)).sum at moved
  omega

/-- The effort for the term is what is due after some rounds, and the number of these rounds. -/
theorem totalDue_of_advances {options : BuildOptions} {rounds : Nat} {last : BuildState}
    (advances : Advances options rounds state last) :
    last.tree.totalDue (sc.effort steps) + rounds = state.tree.totalDue (sc.effort steps) := by
  induction advances with
  | refl state => rfl
  | head went _ ih =>
    have grows := grows_of_round went
    have fallen := totalDue_of_grows contained evaluating reaches value grows
    have later := ih (reaches.tail grows)
    omega

/-- If the term has a value, no term at a leaf is stuck. -/
theorem parts?_ne_none (pending : state.Pending leaf node) :
    state.supercompiler.parts? node.term ≠ none := by
  have program : sc.program = .ofRules rules := evaluating.program
  have now := evaluating.reaches contained reaches
  have ground := now.evaluable pending.found
  obtain ⟨w, known⟩ := exists_value_of_attached contained evaluating reaches value
    pending.attached pending.found
  obtain ⟨parts, falls, -⟩ := Supercompiler.effort_parts contained program ground known
  rw [Supercompiler.parts?_congr contained program now.program ground, falls]
  exact Option.some_ne_none parts

end Effort

end Trees

end BuildState

/-- A construction yields a value: it is completed, no leaf holds a call, and the tree stands for
the value. -/
structure Run.Yields {α : Type} (run : Run α) (v : Term) : Prop where
  /-- The construction is completed. -/
  completed : run.ending = .completed
  /-- No leaf holds a call. -/
  callFree : run.tree.hasCallLeaf = false
  /-- The tree stands for the value. -/
  value : run.tree.value? = some v

namespace Supercompiler

variable {α : Type}

section Runs

variable {rules : List Rule} {issued : Int} {sc : Supercompiler} {t v : Term} {steps : Nat}
  (contained : Program.SelfContained rules)
  (evaluating : (BuildState.start sc t).Evaluating rules issued)

include contained evaluating

/-- A completed tree without calls at its leaves stands for the value of the term. -/
theorem exists_yields (options : BuildOptions) (patience : Nat) (watch : Step → ProcessTree → α)
    (completed : (sc.build options patience watch t).ending = .completed)
    (callFree : (sc.build options patience watch t).tree.hasCallLeaf = false) :
    ∃ v steps, (sc.build options patience watch t).Yields v ∧ sc.evaluate steps t = some v := by
  obtain ⟨final, ends⟩ := BuildState.exists_endsIn_build sc options patience watch t
  obtain ⟨-, done⟩ := ends.completed completed
  obtain ⟨root, found, term, -⟩ := ends.reaches.root (.ofTerm t) rfl
  obtain ⟨v, steps, read, value⟩ := BuildState.exists_valueAt contained evaluating ends.reaches
    done (ends.tree ▸ callFree) .root found (Nat.le_add_left _ _)
  rw [term] at value
  refine ⟨v, steps, ⟨completed, callFree, ?_⟩, value⟩
  rw [ends.tree]
  exact read

/-- If the term has a value, a completed construction yields it. -/
theorem yields_of_completed (options : BuildOptions) (patience : Nat)
    (watch : Step → ProcessTree → α) (value : sc.evaluate steps t = some v)
    (completed : (sc.build options patience watch t).ending = .completed) :
    (sc.build options patience watch t).Yields v := by
  have callFree : (sc.build options patience watch t).tree.hasCallLeaf = false := by
    obtain ⟨final, ends⟩ := BuildState.exists_endsIn_build sc options patience watch t
    obtain ⟨-, done⟩ := ends.completed completed
    rw [ends.tree]
    exact BuildState.hasCallLeaf_of_done contained evaluating ends.reaches value done
  obtain ⟨w, steps', yields, value'⟩ :=
    exists_yields contained evaluating options patience watch completed callFree
  obtain rfl := evaluate_unique contained evaluating.program
    (evaluating.evaluable (i := 0) rfl) value' value
  exact yields

/-- If the term has a value, the construction that may take a step more than the evaluation yields
it, unless a walk through a term goes too deep. -/
theorem yields_of_evaluate (options : BuildOptions) (watch : Step → ProcessTree → α)
    (value : sc.evaluate steps t = some v) :
    (sc.buildWithin options watch t (sc.effort steps t + 1)).Yields v ∨
      options.frames ≠ none ∧
        (sc.buildWithin options watch t (sc.effort steps t + 1)).ending = .tooDeep := by
  obtain ⟨rounds, -, last, advances, stopped⟩ :=
    exists_advances_grow options watch (sc.effort steps t + 1) (.start sc t)
  rw [← buildWithin_eq_grow] at stopped
  have reaches := advances.reaches
  have atEnd := (evaluating.reaches contained reaches).evaluates contained options
    (decide (rounds < sc.effort steps t + 1))
  rw [stopped] at atEnd
  obtain ⟨-, unfailed, bounded, idle⟩ := atEnd
  -- No more rounds are taken than there are driving steps in the evaluation.
  have within : rounds < sc.effort steps t + 1 := by
    have left := BuildState.totalDue_of_advances contained evaluating .refl value advances
    have start : (BuildState.start sc t).tree.totalDue (sc.effort steps) = sc.effort steps t := rfl
    omega
  cases ending : (sc.buildWithin options watch t (sc.effort steps t + 1)).ending with
  | completed =>
    exact .inl (yields_of_completed contained evaluating _ _ watch value ending)
  | exhausted =>
    have cut := idle ending
    rw [decide_eq_true within] at cut
    contradiction
  | tooDeep => exact .inr ⟨bounded ending, rfl⟩
  | failed e =>
    obtain ⟨leaf, node, pending, stuck⟩ := unfailed e ending
    exact absurd stuck (BuildState.parts?_ne_none contained evaluating reaches value pending)

end Runs

/-- The construction for a ground term is normal-order evaluation, for every program in which the
bodies of the rules use only the variables of their heads. However it ends, there are only driving
steps, without contractions and names, and a driven call has one child. If a tree is completed
without a call at a leaf, the value that it stands for is the value of the term. If the term has a
value, a limit is found under which the construction yields it, unless there is a bound on the
frames and the construction is given up because of it under every limit from some on. -/
theorem build_ground {source text : String} {program : Program} {t : Term}
    (parsedProgram : Program.parse source = .ok program)
    (closed : ∀ rule ∈ program.rules, rule.Closed) (parsedTerm : Term.parse text = .ok t)
    (ground : t.ground = true) (supply : NameSupply) (options : BuildOptions)
    (watch : Step → ProcessTree → α) :
    (∀ patience, (build ⟨program, supply⟩ options patience watch t).EvaluatesOnly supply.last) ∧
    (∀ limit, (buildWithin ⟨program, supply⟩ options watch t limit).ending = .completed →
      (buildWithin ⟨program, supply⟩ options watch t limit).tree.hasCallLeaf = false →
      ∃ v, (buildWithin ⟨program, supply⟩ options watch t limit).Yields v) ∧
    (∀ v, (∃ limit, (buildWithin ⟨program, supply⟩ options watch t limit).Yields v) →
      ∃ steps, evaluate ⟨program, supply⟩ steps t = some v) ∧
    ∀ v, (∃ steps, evaluate ⟨program, supply⟩ steps t = some v) →
      (∃ limit, (buildWithin ⟨program, supply⟩ options watch t limit).Yields v) ∨
      options.frames ≠ none ∧ ∃ limit, ∀ more ≥ limit,
        (buildWithin ⟨program, supply⟩ options watch t more).ending = .tooDeep := by
  obtain ⟨rules, rfl, bodies⟩ := Program.exists_rules_of_parse parsedProgram
  rw [Program.rules_ofRules] at closed
  have contained : Program.SelfContained rules := ⟨bodies, closed⟩
  have evaluating : (BuildState.start ⟨.ofRules rules, supply⟩ t).Evaluating rules supply.last :=
    BuildState.evaluating_start supply ⟨Term.plain_of_parse parsedTerm, ground⟩
  refine ⟨fun patience => evaluatesOnly_build contained evaluating options patience watch,
    fun limit completed callFree => ?_, ?_, ?_⟩
  · obtain ⟨v, -, yields, -⟩ := exists_yields contained evaluating _ _ watch completed callFree
    exact ⟨v, yields⟩
  · rintro v ⟨limit, yields⟩
    obtain ⟨w, steps, yields', value⟩ :=
      exists_yields contained evaluating _ _ watch yields.completed yields.callFree
    obtain rfl := Option.some.inj (yields.value.symm.trans yields'.value)
    exact ⟨steps, value⟩
  · rintro v ⟨steps, value⟩
    rcases yields_of_evaluate contained evaluating options watch value with yields | ⟨bounded, deep⟩
    · exact .inl ⟨_, yields⟩
    · exact .inr ⟨bounded, _, fun more enough => tooDeep_buildWithin deep enough⟩

/-- The construction for one and one only evaluates, and under some limit its tree stands for two.
-/
theorem build_ground_addition :
    Program.parse "gAdd(Z(), y) = y; gAdd(S(x), y) = S(gAdd(x, y));" =
      .ok (.ofRules Program.additionRules) ∧
    Term.parse "gAdd(S(Z()), S(Z()))" =
      .ok (.gCall "gAdd" [.ctor "S" [.ctor "Z" []], .ctor "S" [.ctor "Z" []]]) ∧
    (build ⟨.ofRules Program.additionRules, {}⟩ {} 9 (fun _ _ => ())
      (.gCall "gAdd" [.ctor "S" [.ctor "Z" []], .ctor "S" [.ctor "Z" []]])).EvaluatesOnly 0 ∧
    ∃ limit, (buildWithin ⟨.ofRules Program.additionRules, {}⟩ {} (fun _ _ => ())
      (.gCall "gAdd" [.ctor "S" [.ctor "Z" []], .ctor "S" [.ctor "Z" []]]) limit).Yields
        (.ctor "S" [.ctor "S" [.ctor "Z" []]]) := by
  have program : Program.parse "gAdd(Z(), y) = y; gAdd(S(x), y) = S(gAdd(x, y));" =
      .ok (.ofRules Program.additionRules) := by rfl
  have term : Term.parse "gAdd(S(Z()), S(Z()))" =
      .ok (.gCall "gAdd" [.ctor "S" [.ctor "Z" []], .ctor "S" [.ctor "Z" []]]) := by rfl
  have closed : ∀ rule ∈ (Program.ofRules Program.additionRules).rules, rule.Closed := by
    rw [Program.rules_ofRules]
    decide
  have value : evaluate ⟨.ofRules Program.additionRules, {}⟩ 5
      (.gCall "gAdd" [.ctor "S" [.ctor "Z" []], .ctor "S" [.ctor "Z" []]]) =
        some (.ctor "S" [.ctor "S" [.ctor "Z" []]]) := by cbv
  obtain ⟨only, -, -, complete⟩ := build_ground program closed term (by cbv) {} {} fun _ _ => ()
  refine ⟨program, term, only 9, ?_⟩
  rcases complete _ ⟨5, value⟩ with yields | ⟨bounded, -⟩
  · exact yields
  · exact absurd rfl bounded

/-- Calls that pass a term on without looking at it. -/
def passingRules : List Rule :=
  [.f ⟨"fTo", ["x", "y"], .gCall "gOn" [.var "y", .var "x"]⟩,
    .g ⟨"gOn", ⟨"A", []⟩, ["x"], .fCall "fTo" [.var "x", .ctor "B" []]⟩,
    .g ⟨"gOn", ⟨"B", []⟩, ["x"], .ctor "B" []⟩]

/-- A call that passes on a term of four levels. -/
def passing : Term :=
  .fCall "fTo" [.ctor "S" [.ctor "S" [.ctor "S" [.ctor "Z" []]]], .ctor "A" []]

/-- Evaluation passes a term on whatever its levels are, but the construction compares the second
call of the function with the first one and goes down the term. With too few frames for that, the
term has a value and the construction is completed under no limit. -/
theorem build_ground_too_deep :
    Program.parse "fTo(x,y)=gOn(y,x);gOn(A(),x)=fTo(x,B());gOn(B(),x)=B();" =
      .ok (.ofRules passingRules) ∧
    (∀ rule ∈ (Program.ofRules passingRules).rules, rule.Closed) ∧
    Term.parse "fTo(S(S(S(Z()))), A())" = .ok passing ∧ passing.ground = true ∧
    evaluate ⟨.ofRules passingRules, {}⟩ 5 passing = some (.ctor "B" []) ∧
    ∀ limit, (buildWithin ⟨.ofRules passingRules, {}⟩ { frames := some 4 } (fun _ _ => ())
      passing limit).ending ≠ .completed := by
  refine ⟨by rfl, ?_, by rfl, by cbv, by cbv, fun limit => ?_⟩
  · rw [Program.rules_ofRules]
    decide
  · have early : (buildWithin ⟨.ofRules passingRules, {}⟩ { frames := some 4 } (fun _ _ => ())
          passing 0).ending = .exhausted ∧
        (buildWithin ⟨.ofRules passingRules, {}⟩ { frames := some 4 } (fun _ _ => ())
          passing 1).ending = .exhausted := by cbv
    have deep : (buildWithin ⟨.ofRules passingRules, {}⟩ { frames := some 4 } (fun _ _ => ())
        passing 2).ending = .tooDeep := by cbv
    rcases limit with _ | _ | more
    · simp [early.1]
    · simp [early.2]
    · simp [tooDeep_buildWithin deep (Nat.le_add_left 2 more)]

end Supercompiler

end Supercompilation
