import Supercompilation.Proofs.Driving
import Supercompilation.Proofs.Preorder
import Supercompilation.Proofs.StepLimit

/-!
# Constructions with a stack of leaves

A construction looks through all leaves of the tree before every step. It could as well keep a stack
of the leaves that it has not looked at yet: take leaves from the stack and drop those that need no
more work, grow the first other one, and put what it became on the stack. The two do the same.

A step changes no node but the one at which the tree grows, so a leaf that needs no more work never
needs any again. The leaves of the tree are therefore at all times those that have been dropped,
followed by the stack.
-/

namespace Supercompilation

namespace ProcessTree

variable {tree grown : ProcessTree}

/-- The first leaf on a stack that needs more work, and the stack below it. The leaves above it are
dropped. -/
def pop? (tree : ProcessTree) : List Nat → Option (Nat × List Nat)
  | [] => none
  | i :: pending => if tree.isProcessed i then tree.pop? pending else some (i, pending)

/-- What a step puts on the stack: the children of a driven leaf, or the node that took the place of
a folded one. -/
def pushed (tree : ProcessTree) (leaf : Nat) (step : Step) (grown : ProcessTree) : List Nat :=
  match step.action with
  | .fold => [tree.nodes.size]
  | _ => grown.children leaf

/-- A leaf that has been taken from the stack and dropped: it needs no more work, and finding this
out does not go too deep. -/
def Dropped (options : BuildOptions) (tree : ProcessTree) (i : Nat) : Prop :=
  tree.isProcessed i = true ∧ ∀ frames, options.frames = some frames →
    tree.scanTooDeep frames [i] = false

end ProcessTree

/-- A construction under way, with a stack of the leaves that it has yet to look at. -/
structure Agenda where
  /-- The construction. -/
  state : BuildState
  /-- The leaves, first one first. -/
  pending : List Nat

namespace Agenda

/-- The construction for a term starts with its root on the stack. -/
def start (sc : Supercompiler) (t : Term) : Agenda :=
  ⟨.start sc t, [(ProcessTree.ofTerm t).root]⟩

/-- One round: take leaves from the stack up to the first that needs more work, and grow it, if a
step may still be taken. The result has the stack after the round. -/
def round (options : BuildOptions) (mayGrow : Bool) (agenda : Agenda) : Round × List Nat :=
  if options.frames.any fun frames => agenda.state.tree.scanTooDeep frames agenda.pending then
    (.stop .tooDeep agenda.state, agenda.pending)
  else
    match agenda.state.tree.pop? agenda.pending with
    | none => (.stop .completed agenda.state, [])
    | some (leaf, rest) =>
      if mayGrow then
        match agenda.state.growAt options leaf with
        | .stop ending state => (.stop ending state, rest)
        | .go step state =>
          (.go step state, agenda.state.tree.pushed leaf step state.tree ++ rest)
      else (.stop .exhausted agenda.state, leaf :: rest)

variable {α : Type}

/-- Go on with a construction with a stack for at most some steps. -/
def grow (options : BuildOptions) (watch : Step → ProcessTree → α) : Nat → Agenda → Run α
  | 0, agenda =>
    match agenda.round options false with
    | (.stop ending state, _) => .ofState ending state
    | (.go _ state, _) => .ofState .exhausted state
  | allowed + 1, agenda =>
    match agenda.round options true with
    | (.stop ending state, _) => .ofState ending state
    | (.go step state, pending) =>
      let seen := watch step state.tree
      let run := grow options watch allowed ⟨state, pending⟩
      { run with steps := (step, seen) :: run.steps }

end Agenda

/-- Build the process tree of a term with a stack of leaves. -/
def Supercompiler.buildWithStack {α : Type} (sc : Supercompiler) (options : BuildOptions)
    (patience : Nat) (watch : Step → ProcessTree → α) (t : Term) : Run α :=
  let allowed := (options.limit.map Int.toNat).getD patience
  Agenda.grow options watch allowed (.start sc t)

namespace ProcessTree

variable {tree grown : ProcessTree} {frames : Nat}

section Scanning

/-- The leaf that is taken from a stack is the first one that needs more work. -/
theorem map_fst_pop? (tree : ProcessTree) (pending : List Nat) :
    (tree.pop? pending).map Prod.fst = pending.find? fun i => !tree.isProcessed i := by
  induction pending with
  | nil => rfl
  | cons i pending ih =>
    rw [pop?, List.find?_cons]
    cases tree.isProcessed i with
    | true => exact ih
    | false => rfl

/-- What stood on a stack before a leaf was taken from it: leaves that need no more work, the leaf,
and what is left. -/
theorem pop?_eq_some {pending rest : List Nat} {leaf : Nat}
    (popped : tree.pop? pending = some (leaf, rest)) :
    ∃ dropped, pending = dropped ++ leaf :: rest ∧ ∀ i ∈ dropped, tree.isProcessed i = true := by
  induction pending with
  | nil => simp [pop?] at popped
  | cons i pending ih =>
    rw [pop?] at popped
    split at popped
    · rename_i processed
      obtain ⟨dropped, rfl, each⟩ := ih popped
      exact ⟨i :: dropped, rfl, List.forall_mem_cons.mpr ⟨processed, each⟩⟩
    · rw [Option.some.injEq, Prod.mk.injEq] at popped
      obtain ⟨rfl, rfl⟩ := popped
      exact ⟨[], rfl, by simp⟩

/-- Looking through leaves goes too deep at the first of them, or behind it if it needs no more
work. -/
theorem scanTooDeep_cons (i : Nat) (rest : List Nat) :
    tree.scanTooDeep frames (i :: rest) =
      (tree.scanTooDeep frames [i] || (tree.isProcessed i && tree.scanTooDeep frames rest)) := by
  rw [scanTooDeep, scanTooDeep]
  cases found : tree.node? i with
  | none => simp [isProcessed, found, scanTooDeep]
  | some node =>
    simp only [scanTooDeep]
    split
    · rfl
    · cases tree.isProcessed i <;> simp

/-- Leaves that have been dropped are looked through without going too deep. -/
theorem scanTooDeep_append {dropped rest : List Nat}
    (each : ∀ i ∈ dropped, tree.isProcessed i = true ∧ tree.scanTooDeep frames [i] = false) :
    tree.scanTooDeep frames (dropped ++ rest) = tree.scanTooDeep frames rest := by
  induction dropped with
  | nil => rfl
  | cons i dropped ih =>
    rw [List.forall_mem_cons] at each
    rw [List.cons_append, scanTooDeep_cons, each.1.1, each.1.2, ih each.2]
    simp

/-- If looking through leaves does not go too deep, it does not at any leaf before the first that
needs more work. -/
theorem scanTooDeep_of_append {dropped rest : List Nat}
    (processed : ∀ i ∈ dropped, tree.isProcessed i = true)
    (shallow : tree.scanTooDeep frames (dropped ++ rest) = false) :
    ∀ i ∈ dropped, tree.scanTooDeep frames [i] = false := by
  induction dropped with
  | nil => simp
  | cons i dropped ih =>
    rw [List.forall_mem_cons] at processed
    rw [List.cons_append, scanTooDeep_cons, processed.1, Bool.true_and, Bool.or_eq_false_iff]
      at shallow
    exact List.forall_mem_cons.mpr ⟨shallow.1, ih processed.2 shallow.2⟩

/-- Every term of a tree that holds no deep term can be compared. -/
theorem comparable_of_not_holdsDeep (shallow : tree.holdsDeep frames = false) {i : Nat}
    {node : Node} (found : tree.node? i = some node) :
    Walk.comparing.overflows frames node.term.height = false := by
  have member : node ∈ tree.nodes := Array.mem_of_getElem? found
  rw [holdsDeep, Array.any_eq_false'] at shallow
  have printable := Bool.eq_false_iff.mpr (shallow node member)
  rw [Walk.overflows_eq_false] at printable ⊢
  simp only [Walk.cost] at printable ⊢
  omega

/-- Comparing a call with ancestors does not go too deep if no term is deep. -/
theorem repeatsTooDeep_of_not_holdsDeep (shallow : tree.holdsDeep frames = false) {t : Term}
    (low : Walk.comparing.overflows frames t.height = false) (ancestors : List Nat) :
    tree.repeatsTooDeep frames t ancestors = false := by
  have matchLow : ∀ {p u : Term}, Walk.comparing.overflows frames u.height = false →
      p.matchTooDeep frames u = false := by
    intro p u lowU
    rw [Term.matchTooDeep, lowU]
    rfl
  induction ancestors with
  | nil => rfl
  | cons a rest ih =>
    rw [repeatsTooDeep]
    split
    · exact ih
    · rename_i above found
      have lowAbove := comparable_of_not_holdsDeep shallow found
      rw [Term.equivTooDeep, matchLow lowAbove, matchLow low]
      simp [ih]

/-- Looking through leaves does not go too deep if no term is deep. -/
theorem scanTooDeep_of_not_holdsDeep (shallow : tree.holdsDeep frames = false)
    (leaves : List Nat) : tree.scanTooDeep frames leaves = false := by
  induction leaves with
  | nil => rfl
  | cons i rest ih =>
    rw [scanTooDeep]
    split
    · exact ih
    · rename_i node found
      rw [repeatsTooDeep_of_not_holdsDeep shallow (comparable_of_not_holdsDeep shallow found)]
      simp [ih]

end Scanning

namespace Growth

variable {place : Nat} {kids : List Nat} {added : List Branch}

/-- Whether an ancestor repeats a call does not change. -/
theorem repeats_old (growth : Growth tree place kids added grown) (t : Term) {a : Nat}
    (inside : a < tree.nodes.size) : grown.repeats t a = tree.repeats t a := by
  obtain ⟨above, found⟩ := node?_isSome_iff.mpr inside
  obtain ⟨after, there, term, -⟩ := growth.exists_node?_old found
  rw [repeats, repeats, found, there]
  simp only [term]

/-- Whether comparing a call with ancestors goes too deep does not change. -/
theorem repeatsTooDeep_old (growth : Growth tree place kids added grown) (frames : Nat) (t : Term)
    {ancestors : List Nat} (inside : ∀ a ∈ ancestors, a < tree.nodes.size) :
    grown.repeatsTooDeep frames t ancestors = tree.repeatsTooDeep frames t ancestors := by
  induction ancestors with
  | nil => rfl
  | cons a rest ih =>
    rw [List.forall_mem_cons] at inside
    obtain ⟨above, found⟩ := node?_isSome_iff.mpr inside.1
    obtain ⟨after, there, term, -⟩ := growth.exists_node?_old found
    rw [repeatsTooDeep, repeatsTooDeep, found, there]
    simp only [term, ih inside.2]

/-- The ancestors of an old node are old. -/
theorem ancestors_lt (ordered : tree.WellFormed) {i : Nat} (inside : i < tree.nodes.size) :
    ∀ a ∈ tree.ancestors i, a < tree.nodes.size := fun _ above =>
  Nat.lt_trans (ordered.lt_of_mem_ancestors above) inside

/-- Whether an old node needs more work does not change. -/
theorem isProcessed_old (growth : Growth tree place kids added grown) (ordered : tree.WellFormed)
    {i : Nat} (inside : i < tree.nodes.size) : grown.isProcessed i = tree.isProcessed i := by
  obtain ⟨node, found⟩ := node?_isSome_iff.mpr inside
  obtain ⟨after, there, term, -⟩ := growth.exists_node?_old found
  have each : ∀ a ∈ tree.ancestors i, grown.repeats node.term a = tree.repeats node.term a :=
    fun a above => growth.repeats_old node.term (ancestors_lt ordered inside a above)
  have repeated : (tree.ancestors i).any (grown.repeats node.term) =
      (tree.ancestors i).any (tree.repeats node.term) := by
    rw [Bool.eq_iff_iff, List.any_eq_true, List.any_eq_true]
    exact exists_congr fun a => and_congr_right fun above => by rw [each a above]
  rw [isProcessed, isProcessed, found, there]
  simp only [term, growth.ancestors_old ordered inside, repeated]

/-- Whether looking at an old node goes too deep does not change. -/
theorem scanTooDeep_old (growth : Growth tree place kids added grown) (ordered : tree.WellFormed)
    {i : Nat} (inside : i < tree.nodes.size) :
    grown.scanTooDeep frames [i] = tree.scanTooDeep frames [i] := by
  obtain ⟨node, found⟩ := node?_isSome_iff.mpr inside
  obtain ⟨after, there, term, -⟩ := growth.exists_node?_old found
  have deep := growth.repeatsTooDeep_old frames node.term (ancestors_lt ordered inside)
  simp only [scanTooDeep, found, there, term, growth.ancestors_old ordered inside, deep,
    growth.isProcessed_old ordered inside]

end Growth

/-- A leaf that has been dropped stays one that can be dropped. -/
theorem Dropped.of_growth {options : BuildOptions} {place : Nat} {kids : List Nat}
    {added : List Branch} (growth : Growth tree place kids added grown)
    (ordered : tree.WellFormed) {i : Nat} (inside : i < tree.nodes.size)
    (dropped : Dropped options tree i) : Dropped options grown i := by
  refine ⟨?_, fun frames bounded => ?_⟩
  · rw [growth.isProcessed_old ordered inside]
    exact dropped.1
  · rw [growth.scanTooDeep_old ordered inside]
    exact dropped.2 frames bounded

end ProcessTree

namespace BuildState

open ProcessTree

variable {rules : List Rule} {options : BuildOptions} {state next later : BuildState} {leaf : Nat}
  {node : Node}

/-- A leaf that is driven gets a child. -/
theorem Drives.branches_ne_nil {branches : List Branch}
    (drives : Drives state next leaf node branches)
    (program : state.supercompiler.program = .ofRules rules) : branches ≠ [] := by
  have inner : ∀ name, node.term ≠ .ctor name [] := by
    intro name held
    have unprocessed := drives.pending.unprocessed
    simp [isProcessed, drives.pending.found, held] at unprocessed
  have driven := congrArg Prod.fst drives.driven
  rw [Supercompiler.drive, program] at driven
  exact Program.ne_nil_of_driveTerm (Prod.ext driven rfl) inner

/-- The children of a driven leaf are leaves in its place. -/
theorem Drives.leaves {branches : List Branch} (drives : Drives state next leaf node branches)
    (program : state.supercompiler.program = .ofRules rules) (ordered : state.tree.WellFormed) :
    next.tree.leaves = state.tree.leaves.flatMap (inPlace leaf (next.tree.children leaf)) := by
  have some : (List.range branches.length).map (state.tree.nodes.size + ·) ≠ [] := by
    simpa using drives.branches_ne_nil program
  rw [drives.growth.leaves_of_childless ordered drives.pending.childless some,
    drives.growth.children_eq, if_pos rfl]

/-- The node that takes the place of a folded leaf is a leaf there. -/
theorem Folds.leaves {place ancestor : Nat} {above : Node} {values : Substitution}
    (folds : Folds state next leaf node place ancestor above values)
    (ordered : state.tree.WellFormed) :
    next.tree.leaves = state.tree.leaves.flatMap (inPlace leaf [state.tree.nodes.size]) :=
  folds.growth.leaves_of_replaced ordered folds.child folds.pending.childless

/-- A step at a leaf puts what it pushes in the place of the leaf, and the tree grows. -/
theorem leaves_of_growAt {step : Step} (program : state.supercompiler.program = .ofRules rules)
    (ordered : state.tree.WellFormed) (pending : state.Pending leaf node)
    (went : state.growAt options leaf = .go step next) :
    next.tree.leaves =
      state.tree.leaves.flatMap (inPlace leaf (state.tree.pushed leaf step next.tree)) ∧
    ∃ place kids added, Growth state.tree place kids added next.tree := by
  obtain ⟨grown, stepped, tree, -, action, -⟩ := growAt_eq_go went
  rcases step_cases ordered pending stepped tree with
    ⟨driven, drives⟩ | ⟨folded, place, ancestor, above, values, -, -, folds⟩
  · have pushes : state.tree.pushed leaf step next.tree = next.tree.children leaf := by
      rw [pushed, action, driven]
    rw [pushes]
    exact ⟨drives.leaves program ordered, _, _, _, drives.growth⟩
  · have pushes : state.tree.pushed leaf step next.tree = [state.tree.nodes.size] := by
      rw [pushed, action, folded]
    rw [pushes]
    exact ⟨folds.leaves ordered, _, _, _, folds.growth⟩

/-- A step leaves the other leaves where they are, and does not change whether they need more
work. -/
theorem Grows.mem_leaves (grows : state.Grows next)
    (program : state.supercompiler.program = .ofRules rules) (ordered : state.tree.WellFormed)
    {i : Nat} (isLeaf : i ∈ state.tree.leaves) (processed : state.tree.isProcessed i = true) :
    i ∈ next.tree.leaves ∧ next.tree.isProcessed i = true := by
  have inside : i < state.tree.nodes.size := ((ProcessTree.mem_leaves ordered).mp isLeaf).1.lt_size
    ordered
  have kept : ∀ {leaf : Nat} {node : Node} {others : List Nat}, state.Pending leaf node →
      i ∈ state.tree.leaves.flatMap (inPlace leaf others) := by
    intro leaf node others pending
    have differs : i ≠ leaf := by
      rintro rfl
      rw [pending.unprocessed] at processed
      contradiction
    exact List.mem_flatMap.mpr ⟨i, isLeaf, by simp [inPlace_of_ne differs]⟩
  rcases grows.cases ordered with ⟨_, _, _, drives⟩ | ⟨_, _, _, _, _, _, folds⟩
  · rw [drives.leaves program ordered, drives.growth.isProcessed_old ordered inside]
    exact ⟨kept drives.pending, processed⟩
  · rw [folds.leaves ordered, folds.growth.isProcessed_old ordered inside]
    exact ⟨kept folds.pending, processed⟩

/-- A leaf that needs no more work stays a leaf that needs none. -/
theorem Reaches.mem_leaves (reaches : state.Reaches later)
    (program : state.supercompiler.program = .ofRules rules) (ordered : state.tree.WellFormed)
    {i : Nat} (isLeaf : i ∈ state.tree.leaves) (processed : state.tree.isProcessed i = true) :
    i ∈ later.tree.leaves ∧ later.tree.isProcessed i = true := by
  induction reaches with
  | refl => exact ⟨isLeaf, processed⟩
  | tail early grows ih =>
    exact grows.mem_leaves ((Reaches.program early ordered).trans program)
      (Reaches.wellFormed early ordered) ih.1 ih.2

end BuildState

namespace Agenda

open ProcessTree

variable {rules : List Rule} {options : BuildOptions} {agenda : Agenda}

/-- The leaves of the tree are those that have been dropped, followed by the stack. -/
structure Keeps (rules : List Rule) (options : BuildOptions) (agenda : Agenda) : Prop where
  /-- The program is that of the rules. -/
  program : agenda.state.supercompiler.program = .ofRules rules
  /-- The links of the tree are in order. -/
  ordered : agenda.state.tree.WellFormed
  /-- What is not on the stack has been dropped. -/
  leaves : ∃ dropped, agenda.state.tree.leaves = dropped ++ agenda.pending ∧
    ∀ i ∈ dropped, Dropped options agenda.state.tree i

/-- At the start the only leaf is on the stack. -/
theorem keeps_start (rules : List Rule) (options : BuildOptions) (supply : NameSupply) (t : Term) :
    (start ⟨.ofRules rules, supply⟩ t).Keeps rules options :=
  ⟨rfl, .ofTerm t, [], rfl, by simp⟩

namespace Keeps

variable (keeps : agenda.Keeps rules options)

include keeps

/-- Looking through the stack goes too deep exactly if looking through all leaves does. -/
theorem scanTooDeep_eq :
    (options.frames.any fun frames => agenda.state.tree.scanTooDeep frames agenda.pending) =
      agenda.state.scanTooDeep options := by
  obtain ⟨dropped, split, each⟩ := keeps.leaves
  rw [BuildState.scanTooDeep]
  cases bounded : options.frames with
  | none => rfl
  | some frames =>
    have shallow : ∀ i ∈ dropped, agenda.state.tree.isProcessed i = true ∧
        agenda.state.tree.scanTooDeep frames [i] = false :=
      fun i member => ⟨(each i member).1, (each i member).2 frames bounded⟩
    rw [Option.any_some, Option.any_some, split, scanTooDeep_append shallow]
    cases deep : agenda.state.tree.holdsDeep frames with
    | true => rfl
    | false => rw [scanTooDeep_of_not_holdsDeep deep, Bool.false_and]

/-- The leaf that is taken from the stack is the first of all leaves that needs more work. -/
theorem unprocessed?_eq :
    (agenda.state.tree.pop? agenda.pending).map Prod.fst = agenda.state.tree.unprocessed? := by
  obtain ⟨dropped, split, each⟩ := keeps.leaves
  have none : dropped.find? (fun i => !agenda.state.tree.isProcessed i) = none :=
    List.find?_eq_none.mpr fun i member => by simp [(each i member).1]
  rw [map_fst_pop?, unprocessed?, split, List.find?_append, none, Option.none_or]

/-- A round with a stack is the round without. -/
theorem fst_round (mayGrow : Bool) :
    (agenda.round options mayGrow).1 = agenda.state.round options mayGrow := by
  rw [round, BuildState.round, keeps.scanTooDeep_eq, ← keeps.unprocessed?_eq]
  split
  · rfl
  · cases agenda.state.tree.pop? agenda.pending with
    | none => rfl
    | some popped =>
      simp only [Option.map_some]
      split
      · cases agenda.state.growAt options popped.1 <;> rfl
      · rfl

/-- After a round that goes on, what is not on the stack has been dropped. -/
theorem next {mayGrow : Bool} {step : Step} {state : BuildState} {pending : List Nat}
    (went : agenda.round options mayGrow = (.go step state, pending)) :
    Keeps rules options ⟨state, pending⟩ := by
  have grows : agenda.state.Grows state := by
    have turned := keeps.fst_round mayGrow
    rw [went] at turned
    exact BuildState.grows_of_round turned.symm
  obtain ⟨before, split, each⟩ := keeps.leaves
  rw [round] at went
  split at went
  · simp at went
  rename_i shallow
  split at went
  · simp at went
  rename_i leaf rest popped
  split at went
  · split at went
    · simp at went
    · rename_i grew
      rw [Prod.mk.injEq, Round.go.injEq] at went
      obtain ⟨⟨rfl, rfl⟩, rfl⟩ := went
      obtain ⟨dropped, stack, processed⟩ := pop?_eq_some popped
      have first : agenda.state.tree.unprocessed? = some leaf := by
        rw [← keeps.unprocessed?_eq, popped, Option.map_some]
      obtain ⟨node, here⟩ := BuildState.pending_of_unprocessed? keeps.ordered first
      obtain ⟨leaves, place, kids, added, growth⟩ :=
        BuildState.leaves_of_growAt keeps.program keeps.ordered here grew
      -- What has just been dropped joins what had been dropped before.
      have all : ∀ i ∈ before ++ dropped, Dropped options agenda.state.tree i := by
        refine List.forall_mem_append.mpr ⟨each, fun i member => ⟨processed i member, ?_⟩⟩
        intro frames bounded
        rw [bounded, Option.any_some, Bool.not_eq_true, stack] at shallow
        exact scanTooDeep_of_append processed shallow i member
      have whole : agenda.state.tree.leaves = (before ++ dropped) ++ leaf :: rest := by
        rw [split, stack, List.append_assoc]
      refine ⟨(grows.program keeps.ordered).trans keeps.program, growth.wellFormed keeps.ordered,
        before ++ dropped, ?_, fun i member => (all i member).of_growth growth keeps.ordered ?_⟩
      · have distinct := nodup_leaves keeps.ordered
        rw [whole] at distinct
        rw [leaves, whole, flatMap_inPlace _ distinct]
      · have isLeaf : i ∈ agenda.state.tree.leaves := by
          rw [whole]
          exact List.mem_append_left _ member
        exact ((mem_leaves keeps.ordered).mp isLeaf).1.lt_size keeps.ordered
  · simp at went

end Keeps

/-- A number of rounds that go on lead from one stack to another. -/
inductive Advances (options : BuildOptions) : Nat → Agenda → Agenda → Prop where
  /-- No round. -/
  | refl (agenda : Agenda) : Advances options 0 agenda agenda
  /-- A round that goes on, and then others. -/
  | head {rounds : Nat} {agenda last : Agenda} {step : Step} {state : BuildState}
      {pending : List Nat} (went : agenda.round options true = (.go step state, pending))
      (later : Advances options rounds ⟨state, pending⟩ last) :
      Advances options (rounds + 1) agenda last

/-- Whatever state rounds without a stack lead to, as many rounds with one lead there, and what is
not on the stack then has been dropped. -/
theorem Keeps.exists_advances {rounds : Nat} {last : BuildState}
    (keeps : agenda.Keeps rules options)
    (advances : BuildState.Advances options rounds agenda.state last) :
    ∃ pending, Advances options rounds agenda ⟨last, pending⟩ ∧
      Keeps rules options ⟨last, pending⟩ := by
  induction rounds generalizing agenda with
  | zero =>
    cases advances
    exact ⟨agenda.pending, .refl agenda, keeps⟩
  | succ rounds ih =>
    cases advances with
    | @head _ _ next _ step went later =>
      have turned : agenda.round options true =
          (.go step next, (agenda.round options true).2) :=
        Prod.ext ((keeps.fst_round true).trans went) rfl
      obtain ⟨pending, after, kept⟩ := ih (keeps.next turned) later
      exact ⟨pending, .head turned after, kept⟩

/-- A construction with a stack is the construction without. -/
theorem Keeps.grow_eq {α : Type} (keeps : agenda.Keeps rules options)
    (watch : Step → ProcessTree → α) (allowed : Nat) :
    agenda.grow options watch allowed = Supercompiler.grow options watch allowed agenda.state := by
  induction allowed generalizing agenda with
  | zero =>
    rw [grow, Supercompiler.grow, ← keeps.fst_round false]
    cases agenda.round options false with
    | mk turn pending => cases turn <;> rfl
  | succ allowed ih =>
    rw [grow, Supercompiler.grow, ← keeps.fst_round true]
    cases turned : agenda.round options true with
    | mk turn pending =>
      cases turn with
      | stop ending state => rfl
      | go step state => simp only [ih (keeps.next turned)]

end Agenda

namespace Supercompiler

open ProcessTree

/-- Building a process tree by looking through all leaves before every step is building it with a
stack of leaves. Once a leaf needs no more work, it stays such a leaf; the leaves before the one
that grows need no more work. After any number of steps the two constructions have come to the same
tree, issued the same names, and are about to grow the same leaf; and they record the same steps and
end in the same way. -/
theorem build_eq_buildWithStack {α : Type} (rules : List Rule) (supply : NameSupply)
    (options : BuildOptions) (patience : Nat) (watch : Step → ProcessTree → α) (t : Term) :
    let sc : Supercompiler := ⟨.ofRules rules, supply⟩
    (∀ {state later : BuildState}, (BuildState.start sc t).Reaches state → state.Reaches later →
      ∀ i ∈ state.tree.leaves, state.tree.isProcessed i = true →
        i ∈ later.tree.leaves ∧ later.tree.isProcessed i = true) ∧
    (∀ {state : BuildState} {leaf : Nat}, (BuildState.start sc t).Reaches state →
      state.tree.unprocessed? = some leaf →
      ∃ before after, state.tree.leaves = before ++ leaf :: after ∧
        (∀ i ∈ before, state.tree.isProcessed i = true) ∧
        state.tree.isProcessed leaf = false) ∧
    (∀ {rounds : Nat} {state : BuildState},
      BuildState.Advances options rounds (.start sc t) state →
      ∃ pending, Agenda.Advances options rounds (.start sc t) ⟨state, pending⟩ ∧
        (state.tree.pop? pending).map Prod.fst = state.tree.unprocessed? ∧
        ∀ mayGrow, (Agenda.round options mayGrow ⟨state, pending⟩).1 =
          state.round options mayGrow) ∧
    sc.build options patience watch t = sc.buildWithStack options patience watch t := by
  intro sc
  have keeps := Agenda.keeps_start rules options supply t
  refine ⟨?_, ?_, ?_, ?_⟩
  · intro state later early late i isLeaf processed
    have ordered := BuildState.Reaches.wellFormed early (.ofTerm t)
    exact late.mem_leaves (BuildState.Reaches.program early (.ofTerm t)) ordered isLeaf processed
  · intro state leaf _ first
    obtain ⟨unprocessed, before, after, split, each⟩ := List.find?_eq_some_iff_append.mp first
    exact ⟨before, after, split, by simpa using each, by simpa using unprocessed⟩
  · intro rounds state advances
    obtain ⟨pending, after, kept⟩ := keeps.exists_advances advances
    exact ⟨pending, after, kept.unprocessed?_eq, kept.fst_round⟩
  · exact (keeps.grow_eq watch _).symm

end Supercompiler

end Supercompilation
