import Supercompilation.Proofs.ClosedTree
import Supercompilation.Proofs.Legibility

/-!
# The text of a tree determines the tree

The text of a tree has a line for every node that the walk meets, indented by the number of its
ancestors. Its lines are legible, so the text tells the levels, the terms and the contractions of
the nodes in the order of the walk. The nodes below a node are those that come next and have a
greater level, so this list tells the whole tree.

`ProcessTree.Shows` relates a node to the tree below it without node numbers. Two trees that are
built for what texts stand for have the same text exactly if they show the same.
-/

namespace Supercompilation

namespace Rose

/-- Induction over trees without node numbers: a node may use what holds of its children. -/
@[elab_as_elim, induction_eliminator]
theorem induction {motive : Rose → Prop}
    (node : ∀ term contraction children, (∀ rose ∈ children, motive rose) →
      motive (.node term contraction children)) (rose : Rose) : motive rose := by
  obtain ⟨term, contraction, children⟩ := rose
  refine node term contraction children fun rose member => ?_
  have := List.sizeOf_lt_of_mem member
  exact induction node rose

mutual

/-- The entries of the lines for a tree whose root stands at a level. -/
def entries (level : Nat) : Rose → List TreeEntry
  | node term contraction children =>
    (level, ⟨term, contraction⟩) :: entriesAll (level + 1) children

/-- The entries of the lines for some trees. -/
def entriesAll (level : Nat) : List Rose → List TreeEntry
  | [] => []
  | rose :: rest => entries level rose ++ entriesAll level rest

end

/-- The entries for some trees are those for each of them. -/
theorem entriesAll_eq_flatMap (level : Nat) (roses : List Rose) :
    entriesAll level roses = roses.flatMap (entries level) := by
  induction roses with
  | nil => rfl
  | cons rose rest ih => rw [entriesAll, ih, List.flatMap_cons]

/-- What may follow the entries of a tree: nothing that stands below its root. -/
def Ends (level : Nat) (rest : List TreeEntry) : Prop := ∀ entry ∈ rest.head?, entry.1 ≤ level

/-- The first entry of a tree is that of its root. -/
theorem head?_entries (level : Nat) (rose : Rose) (rest : List TreeEntry) :
    ∃ branch, (entries level rose ++ rest).head? = some (level, branch) := by
  cases rose with
  | node term contraction children => exact ⟨⟨term, contraction⟩, by rw [entries]; rfl⟩

/-- Trees are legible from their entries. -/
theorem legible_entries (level : Nat) (rose : Rose) :
    Legible (entries level) (fun _ => True) (Ends level) rose := by
  induction rose generalizing level with
  | node term contraction children ih =>
    rintro ⟨term', contraction', children'⟩ rest rest' - - ended ended' same
    simp only [entries, entriesAll_eq_flatMap, List.cons_append, List.cons.injEq, Prod.mk.injEq,
      true_and, Branch.mk.injEq] at same
    obtain ⟨⟨rfl, rfl⟩, behind⟩ := same
    have divides :
        Divides (entries (level + 1)) (fun _ => True) (Ends (level + 1)) (Ends level) := by
      refine ⟨fun rest ended entry first => Nat.le_succ_of_le (ended entry first),
        fun rose rest _ entry first => ?_, fun rose rest _ ended => ?_⟩
      · obtain ⟨branch, here⟩ := head?_entries (level + 1) rose rest
        rw [here] at first
        exact Nat.le_of_eq (congrArg Prod.fst (Option.some.inj first)).symm
      · obtain ⟨branch, here⟩ := head?_entries (level + 1) rose rest
        exact Nat.not_succ_le_self level (ended _ here)
    obtain ⟨rfl, left⟩ := legible_flatMap divides (fun rose member => ih rose member (level + 1))
      (fun _ _ => trivial) (fun _ _ => trivial) ended ended' behind
    exact ⟨rfl, left⟩

end Rose

namespace ProcessTree

variable {tree : ProcessTree}

/-- The level of a node: the number of its ancestors. -/
def level (tree : ProcessTree) (i : Nat) : Nat := (tree.ancestors i).length

/-- The root stands at the top. -/
theorem level_root (ordered : tree.WellFormed) : tree.level tree.root = 0 := by
  rw [level, ancestors_of_no_parent ordered.root_parent, List.length_nil]

/-- A child stands one level below its parent. -/
theorem level_child (ordered : tree.WellFormed) {i c : Nat} (child : c ∈ tree.children i) :
    tree.level c = tree.level i + 1 := by
  rw [level, ancestors_of_parent ordered (ordered.parent_of_child child), List.length_cons, level]

/-- A walk with levels, for any numbers that grow by one from parents to children. -/
theorem Visits.visitLevels_eq {stack met : List Nat} (visits : Visits tree stack met)
    {depth : Nat → Nat} (deeper : ∀ i ∈ met, ∀ c ∈ tree.children i, depth c = depth i + 1)
    {rounds : Nat} (enough : met.length ≤ rounds) :
    tree.visitLevels rounds (stack.map fun i => (i, depth i)) = met.map fun i => (i, depth i) := by
  induction visits generalizing rounds with
  | nil => cases rounds <;> rfl
  | @cons i stack met _ ih =>
    cases rounds with
    | zero => simp at enough
    | succ rounds =>
      rw [List.forall_mem_cons] at deeper
      have children : ((tree.children i).map fun c => (c, depth i + 1)) =
          (tree.children i).map fun c => (c, depth c) :=
        List.map_congr_left fun c child => by rw [deeper.1 c child]
      rw [List.map_cons, visitLevels, children, ← List.map_append,
        ih deeper.2 (Nat.le_of_succ_le_succ enough), List.map_cons]

/-- The entry of a node, if it is there. -/
def entryAt (tree : ProcessTree) (i : Nat) : Option TreeEntry :=
  (tree.node? i).map fun node => (tree.level i, node.branch)

/-- The entries of the lines from a node on. -/
def entries (tree : ProcessTree) (i : Nat) : List TreeEntry := (tree.walk i).filterMap tree.entryAt

/-- The entries from a node on: its own, and those from its children on. -/
theorem entries_eq (ordered : tree.WellFormed) {i : Nat} {node : Node}
    (found : tree.node? i = some node) :
    tree.entries i = (tree.level i, node.branch) :: node.children.flatMap tree.entries := by
  have inside := node?_isSome_iff.mp ⟨node, found⟩
  have own : tree.entryAt i = some (tree.level i, node.branch) := by rw [entryAt, found]; rfl
  rw [entries, walk_eq ordered inside, List.filterMap_cons_some own, List.filterMap_flatMap,
    children_of_node? found]
  rfl

/-- The text of a tree has a line for each entry. -/
theorem format_eq (ordered : tree.WellFormed) :
    tree.format = Text.joined "\n " ((tree.entries tree.root).map TreeEntry.text) := by
  have visits := visits_walk ordered ordered.root_lt
  have walked := visits.visitLevels_eq (fun i _ c child => level_child ordered child)
    (visits.length_le ordered ordered.root_lt)
  rw [List.map_singleton, level_root ordered] at walked
  rw [format, formatFrom, walked, entries, List.filterMap_map, List.map_filterMap]
  congr 2
  funext i
  simp only [Function.comp_apply, entryAt]
  cases tree.node? i <;> rfl

/-- What a node shows: the tree of the terms and contractions from the node on. -/
inductive Shows (tree : ProcessTree) : Nat → Rose → Prop where
  /-- The node is there, and its children show the children of the tree, in order. -/
  | node {i : Nat} {node : Node} {children : List Rose} (found : tree.node? i = some node)
      (below : List.Forall₂ (Shows tree) node.children children) :
      Shows tree i (.node node.term node.contraction children)

/-- Every node that is there shows a tree. -/
theorem exists_shows (ordered : tree.WellFormed) {i : Nat} (inside : i < tree.nodes.size) :
    ∃ rose, tree.Shows i rose := by
  induction i using ordered.induction_down with
  | passes i ih =>
    obtain ⟨node, found⟩ := node?_isSome_iff.mpr inside
    have each : ∀ c ∈ node.children, ∃ rose, tree.Shows c rose := by
      intro c child
      rw [← children_of_node? found] at child
      exact ih c child (ordered.child_lt child)
    have : Nonempty Rose := ⟨.node default none []⟩
    choose! shown shows using each
    refine ⟨.node node.term node.contraction (node.children.map shown), .node found ?_⟩
    rw [List.forall₂_map_right_iff, List.forall₂_same]
    exact shows

/-- Lists that are put together alike from paired items are equal. -/
theorem flatMap_eq_of_forall₂ {α β γ : Type} {related : α → β → Prop} {as : List α} {bs : List β}
    {f : α → List γ} {g : β → List γ} (paired : List.Forall₂ related as bs)
    (same : ∀ a ∈ as, ∀ b ∈ bs, related a b → f a = g b) : as.flatMap f = bs.flatMap g := by
  induction paired with
  | nil => rfl
  | @cons a b as bs here _ ih =>
    have others := ih fun a inside b inside' =>
      same a (List.mem_cons_of_mem _ inside) b (List.mem_cons_of_mem _ inside')
    rw [List.flatMap_cons, List.flatMap_cons, others,
      same a List.mem_cons_self b List.mem_cons_self here]

/-- The entries from a node on are those of the tree that it shows. -/
theorem Shows.entries_eq (ordered : tree.WellFormed) {i : Nat} {rose : Rose}
    (shows : tree.Shows i rose) : tree.entries i = rose.entries (tree.level i) := by
  induction rose generalizing i with
  | node term contraction children ih =>
    cases shows with
    | @node _ node _ found below =>
      have kids : node.children.flatMap tree.entries =
          children.flatMap (Rose.entries (tree.level i + 1)) := by
        refine flatMap_eq_of_forall₂ below fun c child rose member shows => ?_
        rw [ih rose member shows, level_child ordered (children_of_node? found ▸ child)]
      rw [ProcessTree.entries_eq ordered found, kids, Rose.entries, Rose.entriesAll_eq_flatMap,
        Node.branch]

/-- Trees whose nodes are told by their lines have the same text exactly if they show the same. -/
theorem format_eq_iff {other : ProcessTree} (ordered : tree.WellFormed)
    (ordered' : other.WellFormed) (told : ∀ entry ∈ tree.entries tree.root, entry.Told)
    (told' : ∀ entry ∈ other.entries other.root, entry.Told) :
    tree.format = other.format ↔
      ∃ rose, tree.Shows tree.root rose ∧ other.Shows other.root rose := by
  obtain ⟨rose, shows⟩ := exists_shows ordered ordered.root_lt
  obtain ⟨rose', shows'⟩ := exists_shows ordered' ordered'.root_lt
  have lines := shows.entries_eq ordered
  have lines' := shows'.entries_eq ordered'
  rw [level_root ordered] at lines
  rw [level_root ordered'] at lines'
  rw [format_eq ordered, format_eq ordered']
  constructor
  · intro same
    have entries := TreeEntry.eq_of_joined told told' same
    rw [lines, lines'] at entries
    obtain ⟨rfl, -⟩ := Rose.legible_entries 0 rose trivial trivial (by simp [Rose.Ends])
      (by simp [Rose.Ends]) (congrArg (· ++ []) entries)
    exact ⟨rose, shows, shows'⟩
  · rintro ⟨shown, here, there⟩
    rw [here.entries_eq ordered, there.entries_eq ordered', level_root ordered,
      level_root ordered']

end ProcessTree

namespace BuildState

open ProcessTree

variable {rules : List Rule} {t : Term} {state : BuildState}

/-- The lines of a tree tell its nodes, in every state that a construction for well-named rules and
a well-named term reaches. -/
theorem Reaches.told {sc : Supercompiler} (program : sc.program = .ofRules rules)
    (named : ∀ rule ∈ rules, rule.wellNamed = true) (wellNamed : t.wellNamed = true)
    (stem : Name.Unbroken sc.supply.stem) (reaches : (start sc t).Reaches state) :
    state.tree.WellFormed ∧ ∀ entry ∈ state.tree.entries state.tree.root, entry.Told := by
  obtain ⟨accounted, spelled⟩ := reaches.spelled program named wellNamed stem
  refine ⟨accounted.ordered, fun entry member => ?_⟩
  obtain ⟨i, -, here⟩ := List.mem_filterMap.mp member
  obtain ⟨node, found, rfl⟩ := Option.map_eq_some_iff.mp here
  exact ⟨accounted.shallow found, spelled.nodes found⟩

end BuildState

namespace Supercompiler

open ProcessTree

/-- The links of a tree that is built for what texts stand for are in order, and its lines tell its
nodes. -/
theorem told_build {α : Type} {source text : String} {program : Program} {t : Term}
    (parsedProgram : Program.parse source = .ok program) (parsedTerm : Term.parse text = .ok t)
    {supply : NameSupply} (stem : supply.stem = "v_") (options : BuildOptions) (patience : Nat)
    (watch : Step → ProcessTree → α) :
    let tree := (build ⟨program, supply⟩ options patience watch t).tree
    tree.WellFormed ∧ ∀ entry ∈ tree.entries tree.root, entry.Told := by
  obtain ⟨rules, made, named, -⟩ := Program.parse_eq_ok.mp parsedProgram
  obtain ⟨final, ends⟩ :=
    BuildState.exists_endsIn_build ⟨program, supply⟩ options patience watch t
  have unbroken : Name.Unbroken supply.stem := stem ▸ Name.unbroken_of_lawful rfl
  have reached := ends.reaches.told made named (Term.parse_eq_ok.mp parsedTerm).1 unbroken
  rwa [← ends.tree] at reached

/-- The text of a tree determines the tree. Two trees that are built for programs and terms that
texts stand for, however far the constructions come and whatever names have been issued and reserved
before, have the same text exactly if they show the same: the same terms and contractions, with the
same children in the same order. -/
theorem build_format_tells {α β : Type} {source text source' text' : String}
    {program program' : Program} {t t' : Term}
    (parsedProgram : Program.parse source = .ok program) (parsedTerm : Term.parse text = .ok t)
    (parsedProgram' : Program.parse source' = .ok program')
    (parsedTerm' : Term.parse text' = .ok t') {supply supply' : NameSupply}
    (stem : supply.stem = "v_") (stem' : supply'.stem = "v_") (options options' : BuildOptions)
    (patience patience' : Nat) (watch : Step → ProcessTree → α) (watch' : Step → ProcessTree → β) :
    let tree := (build ⟨program, supply⟩ options patience watch t).tree
    let tree' := (build ⟨program', supply'⟩ options' patience' watch' t').tree
    tree.format = tree'.format ↔
      ∃ rose, tree.Shows tree.root rose ∧ tree'.Shows tree'.root rose := by
  obtain ⟨ordered, lines⟩ := told_build parsedProgram parsedTerm stem options patience watch
  obtain ⟨ordered', lines'⟩ :=
    told_build parsedProgram' parsedTerm' stem' options' patience' watch'
  exact format_eq_iff ordered ordered' lines lines'

/-- The text of the tree for the numbers from a number on. -/
def upwardText : String :=
  "|__fUp(n)\n     |__Cons(n, fUp(S(n)))\n         |__n\n         " ++
    "|__let n=S(n) in fUp(n)\n             |__fUp(n)\n             |__S(n)\n" ++
    "                 |__n"

/-- The text of the tree for the numbers from a number on tells that a construction with a limit and
with a supply that starts below zero shows the same. -/
theorem build_format_tells_upward :
    Program.parse "fUp(n) = Cons(n, fUp(S(n)));" = .ok (.ofRules upwardRules) ∧
    Program.parse "# endless\nfUp(n)=Cons(n,fUp(S(n)));" = .ok (.ofRules upwardRules) ∧
    Term.parse "fUp(n)" = .ok (.fCall "fUp" [.var "n"]) ∧
    (build ⟨.ofRules upwardRules, {}⟩ {} 9 (fun _ _ => ()) (.fCall "fUp" [.var "n"])).tree.format =
      upwardText ∧
    let tree := (build ⟨.ofRules upwardRules, {}⟩ {} 9 (fun _ _ => ())
      (.fCall "fUp" [.var "n"])).tree
    let tree' := (build ⟨.ofRules upwardRules, NameSupply.reserve ⟨"v_", -1, .empty⟩ ["v_0"]⟩
      { limit := some 5 } 0 (fun _ _ => ()) (.fCall "fUp" [.var "n"])).tree
    ∃ rose, tree.Shows tree.root rose ∧ tree'.Shows tree'.root rose := by
  have program : Program.parse "fUp(n) = Cons(n, fUp(S(n)));" = .ok (.ofRules upwardRules) := by
    rfl
  have program' : Program.parse "# endless\nfUp(n)=Cons(n,fUp(S(n)));" =
      .ok (.ofRules upwardRules) := by rfl
  have term : Term.parse "fUp(n)" = .ok (.fCall "fUp" [.var "n"]) := by rfl
  have format : (build ⟨.ofRules upwardRules, {}⟩ {} 9 (fun _ _ => ())
      (.fCall "fUp" [.var "n"])).tree.format = upwardText := by cbv
  have format' : (build ⟨.ofRules upwardRules, NameSupply.reserve ⟨"v_", -1, .empty⟩ ["v_0"]⟩
      { limit := some 5 } 0 (fun _ _ => ()) (.fCall "fUp" [.var "n"])).tree.format =
        upwardText := by cbv
  refine ⟨program, program', term, format, ?_⟩
  exact (build_format_tells program term program' term rfl rfl {} { limit := some 5 } 9 0
    (fun _ _ => ()) fun _ _ => ()).mp (format.trans format'.symm)

end Supercompiler

end Supercompilation
