import Mathlib.Algebra.GroupWithZero.Nat
import Mathlib.Order.Bounds.Basic
import Supercompilation.Proofs.Layout
import Supercompilation.Proofs.Operations

/-!
# Walks and measures by recursion

A tree is walked with a stack, and its depth is read off the chains of parents above its leaves.
Both can be had by recursion from a node to its children, which ends since children are younger than
their parents: `ProcessTree.WellFormed.downward` is this recursion, for whatever is to be made of a
node and of what its children yield. The walk from a node is its preorder, the text has a line for
each entry of its outline, the size of the tree is the count of its root, and the depth is the
height of its root. So the links from children to parents and those from parents to children say the
same, whatever has been appended to the tree and replaced in it before.
-/

namespace Supercompilation

namespace ProcessTree

variable {tree : ProcessTree}

namespace WellFormed

variable {α : Type}

/-- What is made of a node and of what is made of its children, in order. -/
def downward (ordered : tree.WellFormed) (combine : Nat → List α → α) (i : Nat) : α :=
  combine i ((tree.children i).attach.map fun c => ordered.downward combine c.1)
termination_by tree.nodes.size - i
decreasing_by exact ordered.left_lt c.2

/-- The recursion, without the proof that it ends. -/
theorem downward_eq (ordered : tree.WellFormed) (combine : Nat → List α → α) (i : Nat) :
    ordered.downward combine i =
      combine i ((tree.children i).map (ordered.downward combine)) := by
  rw [downward, List.attach_map_val (f := ordered.downward combine)]

/-- A function on nodes that satisfies the equation of a recursion is given by the recursion. -/
theorem eq_downward (ordered : tree.WellFormed) {combine : Nat → List α → α} {f : Nat → α}
    (recursive : ∀ i < tree.nodes.size, f i = combine i ((tree.children i).map f)) {i : Nat}
    (inside : i < tree.nodes.size) : f i = ordered.downward combine i := by
  induction i using ordered.induction_down with
  | passes i ih =>
    rw [recursive i inside, downward_eq]
    congr 1
    exact List.map_congr_left fun c child => ih c child (ordered.child_lt child)

/-- The nodes from a node on: the node, then those from its first child on, and so forth. -/
def preorder (ordered : tree.WellFormed) : Nat → List Nat :=
  ordered.downward fun i below => i :: below.flatten

/-- The nodes from a node on, in the same order, with their levels below the node. -/
def outline (ordered : tree.WellFormed) : Nat → List (Nat × Nat) :=
  ordered.downward fun i below =>
    (i, 0) :: below.flatten.map fun (j, level) => (j, level + 1)

/-- The number of nodes from a node on. -/
def count (ordered : tree.WellFormed) : Nat → Nat :=
  ordered.downward fun _ below => below.sum + 1

/-- The number of nodes on the longest way down from a node. -/
def height (ordered : tree.WellFormed) : Nat → Nat :=
  ordered.downward fun _ below => below.foldl max 0 + 1

/-- A node is one higher than the highest of its children. -/
theorem height_eq (ordered : tree.WellFormed) (i : Nat) :
    ordered.height i = ((tree.children i).map ordered.height).foldl max 0 + 1 :=
  ordered.downward_eq _ i

end WellFormed

/-- The walk from a node is its preorder. -/
theorem walk_eq_preorder (ordered : tree.WellFormed) {i : Nat} (inside : i < tree.nodes.size) :
    tree.walk i = ordered.preorder i := by
  refine ordered.eq_downward (fun i inside => ?_) inside
  rw [walk_eq ordered inside, List.flatMap_def]

/-- The walk from a node meets as many nodes as are counted from it on. -/
theorem length_walk (ordered : tree.WellFormed) {i : Nat} (inside : i < tree.nodes.size) :
    (tree.walk i).length = ordered.count i := by
  refine ordered.eq_downward (f := fun i => (tree.walk i).length) (fun i inside => ?_) inside
  rw [walk_eq ordered inside, List.length_cons, List.length_flatMap]

/-- Whatever is met from a node on is there. -/
theorem lt_size_of_mem_walk (ordered : tree.WellFormed) {i j : Nat} (inside : i < tree.nodes.size)
    (member : j ∈ tree.walk i) : j < tree.nodes.size :=
  (visits_walk ordered inside).forall_mem (fun _ _ _ child => ordered.child_lt child)
    (by simpa using inside) j member

/-- No node that is met from a node on stands above it. -/
theorem level_le_of_mem_walk (ordered : tree.WellFormed) {i j : Nat}
    (inside : i < tree.nodes.size) (member : j ∈ tree.walk i) : tree.level i ≤ tree.level j := by
  have all : ∀ j ∈ tree.walk i, tree.level i ≤ tree.level j := by
    refine (visits_walk ordered inside).forall_mem (fun j below c child => ?_) fun j only => ?_
    · rw [level_child ordered child]
      exact Nat.le_succ_of_le below
    · rw [List.mem_singleton.mp only]
  exact all j member

/-- The outline from a node on has the nodes of the walk, with the differences of their levels. -/
theorem outline_eq_map_walk (ordered : tree.WellFormed) {i : Nat} (inside : i < tree.nodes.size) :
    ordered.outline i = (tree.walk i).map fun j => (j, tree.level j - tree.level i) := by
  refine (ordered.eq_downward
    (f := fun i => (tree.walk i).map fun j => (j, tree.level j - tree.level i))
    (fun i inside => ?_) inside).symm
  have deeper : ∀ c ∈ tree.children i,
      ((tree.walk c).map fun j => (j, tree.level j - tree.level i)) =
        ((tree.walk c).map fun j => (j, tree.level j - tree.level c)).map
          fun (j, level) => (j, level + 1) := by
    intro c child
    rw [List.map_map]
    refine List.map_congr_left fun j member => ?_
    have below := level_le_of_mem_walk ordered (ordered.child_lt child) member
    have one := level_child ordered child
    simp only [Function.comp_apply, Prod.mk.injEq, true_and]
    omega
  rw [walk_eq ordered inside, List.map_cons, Nat.sub_self, List.map_flatMap,
    List.flatMap_congr deeper, ← List.map_flatMap, List.flatMap_def]

/-- The line of a node without indentation. -/
def label (tree : ProcessTree) (i : Nat) : String := ((tree.node? i).map (line "" 0)).getD ""

/-- The line of a node is its label behind the indentation. -/
theorem line_eq {i : Nat} {node : Node} (found : tree.node? i = some node) (indent : String)
    (level : Nat) : line indent level node =
      indent ++ String.ofList (List.replicate (4 * level) ' ') ++ tree.label i := by
  rw [label, found, Option.map_some, Option.getD_some]
  simp only [line, Nat.mul_zero, List.replicate_zero, String.ofList_nil, String.empty_append,
    String.append_assoc]

/-- The text from a node on has a line for each entry of the outline, indented by four blanks for
each level. -/
theorem formatFrom_eq (ordered : tree.WellFormed) {i : Nat} (inside : i < tree.nodes.size)
    (indent : String) : tree.formatFrom i indent =
      Text.joined "\n " ((ordered.outline i).map fun (j, level) =>
        indent ++ String.ofList (List.replicate (4 * level) ' ') ++ tree.label j) := by
  have visits := visits_walk ordered inside
  have deeper : ∀ j ∈ tree.walk i, ∀ c ∈ tree.children j,
      tree.level c - tree.level i = tree.level j - tree.level i + 1 := by
    intro j member c child
    have below := level_le_of_mem_walk ordered inside member
    rw [level_child ordered child]
    omega
  have walked : tree.visitLevels tree.nodes.size [(i, 0)] = ordered.outline i := by
    have levels := visits.visitLevels_eq deeper (visits.length_le ordered inside)
    rw [List.map_singleton, Nat.sub_self] at levels
    rw [levels, outline_eq_map_walk ordered inside]
  have lines : ∀ entry ∈ ordered.outline i,
      (tree.node? entry.1).map (line indent entry.2) = some
        (indent ++ String.ofList (List.replicate (4 * entry.2) ' ') ++ tree.label entry.1) := by
    intro entry member
    rw [outline_eq_map_walk ordered inside] at member
    obtain ⟨j, met, rfl⟩ := List.mem_map.mp member
    obtain ⟨node, found⟩ := node?_isSome_iff.mpr (lt_size_of_mem_walk ordered inside met)
    rw [found, Option.map_some, line_eq found]
  rw [formatFrom, walked, ← List.filterMap_eq_map]
  exact congrArg (Text.joined "\n ") (List.filterMap_congr lines)

/-- A node without children is the only leaf from it on. -/
theorem leavesFrom_of_childless (ordered : tree.WellFormed) {i : Nat}
    (inside : i < tree.nodes.size) (childless : tree.children i = []) :
    tree.leavesFrom i = [i] := by
  rw [leavesFrom, walk_eq ordered inside, childless, List.flatMap_nil,
    List.filter_cons_of_pos (isLeaf_iff.mpr childless), List.filter_nil]

/-- The leaves from a node with children on are those from its children on. -/
theorem leavesFrom_of_children (ordered : tree.WellFormed) {i : Nat}
    (some : tree.children i ≠ []) :
    tree.leavesFrom i = (tree.children i).flatMap tree.leavesFrom := by
  obtain ⟨c, child⟩ := List.exists_mem_of_ne_nil _ some
  rw [leavesFrom, walk_eq ordered (lt_size_of_child child),
    List.filter_cons_of_neg (mt isLeaf_iff.mp some), List.filter_flatMap]
  rfl

/-- The maximum of some numbers is one of them, and none is greater. -/
theorem isGreatest_foldl_max {numbers : List Nat} (some : numbers ≠ []) :
    IsGreatest {n | n ∈ numbers} (numbers.foldl max 0) := by
  obtain ⟨n, rest, rfl⟩ := List.exists_cons_of_ne_nil some
  refine List.max?_eq_some_iff.mp ?_
  rw [List.max?_cons', List.foldl_cons, Nat.zero_max]

/-- The height of a node and its level tell the level of the deepest leaf from the node on. -/
theorem isGreatest_height (ordered : tree.WellFormed) {i : Nat} (inside : i < tree.nodes.size) :
    IsGreatest {n | ∃ leaf ∈ tree.leavesFrom i, tree.level leaf + 1 = n}
      (tree.level i + ordered.height i) := by
  induction i using ordered.induction_down with
  | passes i ih =>
    rw [ordered.height_eq]
    by_cases childless : tree.children i = []
    · rw [leavesFrom_of_childless ordered inside childless, childless]
      simp [IsGreatest, upperBounds]
    · have some : (tree.children i).map ordered.height ≠ [] := mt List.map_eq_nil_iff.mp childless
      obtain ⟨highest, bound⟩ := isGreatest_foldl_max some
      rw [leavesFrom_of_children ordered childless]
      constructor
      · obtain ⟨c, child, high⟩ := List.mem_map.mp highest
        obtain ⟨leaf, member, deep⟩ := (ih c child (ordered.child_lt child)).1
        refine ⟨leaf, List.mem_flatMap.mpr ⟨c, child, member⟩, ?_⟩
        rw [deep, high, level_child ordered child]
        omega
      · rintro n ⟨leaf, member, rfl⟩
        obtain ⟨c, child, member⟩ := List.mem_flatMap.mp member
        have deep := (ih c child (ordered.child_lt child)).2 ⟨leaf, member, rfl⟩
        have high := bound (List.mem_map_of_mem child)
        rw [level_child ordered child] at deep
        omega

/-- The depth of a tree is one more than the number of ancestors of its deepest leaf. -/
theorem isGreatest_depth (ordered : tree.WellFormed) :
    IsGreatest {n | ∃ leaf ∈ tree.leaves, (tree.ancestors leaf).length + 1 = n} tree.depth := by
  obtain ⟨leaf, member, -⟩ := (isGreatest_height ordered ordered.root_lt).1
  have some : tree.leaves.map tree.level ≠ [] :=
    mt List.map_eq_nil_iff.mp (List.ne_nil_of_mem member)
  obtain ⟨highest, bound⟩ := isGreatest_foldl_max some
  constructor
  · obtain ⟨leaf, member, deep⟩ := List.mem_map.mp highest
    exact ⟨leaf, member, congrArg (· + 1) deep⟩
  · rintro n ⟨leaf, member, rfl⟩
    have deep := bound (List.mem_map_of_mem (f := tree.level) member)
    exact Nat.succ_le_succ deep

/-- The depth of a tree, read off the chains of parents, is the height of its root. -/
theorem depth_eq_height (ordered : tree.WellFormed) :
    tree.depth = ordered.height tree.root := by
  have highest := isGreatest_height ordered ordered.root_lt
  rw [level_root ordered, Nat.zero_add] at highest
  exact (isGreatest_depth ordered).unique highest

/-- The walks, the texts and the measures of a tree are those by recursion. -/
structure Recursive (tree : ProcessTree) (ordered : tree.WellFormed) : Prop where
  /-- The walk from a node is its preorder. -/
  walk : ∀ i < tree.nodes.size, tree.walk i = ordered.preorder i
  /-- The leaves from a node on are the childless nodes there, in the same order. -/
  leaves : ∀ i < tree.nodes.size,
    tree.leavesFrom i = (ordered.preorder i).filter fun j => tree.children j = []
  /-- The outline from a node on has the nodes of the walk. -/
  outline : ∀ i < tree.nodes.size, (ordered.outline i).map Prod.fst = tree.walk i
  /-- The text from a node on has a line for each of them, indented by four blanks for each level
  below the node. -/
  format : ∀ i < tree.nodes.size, ∀ indent, tree.formatFrom i indent =
    Text.joined "\n " ((ordered.outline i).map fun (j, level) =>
      indent ++ String.ofList (List.replicate (4 * level) ' ') ++ tree.label j)
  /-- The size is the number of nodes from the root on. -/
  size : tree.size = ordered.count tree.root
  /-- The depth is one more than the greatest number of ancestors of a leaf. -/
  longest : IsGreatest {n | ∃ leaf ∈ tree.leaves, (tree.ancestors leaf).length + 1 = n} tree.depth
  /-- It is the height of the root. -/
  depth : tree.depth = ordered.height tree.root

/-- If the links of a tree are in order, then its walks, texts and measures are those by recursion.
-/
theorem WellFormed.recursive (ordered : tree.WellFormed) : tree.Recursive ordered where
  walk _ inside := walk_eq_preorder ordered inside
  leaves i inside := by
    rw [leavesFrom, walk_eq_preorder ordered inside]
    exact List.filter_congr fun j _ => by rw [Bool.eq_iff_iff, isLeaf_iff, decide_eq_true_iff]
  outline i inside := by
    rw [outline_eq_map_walk ordered inside, List.map_map]
    exact List.map_id' _
  format _ inside := formatFrom_eq ordered inside
  size := length_walk ordered ordered.root_lt
  longest := isGreatest_depth ordered
  depth := depth_eq_height ordered

end ProcessTree

namespace Workbench

open ProcessTree

variable {bench : Workbench}

/-- Whatever operations are carried out on nodes that have been made, in whatever order, starting
with a root alone: the tree can be gone through by recursion from nodes to their children, and its
walks, texts and measures are those by recursion. -/
theorem measured_downward {sc : Supercompiler} {t : Term} (reaches : (start sc t).Reaches bench) :
    ∃ ordered : bench.tree.WellFormed, bench.tree.Recursive ordered :=
  ⟨reaches.wellFormed (.ofTerm t), (reaches.wellFormed (.ofTerm t)).recursive⟩

/-- A root with two children, of which the second has a child; the first has been replaced, and has
got a child afterwards. -/
def reshaped : Workbench :=
  let grown := ((start ⟨.ofRules [], {}⟩ (.ctor "C" [.var "x", .ctor "S" [.var "y"]])).perform
    (.addChildren 0 [⟨.var "x", none⟩, ⟨.ctor "S" [.var "y"], none⟩])).2
  let deeper := (grown.perform (.addChildren 2 [⟨.var "y", none⟩])).2
  let replaced := (deeper.perform (.replace 1 (.var "z"))).2
  (replaced.perform (.addChildren 1 [⟨.var "w", none⟩])).2

/-- What has been replaced does not count: four nodes are walked, and two of them stand above the
deepest leaf. -/
theorem measured_downward_reshaped :
    (start ⟨.ofRules [], {}⟩ (.ctor "C" [.var "x", .ctor "S" [.var "y"]])).Reaches reshaped ∧
    (∃ ordered : reshaped.tree.WellFormed, reshaped.tree.Recursive ordered) ∧
    reshaped.tree.nodeList = [0, 4, 2, 3] ∧ reshaped.tree.leaves = [4, 3] ∧
    reshaped.tree.size = 4 ∧ reshaped.tree.depth = 3 ∧ reshaped.tree.ancestors 3 = [2, 0] ∧
    reshaped.tree.format = "|__C(x, S(y))\n     |__z\n     |__S(y)\n         |__y" := by
  have reaches : (start ⟨.ofRules [], {}⟩
      (.ctor "C" [.var "x", .ctor "S" [.var "y"]])).Reaches reshaped :=
    .tail (.tail (.tail (.single
      ⟨.addChildren 0 [⟨.var "x", none⟩, ⟨.ctor "S" [.var "y"], none⟩], by decide, rfl⟩)
      ⟨.addChildren 2 [⟨.var "y", none⟩], by decide, rfl⟩)
      ⟨.replace 1 (.var "z"), by decide, rfl⟩)
      ⟨.addChildren 1 [⟨.var "w", none⟩], by decide, rfl⟩
  refine ⟨reaches, measured_downward reaches, ?_⟩
  exact ⟨by decide, by decide, by decide, by decide, by decide, by cbv⟩

end Workbench

end Supercompilation
