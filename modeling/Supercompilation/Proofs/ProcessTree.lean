import Mathlib.Data.List.Basic
import Supercompilation.ProcessTree.Basic

/-!
# Growing process trees

A process tree grows at one node at a time: the node gets other children, and new nodes are added
below it. `ProcessTree.Growth` says this once, and both appending children and replacing a child are
growths in this sense. Growth keeps the links between parents and children in order, leaves the
term, the contraction and the ancestors of every old node alone, and puts the new nodes below the
node at which the tree grows.
-/

namespace Supercompilation

namespace ProcessTree

variable {tree grown : ProcessTree}

/-- The links of a tree are in order: a node is the parent of its children, a parent is older than
its children, and the root has no parent. -/
structure WellFormed (tree : ProcessTree) : Prop where
  /-- The root is there. -/
  root_lt : tree.root < tree.nodes.size
  /-- The root has no parent. -/
  root_parent : tree.parent? tree.root = none
  /-- A parent is older than its children. -/
  parent_lt : ∀ {i p : Nat}, tree.parent? i = some p → p < i
  /-- A node is the parent of its children. -/
  parent_of_child : ∀ {i c : Nat}, c ∈ tree.children i → tree.parent? c = some i
  /-- No child stands at two places. -/
  nodup_children : ∀ i : Nat, (tree.children i).Nodup

/-- A node is there exactly if its number is small enough. -/
theorem node?_isSome_iff {i : Nat} : (∃ node, tree.node? i = some node) ↔ i < tree.nodes.size := by
  rw [node?]
  constructor
  · rintro ⟨node, found⟩
    exact (Array.getElem?_eq_some_iff.mp found).1
  · intro bound
    exact ⟨_, Array.getElem?_eq_getElem bound⟩

/-- A number that is too large has no node. -/
theorem node?_eq_none {i : Nat} (large : tree.nodes.size ≤ i) : tree.node? i = none :=
  Array.getElem?_eq_none large

/-- The children of a node that is there. -/
theorem children_of_node? {i : Nat} {node : Node} (found : tree.node? i = some node) :
    tree.children i = node.children := by
  rw [children, found]
  rfl

/-- The parent of a node that is there. -/
theorem parent?_of_node? {i : Nat} {node : Node} (found : tree.node? i = some node) :
    tree.parent? i = node.parent := by
  rw [parent?, found]
  rfl

/-- A node with a parent is there. -/
theorem lt_size_of_parent? {i p : Nat} (parent : tree.parent? i = some p) :
    i < tree.nodes.size := by
  by_contra large
  rw [parent?, node?_eq_none (Nat.le_of_not_lt large)] at parent
  contradiction

/-- A node with a child is there. -/
theorem lt_size_of_child {i c : Nat} (child : c ∈ tree.children i) : i < tree.nodes.size := by
  by_contra large
  rw [children, node?_eq_none (Nat.le_of_not_lt large)] at child
  contradiction

namespace WellFormed

/-- A child is there. -/
theorem child_lt (ordered : tree.WellFormed) {i c : Nat} (child : c ∈ tree.children i) :
    c < tree.nodes.size :=
  lt_size_of_parent? (ordered.parent_of_child child)

/-- A child is nearer to the end of the list of nodes than its parent. -/
theorem left_lt (ordered : tree.WellFormed) {i c : Nat} (child : c ∈ tree.children i) :
    tree.nodes.size - c < tree.nodes.size - i := by
  have older := ordered.parent_lt (ordered.parent_of_child child)
  have inside := ordered.child_lt child
  omega

/-- What holds of a node whenever it holds of the children of the node holds of every node. -/
theorem induction_down (ordered : tree.WellFormed) {holds : Nat → Prop}
    (passes : ∀ i, (∀ c ∈ tree.children i, holds c) → holds i) (i : Nat) : holds i := by
  induction left : tree.nodes.size - i using Nat.strongRecOn generalizing i with
  | ind left ih => exact passes i fun c child => ih _ (left ▸ ordered.left_lt child) c rfl

/-- The tree of a root alone is in order. -/
theorem ofTerm (t : Term) : (ProcessTree.ofTerm t).WellFormed := by
  have only : ∀ {i : Nat} {node : Node}, (ProcessTree.ofTerm t).node? i = some node →
      node = ⟨t, none, none, []⟩ := by
    intro i node found
    have inside := Array.mem_of_getElem? found
    simpa [ProcessTree.ofTerm] using inside
  have childless : ∀ i : Nat, (ProcessTree.ofTerm t).children i = [] := by
    intro i
    rw [children]
    cases found : (ProcessTree.ofTerm t).node? i with
    | none => rfl
    | some node => rw [only found]; rfl
  refine ⟨Nat.zero_lt_one, rfl, ?_, ?_, ?_⟩
  · intro i p parent
    rw [parent?, Option.bind_eq_some_iff] at parent
    obtain ⟨node, found, parent⟩ := parent
    rw [only found] at parent
    contradiction
  · intro i c child
    rw [childless] at child
    contradiction
  · intro i
    rw [childless]
    exact List.nodup_nil

end WellFormed

/-- Following the parent links from a node takes no more rounds than its number says. -/
theorem climb_eq_climb (ordered : tree.WellFormed) (rounds more : Nat) (start : Option Nat)
    (enough : ∀ i, start = some i → i < rounds) :
    tree.climb (rounds + more) start = tree.climb rounds start := by
  induction rounds generalizing start with
  | zero =>
    cases start with
    | none => cases more <;> simp [climb]
    | some i => exact absurd (enough i rfl) (Nat.not_lt_zero i)
  | succ rounds ih =>
    cases start with
    | none => rw [Nat.succ_add_eq_add_succ, Nat.add_succ]; simp [climb]
    | some i =>
      rw [Nat.succ_add, climb, climb, ih]
      intro p parent
      have older := ordered.parent_lt parent
      have bound := enough i rfl
      omega

/-- A node without a parent has no ancestors. -/
theorem ancestors_of_no_parent {i : Nat} (top : tree.parent? i = none) : tree.ancestors i = [] := by
  rw [ancestors, top]
  cases tree.nodes.size <;> rfl

/-- The ancestors of a node are its parent and the ancestors of its parent. -/
theorem ancestors_of_parent (ordered : tree.WellFormed) {i p : Nat}
    (parent : tree.parent? i = some p) : tree.ancestors i = p :: tree.ancestors p := by
  have older := ordered.parent_lt parent
  have bound := lt_size_of_parent? parent
  rw [ancestors, ancestors, parent]
  obtain ⟨rounds, counted⟩ := Nat.exists_eq_succ_of_ne_zero (Nat.ne_of_gt (Nat.zero_lt_of_lt bound))
  rw [counted, climb, ← climb_eq_climb ordered rounds 1 (tree.parent? p)]
  intro q grandparent
  have older' := ordered.parent_lt grandparent
  omega

/-- An ancestor of a node is older than the node. -/
theorem WellFormed.lt_of_mem_ancestors (ordered : tree.WellFormed) {i a : Nat}
    (above : a ∈ tree.ancestors i) : a < i := by
  induction i using Nat.strongRecOn with
  | ind i ih =>
    cases parent : tree.parent? i with
    | none =>
      rw [ancestors_of_no_parent parent] at above
      contradiction
    | some p =>
      have older := ordered.parent_lt parent
      rw [ancestors_of_parent ordered parent] at above
      rcases List.mem_cons.mp above with rfl | further
      · exact older
      · exact Nat.lt_trans (ih p older further) older

/-- A node stands on the way from the root to a node. -/
def OnPath (tree : ProcessTree) (i j : Nat) : Prop := i = j ∨ i ∈ tree.ancestors j

/-- The ancestors of an ancestor are ancestors. -/
theorem mem_ancestors_trans (ordered : tree.WellFormed) {i j k : Nat} (far : i ∈ tree.ancestors j)
    (near : j ∈ tree.ancestors k) : i ∈ tree.ancestors k := by
  induction k using Nat.strongRecOn with
  | ind k ih =>
    cases parent : tree.parent? k with
    | none =>
      rw [ancestors_of_no_parent parent] at near
      contradiction
    | some p =>
      rw [ancestors_of_parent ordered parent] at near ⊢
      rcases List.mem_cons.mp near with rfl | further
      · exact List.mem_cons_of_mem _ far
      · exact List.mem_cons_of_mem _ (ih p (ordered.parent_lt parent) further)

/-- A node on the way to an ancestor is an ancestor. -/
theorem OnPath.mem_ancestors (ordered : tree.WellFormed) {i j k : Nat} (path : tree.OnPath i j)
    (above : j ∈ tree.ancestors k) : i ∈ tree.ancestors k := by
  rcases path with rfl | far
  · exact above
  · exact mem_ancestors_trans ordered far above

namespace OnPath

/-- No node on the way to a node is younger than it. -/
theorem le (ordered : tree.WellFormed) {i j : Nat} (path : tree.OnPath i j) : i ≤ j := by
  rcases path with rfl | above
  · exact Nat.le_refl i
  · exact Nat.le_of_lt (ordered.lt_of_mem_ancestors above)

/-- The parent of a node on the way is on the way. -/
theorem of_child (ordered : tree.WellFormed) {i c j : Nat} (path : tree.OnPath c j)
    (child : c ∈ tree.children i) : tree.OnPath i j := by
  have above : i ∈ tree.ancestors c := by
    rw [ancestors_of_parent ordered (ordered.parent_of_child child)]
    exact List.mem_cons_self
  rcases path with rfl | further
  · exact .inr above
  · exact .inr (mem_ancestors_trans ordered above further)

/-- Of two nodes on the way to a node one is on the way to the other. -/
theorem total (ordered : tree.WellFormed) {i k j : Nat} (path : tree.OnPath i j)
    (path' : tree.OnPath k j) : tree.OnPath i k ∨ tree.OnPath k i := by
  induction j using Nat.strongRecOn with
  | ind j ih =>
    rcases path with rfl | above
    · exact .inr path'
    · rcases path' with rfl | above'
      · exact .inl (.inr above)
      · cases parent : tree.parent? j with
        | none =>
          rw [ancestors_of_no_parent parent] at above
          contradiction
        | some p =>
          rw [ancestors_of_parent ordered parent] at above above'
          exact ih p (ordered.parent_lt parent) (List.mem_cons.mp above)
            (List.mem_cons.mp above')

/-- Two children of one node on the way to a node are the same. -/
theorem eq_of_siblings (ordered : tree.WellFormed) {i k j p : Nat} (path : tree.OnPath i j)
    (path' : tree.OnPath k j) (parent : tree.parent? i = some p)
    (parent' : tree.parent? k = some p) : i = k := by
  -- A sibling above a node would stand between the node and their common parent.
  have notAbove : ∀ {c d : Nat}, tree.parent? c = some p → tree.parent? d = some p →
      c ∉ tree.ancestors d := by
    intro c d ofC ofD above
    rw [ancestors_of_parent ordered ofD] at above
    have younger := ordered.parent_lt ofC
    rcases List.mem_cons.mp above with rfl | further
    · exact Nat.lt_irrefl _ younger
    · have older := ordered.lt_of_mem_ancestors further
      omega
  rcases path.total ordered path' with (same | above) | (same | above)
  · exact same
  · exact absurd above (notAbove parent parent')
  · exact same.symm
  · exact absurd above (notAbove parent' parent)

end OnPath

/-- A node that can be reached from the root by going down to children. -/
inductive Attached (tree : ProcessTree) : Nat → Prop where
  /-- The root. -/
  | root : Attached tree tree.root
  /-- A child of an attached node. -/
  | child {i c : Nat} : Attached tree i → c ∈ tree.children i → Attached tree c

namespace Attached

/-- An attached node is there. -/
theorem lt_size (ordered : tree.WellFormed) {i : Nat} (attached : tree.Attached i) :
    i < tree.nodes.size := by
  cases attached with
  | root => exact ordered.root_lt
  | child _ child => exact ordered.child_lt child

/-- The parent of an attached node is attached and has it as a child. -/
theorem of_parent (ordered : tree.WellFormed) {i p : Nat} (attached : tree.Attached i)
    (parent : tree.parent? i = some p) : tree.Attached p ∧ i ∈ tree.children p := by
  cases attached with
  | root => rw [ordered.root_parent] at parent; contradiction
  | child above child =>
    rw [ordered.parent_of_child child, Option.some.injEq] at parent
    exact parent ▸ ⟨above, child⟩

/-- The ancestors of an attached node are attached. -/
theorem of_mem_ancestors (ordered : tree.WellFormed) {i a : Nat} (attached : tree.Attached i)
    (above : a ∈ tree.ancestors i) : tree.Attached a := by
  induction attached with
  | root => simp [ancestors_of_no_parent ordered.root_parent] at above
  | child attached child ih =>
    rw [ancestors_of_parent ordered (ordered.parent_of_child child)] at above
    rcases List.mem_cons.mp above with rfl | further
    · exact attached
    · exact ih further

end Attached

/-- A tree grows at a node: the node gets other children, and nodes for some branches are added
below it. Every other node stays as it is. -/
structure Growth (tree : ProcessTree) (place : Nat) (kids : List Nat) (added : List Branch)
    (grown : ProcessTree) : Prop where
  /-- The root stays the root. -/
  root : grown.root = tree.root
  /-- The node is there. -/
  place_lt : place < tree.nodes.size
  /-- As many nodes are added as there are branches. -/
  size : grown.nodes.size = tree.nodes.size + added.length
  /-- Only the children of the node change. -/
  old : ∀ {i : Nat}, i < tree.nodes.size → grown.node? i = (tree.node? i).map fun node =>
    if i = place then { node with children := kids } else node
  /-- The branches become nodes without children. -/
  new : ∀ k : Nat, grown.node? (tree.nodes.size + k) = added[k]?.map fun branch =>
    ⟨branch.term, branch.contraction, some place, []⟩
  /-- The children of the node are old children of it or new nodes. -/
  mem_kids : ∀ {c : Nat}, c ∈ kids → c ∈ tree.children place ∨
    (tree.nodes.size ≤ c ∧ c < tree.nodes.size + added.length)
  /-- They are all different. -/
  nodup_kids : kids.Nodup

/-- The nodes of a tree after the children of a node have been set. -/
theorem node?_setChildren (tree : ProcessTree) (i : Nat) (kids : List Nat) (j : Nat) :
    (tree.setChildren i kids).node? j = (tree.node? j).map fun node =>
      if j = i then { node with children := kids } else node := by
  rw [setChildren]
  cases found : tree.nodes[i]? with
  | none =>
    simp only [node?]
    by_cases same : j = i
    · simp [same, found]
    · simp [same]
  | some node =>
    simp only [node?, Array.getElem?_setIfInBounds]
    by_cases same : j = i
    · have bound : i < tree.nodes.size := (Array.getElem?_eq_some_iff.mp found).1
      rw [same, if_pos rfl, if_pos bound, found]
      simp
    · simp [same, Ne.symm same]

/-- Setting the children of a node adds no node. -/
theorem size_setChildren (tree : ProcessTree) (i : Nat) (kids : List Nat) :
    (tree.setChildren i kids).nodes.size = tree.nodes.size := by
  rw [setChildren]
  split <;> simp

/-- Setting the children of a node leaves the root alone. -/
theorem root_setChildren (tree : ProcessTree) (i : Nat) (kids : List Nat) :
    (tree.setChildren i kids).root = tree.root := by
  rw [setChildren]
  split <;> rfl

/-- The nodes behind those that were there are the ones that were pushed. -/
theorem getElem?_foldl_push (nodes : Array Node) (branches : List Branch) (make : Branch → Node)
    (j : Nat) :
    (branches.foldl (fun nodes branch => nodes.push (make branch)) nodes)[j]? =
      if j < nodes.size then nodes[j]? else (branches[j - nodes.size]?).map make := by
  rw [List.foldl_push_eq_append, Array.getElem?_append]
  simp

/-- Appending children to a node is a growth at the node. -/
theorem growth_addChildren (ordered : tree.WellFormed) {i : Nat} (bound : i < tree.nodes.size)
    (branches : List Branch) :
    Growth tree i (tree.children i ++ (List.range branches.length).map (tree.nodes.size + ·))
      branches (tree.addChildren i branches) where
  root := root_setChildren tree i _
  place_lt := bound
  size := by
    rw [addChildren, List.foldl_push_eq_append]
    simp [size_setChildren]
  old := by
    intro j inside
    rw [← node?_setChildren, node?, addChildren, getElem?_foldl_push, size_setChildren,
      if_pos inside]
    rfl
  new := by
    intro k
    rw [node?, addChildren, getElem?_foldl_push, size_setChildren,
      if_neg (Nat.not_lt.mpr (Nat.le_add_right _ k)), Nat.add_sub_cancel_left]
  mem_kids := by
    intro c member
    rcases List.mem_append.mp member with old | new
    · exact .inl old
    · obtain ⟨k, small, rfl⟩ := List.mem_map.mp new
      have := List.mem_range.mp small
      omega
  nodup_kids := by
    rw [List.nodup_append]
    refine ⟨ordered.nodup_children i, ?_, ?_⟩
    · refine List.Pairwise.map _ (fun j k differ same => differ ?_) List.nodup_range
      exact Nat.add_left_cancel same
    · intro c child j new same
      obtain ⟨k, -, rfl⟩ := List.mem_map.mp new
      have inside := ordered.child_lt child
      omega

/-- What stands in a list after an entry has been replaced. -/
theorem mem_replace {kids : List Nat} {i new c : Nat} (distinct : kids.Nodup)
    (member : c ∈ kids.replace i new) : c = new ∨ (c ∈ kids ∧ c ≠ i) := by
  induction kids with
  | nil => simp at member
  | cons k kids ih =>
    rw [List.nodup_cons] at distinct
    rw [List.replace_cons] at member
    split at member
    · rename_i same
      rw [beq_iff_eq] at same
      rcases List.mem_cons.mp member with rfl | later
      · exact .inl rfl
      · exact .inr ⟨List.mem_cons_of_mem _ later, fun equal => distinct.1 (by simp_all)⟩
    · rename_i different
      rcases List.mem_cons.mp member with rfl | later
      · exact .inr ⟨List.mem_cons_self, fun equal => by simp [equal] at different⟩
      · rcases ih distinct.2 later with fresh | old
        · exact .inl fresh
        · exact .inr ⟨List.mem_cons_of_mem _ old.1, old.2⟩

/-- Replacing an entry by a new one makes no two entries the same. -/
theorem nodup_replace {kids : List Nat} {i new : Nat} (distinct : kids.Nodup)
    (unused : new ∉ kids) : (kids.replace i new).Nodup := by
  induction kids with
  | nil => simp
  | cons k kids ih =>
    rw [List.nodup_cons] at distinct
    rw [List.mem_cons, not_or] at unused
    rw [List.replace_cons]
    split
    · exact List.nodup_cons.mpr ⟨unused.2, distinct.2⟩
    · refine List.nodup_cons.mpr ⟨fun member => ?_, ih distinct.2 unused.2⟩
      rcases mem_replace distinct.2 member with rfl | old
      · exact unused.1 rfl
      · exact distinct.1 old.1

/-- Replacing a child is a growth at its parent. -/
theorem growth_replace (ordered : tree.WellFormed) {i p new : Nat} {node : Node} {t : Term}
    (found : tree.node? i = some node) (parent : node.parent = some p)
    (replaced : tree.replace i t = .ok (new, grown)) :
    i ∈ tree.children p ∧ new = tree.nodes.size ∧
      Growth tree p ((tree.children p).replace i tree.nodes.size) [⟨t, node.contraction⟩]
        grown := by
  rw [replace, found] at replaced
  simp only [parent] at replaced
  split at replaced
  · rename_i member
    rw [List.contains_iff_mem] at member
    simp only [Except.ok.injEq, Prod.mk.injEq] at replaced
    obtain ⟨rfl, rfl⟩ := replaced
    have unused : tree.nodes.size ∉ tree.children p := fun child =>
      Nat.lt_irrefl _ (ordered.child_lt child)
    refine ⟨member, rfl, root_setChildren tree p _, lt_size_of_child member, ?_, ?_, ?_, ?_,
      nodup_replace (ordered.nodup_children p) unused⟩
    · simp [size_setChildren]
    · intro j inside
      rw [← node?_setChildren, node?, Array.getElem?_push, size_setChildren,
        if_neg (Nat.ne_of_lt inside)]
      rfl
    · intro k
      rw [node?, Array.getElem?_push, size_setChildren]
      cases k with
      | zero => simp
      | succ k =>
        rw [if_neg (by omega), Array.getElem?_eq_none (by rw [size_setChildren]; omega)]
        simp
    · intro c member
      rcases mem_replace (ordered.nodup_children p) member with rfl | old
      · exact .inr ⟨Nat.le_refl _, Nat.lt_succ_self _⟩
      · exact .inl old.1
  · contradiction

namespace Growth

variable {place : Nat} {kids : List Nat} {added : List Branch}

/-- An old node keeps all but its children. -/
theorem node?_old (growth : Growth tree place kids added grown) {i : Nat} {node : Node}
    (found : tree.node? i = some node) :
    grown.node? i = some (if i = place then { node with children := kids } else node) := by
  rw [growth.old (node?_isSome_iff.mp ⟨node, found⟩), found, Option.map_some]

/-- An old node keeps its term, its contraction and its parent. -/
theorem exists_node?_old (growth : Growth tree place kids added grown) {i : Nat} {node : Node}
    (found : tree.node? i = some node) :
    ∃ after, grown.node? i = some after ∧ after.term = node.term ∧
      after.contraction = node.contraction ∧ after.parent = node.parent := by
  refine ⟨_, growth.node?_old found, ?_⟩
  split <;> exact ⟨rfl, rfl, rfl⟩

/-- A node of the grown tree is an old node, perhaps with other children, or a new one. -/
theorem node?_cases (growth : Growth tree place kids added grown) {i : Nat} {node : Node}
    (found : grown.node? i = some node) :
    (∃ before, tree.node? i = some before ∧ node.term = before.term ∧
      node.contraction = before.contraction ∧ node.parent = before.parent) ∨
    (∃ branch ∈ added, tree.nodes.size ≤ i ∧ added[i - tree.nodes.size]? = some branch ∧
      node = ⟨branch.term, branch.contraction, some place, []⟩) := by
  by_cases inside : i < tree.nodes.size
  · obtain ⟨before, there⟩ := node?_isSome_iff.mpr inside
    rw [growth.node?_old there, Option.some.injEq] at found
    refine .inl ⟨before, there, ?_⟩
    subst found
    split <;> exact ⟨rfl, rfl, rfl⟩
  · obtain ⟨k, rfl⟩ := Nat.exists_eq_add_of_le (Nat.le_of_not_lt inside)
    rw [growth.new, Option.map_eq_some_iff] at found
    obtain ⟨branch, here, made⟩ := found
    rw [Nat.add_sub_cancel_left]
    exact .inr ⟨branch, List.mem_of_getElem? here, Nat.le_add_right _ k, here, made.symm⟩

/-- A node with children in the grown tree is the one at which the tree grew, or is as it was. -/
theorem inner_cases (growth : Growth tree place kids added grown) {i : Nat} {node : Node}
    (found : grown.node? i = some node) (inner : node.children ≠ []) :
    (i = place ∧ ∃ before, tree.node? place = some before ∧
      node = { before with children := kids }) ∨ tree.node? i = some node := by
  by_cases inside : i < tree.nodes.size
  · obtain ⟨before, there⟩ := node?_isSome_iff.mpr inside
    rw [growth.node?_old there, Option.some.injEq] at found
    by_cases same : i = place
    · rw [if_pos same] at found
      exact .inl ⟨same, before, same ▸ there, found.symm⟩
    · rw [if_neg same] at found
      exact .inr (found ▸ there)
  · rcases growth.node?_cases found with ⟨before, there, -⟩ | ⟨_, -, -, -, made⟩
    · exact absurd (node?_isSome_iff.mp ⟨before, there⟩) inside
    · simp [made] at inner

/-- Old nodes keep their parents. -/
theorem parent?_old (growth : Growth tree place kids added grown) {i : Nat}
    (inside : i < tree.nodes.size) : grown.parent? i = tree.parent? i := by
  obtain ⟨node, found⟩ := node?_isSome_iff.mpr inside
  rw [parent?_of_node? found, parent?_of_node? (growth.node?_old found)]
  split <;> rfl

/-- New nodes stand below the node at which the tree grows. -/
theorem parent?_new (growth : Growth tree place kids added grown) {i : Nat}
    (outside : tree.nodes.size ≤ i) (bound : i < grown.nodes.size) :
    grown.parent? i = some place := by
  obtain ⟨k, rfl⟩ := Nat.exists_eq_add_of_le outside
  rw [growth.size] at bound
  have here : k < added.length := by omega
  rw [parent?, growth.new, List.getElem?_eq_getElem here]
  rfl

/-- Only one node gets other children. -/
theorem children_eq (growth : Growth tree place kids added grown) (i : Nat) :
    grown.children i = if i = place then kids else tree.children i := by
  by_cases inside : i < tree.nodes.size
  · obtain ⟨node, found⟩ := node?_isSome_iff.mpr inside
    rw [children_of_node? found, children_of_node? (growth.node?_old found)]
    split <;> rfl
  · have there := growth.place_lt
    rw [if_neg (by omega), children, children, node?_eq_none (Nat.le_of_not_lt inside)]
    obtain ⟨k, rfl⟩ := Nat.exists_eq_add_of_le (Nat.le_of_not_lt inside)
    rw [growth.new]
    cases added[k]? <;> rfl

/-- New nodes have no children. -/
theorem children_new (growth : Growth tree place kids added grown) {i : Nat}
    (outside : tree.nodes.size ≤ i) : grown.children i = [] := by
  have differs : i ≠ place := Nat.ne_of_gt (Nat.lt_of_lt_of_le growth.place_lt outside)
  rw [growth.children_eq, if_neg differs, children, node?_eq_none outside]
  rfl

/-- Growth keeps the links in order. -/
theorem wellFormed (growth : Growth tree place kids added grown) (ordered : tree.WellFormed) :
    grown.WellFormed where
  root_lt := by
    have := ordered.root_lt
    rw [growth.root, growth.size]
    omega
  root_parent := by
    rw [growth.root, growth.parent?_old ordered.root_lt]
    exact ordered.root_parent
  parent_lt := by
    intro i p parent
    by_cases inside : i < tree.nodes.size
    · rw [growth.parent?_old inside] at parent
      exact ordered.parent_lt parent
    · have bound := lt_size_of_parent? parent
      rw [growth.parent?_new (Nat.le_of_not_lt inside) bound, Option.some.injEq] at parent
      have there := growth.place_lt
      omega
  parent_of_child := by
    intro i c child
    rw [growth.children_eq] at child
    split at child
    · rename_i same
      rcases growth.mem_kids child with old | ⟨outside, bound⟩
      · rw [growth.parent?_old (ordered.child_lt old), same]
        exact ordered.parent_of_child old
      · rw [growth.parent?_new outside (by rwa [growth.size]), same]
    · rw [growth.parent?_old (ordered.child_lt child)]
      exact ordered.parent_of_child child
  nodup_children i := by
    rw [growth.children_eq]
    split
    · exact growth.nodup_kids
    · exact ordered.nodup_children i

/-- Old nodes keep their ancestors. -/
theorem ancestors_old (growth : Growth tree place kids added grown) (ordered : tree.WellFormed)
    {i : Nat} (inside : i < tree.nodes.size) : grown.ancestors i = tree.ancestors i := by
  induction i using Nat.strongRecOn with
  | ind i ih =>
    have same := growth.parent?_old inside
    cases parent : tree.parent? i with
    | none => rw [ancestors_of_no_parent parent, ancestors_of_no_parent (same.trans parent)]
    | some p =>
      have older := ordered.parent_lt parent
      rw [ancestors_of_parent ordered parent,
        ancestors_of_parent (growth.wellFormed ordered) (same.trans parent),
        ih p older (by omega)]

/-- The ancestors of a new node are the node at which the tree grows and its ancestors. -/
theorem ancestors_new (growth : Growth tree place kids added grown) (ordered : tree.WellFormed)
    {i : Nat} (outside : tree.nodes.size ≤ i) (bound : i < grown.nodes.size) :
    grown.ancestors i = place :: tree.ancestors place := by
  rw [ancestors_of_parent (growth.wellFormed ordered) (growth.parent?_new outside bound),
    growth.ancestors_old ordered growth.place_lt]

/-- An old node that is attached after growth was attached before, and a new one stands below a node
that was. -/
theorem attached (growth : Growth tree place kids added grown) (ordered : tree.WellFormed)
    {i : Nat} (attached : grown.Attached i) :
    if i < tree.nodes.size then tree.Attached i else tree.Attached place := by
  induction attached with
  | root =>
    rw [growth.root, if_pos ordered.root_lt]
    exact .root
  | @child j c _ child ih =>
    rw [growth.children_eq] at child
    split at child
    · rename_i same
      subst same
      rw [if_pos growth.place_lt] at ih
      split
      · rename_i inside
        rcases growth.mem_kids child with old | ⟨outside, _⟩
        · exact .child ih old
        · omega
      · exact ih
    · rw [if_pos (lt_size_of_child child)] at ih
      rw [if_pos (ordered.child_lt child)]
      exact .child ih child

end Growth

end ProcessTree

end Supercompilation
