import Mathlib.Data.List.Nodup
import Supercompilation.Proofs.ProcessTree

/-!
# Walks from left to right

A walk goes on from a stack of nodes and puts the children of the node that it meets on top. The
relation `ProcessTree.Visits` describes a whole walk without a bound on its rounds. In a tree whose
links are in order every walk ends before its rounds are used up, so the walk from a node is the
node followed by the walks from its children, and the walk from the root meets every node that is
attached to the root, and each of them once.

When a leaf gets children, the walk meets them right behind the leaf; when a leaf is replaced, the
walk meets the new node in its place. Either way the leaves of the tree stay as they are and in
their order, but for the new leaves that stand where the old one stood.
-/

namespace Supercompilation

namespace ProcessTree

variable {tree grown : ProcessTree}

/-- A walk that goes on from the nodes of a stack meets some nodes and ends. -/
inductive Visits (tree : ProcessTree) : List Nat → List Nat → Prop where
  /-- The stack is empty. -/
  | nil : Visits tree [] []
  /-- The first node is met, and its children come before the rest of the stack. -/
  | cons {i : Nat} {stack met : List Nat} :
      Visits tree (tree.children i ++ stack) met → Visits tree (i :: stack) (i :: met)

namespace Visits

variable {stack met : List Nat}

/-- A walk goes through one part of the stack after the other. -/
theorem append {further later : List Nat} (first : Visits tree stack met)
    (second : Visits tree further later) : Visits tree (stack ++ further) (met ++ later) := by
  induction first with
  | nil => exact second
  | cons _ ih =>
    rw [List.append_assoc] at ih
    exact .cons ih

/-- The walks from the nodes of a stack one after another. -/
theorem flatMap {visited : Nat → List Nat} (each : ∀ i ∈ stack, Visits tree [i] (visited i)) :
    Visits tree stack (stack.flatMap visited) := by
  induction stack with
  | nil => exact .nil
  | cons i stack ih =>
    exact (each i List.mem_cons_self).append
      (ih fun k member => each k (List.mem_cons_of_mem i member))

/-- Nodes without children are met one after another. -/
theorem of_childless (childless : ∀ i ∈ stack, tree.children i = []) :
    Visits tree stack stack := by
  induction stack with
  | nil => exact .nil
  | cons i stack ih =>
    refine .cons ?_
    rw [childless i List.mem_cons_self, List.nil_append]
    exact ih fun k member => childless k (List.mem_cons_of_mem i member)

/-- A walk with enough rounds is the walk without a bound. -/
theorem visit_eq (visits : Visits tree stack met) {rounds : Nat} (enough : met.length ≤ rounds) :
    tree.visit rounds stack = met := by
  induction visits generalizing rounds with
  | nil => cases rounds <;> rfl
  | cons _ ih =>
    cases rounds with
    | zero => simp at enough
    | succ rounds => rw [visit, ih (Nat.le_of_succ_le_succ enough)]

/-- A stack leads to one walk only. -/
theorem unique {other : List Nat} (visits : Visits tree stack met)
    (again : Visits tree stack other) : met = other := by
  have first := visits.visit_eq (Nat.le_add_right met.length other.length)
  have second := again.visit_eq (Nat.le_add_left other.length met.length)
  exact first.symm.trans second

/-- Whatever a walk meets stands below a node of the stack. -/
theorem exists_onPath (visits : Visits tree stack met) (ordered : tree.WellFormed) {j : Nat}
    (member : j ∈ met) : ∃ i ∈ stack, tree.OnPath i j := by
  induction visits with
  | nil => contradiction
  | @cons i stack met _ ih =>
    rcases List.mem_cons.mp member with rfl | later
    · exact ⟨j, List.mem_cons_self, .inl rfl⟩
    · obtain ⟨k, onStack, path⟩ := ih later
      rcases List.mem_append.mp onStack with child | below
      · exact ⟨i, List.mem_cons_self, path.of_child ordered child⟩
      · exact ⟨k, List.mem_cons_of_mem i below, path⟩

/-- A walk from nodes with nothing below them in common meets no node twice. -/
theorem nodup (visits : Visits tree stack met) (ordered : tree.WellFormed)
    (apart : stack.Pairwise fun i k => ∀ j, tree.OnPath i j → ¬ tree.OnPath k j) :
    met.Nodup := by
  induction visits with
  | nil => exact List.nodup_nil
  | @cons i stack met visits ih =>
    rw [List.pairwise_cons] at apart
    obtain ⟨fromFirst, apart⟩ := apart
    refine List.nodup_cons.mpr ⟨fun again => ?_, ih ?_⟩
    · obtain ⟨k, onStack, path⟩ := visits.exists_onPath ordered again
      rcases List.mem_append.mp onStack with child | below
      · have older := ordered.parent_lt (ordered.parent_of_child child)
        have younger := path.le ordered
        omega
      · exact fromFirst k below i (.inl rfl) path
    · rw [List.pairwise_append]
      refine ⟨?_, apart, fun c child k below j path => ?_⟩
      · refine (ordered.nodup_children i).imp_of_mem fun child child' differ j path path' => ?_
        exact differ (path.eq_of_siblings ordered path' (ordered.parent_of_child child)
          (ordered.parent_of_child child'))
      · exact fromFirst k below j (path.of_child ordered child)

/-- What holds of the nodes of a stack and passes from nodes to their children holds of whatever the
walk meets. -/
theorem forall_mem {holds : Nat → Prop} (visits : Visits tree stack met)
    (passes : ∀ i, holds i → ∀ c ∈ tree.children i, holds c) (each : ∀ i ∈ stack, holds i) :
    ∀ i ∈ met, holds i := by
  induction visits with
  | nil => exact each
  | @cons i stack met _ ih =>
    rw [List.forall_mem_cons] at each ⊢
    exact ⟨each.1, ih (List.forall_mem_append.mpr ⟨passes i each.1, each.2⟩)⟩

/-- A walk meets the nodes of its stack. -/
theorem stack_subset (visits : Visits tree stack met) : stack ⊆ met := by
  induction visits with
  | nil => exact List.Subset.refl []
  | cons _ ih => exact List.cons_subset_cons _ fun i below => ih (List.mem_append_right _ below)

/-- A walk meets the children of every node that it meets. -/
theorem children_mem (visits : Visits tree stack met) {i : Nat} (member : i ∈ met) {c : Nat}
    (child : c ∈ tree.children i) : c ∈ met := by
  induction visits with
  | nil => contradiction
  | cons visits ih =>
    refine List.mem_cons_of_mem _ ?_
    rcases List.mem_cons.mp member with rfl | later
    · exact visits.stack_subset (List.mem_append_left _ child)
    · exact ih later

end Visits

/-- Every walk ends, since children are younger than their parents. -/
theorem exists_visits (ordered : tree.WellFormed) (i : Nat) : ∃ met, Visits tree [i] met := by
  induction i using ordered.induction_down with
  | passes i ih =>
    choose! visited visits using ih
    refine ⟨i :: (tree.children i).flatMap visited, .cons ?_⟩
    rw [List.append_nil]
    exact .flatMap visits

/-- A walk from a node that is there meets no more nodes than there are. -/
theorem Visits.length_le {i : Nat} {met : List Nat} (visits : Visits tree [i] met)
    (ordered : tree.WellFormed) (inside : i < tree.nodes.size) : met.length ≤ tree.nodes.size := by
  have distinct : met.Nodup := visits.nodup ordered (List.pairwise_singleton _ i)
  have within : met ⊆ List.range tree.nodes.size := fun j member => List.mem_range.mpr
    (visits.forall_mem (fun _ _ _ child => ordered.child_lt child) (by simpa using inside) j member)
  simpa using distinct.length_le_of_subset within

/-- The walk from a node that is there meets all that a walk without a bound meets. -/
theorem visits_walk (ordered : tree.WellFormed) {i : Nat} (inside : i < tree.nodes.size) :
    Visits tree [i] (tree.walk i) := by
  obtain ⟨met, visits⟩ := exists_visits ordered i
  rw [walk, visits.visit_eq (visits.length_le ordered inside)]
  exact visits

/-- The walk from a node is the node and the walks from its children, from left to right. -/
theorem walk_eq (ordered : tree.WellFormed) {i : Nat} (inside : i < tree.nodes.size) :
    tree.walk i = i :: (tree.children i).flatMap tree.walk := by
  refine (visits_walk ordered inside).unique (.cons ?_)
  rw [List.append_nil]
  exact .flatMap fun c child => visits_walk ordered (ordered.child_lt child)

/-- The walk from a node meets no node twice. -/
theorem nodup_walk (ordered : tree.WellFormed) {i : Nat} (inside : i < tree.nodes.size) :
    (tree.walk i).Nodup :=
  (visits_walk ordered inside).nodup ordered (List.pairwise_singleton _ i)

/-- The walk through a tree meets no node twice. -/
theorem nodup_nodeList (ordered : tree.WellFormed) : tree.nodeList.Nodup :=
  nodup_walk ordered ordered.root_lt

/-- The walk through a tree meets the attached nodes and no others. -/
theorem mem_nodeList (ordered : tree.WellFormed) {i : Nat} :
    i ∈ tree.nodeList ↔ tree.Attached i := by
  have visits : Visits tree [tree.root] tree.nodeList := visits_walk ordered ordered.root_lt
  constructor
  · refine visits.forall_mem (fun i attached c child => attached.child child) (fun i root => ?_) i
    exact List.mem_singleton.mp root ▸ .root
  · intro attached
    induction attached with
    | root => exact visits.stack_subset (List.mem_singleton_self _)
    | child _ child ih => exact visits.children_mem ih child

/-- The leaves of a tree are the attached nodes without children. -/
theorem mem_leaves (ordered : tree.WellFormed) {i : Nat} :
    i ∈ tree.leaves ↔ tree.Attached i ∧ tree.children i = [] := by
  rw [leaves, leavesFrom, List.mem_filter, isLeaf, List.isEmpty_iff]
  exact and_congr_left fun _ => mem_nodeList ordered

/-- The leaves of a tree are all different. -/
theorem nodup_leaves (ordered : tree.WellFormed) : tree.leaves.Nodup :=
  (nodup_nodeList ordered).filter _

/-- What stands at the place of a node once a leaf has made way for other nodes. -/
def inPlace (leaf : Nat) (others : List Nat) (i : Nat) : List Nat :=
  if i = leaf then others else [i]

@[simp]
theorem inPlace_self (leaf : Nat) (others : List Nat) : inPlace leaf others leaf = others :=
  if_pos rfl

/-- A node other than the leaf stays where it is. -/
theorem inPlace_of_ne {leaf i : Nat} (differs : i ≠ leaf) (others : List Nat) :
    inPlace leaf others i = [i] :=
  if_neg differs

/-- One node stands at the place of every node after a leaf has been replaced. -/
theorem exists_inPlace (leaf new i : Nat) : ∃ j, inPlace leaf [new] i = [j] := by
  by_cases same : i = leaf
  · exact ⟨new, by rw [same, inPlace_self]⟩
  · exact ⟨i, inPlace_of_ne same _⟩

/-- In a list that holds the leaf once, the others stand between what was before it and behind it.
-/
theorem flatMap_inPlace {leaf : Nat} {before after : List Nat} (others : List Nat)
    (distinct : (before ++ leaf :: after).Nodup) :
    (before ++ leaf :: after).flatMap (inPlace leaf others) = before ++ (others ++ after) := by
  have keeps : ∀ {list : List Nat}, leaf ∉ list → list.flatMap (inPlace leaf others) = list := by
    intro list absent
    have single : ∀ i ∈ list, inPlace leaf others i = [i] := fun i member =>
      inPlace_of_ne (fun same : i = leaf => absent (same ▸ member)) others
    rw [List.flatMap_congr single, ← List.map_eq_flatMap, List.map_id']
  obtain ⟨-, behind, disjoint⟩ := List.nodup_append.mp distinct
  have notBefore : leaf ∉ before := fun member =>
    disjoint leaf member leaf List.mem_cons_self rfl
  have notAfter : leaf ∉ after := (List.nodup_cons.mp behind).1
  rw [List.flatMap_append, List.flatMap_cons, keeps notBefore, keeps notAfter, inPlace_self]

/-- Keeping some of what stands at the places of the nodes of a list, node by node. -/
theorem filter_flatMap_eq {list : List Nat} {put kept : Nat → List Nat} {new old : Nat → Bool}
    (each : ∀ i, (put i).filter new = if old i = true then kept i else []) :
    (list.flatMap put).filter new = (list.filter old).flatMap kept := by
  induction list with
  | nil => rfl
  | cons i list ih =>
    rw [List.flatMap_cons, List.filter_append, each i, ih, List.filter_cons]
    cases old i <;> simp

/-- The walk through a tree is the only one from its root. -/
theorem nodeList_eq {met : List Nat} (ordered : grown.WellFormed)
    (sameRoot : grown.root = tree.root) (visits : Visits grown [tree.root] met) :
    grown.nodeList = met :=
  (visits_walk ordered ordered.root_lt).unique (by rwa [sameRoot])

/-- The walks through two trees, one read off the other node by node, lead to the leaves of the one
read off the leaves of the other. -/
theorem leaves_eq_flatMap {put kept : Nat → List Nat}
    (walked : grown.nodeList = tree.nodeList.flatMap put)
    (each : ∀ i, (put i).filter grown.isLeaf = if tree.isLeaf i = true then kept i else []) :
    grown.leaves = tree.leaves.flatMap kept := by
  rw [leaves, leavesFrom, ← nodeList, walked]
  exact filter_flatMap_eq each

/-- Whether a node is a leaf depends on its children alone. -/
theorem isLeaf_iff {i : Nat} : tree.isLeaf i = true ↔ tree.children i = [] := by
  rw [isLeaf, List.isEmpty_iff]

namespace Growth

variable {leaf place : Nat} {kids : List Nat} {added : List Branch} {stack met : List Nat}

/-- The children that a leaf gets have no children. -/
theorem children_kid (growth : Growth tree leaf kids added grown)
    (childless : tree.children leaf = []) {c : Nat} (member : c ∈ kids) :
    grown.children c = [] := by
  rcases growth.mem_kids member with old | ⟨outside, -⟩
  · rw [childless] at old
    contradiction
  · exact growth.children_new outside

/-- A walk meets the children that a leaf got right behind the leaf. -/
theorem visits_of_childless (growth : Growth tree leaf kids added grown)
    (childless : tree.children leaf = []) (visits : Visits tree stack met) :
    Visits grown stack (met.flatMap (inPlace leaf (leaf :: kids))) := by
  induction visits with
  | nil => exact .nil
  | @cons i stack met _ ih =>
    rw [List.flatMap_cons]
    by_cases same : i = leaf
    · subst same
      rw [childless, List.nil_append] at ih
      rw [inPlace_self, List.cons_append]
      refine .cons ?_
      rw [growth.children_eq, if_pos rfl]
      exact (Visits.of_childless fun c => growth.children_kid childless).append ih
    · rw [inPlace_of_ne same, List.singleton_append]
      refine .cons ?_
      rwa [growth.children_eq, if_neg same]

/-- The walk through the tree meets the children that a leaf got right behind the leaf. -/
theorem nodeList_of_childless (growth : Growth tree leaf kids added grown)
    (ordered : tree.WellFormed) (childless : tree.children leaf = []) :
    grown.nodeList = tree.nodeList.flatMap (inPlace leaf (leaf :: kids)) :=
  nodeList_eq (growth.wellFormed ordered) growth.root
    (growth.visits_of_childless childless (visits_walk ordered ordered.root_lt))

/-- The children that a leaf got are leaves in its place. -/
theorem leaves_of_childless (growth : Growth tree leaf kids added grown)
    (ordered : tree.WellFormed) (childless : tree.children leaf = []) (some : kids ≠ []) :
    grown.leaves = tree.leaves.flatMap (inPlace leaf kids) := by
  refine leaves_eq_flatMap (growth.nodeList_of_childless ordered childless) fun i => ?_
  by_cases same : i = leaf
  · subst same
    have wasLeaf : tree.isLeaf i = true := isLeaf_iff.mpr childless
    have isInner : ¬ grown.isLeaf i = true := by
      rw [isLeaf_iff, growth.children_eq, if_pos rfl]
      exact some
    have areLeaves : ∀ c ∈ kids, grown.isLeaf c = true := fun c member =>
      isLeaf_iff.mpr (growth.children_kid childless member)
    rw [if_pos wasLeaf, inPlace_self, inPlace_self, List.filter_cons_of_neg isInner,
      List.filter_eq_self.mpr areLeaves]
  · have unchanged : grown.isLeaf i = tree.isLeaf i := by
      rw [isLeaf, isLeaf, growth.children_eq, if_neg same]
    rw [inPlace_of_ne same, inPlace_of_ne same, List.filter_cons, List.filter_nil, unchanged]

/-- The children of the nodes after a leaf has been replaced: the new node stands for the leaf. -/
theorem children_replaced
    (growth : Growth tree place ((tree.children place).replace leaf tree.nodes.size) added grown)
    (ordered : tree.WellFormed) (child : leaf ∈ tree.children place)
    (childless : tree.children leaf = []) {i j : Nat}
    (stands : inPlace leaf [tree.nodes.size] i = [j]) :
    grown.children j = (tree.children i).flatMap (inPlace leaf [tree.nodes.size]) := by
  by_cases isLeaf : i = leaf
  · subst isLeaf
    obtain rfl : tree.nodes.size = j := by simpa using stands
    rw [childless, growth.children_new (Nat.le_refl _)]
    rfl
  · obtain rfl : i = j := by simpa [inPlace_of_ne isLeaf] using stands
    rw [growth.children_eq]
    by_cases isPlace : i = place
    · obtain ⟨before, after, split⟩ := List.append_of_mem child
      have distinct := ordered.nodup_children place
      rw [split] at distinct
      have notBefore : leaf ∉ before := fun member =>
        (List.nodup_append.mp distinct).2.2 leaf member leaf List.mem_cons_self rfl
      rw [if_pos isPlace, isPlace, split, flatMap_inPlace _ distinct,
        List.replace_append_right notBefore, List.replace_cons_self]
      rfl
    · -- The leaf is a child of its parent alone.
      have single : ∀ c ∈ tree.children i, inPlace leaf [tree.nodes.size] c = [c] := by
        intro c member
        refine inPlace_of_ne (fun same => isPlace ?_) _
        have parent := ordered.parent_of_child member
        rw [same, ordered.parent_of_child child, Option.some.injEq] at parent
        exact parent.symm
      rw [if_neg isPlace, List.flatMap_congr single, ← List.map_eq_flatMap, List.map_id']

/-- A walk meets the node that replaced a leaf where it met the leaf. -/
theorem visits_of_replaced
    (growth : Growth tree place ((tree.children place).replace leaf tree.nodes.size) added grown)
    (ordered : tree.WellFormed) (child : leaf ∈ tree.children place)
    (childless : tree.children leaf = []) (visits : Visits tree stack met) :
    Visits grown (stack.flatMap (inPlace leaf [tree.nodes.size]))
      (met.flatMap (inPlace leaf [tree.nodes.size])) := by
  induction visits with
  | nil => exact .nil
  | @cons i stack met _ ih =>
    obtain ⟨j, stands⟩ := exists_inPlace leaf tree.nodes.size i
    rw [List.flatMap_append, ← growth.children_replaced ordered child childless stands] at ih
    rw [List.flatMap_cons, List.flatMap_cons, stands]
    exact .cons ih

/-- The walk through the tree meets the node that replaced a leaf where it met the leaf. -/
theorem nodeList_of_replaced
    (growth : Growth tree place ((tree.children place).replace leaf tree.nodes.size) added grown)
    (ordered : tree.WellFormed) (child : leaf ∈ tree.children place)
    (childless : tree.children leaf = []) :
    grown.nodeList = tree.nodeList.flatMap (inPlace leaf [tree.nodes.size]) := by
  have notRoot : tree.root ≠ leaf := by
    rintro rfl
    have parent := ordered.parent_of_child child
    rw [ordered.root_parent] at parent
    contradiction
  have visits := growth.visits_of_replaced ordered child childless
    (visits_walk ordered ordered.root_lt)
  rw [List.flatMap_singleton, inPlace_of_ne notRoot] at visits
  exact nodeList_eq (growth.wellFormed ordered) growth.root visits

/-- The node that replaced a leaf is a leaf in its place. -/
theorem leaves_of_replaced
    (growth : Growth tree place ((tree.children place).replace leaf tree.nodes.size) added grown)
    (ordered : tree.WellFormed) (child : leaf ∈ tree.children place)
    (childless : tree.children leaf = []) :
    grown.leaves = tree.leaves.flatMap (inPlace leaf [tree.nodes.size]) := by
  refine leaves_eq_flatMap (growth.nodeList_of_replaced ordered child childless) fun i => ?_
  obtain ⟨j, stands⟩ := exists_inPlace leaf tree.nodes.size i
  have same : grown.isLeaf j = tree.isLeaf i := by
    rw [isLeaf, isLeaf, growth.children_replaced ordered child childless stands]
    cases tree.children i with
    | nil => rfl
    | cons c rest =>
      obtain ⟨k, next⟩ := exists_inPlace leaf tree.nodes.size c
      rw [List.flatMap_cons, next]
      rfl
  rw [stands, List.filter_cons, List.filter_nil, same]

end Growth

end ProcessTree

end Supercompilation
