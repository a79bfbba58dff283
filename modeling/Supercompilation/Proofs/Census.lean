import Supercompilation.Proofs.Freshness

/-!
# The nodes of a growing tree

The nodes of a tree can be counted: all of them, those with children, and those that hold a `let`
term. Driving a leaf makes an inner node of it and adds a leaf for every result; folding a leaf puts
a `let` term in the place of a call. Neither changes anything about the other nodes of the tree, so
a step changes each of the three numbers by what it does at its leaf.
-/

namespace Supercompilation

/-- A plain term is no `let` term. -/
theorem Term.kind_ne_letIn {t : Term} (written : t.plain = true) : t.kind ≠ .letIn := by
  cases t with
  | letIn body bindings => simp at written
  | _ => simp [kind]

namespace ProcessTree

variable {tree grown : ProcessTree}

/-- Whether a node has children. -/
def isInner (tree : ProcessTree) (i : Nat) : Bool := !tree.isLeaf i

/-- Whether a node holds a `let` term. -/
def isLet (tree : ProcessTree) (i : Nat) : Bool :=
  (tree.node? i).any fun node => node.term.kind = .letIn

/-- The number of nodes of the tree that have children. -/
def innerCount (tree : ProcessTree) : Nat := tree.nodeList.countP tree.isInner

/-- The number of nodes of the tree that hold a `let` term. -/
def letCount (tree : ProcessTree) : Nat := tree.nodeList.countP tree.isLet

/-- A node has children exactly if its list of children is not empty. -/
theorem isInner_iff {i : Nat} : tree.isInner i = true ↔ tree.children i ≠ [] := by
  rw [isInner, Bool.not_eq_true', ← Bool.not_eq_true, isLeaf_iff]

/-- Whether a node that is there holds a `let` term. -/
theorem isLet_of_node? {i : Nat} {node : Node} (found : tree.node? i = some node) :
    tree.isLet i = decide (node.term.kind = .letIn) := by
  rw [isLet, found, Option.any_some]

/-- There is no `let` term in the tree of a plain root alone. -/
theorem letCount_ofTerm {t : Term} (written : t.plain = true) :
    (ProcessTree.ofTerm t).letCount = 0 := by
  have found : (ProcessTree.ofTerm t).node? 0 = some ⟨t, none, none, []⟩ := rfl
  have walked : (ProcessTree.ofTerm t).nodeList = [0] := rfl
  rw [letCount, walked, List.countP_singleton, isLet_of_node? found,
    decide_eq_false (Term.kind_ne_letIn written)]
  rfl

/-- Counting nodes when a leaf has made way for others, and the property that is counted is the same
for all nodes but the leaf. -/
theorem countP_flatMap_inPlace {leaf : Nat} {list others : List Nat} {before after : Nat → Bool}
    (distinct : list.Nodup) (member : leaf ∈ list)
    (same : ∀ i ∈ list, i ≠ leaf → after i = before i) :
    (list.flatMap (inPlace leaf others)).countP after + (if before leaf = true then 1 else 0) =
      list.countP before + others.countP after := by
  obtain ⟨front, back, rfl⟩ := List.append_of_mem member
  have inFront : front.countP after = front.countP before := by
    refine List.countP_congr fun i inside => ?_
    rw [same i (List.mem_append_left _ inside)]
    rintro rfl
    exact (List.nodup_append.mp distinct).2.2 i inside i List.mem_cons_self rfl
  have inBack : back.countP after = back.countP before := by
    refine List.countP_congr fun i inside => ?_
    rw [same i (List.mem_append_right _ (List.mem_cons_of_mem _ inside))]
    rintro rfl
    exact (List.nodup_cons.mp (List.nodup_append.mp distinct).2.1).1 inside
  rw [flatMap_inPlace others distinct, List.countP_append, List.countP_append, List.countP_append,
    List.countP_cons, inFront, inBack]
  omega

namespace Growth

variable {leaf place : Nat} {kids : List Nat} {added : List Branch}

/-- A node that was there holds a `let` term if it did. -/
theorem isLet_old (growth : Growth tree place kids added grown) {i : Nat}
    (inside : i < tree.nodes.size) : grown.isLet i = tree.isLet i := by
  obtain ⟨node, found⟩ := node?_isSome_iff.mpr inside
  obtain ⟨after, there, term, -⟩ := growth.exists_node?_old found
  rw [isLet_of_node? there, isLet_of_node? found, term]

/-- A new node holds no `let` term if none is added. -/
theorem isLet_new (growth : Growth tree place kids added grown)
    (others : ∀ branch ∈ added, branch.term.kind ≠ .letIn) {i : Nat}
    (outside : tree.nodes.size ≤ i) : grown.isLet i = false := by
  rw [isLet]
  cases found : grown.node? i with
  | none => rfl
  | some node =>
    rcases growth.node?_cases found with ⟨before, there, -⟩ | ⟨branch, member, -, -, rfl⟩
    · rw [node?_eq_none outside] at there
      contradiction
    · exact decide_eq_false (others branch member)

/-- Replacing a child leaves its parent an inner node. -/
theorem isInner_replaced
    (growth : Growth tree place ((tree.children place).replace leaf tree.nodes.size) added grown)
    (i : Nat) : grown.isInner i = tree.isInner i := by
  rw [isInner, isInner, isLeaf, isLeaf, growth.children_eq]
  split
  · rename_i same
    rw [same, Bool.eq_iff_iff]
    simp only [Bool.not_eq_true', List.isEmpty_eq_false_iff_exists_mem,
      ← List.length_pos_iff_exists_mem, List.length_replace]
  · rfl

/-- A new node has no children. -/
theorem isInner_new (growth : Growth tree place kids added grown) {i : Nat}
    (outside : tree.nodes.size ≤ i) : grown.isInner i = false := by
  rw [← Bool.not_eq_true, isInner_iff, growth.children_new outside]
  simp

end Growth

end ProcessTree

namespace BuildState

open ProcessTree

variable {rules : List Rule} {t : Term} {state next : BuildState} {leaf : Nat} {node : Node}

/-- What a step does to the numbers of nodes: the inner nodes, the nodes with `let` terms, and all
nodes become more by given numbers. -/
structure Adds (state next : BuildState) (inner lets all : Nat) : Prop where
  /-- The inner nodes. -/
  inner : next.tree.innerCount = state.tree.innerCount + inner
  /-- The nodes with `let` terms. -/
  lets : next.tree.letCount = state.tree.letCount + lets
  /-- All nodes. -/
  all : next.tree.size = state.tree.size + all

/-- What steps one after another do to the numbers. -/
theorem Adds.trans {last : BuildState} {inner inner' lets lets' all all' : Nat}
    (first : Adds state next inner lets all) (later : Adds next last inner' lets' all') :
    Adds state last (inner + inner') (lets + lets') (all + all') :=
  ⟨by rw [later.inner, first.inner, Nat.add_assoc], by rw [later.lets, first.lets, Nat.add_assoc],
    by rw [later.all, first.all, Nat.add_assoc]⟩

/-- Counting the nodes with a property before and after a step at a leaf. -/
theorem countP_nodeList {others : List Nat} (before after : Nat → Bool)
    (ordered : state.tree.WellFormed) (pending : state.Pending leaf node)
    (walked : next.tree.nodeList = state.tree.nodeList.flatMap (inPlace leaf others))
    (same : ∀ i < state.tree.nodes.size, i ≠ leaf → after i = before i) :
    next.tree.nodeList.countP after + (if before leaf = true then 1 else 0) =
      state.tree.nodeList.countP before + others.countP after := by
  rw [walked]
  refine countP_flatMap_inPlace (nodup_nodeList ordered)
    ((mem_nodeList ordered).mpr pending.attached) fun i isNode => ?_
  exact same i (((mem_nodeList ordered).mp isNode).lt_size ordered)

/-- The size of the tree after a step at a leaf. -/
theorem size_add_one {others : List Nat} (ordered : state.tree.WellFormed)
    (pending : state.Pending leaf node)
    (walked : next.tree.nodeList = state.tree.nodeList.flatMap (inPlace leaf others)) :
    next.tree.size + 1 = state.tree.size + others.length := by
  have counted := countP_nodeList (fun _ => true) (fun _ => true) ordered pending walked
    fun _ _ _ => rfl
  simpa [ProcessTree.size] using counted

/-- A leaf that needs more work has no children. -/
theorem Pending.isInner_eq_false (pending : state.Pending leaf node) :
    state.tree.isInner leaf = false := by
  rw [← Bool.not_eq_true, isInner_iff, pending.childless]
  simp

/-- A driven leaf becomes an inner node, and a leaf is added for every result. -/
theorem Drives.adds {branches : List Branch} (drives : Drives state next leaf node branches)
    (accounted : Accounted rules t state) (bodies : ∀ rule ∈ rules, rule.body.plain = true)
    (some : branches ≠ []) : Adds state next 1 0 branches.length := by
  have plain := (drives.descends accounted bodies).1
  obtain ⟨pending, -, growth⟩ := drives
  have ordered := accounted.ordered
  have walked := growth.nodeList_of_childless ordered pending.childless
  generalize kidsAre : (List.range branches.length).map (state.tree.nodes.size + ·) = kids
    at growth walked
  have length : kids.length = branches.length := by simp [← kidsAre]
  have nowInner : next.tree.isInner leaf = true := by
    rw [isInner_iff, growth.children_eq, if_pos rfl, ← List.length_pos_iff, length]
    exact List.length_pos_iff.mpr some
  have noInner : kids.countP next.tree.isInner = 0 := by
    refine List.countP_eq_zero.mpr fun c isKid => ?_
    rw [isInner_iff, growth.children_kid pending.childless isKid]
    simp
  have noLet : kids.countP next.tree.isLet = 0 := by
    refine List.countP_eq_zero.mpr fun c isKid => ?_
    rw [← kidsAre] at isKid
    obtain ⟨k, -, rfl⟩ := List.mem_map.mp isKid
    rw [growth.isLet_new (fun branch member => Term.kind_ne_letIn (plain branch member).plain)
      (Nat.le_add_right _ k)]
    exact Bool.false_ne_true
  refine ⟨?_, ?_, ?_⟩
  · have counted := countP_nodeList state.tree.isInner next.tree.isInner ordered pending
      walked fun i _ differs => by
        rw [isInner, isInner, isLeaf, isLeaf, growth.children_eq, if_neg differs]
    rw [pending.isInner_eq_false, List.countP_cons, nowInner, noInner] at counted
    simpa [innerCount] using counted
  · have counted := countP_nodeList state.tree.isLet next.tree.isLet ordered pending
      walked fun i inside _ => growth.isLet_old inside
    rw [List.countP_cons, noLet, growth.isLet_old (pending.attached.lt_size ordered),
      Nat.zero_add] at counted
    exact Nat.add_right_cancel counted
  · have counted := size_add_one ordered pending walked
    rw [List.length_cons, length] at counted
    exact Nat.add_right_cancel counted

/-- A folded leaf makes way for a `let` term. -/
theorem Folds.adds {place ancestor : Nat} {above : Node} {values : Substitution}
    (folds : Folds state next leaf node place ancestor above values)
    (ordered : state.tree.WellFormed) : Adds state next 0 1 0 := by
  have pending := folds.pending
  have growth := folds.growth
  have walked := growth.nodeList_of_replaced ordered folds.child pending.childless
  have wasCall : state.tree.isLet leaf = false := by
    rw [isLet_of_node? pending.found]
    rcases Term.isCall_iff_kind.mp folds.call with kind | kind <;> rw [kind] <;> rfl
  have isLet : next.tree.isLet state.tree.nodes.size = true := by
    rw [ProcessTree.isLet, ← Nat.add_zero state.tree.nodes.size, growth.new]
    rfl
  refine ⟨?_, ?_, ?_⟩
  · have counted := countP_nodeList state.tree.isInner next.tree.isInner ordered pending
      walked fun i _ _ => growth.isInner_replaced i
    rw [pending.isInner_eq_false, List.countP_singleton, growth.isInner_new (Nat.le_refl _)]
      at counted
    exact counted
  · have counted := countP_nodeList state.tree.isLet next.tree.isLet ordered pending
      walked fun i inside _ => growth.isLet_old inside
    rw [wasCall, List.countP_singleton, isLet] at counted
    simpa [letCount] using counted
  · exact Nat.add_right_cancel (size_add_one ordered pending walked)

end BuildState

end Supercompilation
