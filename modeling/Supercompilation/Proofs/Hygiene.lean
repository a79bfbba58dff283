import Mathlib.Data.List.Nodup
import Supercompilation.Proofs.Freshness
import Supercompilation.Proofs.Reader

/-!
# Name hygiene

The fields of the contractions in a process tree are names of their own: no two contractions share
one, none of them stands in the root or in a rule, and each is mentioned only below the contraction
that brings it in. Every variable in the tree comes from the root, from a contraction above, or from
a rule whose body has a variable that its head lacks.

`ProcessTree.Hygienic` states this of the nodes that are attached to the root. Driving keeps it,
since the names that are issued are unlike every name in the tree; folding keeps it, since the node
that takes the place of a leaf also takes over its contraction.
-/

namespace Supercompilation

namespace ProcessTree

variable {tree grown : ProcessTree}

/-- A variable at a node is accounted for: it comes from the term, from a contraction on the way to
the node, or from a rule whose head lacks it. -/
def Sourced (tree : ProcessTree) (program : Program) (t : Term) (j : Nat) (x : String) : Prop :=
  x ∈ t.occurrences ∨
    (∃ i above, tree.OnPath i j ∧ tree.node? i = some above ∧ x ∈ above.branch.freshVars) ∨
    Program.FreeIn program.rules x

/-- A variable occurs in the term of a node. -/
def Holds (tree : ProcessTree) (i : Nat) (x : String) : Prop :=
  ∃ node, tree.node? i = some node ∧ x ∈ node.term.occurrences

/-- Nodes with the same contraction have the same fields. -/
theorem freshVars_of_contraction_eq {first second : Node}
    (same : first.contraction = second.contraction) :
    first.branch.freshVars = second.branch.freshVars := by
  rw [Branch.freshVars, Branch.freshVars, Node.branch, Node.branch, same]

/-- The names of a tree for a term are hygienic. -/
structure Hygienic (tree : ProcessTree) (program : Program) (t : Term) : Prop where
  /-- The fields of a contraction are distinct. -/
  distinct : ∀ {i : Nat} {node : Node}, tree.Attached i → tree.node? i = some node →
    node.branch.freshVars.Nodup
  /-- Two contractions share no field. -/
  apart : ∀ {i j : Nat} {m n : Node} {x : String}, tree.Attached i → tree.Attached j →
    tree.node? i = some m → tree.node? j = some n →
    x ∈ m.branch.freshVars → x ∈ n.branch.freshVars → i = j
  /-- No field stands in the term or in a rule. -/
  unused : ∀ {i : Nat} {node : Node} {x : String}, tree.Attached i → tree.node? i = some node →
    x ∈ node.branch.freshVars → x ∉ t.occurrences ∧ x ∉ program.vars
  /-- A field is mentioned only at its contraction and below it. -/
  below : ∀ {i j : Nat} {m n : Node} {x : String}, tree.Attached i → tree.Attached j →
    tree.node? i = some m → tree.node? j = some n →
    x ∈ m.branch.freshVars → x ∈ n.term.mentions → tree.OnPath i j
  /-- The variable of a contraction occurs in the term of the parent. -/
  splits : ∀ {i : Nat} {node : Node} {contraction : Contraction}, tree.Attached i →
    tree.node? i = some node → node.contraction = some contraction →
    ∃ p, node.parent = some p ∧ tree.Holds p contraction.var
  /-- Every variable is accounted for. -/
  sources : ∀ {j : Nat} {node : Node} {x : String}, tree.Attached j → tree.node? j = some node →
    x ∈ node.term.occurrences → tree.Sourced program t j x

/-- An ancestor of an attached node has children. -/
theorem children_ne_nil_of_mem_ancestors (ordered : tree.WellFormed) {i j : Nat}
    (attached : tree.Attached j) (above : i ∈ tree.ancestors j) : tree.children i ≠ [] := by
  induction attached with
  | root => simp [ancestors_of_no_parent ordered.root_parent] at above
  | child _ child ih =>
    rw [ancestors_of_parent ordered (ordered.parent_of_child child)] at above
    rcases List.mem_cons.mp above with rfl | further
    · exact List.ne_nil_of_mem child
    · exact ih further

namespace Growth

variable {place : Nat} {kids : List Nat} {added : List Branch}

/-- An attached node of the grown tree is an old one, or a new one below an attached node. -/
theorem attached_cases (growth : Growth tree place kids added grown) (ordered : tree.WellFormed)
    {i : Nat} {node : Node} (attached : grown.Attached i) (found : grown.node? i = some node) :
    (∃ before, tree.node? i = some before ∧ tree.Attached i ∧ node.branch = before.branch ∧
      node.parent = before.parent) ∨
    (tree.nodes.size ≤ i ∧ added[i - tree.nodes.size]? = some node.branch ∧
      node.parent = some place) := by
  have before := growth.attached ordered attached
  rcases growth.node?_cases found with ⟨old, there, term, contraction, parent⟩ |
    ⟨branch, -, outside, here, rfl⟩
  · rw [if_pos (node?_isSome_iff.mp ⟨old, there⟩)] at before
    refine .inl ⟨old, there, before, ?_, parent⟩
    rw [Node.branch, term, contraction]
    rfl
  · exact .inr ⟨outside, here, rfl⟩

/-- An old node is still found, with what it held. -/
theorem exists_branch_old (growth : Growth tree place kids added grown) {i : Nat} {node : Node}
    (found : tree.node? i = some node) :
    ∃ after, grown.node? i = some after ∧ after.branch = node.branch := by
  obtain ⟨after, there, term, contraction, -⟩ := growth.exists_node?_old found
  refine ⟨after, there, ?_⟩
  rw [Node.branch, term, contraction]
  rfl

/-- What an old node holds it still holds. -/
theorem holds_old (growth : Growth tree place kids added grown) {i : Nat} {x : String}
    (holds : tree.Holds i x) : grown.Holds i x := by
  obtain ⟨node, found, occurs⟩ := holds
  obtain ⟨after, there, term, -⟩ := growth.exists_node?_old found
  exact ⟨after, there, term ▸ occurs⟩

/-- A variable stays accounted for, also at a node to which the way leads through all nodes that
were on the way before. -/
theorem sourced_old (growth : Growth tree place kids added grown) {program : Program} {t : Term}
    {j k : Nat} {x : String} (sourced : tree.Sourced program t j x)
    (path : ∀ i, tree.OnPath i j → grown.OnPath i k) : grown.Sourced program t k x := by
  rcases sourced with inTerm | ⟨i, above, onPath, found, fresh⟩ | free
  · exact .inl inTerm
  · obtain ⟨above', found', same⟩ := growth.exists_branch_old found
    exact .inr (.inl ⟨i, above', path i onPath, found', same ▸ fresh⟩)
  · exact .inr (.inr free)

/-- The way to an old node does not change. -/
theorem onPath_old (growth : Growth tree place kids added grown) (ordered : tree.WellFormed)
    {i j : Nat} (inside : j < tree.nodes.size) : grown.OnPath i j ↔ tree.OnPath i j := by
  rw [OnPath, OnPath, growth.ancestors_old ordered inside]

/-- The way to a new node is the way to the node at which the tree grows, and the new node. -/
theorem onPath_new (growth : Growth tree place kids added grown) (ordered : tree.WellFormed)
    {i j : Nat} (outside : tree.nodes.size ≤ j) (bound : j < grown.nodes.size) :
    grown.OnPath i j ↔ i = j ∨ tree.OnPath i place := by
  rw [OnPath, OnPath, growth.ancestors_new ordered outside bound, List.mem_cons]

end Growth

end ProcessTree

namespace BuildState

open ProcessTree

variable {rules : List Rule} {t : Term} {state next : BuildState}

namespace Drives

variable {leaf : Nat} {node : Node} {branches : List Branch}

/-- The names that driving a leaf issues stand neither in the root, nor in a rule or a node. -/
theorem unused_of_fresh (drives : Drives state next leaf node branches)
    (accounted : Accounted rules t state) (bodies : ∀ rule ∈ rules, rule.body.plain = true)
    {branch : Branch} (member : branch ∈ branches) {x : String} (fresh : x ∈ branch.freshVars) :
    (x ∉ t.occurrences ∧ x ∉ (Program.ofRules rules).vars) ∧ x ∉ node.term.occurrences ∧
      ∀ {i : Nat} {other : Node}, state.tree.node? i = some other → x ∉ other.branch.names := by
  have unknown := (drives.descends accounted bodies).2.unknown x
    (List.mem_flatMap.mpr ⟨branch, member, fresh⟩)
  refine ⟨⟨fun inRoot => ?_, fun inProgram => ?_⟩, fun inTerm => ?_, fun found named => ?_⟩
  · exact unknown (accounted.knows_root drives.pending.found inRoot)
  · exact unknown (knows_reservedFor.mpr (.inr (.inl (accounted.program.symm ▸ inProgram))))
  · exact unknown (knows_reservedFor.mpr (.inr (.inr inTerm)))
  · exact unknown (accounted.knows_names drives.pending.found found named)

/-- Different results have different fresh names. -/
theorem index_eq_of_fresh (drives : Drives state next leaf node branches)
    (accounted : Accounted rules t state) (bodies : ∀ rule ∈ rules, rule.body.plain = true)
    {k l : Nat} {first second : Branch} (here : branches[k]? = some first)
    (there : branches[l]? = some second) {x : String} (inFirst : x ∈ first.freshVars)
    (inSecond : x ∈ second.freshVars) : k = l := by
  have disjoint := (List.nodup_flatMap.mp (drives.descends accounted bodies).2.distinct).2
  rw [List.pairwise_iff_getElem] at disjoint
  obtain ⟨boundK, rfl⟩ := List.getElem?_eq_some_iff.mp here
  obtain ⟨boundL, rfl⟩ := List.getElem?_eq_some_iff.mp there
  rcases Nat.lt_trichotomy k l with less | same | greater
  · exact absurd inSecond (disjoint k l boundK boundL less inFirst)
  · exact same
  · exact absurd inFirst (disjoint l k boundL boundK greater inSecond)

/-- After a leaf is driven, a field is still mentioned only at its contraction and below it. -/
theorem onPath_of_mention (drives : Drives state next leaf node branches)
    (accounted : Accounted rules t state) (bodies : ∀ rule ∈ rules, rule.body.plain = true)
    (hygienic : state.tree.Hygienic (.ofRules rules) t) {i j : Nat} {m n : Node} {x : String}
    (attachedI : next.tree.Attached i) (attachedJ : next.tree.Attached j)
    (foundI : next.tree.node? i = some m) (foundJ : next.tree.node? j = some n)
    (fresh : x ∈ m.branch.freshVars) (mentioned : x ∈ n.term.mentions) :
    next.tree.OnPath i j := by
  rcases drives.growth.attached_cases accounted.ordered attachedJ foundJ with
    ⟨n', thereJ, oldJ, sameJ, -⟩ | ⟨outJ, hereJ, -⟩
  · -- An old node mentions no new name.
    have named : x ∈ n'.term.mentions :=
      (show n.term = n'.term from congrArg Branch.term sameJ) ▸ mentioned
    rcases drives.growth.attached_cases accounted.ordered attachedI foundI with
      ⟨m', thereI, oldI, sameI, -⟩ | ⟨outI, hereI, -⟩
    · rw [drives.growth.onPath_old accounted.ordered (oldJ.lt_size accounted.ordered)]
      exact hygienic.below oldI oldJ thereI thereJ (sameI ▸ fresh) named
    · exact absurd (List.mem_append_left _ named)
        ((drives.unused_of_fresh accounted bodies (List.mem_of_getElem? hereI) fresh).2.2 thereJ)
  · -- A variable of a result is one of the leaf, or a field of the result itself.
    have descends := (drives.descends accounted bodies).1 _ (List.mem_of_getElem? hereJ)
    have occurs := (Term.mem_mentions_of_plain descends.plain).mp mentioned
    rw [drives.growth.onPath_new accounted.ordered outJ (node?_isSome_iff.mp ⟨n, foundJ⟩)]
    rcases drives.growth.attached_cases accounted.ordered attachedI foundI with
      ⟨m', thereI, oldI, sameI, -⟩ | ⟨outI, hereI, -⟩
    · right
      rw [sameI] at fresh
      rcases descends.occurrences x occurs with inLeaf | own | free
      · exact hygienic.below oldI drives.pending.attached thereI drives.pending.found fresh
          (Term.mem_mentions_of_mem_occurrences inLeaf)
      · exact absurd (Branch.mem_names_of_mem_freshVars fresh)
          ((drives.unused_of_fresh accounted bodies (List.mem_of_getElem? hereJ) own).2.2 thereI)
      · exact absurd free.mem_vars (hygienic.unused oldI thereI fresh).2
    · left
      have unused := drives.unused_of_fresh accounted bodies (List.mem_of_getElem? hereI) fresh
      rcases descends.occurrences x occurs with inLeaf | own | free
      · exact absurd inLeaf unused.2.1
      · have same := drives.index_eq_of_fresh accounted bodies hereI hereJ fresh own
        omega
      · exact absurd free.mem_vars unused.1.2

/-- After a leaf is driven, every variable is still accounted for. -/
theorem sourced (drives : Drives state next leaf node branches)
    (accounted : Accounted rules t state) (bodies : ∀ rule ∈ rules, rule.body.plain = true)
    (hygienic : state.tree.Hygienic (.ofRules rules) t) {j : Nat} {n : Node} {x : String}
    (attached : next.tree.Attached j) (found : next.tree.node? j = some n)
    (occurs : x ∈ n.term.occurrences) : next.tree.Sourced (.ofRules rules) t j x := by
  rcases drives.growth.attached_cases accounted.ordered attached found with
    ⟨before, there, old, same, -⟩ | ⟨outside, here, -⟩
  · rw [show n.term = before.term from congrArg Branch.term same] at occurs
    refine drives.growth.sourced_old (hygienic.sources old there occurs) fun i onPath => ?_
    exact (drives.growth.onPath_old accounted.ordered (old.lt_size accounted.ordered)).mpr onPath
  · have descends := (drives.descends accounted bodies).1 _ (List.mem_of_getElem? here)
    have path : ∀ i, state.tree.OnPath i leaf → next.tree.OnPath i j := fun i onPath =>
      (drives.growth.onPath_new accounted.ordered outside
        (node?_isSome_iff.mp ⟨n, found⟩)).mpr (.inr onPath)
    rcases descends.occurrences x occurs with inLeaf | own | free
    · exact drives.growth.sourced_old
        (hygienic.sources drives.pending.attached drives.pending.found inLeaf) path
    · exact .inr (.inl ⟨j, n, .inl rfl, found, own⟩)
    · exact .inr (.inr (by rwa [Program.rules_ofRules]))

/-- Driving a leaf keeps the tree hygienic. -/
theorem hygienic (drives : Drives state next leaf node branches)
    (accounted : Accounted rules t state) (bodies : ∀ rule ∈ rules, rule.body.plain = true)
    (hygienic : state.tree.Hygienic (.ofRules rules) t) :
    next.tree.Hygienic (.ofRules rules) t where
  distinct := by
    intro i m attached found
    rcases drives.growth.attached_cases accounted.ordered attached found with
      ⟨before, there, old, same, -⟩ | ⟨-, here, -⟩
    · rw [same]
      exact hygienic.distinct old there
    · have issued := (drives.descends accounted bodies).2
      exact (List.nodup_flatMap.mp issued.distinct).1 _ (List.mem_of_getElem? here)
  apart := by
    intro i j m n x attachedI attachedJ foundI foundJ inI inJ
    rcases drives.growth.attached_cases accounted.ordered attachedI foundI with
      ⟨m', thereI, oldI, sameI, -⟩ | ⟨outI, hereI, -⟩ <;>
    rcases drives.growth.attached_cases accounted.ordered attachedJ foundJ with
      ⟨n', thereJ, oldJ, sameJ, -⟩ | ⟨outJ, hereJ, -⟩
    · exact hygienic.apart oldI oldJ thereI thereJ (sameI ▸ inI) (sameJ ▸ inJ)
    · exact absurd (Branch.mem_names_of_mem_freshVars (sameI ▸ inI))
        ((drives.unused_of_fresh accounted bodies (List.mem_of_getElem? hereJ) inJ).2.2 thereI)
    · exact absurd (Branch.mem_names_of_mem_freshVars (sameJ ▸ inJ))
        ((drives.unused_of_fresh accounted bodies (List.mem_of_getElem? hereI) inI).2.2 thereJ)
    · have same := drives.index_eq_of_fresh accounted bodies hereI hereJ inI inJ
      omega
  unused := by
    intro i m x attached found fresh
    rcases drives.growth.attached_cases accounted.ordered attached found with
      ⟨before, there, old, same, -⟩ | ⟨-, here, -⟩
    · exact hygienic.unused old there (same ▸ fresh)
    · exact (drives.unused_of_fresh accounted bodies (List.mem_of_getElem? here) fresh).1
  below attachedI attachedJ foundI foundJ fresh mentioned :=
    drives.onPath_of_mention accounted bodies hygienic attachedI attachedJ foundI foundJ fresh
      mentioned
  splits := by
    intro i m contraction attached found contracted
    rcases drives.growth.attached_cases accounted.ordered attached found with
      ⟨before, there, old, same, parent⟩ | ⟨-, here, parent⟩
    · have contracted' : before.branch.contraction = some contraction := same ▸ contracted
      obtain ⟨p, isParent, holds⟩ := hygienic.splits old there contracted'
      exact ⟨p, parent.trans isParent, drives.growth.holds_old holds⟩
    · have descends := (drives.descends accounted bodies).1 _ (List.mem_of_getElem? here)
      refine ⟨leaf, parent, drives.growth.holds_old ⟨node, drives.pending.found, ?_⟩⟩
      exact descends.contracted contraction contracted
  sources attached found occurs := drives.sourced accounted bodies hygienic attached found occurs

end Drives

namespace Folds

variable {leaf place ancestor : Nat} {node above : Node} {values : Substitution}

/-- The folded leaf is no longer attached. -/
theorem not_attached (folds : Folds state next leaf node place ancestor above values)
    (ordered : state.tree.WellFormed) : ¬ next.tree.Attached leaf := by
  intro attached
  have inside := folds.pending.attached.lt_size ordered
  have parent : next.tree.parent? leaf = some place := by
    rw [folds.growth.parent?_old inside, parent?_of_node? folds.pending.found]
    exact folds.parent
  have child := (attached.of_parent (folds.growth.wellFormed ordered) parent).2
  rw [folds.growth.children_eq, if_pos rfl] at child
  rcases mem_replace (ordered.nodup_children place) child with same | ⟨-, different⟩
  · omega
  · exact different rfl

/-- The way to the new node of a fold is the way to the leaf, but for the last node. -/
theorem onPath_new (folds : Folds state next leaf node place ancestor above values)
    (ordered : state.tree.WellFormed) {i : Nat} :
    next.tree.OnPath i state.tree.nodes.size ↔
      i = state.tree.nodes.size ∨ i ∈ state.tree.ancestors leaf := by
  have made := folds.growth.new 0
  rw [folds.growth.onPath_new ordered (Nat.le_refl _) (node?_isSome_iff.mp ⟨_, made⟩), OnPath,
    ancestors_of_parent ordered ((parent?_of_node? folds.pending.found).trans folds.parent),
    List.mem_cons]

/-- An attached node after a fold is an old one other than the leaf, or the new node, which has the
contraction of the leaf. -/
theorem attached_cases (folds : Folds state next leaf node place ancestor above values)
    (ordered : state.tree.WellFormed) {i : Nat} {other : Node} (attached : next.tree.Attached i)
    (found : next.tree.node? i = some other) :
    (∃ before, state.tree.node? i = some before ∧ state.tree.Attached i ∧ i ≠ leaf ∧
      other.branch = before.branch ∧ other.parent = before.parent) ∨
    (i = state.tree.nodes.size ∧ other.parent = some place ∧
      other.term = .letIn above.term values ∧ other.contraction = node.contraction) := by
  rcases folds.growth.attached_cases ordered attached found with
    ⟨before, there, old, same, parent⟩ | ⟨outside, here, parent⟩
  · refine .inl ⟨before, there, old, ?_, same, parent⟩
    rintro rfl
    exact folds.not_attached ordered attached
  · obtain ⟨bound, made⟩ := List.getElem?_eq_some_iff.mp here
    rw [List.length_singleton] at bound
    rw [List.getElem_singleton] at made
    refine .inr ⟨by omega, parent, ?_, ?_⟩
    · exact congrArg Branch.term made.symm
    · exact congrArg Branch.contraction made.symm

/-- After a leaf is folded, a field is still mentioned only at its contraction and below it. -/
theorem onPath_of_mention (folds : Folds state next leaf node place ancestor above values)
    (accounted : Accounted rules t state) (hygienic : state.tree.Hygienic (.ofRules rules) t)
    {i j : Nat} {m n : Node} {x : String} (attachedI : next.tree.Attached i)
    (attachedJ : next.tree.Attached j) (foundI : next.tree.node? i = some m)
    (foundJ : next.tree.node? j = some n) (fresh : x ∈ m.branch.freshVars)
    (mentioned : x ∈ n.term.mentions) : next.tree.OnPath i j := by
  rcases folds.attached_cases accounted.ordered attachedJ foundJ with
    ⟨n', thereJ, oldJ, notLeafJ, sameJ, -⟩ | ⟨rfl, -, term, -⟩
  · have named : x ∈ n'.term.mentions :=
      (show n.term = n'.term from congrArg Branch.term sameJ) ▸ mentioned
    rcases folds.attached_cases accounted.ordered attachedI foundI with
      ⟨m', thereI, oldI, -, sameI, -⟩ | ⟨-, -, -, contraction⟩
    · rw [folds.growth.onPath_old accounted.ordered (oldJ.lt_size accounted.ordered)]
      exact hygienic.below oldI oldJ thereI thereJ (sameI ▸ fresh) named
    · -- The leaf has nothing below it that could mention its fields.
      rw [freshVars_of_contraction_eq contraction] at fresh
      rcases hygienic.below folds.pending.attached oldJ folds.pending.found thereJ fresh named
        with same | above
      · exact absurd same.symm notLeafJ
      · exact absurd folds.pending.childless
          (children_ne_nil_of_mem_ancestors accounted.ordered oldJ above)
  · obtain ⟨shallow, inside⟩ := folds.occurrences accounted
    rw [term, shallow.mem_mentions] at mentioned
    rw [folds.onPath_new accounted.ordered]
    rcases folds.attached_cases accounted.ordered attachedI foundI with
      ⟨m', thereI, oldI, notLeafI, sameI, -⟩ | ⟨newI, -⟩
    · right
      rw [sameI] at fresh
      rcases inside x mentioned with inAbove | inLeaf
      · have attachedAbove := folds.pending.attached.of_mem_ancestors accounted.ordered
          folds.ancestor_mem
        exact (hygienic.below oldI attachedAbove thereI folds.foundAbove fresh
          (Term.mem_mentions_of_mem_occurrences inAbove)).mem_ancestors accounted.ordered
            folds.ancestor_mem
      · rcases hygienic.below oldI folds.pending.attached thereI folds.pending.found fresh
          (Term.mem_mentions_of_mem_occurrences inLeaf) with same | above
        · exact absurd same notLeafI
        · exact above
    · exact .inl newI

/-- After a leaf is folded, every variable is still accounted for. -/
theorem sourced (folds : Folds state next leaf node place ancestor above values)
    (accounted : Accounted rules t state) (hygienic : state.tree.Hygienic (.ofRules rules) t)
    {j : Nat} {n : Node} {x : String} (attached : next.tree.Attached j)
    (found : next.tree.node? j = some n) (occurs : x ∈ n.term.occurrences) :
    next.tree.Sourced (.ofRules rules) t j x := by
  rcases folds.attached_cases accounted.ordered attached found with
    ⟨before, there, old, -, same, -⟩ | ⟨rfl, -, term, contraction⟩
  · rw [show n.term = before.term from congrArg Branch.term same] at occurs
    refine folds.growth.sourced_old (hygienic.sources old there occurs) fun i onPath => ?_
    exact (folds.growth.onPath_old accounted.ordered (old.lt_size accounted.ordered)).mpr onPath
  · rw [term] at occurs
    have path : ∀ i, i ∈ state.tree.ancestors leaf →
        next.tree.OnPath i state.tree.nodes.size :=
      fun i above => (folds.onPath_new accounted.ordered).mpr (.inr above)
    rcases (folds.occurrences accounted).2 x occurs with inAbove | inLeaf
    · have attachedAbove := folds.pending.attached.of_mem_ancestors accounted.ordered
        folds.ancestor_mem
      refine folds.growth.sourced_old (hygienic.sources attachedAbove folds.foundAbove inAbove)
        fun i onPath => path i ?_
      exact onPath.mem_ancestors accounted.ordered folds.ancestor_mem
    · rcases hygienic.sources folds.pending.attached folds.pending.found inLeaf with
        inRoot | ⟨i, other, onPath, foundI, fresh⟩ | free
      · exact .inl inRoot
      · rcases onPath with rfl | above
        · -- What the contraction of the leaf brings in, that of the new node brings in too.
          obtain rfl : node = other := Option.some.inj (folds.pending.found.symm.trans foundI)
          refine .inr (.inl ⟨_, n, .inl rfl, found, ?_⟩)
          rwa [freshVars_of_contraction_eq contraction]
        · obtain ⟨other', foundI', sameI⟩ := folds.growth.exists_branch_old foundI
          exact .inr (.inl ⟨i, other', path i above, foundI', sameI ▸ fresh⟩)
      · exact .inr (.inr free)

/-- Folding a leaf keeps the tree hygienic. -/
theorem hygienic (folds : Folds state next leaf node place ancestor above values)
    (accounted : Accounted rules t state)
    (hygienic : state.tree.Hygienic (.ofRules rules) t) :
    next.tree.Hygienic (.ofRules rules) t where
  distinct := by
    intro i m attached found
    rcases folds.attached_cases accounted.ordered attached found with
      ⟨before, there, old, -, same, -⟩ | ⟨-, -, -, contraction⟩
    · rw [same]
      exact hygienic.distinct old there
    · rw [freshVars_of_contraction_eq contraction]
      exact hygienic.distinct folds.pending.attached folds.pending.found
  apart := by
    intro i j m n x attachedI attachedJ foundI foundJ inI inJ
    rcases folds.attached_cases accounted.ordered attachedI foundI with
      ⟨m', thereI, oldI, notLeafI, sameI, -⟩ | ⟨newI, -, -, contractionI⟩ <;>
    rcases folds.attached_cases accounted.ordered attachedJ foundJ with
      ⟨n', thereJ, oldJ, notLeafJ, sameJ, -⟩ | ⟨newJ, -, -, contractionJ⟩
    · exact hygienic.apart oldI oldJ thereI thereJ (sameI ▸ inI) (sameJ ▸ inJ)
    · rw [freshVars_of_contraction_eq contractionJ] at inJ
      exact absurd (hygienic.apart oldI folds.pending.attached thereI folds.pending.found
        (sameI ▸ inI) inJ) notLeafI
    · rw [freshVars_of_contraction_eq contractionI] at inI
      exact absurd (hygienic.apart oldJ folds.pending.attached thereJ folds.pending.found
        (sameJ ▸ inJ) inI) notLeafJ
    · rw [newI, newJ]
  unused := by
    intro i m x attached found fresh
    rcases folds.attached_cases accounted.ordered attached found with
      ⟨before, there, old, -, same, -⟩ | ⟨-, -, -, contraction⟩
    · exact hygienic.unused old there (same ▸ fresh)
    · rw [freshVars_of_contraction_eq contraction] at fresh
      exact hygienic.unused folds.pending.attached folds.pending.found fresh
  below attachedI attachedJ foundI foundJ fresh mentioned :=
    folds.onPath_of_mention accounted hygienic attachedI attachedJ foundI foundJ fresh mentioned
  splits := by
    intro i m contraction attached found contracted
    rcases folds.attached_cases accounted.ordered attached found with
      ⟨before, there, old, -, same, parent⟩ | ⟨-, parent, -, taken⟩
    · have contracted' : before.branch.contraction = some contraction := same ▸ contracted
      obtain ⟨p, isParent, holds⟩ := hygienic.splits old there contracted'
      exact ⟨p, parent.trans isParent, folds.growth.holds_old holds⟩
    · obtain ⟨p, isParent, holds⟩ :=
        hygienic.splits folds.pending.attached folds.pending.found (taken.symm.trans contracted)
      exact ⟨p, parent.trans (folds.parent.symm.trans isParent), folds.growth.holds_old holds⟩
  sources attached found occurs := folds.sourced accounted hygienic attached found occurs

end Folds

/-- The tree of a root is hygienic. -/
theorem hygienic_ofTerm (program : Program) (t : Term) : (ofTerm t).Hygienic program t where
  distinct _ found := by simp [eq_of_node?_ofTerm found, Node.branch, Branch.freshVars]
  apart _ _ found _ fresh _ := by
    simp [eq_of_node?_ofTerm found, Node.branch, Branch.freshVars] at fresh
  unused _ found fresh := by
    simp [eq_of_node?_ofTerm found, Node.branch, Branch.freshVars] at fresh
  below _ _ found _ fresh _ := by
    simp [eq_of_node?_ofTerm found, Node.branch, Branch.freshVars] at fresh
  splits _ found contracted := by simp [eq_of_node?_ofTerm found] at contracted
  sources _ found occurs := by
    rw [eq_of_node?_ofTerm found] at occurs
    exact .inl occurs

/-- Every state that a construction reaches has a hygienic tree. -/
theorem Reaches.hygienic {sc : Supercompiler} (program : sc.program = .ofRules rules)
    (bodies : ∀ rule ∈ rules, rule.body.plain = true) (written : t.plain = true)
    (reaches : (start sc t).Reaches state) : state.tree.Hygienic (.ofRules rules) t := by
  induction reaches with
  | refl => exact hygienic_ofTerm (.ofRules rules) t
  | tail early grows ih =>
    have accounted := Reaches.accounted program bodies written early
    rcases grows.cases accounted.ordered with ⟨_, _, _, drives⟩ | ⟨_, _, _, _, _, _, folds⟩
    · exact drives.hygienic accounted bodies ih
    · exact folds.hygienic accounted ih

end BuildState

namespace Supercompiler

/-- The names in the tree of a construction are hygienic, for every program and every term that can
be read, whatever the supply has issued or reserved before, and wherever the construction stops. -/
theorem build_hygienic {α : Type} {source text : String} {program : Program} {t : Term}
    (parsedProgram : Program.parse source = .ok program) (parsedTerm : Term.parse text = .ok t)
    (supply : NameSupply) (options : BuildOptions) (patience : Nat)
    (watch : Step → ProcessTree → α) :
    (build ⟨program, supply⟩ options patience watch t).tree.Hygienic program t := by
  obtain ⟨rules, rfl, bodies⟩ := Program.exists_rules_of_parse parsedProgram
  have written := Term.plain_of_parse parsedTerm
  obtain ⟨final, ends⟩ := BuildState.exists_endsIn_build ⟨.ofRules rules, supply⟩ options patience
    watch t
  rw [ends.tree]
  exact BuildState.Reaches.hygienic rfl bodies written ends.reaches

/-- The tree of a nested addition is hygienic, although the term uses the name that the supply would
issue first. -/
theorem build_hygienic_addition :
    Program.parse "gAdd(Z(), y) = y; gAdd(S(x), y) = S(gAdd(x, y));" =
      .ok (.ofRules Program.additionRules) ∧
    Term.parse "gAdd(v_1, y)" = .ok (.gCall "gAdd" [.var "v_1", .var "y"]) ∧
    (build ⟨.ofRules Program.additionRules, {}⟩ {} 9 (fun _ _ => ())
      (.gCall "gAdd" [.var "v_1", .var "y"])).tree.Hygienic (.ofRules Program.additionRules)
        (.gCall "gAdd" [.var "v_1", .var "y"]) := by
  have parsedProgram : Program.parse "gAdd(Z(), y) = y; gAdd(S(x), y) = S(gAdd(x, y));" =
      .ok (.ofRules Program.additionRules) := by rfl
  have parsedTerm : Term.parse "gAdd(v_1, y)" = .ok (.gCall "gAdd" [.var "v_1", .var "y"]) := by rfl
  exact ⟨parsedProgram, parsedTerm, build_hygienic parsedProgram parsedTerm {} {} 9 _⟩

end Supercompiler

end Supercompilation
