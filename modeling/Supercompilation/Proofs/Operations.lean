import Mathlib.Logic.Relation
import Supercompilation.Growth
import Supercompilation.Proofs.Driving
import Supercompilation.Proofs.Preorder

/-!
# Operations on trees

Children can be appended to any node that has been made, any node can be replaced, and any node can
be grown by a step; also a node that has been replaced before, a former root, or a node below one of
these. `Workbench.perform` carries out one operation. The links between the nodes stay in order
whatever is done, and an operation that fails changes nothing but the supply of names.

A step is an operation of one of the two other sorts, and all but one of these are growths. The
exception is the replacement of a node without a parent, by which a new node becomes the root.
-/

namespace Supercompilation

/-- Driving moves the supply of a supercompiler on, also if it fails, and leaves its program alone.
-/
theorem Supercompiler.advanced_drive (sc : Supercompiler) (t : Term) :
    (sc.drive t).2.program = sc.program ∧ sc.supply.Advanced (sc.drive t).2.supply := by
  refine ⟨rfl, ?_⟩
  have reserved := (NameSupply.Advanced.reserve sc.supply sc.program.vars).trans (.reserve _ t.vars)
  exact reserved.trans (Program.goesOn_driveTerm t _).advanced

namespace ProcessTree

variable {tree grown : ProcessTree} {i new : Nat} {t : Term}

/-- Every node of a tree keeps its term, its contraction and its parent in another. -/
def Keeps (tree grown : ProcessTree) : Prop :=
  ∀ {i : Nat} {node : Node}, tree.node? i = some node →
    ∃ after, grown.node? i = some after ∧ after.term = node.term ∧
      after.contraction = node.contraction ∧ after.parent = node.parent

/-- Growth changes the children of a node alone. -/
theorem Growth.keeps {place : Nat} {kids : List Nat} {added : List Branch}
    (growth : Growth tree place kids added grown) : tree.Keeps grown :=
  fun found => growth.exists_node?_old found

/-- Putting a new root in the place of a node without a parent keeps the links in order, and all
nodes stay as they are. -/
theorem wellFormed_replace_of_no_parent (ordered : tree.WellFormed) {node : Node}
    (found : tree.node? i = some node) (top : node.parent = none)
    (replaced : tree.replace i t = .ok (new, grown)) :
    grown.WellFormed ∧ tree.Keeps grown := by
  rw [replace, found] at replaced
  simp only [top, Except.ok.injEq, Prod.mk.injEq] at replaced
  obtain ⟨-, rfl⟩ := replaced
  have nodes : ∀ j, (⟨tree.nodes.push ⟨t, none, none, []⟩, tree.nodes.size⟩ : ProcessTree).node? j =
      if j = tree.nodes.size then some ⟨t, none, none, []⟩ else tree.node? j := fun j => by
    rw [node?, Array.getElem?_push]
    rfl
  -- The new node has neither a parent nor children, as if it were not there.
  have absent := node?_eq_none (Nat.le_refl tree.nodes.size)
  have children : ∀ j, (⟨tree.nodes.push ⟨t, none, none, []⟩, tree.nodes.size⟩ :
      ProcessTree).children j = tree.children j := fun j => by
    rw [ProcessTree.children, nodes]
    split
    · rename_i newest
      rw [ProcessTree.children, newest, absent]
      rfl
    · rfl
  have parents : ∀ j, (⟨tree.nodes.push ⟨t, none, none, []⟩, tree.nodes.size⟩ :
      ProcessTree).parent? j = tree.parent? j := fun j => by
    rw [parent?, nodes]
    split
    · rename_i newest
      rw [parent?, newest, absent]
      rfl
    · rfl
  refine ⟨⟨?_, ?_, ?_, ?_, ?_⟩, fun {j _} there => ?_⟩
  · simp
  · rw [parents, parent?, absent]
    rfl
  · intro j p parent
    exact ordered.parent_lt (parents j ▸ parent)
  · intro j c child
    rw [children] at child
    rw [parents]
    exact ordered.parent_of_child child
  · intro j
    rw [children]
    exact ordered.nodup_children j
  · have inside := node?_isSome_iff.mp ⟨_, there⟩
    exact ⟨_, by rw [nodes, if_neg (Nat.ne_of_lt inside)]; exact there, rfl, rfl, rfl⟩

/-- Replacing a node keeps the links in order, and changes the children of its parent alone. -/
theorem wellFormed_replace (ordered : tree.WellFormed) (bound : i < tree.nodes.size)
    (replaced : tree.replace i t = .ok (new, grown)) : grown.WellFormed ∧ tree.Keeps grown := by
  obtain ⟨node, found⟩ := node?_isSome_iff.mpr bound
  cases parent : node.parent with
  | none => exact wellFormed_replace_of_no_parent ordered found parent replaced
  | some p =>
    obtain ⟨-, -, growth⟩ := growth_replace ordered found parent replaced
    exact ⟨growth.wellFormed ordered, growth.keeps⟩

/-- A node is refused a replacement exactly if it is no longer among the children of its parent. -/
theorem replace_eq_error {e : Detached} :
    tree.replace i t = .error e ↔
      ∃ p, tree.node? i = some e.node ∧ e.node.parent = some p ∧ i ∉ tree.children p := by
  constructor
  · intro refused
    rw [replace] at refused
    split at refused
    · contradiction
    · rename_i node found
      split at refused
      · contradiction
      · rename_i p parent
        split at refused
        · contradiction
        · rename_i gone
          rw [Except.error.injEq] at refused
          subst refused
          exact ⟨p, found, parent, by simpa using gone⟩
  · rintro ⟨p, found, parent, gone⟩
    simp [replace, found, parent, gone]

/-- The links of a tree are consistent, for the nodes attached to the root and for all others that
have been made. -/
structure Consistent (tree : ProcessTree) : Prop where
  /-- A node is a child of one node at most. -/
  one_list : ∀ {i j c : Nat}, c ∈ tree.children i → c ∈ tree.children j → i = j
  /-- It stands at one place there. -/
  once : ∀ i : Nat, (tree.children i).Nodup
  /-- Its parent is the node of which it is a child. -/
  parent_of_child : ∀ {i c : Nat}, c ∈ tree.children i → tree.parent? c = some i
  /-- Following parents comes to an end. -/
  acyclic : WellFounded fun p i : Nat => tree.parent? i = some p
  /-- The ancestors of a node are all that following parents leads to. -/
  ancestors_eq : ∀ i : Nat, tree.ancestors i =
    match tree.parent? i with
    | none => []
    | some p => p :: tree.ancestors p
  /-- The walk from a node comes to an end. -/
  visits_walk : ∀ i < tree.nodes.size, Visits tree [i] (tree.walk i)
  /-- The walk from the root meets no node twice. -/
  nodup_nodeList : tree.nodeList.Nodup
  /-- The walk from the root meets what is attached to it. -/
  mem_nodeList : ∀ i : Nat, i ∈ tree.nodeList ↔ tree.Attached i
  /-- Following parents leads from what is attached to the root. -/
  last_ancestor : ∀ {i : Nat}, tree.Attached i → (i :: tree.ancestors i).getLast? = some tree.root
  /-- The root has no parent. -/
  root_parent : tree.parent? tree.root = none

/-- Links that are in order are consistent. -/
theorem WellFormed.consistent (ordered : tree.WellFormed) : tree.Consistent where
  one_list {i j c} here there := by
    have same := ordered.parent_of_child here
    rw [ordered.parent_of_child there, Option.some.injEq] at same
    exact same.symm
  once := ordered.nodup_children
  parent_of_child := ordered.parent_of_child
  acyclic := Subrelation.wf (fun parent => ordered.parent_lt parent) Nat.lt_wfRel.wf
  ancestors_eq i := by
    cases parent : tree.parent? i with
    | none => exact ancestors_of_no_parent parent
    | some p => exact ancestors_of_parent ordered parent
  visits_walk i inside := ProcessTree.visits_walk ordered inside
  nodup_nodeList := ProcessTree.nodup_nodeList ordered
  mem_nodeList i := ProcessTree.mem_nodeList ordered
  last_ancestor attached := by
    induction attached with
    | root =>
      rw [ancestors_of_no_parent ordered.root_parent]
      rfl
    | child _ child ih =>
      rw [ancestors_of_parent ordered (ordered.parent_of_child child), List.getLast?_cons_cons]
      exact ih
  root_parent := ordered.root_parent

end ProcessTree

/-- An operation on a tree. -/
inductive TreeOperation where
  /-- Append children to a node. -/
  | addChildren (i : Nat) (branches : List Branch)
  /-- Replace a node. -/
  | replace (i : Nat) (t : Term)
  /-- Grow the tree at a node. -/
  | step (i : Nat)

/-- The node that an operation is about. -/
def TreeOperation.node : TreeOperation → Nat
  | addChildren i _ => i
  | replace i _ => i
  | step i => i

/-- A tree, and a supercompiler to grow it. -/
structure Workbench where
  /-- The tree. -/
  tree : ProcessTree
  /-- The supercompiler. -/
  supercompiler : Supercompiler

namespace Workbench

open ProcessTree

variable {bench next : Workbench} {operation : TreeOperation}

/-- Carry out an operation: what is wrong, if it fails, and what is there afterwards. -/
def perform (bench : Workbench) : TreeOperation → Option GrowthError × Workbench
  | .addChildren i branches => (none, { bench with tree := bench.tree.addChildren i branches })
  | .replace i t =>
    match bench.tree.replace i t with
    | .error e => (some (.detached e), bench)
    | .ok (_, tree) => (none, { bench with tree })
  | .step i =>
    match bench.supercompiler.step bench.tree i with
    | (.error e, supercompiler) => (some e, { bench with supercompiler })
    | (.ok grown, supercompiler) => (none, ⟨grown.tree, supercompiler⟩)

/-- An operation on a node that has been made leads from one workbench to another. -/
def Leads (bench next : Workbench) : Prop :=
  ∃ operation : TreeOperation, operation.node < bench.tree.nodes.size ∧
    (bench.perform operation).2 = next

/-- Operations lead from one workbench to another. -/
abbrev Reaches : Workbench → Workbench → Prop := Relation.ReflTransGen Leads

/-- The workbench with the tree of a root alone. -/
def start (sc : Supercompiler) (t : Term) : Workbench := ⟨.ofTerm t, sc⟩

/-- A step that succeeds appends children to the node or replaces it. -/
theorem step_eq_ok {sc later : Supercompiler} {tree : ProcessTree} {i : Nat} {grown : Grown}
    (bound : i < tree.nodes.size) (stepped : sc.step tree i = (.ok grown, later)) :
    (∃ branches, grown.tree = tree.addChildren i branches) ∨
      ∃ t new, tree.replace i t = .ok (new, grown.tree) := by
  obtain ⟨node, found⟩ := node?_isSome_iff.mpr bound
  have driven : sc.driveNode tree i node.term = (.ok grown, later) →
      ∃ branches, grown.tree = tree.addChildren i branches := by
    intro driven
    rw [Supercompiler.driveNode] at driven
    split at driven
    · simp at driven
    · rename_i branches _ _
      rw [Prod.mk.injEq, Except.ok.injEq] at driven
      exact ⟨branches, by rw [← driven.1]⟩
  rw [Supercompiler.step, found] at stepped
  simp only at stepped
  split at stepped
  · split at stepped
    · exact .inl (driven stepped)
    · rename_i folded _
      split at stepped
      · simp at stepped
      · rename_i new tree' replaced
        rw [Prod.mk.injEq, Except.ok.injEq] at stepped
        exact .inr ⟨folded, new, by rw [replaced, ← stepped.1]⟩
  · exact .inl (driven stepped)

/-- A step fails if the term of the node is refused, or if the node is to be replaced and is no
longer in the tree. -/
theorem step_eq_error {sc later : Supercompiler} {tree : ProcessTree} {i : Nat} {e : GrowthError}
    (failed : sc.step tree i = (.error e, later)) :
    (∃ node refusal, e = .drive refusal ∧ tree.node? i = some node ∧
      sc.drive node.term = (.error refusal, later)) ∨
    ∃ detached t, e = .detached detached ∧ tree.replace i t = .error detached ∧ later = sc := by
  rw [Supercompiler.step] at failed
  cases found : tree.node? i with
  | none => simp [found] at failed
  | some node =>
    have driven : sc.driveNode tree i node.term = (.error e, later) →
        ∃ refusal, e = .drive refusal ∧ sc.drive node.term = (.error refusal, later) := by
      intro driven
      rw [Supercompiler.driveNode] at driven
      split at driven
      · rename_i refusal _ refused
        rw [Prod.mk.injEq, Except.error.injEq] at driven
        exact ⟨refusal, driven.1.symm, by rw [refused, driven.2]⟩
      · simp at driven
    rw [found] at failed
    simp only at failed
    split at failed
    · split at failed
      · obtain ⟨refusal, same, refused⟩ := driven failed
        exact .inl ⟨node, refusal, same, rfl, refused⟩
      · rename_i folded _
        split at failed
        · rename_i detached replaced
          rw [Prod.mk.injEq, Except.error.injEq] at failed
          exact .inr ⟨detached, folded, failed.1.symm, replaced, failed.2.symm⟩
        · simp at failed
    · obtain ⟨refusal, same, refused⟩ := driven failed
      exact .inl ⟨node, refusal, same, rfl, refused⟩

/-- What an operation can do to the tree: nothing, append children to the node, or replace it. -/
theorem perform_cases (bound : operation.node < bench.tree.nodes.size) :
    (bench.perform operation).2.tree = bench.tree ∨
    (∃ branches, (bench.perform operation).2.tree =
      bench.tree.addChildren operation.node branches) ∨
    ∃ t new, bench.tree.replace operation.node t =
      .ok (new, (bench.perform operation).2.tree) := by
  cases operation with
  | addChildren i branches => exact .inr (.inl ⟨branches, rfl⟩)
  | replace i t =>
    rw [perform]
    split
    · exact .inl rfl
    · rename_i new tree replaced
      exact .inr (.inr ⟨t, new, replaced⟩)
  | step i =>
    rw [perform]
    split
    · exact .inl rfl
    · rename_i stepped
      exact .inr (step_eq_ok bound stepped)

/-- An operation keeps the links in order, and changes no term, contraction or parent. -/
theorem wellFormed_perform (ordered : bench.tree.WellFormed)
    (bound : operation.node < bench.tree.nodes.size) :
    (bench.perform operation).2.tree.WellFormed ∧
      bench.tree.Keeps (bench.perform operation).2.tree := by
  rcases perform_cases bound with same | ⟨branches, added⟩ | ⟨t, new, replaced⟩
  · rw [same]
    exact ⟨ordered, fun found => ⟨_, found, rfl, rfl, rfl⟩⟩
  · have growth := growth_addChildren ordered bound branches
    rw [added]
    exact ⟨growth.wellFormed ordered, growth.keeps⟩
  · exact wellFormed_replace ordered bound replaced

/-- Operations keep the links in order. -/
theorem Reaches.wellFormed (reaches : bench.Reaches next) (ordered : bench.tree.WellFormed) :
    next.tree.WellFormed := by
  induction reaches with
  | refl => exact ordered
  | tail _ leads ih =>
    obtain ⟨operation, bound, rfl⟩ := leads
    exact (wellFormed_perform ih bound).1

/-- What is left as it was by an operation that fails, and why it fails: the term of a node that is
grown is refused, or the node is no longer among the children of its parent. -/
structure Fails (bench : Workbench) (operation : TreeOperation) (e : GrowthError)
    (next : Workbench) : Prop where
  /-- All nodes and the root stay as they are. -/
  tree : next.tree = bench.tree
  /-- The program stays the same. -/
  program : next.supercompiler.program = bench.supercompiler.program
  /-- The supply may have moved on. -/
  supply : bench.supercompiler.supply.Advanced next.supercompiler.supply
  /-- What is wrong. -/
  cause :
    (∃ node refusal, e = .drive refusal ∧ operation = .step operation.node ∧
      bench.tree.node? operation.node = some node ∧
      (bench.supercompiler.drive node.term).1 = .error refusal) ∨
    ∃ detached p, e = .detached detached ∧
      bench.tree.node? operation.node = some detached.node ∧ detached.node.parent = some p ∧
      operation.node ∉ bench.tree.children p

/-- An operation that fails changes nothing but the supply. -/
theorem fails_of_perform {e : GrowthError} (failed : (bench.perform operation).1 = some e) :
    bench.Fails operation e (bench.perform operation).2 := by
  cases operation with
  | addChildren i branches => simp [perform] at failed
  | replace i t =>
    rw [perform] at failed ⊢
    split at failed
    · rename_i detached replaced
      obtain ⟨p, found, parent, gone⟩ := replace_eq_error.mp replaced
      rw [Option.some.injEq] at failed
      exact ⟨rfl, rfl, .refl _, .inr ⟨detached, p, failed.symm, found, parent, gone⟩⟩
    · simp at failed
  | step i =>
    rw [perform] at failed ⊢
    split at failed
    · rename_i e' later stepped
      rw [Option.some.injEq] at failed
      subst failed
      rcases step_eq_error stepped with ⟨node, refusal, same, found, refused⟩ |
        ⟨detached, t, same, replaced, rfl⟩
      · have advanced := bench.supercompiler.advanced_drive node.term
        rw [refused] at advanced
        exact ⟨rfl, advanced.1, advanced.2,
          .inl ⟨node, refusal, same, rfl, found, congrArg Prod.fst refused⟩⟩
      · obtain ⟨p, found, parent, gone⟩ := replace_eq_error.mp replaced
        exact ⟨rfl, rfl, .refl _, .inr ⟨detached, p, same, found, parent, gone⟩⟩
    · simp at failed

/-- Whatever operations are carried out on nodes that have been made, in whatever order, starting
with a root alone: the links of the tree are consistent, no further operation changes the term, the
contraction or the parent of a node, and one that fails changes nothing but the supply of names. -/
theorem links_consistent {sc : Supercompiler} {t : Term} (reaches : (start sc t).Reaches bench) :
    bench.tree.Consistent ∧
    (∀ operation : TreeOperation, operation.node < bench.tree.nodes.size →
      bench.tree.Keeps (bench.perform operation).2.tree) ∧
    ∀ operation e, (bench.perform operation).1 = some e →
      bench.Fails operation e (bench.perform operation).2 := by
  have ordered := reaches.wellFormed (.ofTerm t)
  exact ⟨ordered.consistent, fun _ bound => (wellFormed_perform ordered bound).2,
    fun _ _ failed => fails_of_perform failed⟩

/-- A root that has been given a child, with another node in the place of the child. -/
def replacedChild : Workbench :=
  let grown := ((start ⟨.ofRules [], {}⟩ (.ctor "C" [.var "x"])).perform
    (.addChildren 0 [⟨.var "x", none⟩])).2
  (grown.perform (.replace 1 (.var "y"))).2

/-- The child that has been replaced cannot be replaced again. The attempt leaves the tree as it is,
and its links consistent. -/
theorem links_consistent_replacedChild :
    (start ⟨.ofRules [], {}⟩ (.ctor "C" [.var "x"])).Reaches replacedChild ∧
    replacedChild.tree.Consistent ∧
    (replacedChild.perform (.replace 1 (.var "z"))).1 =
      some (.detached ⟨⟨.var "x", none, some 0, []⟩⟩) ∧
    replacedChild.Fails (.replace 1 (.var "z")) (.detached ⟨⟨.var "x", none, some 0, []⟩⟩)
      (replacedChild.perform (.replace 1 (.var "z"))).2 := by
  have reaches : (start ⟨.ofRules [], {}⟩ (.ctor "C" [.var "x"])).Reaches replacedChild :=
    .tail (.single ⟨.addChildren 0 [⟨.var "x", none⟩], by decide, rfl⟩)
      ⟨.replace 1 (.var "y"), by decide, rfl⟩
  have failed : (replacedChild.perform (.replace 1 (.var "z"))).1 =
      some (.detached ⟨⟨.var "x", none, some 0, []⟩⟩) := by rfl
  obtain ⟨consistent, -, fails⟩ := links_consistent reaches
  exact ⟨reaches, consistent, failed, fails _ _ failed⟩

end Workbench

end Supercompilation
