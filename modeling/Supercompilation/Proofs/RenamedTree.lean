import Supercompilation.Proofs.Freshness
import Supercompilation.Proofs.Nesting

/-!
# Renaming process trees

Renaming a process tree renames what its nodes hold and leaves the links alone. An injective
renaming therefore changes neither which leaf comes next, nor whether a leaf is folded and to which
ancestor, nor whether one of these questions goes too deep; and growing a renamed tree by renamed
results is renaming the grown tree.
-/

namespace Supercompilation

/-- Rename the variable and the fields of a contraction. -/
def Contraction.rename (ρ : String → String) (contraction : Contraction) : Contraction :=
  ⟨ρ contraction.var, contraction.pattern.rename ρ⟩

/-- Rename what a result mentions. -/
def Branch.rename (ρ : String → String) (branch : Branch) : Branch :=
  ⟨branch.term.rename ρ, branch.contraction.map (Contraction.rename ρ)⟩

/-- Rename what a node holds. -/
def Node.rename (ρ : String → String) (node : Node) : Node :=
  { node with
    term := node.term.rename ρ
    contraction := node.contraction.map (Contraction.rename ρ) }

/-- Rename what the nodes of a tree hold. -/
def ProcessTree.rename (ρ : String → String) (tree : ProcessTree) : ProcessTree :=
  { tree with nodes := tree.nodes.map (Node.rename ρ) }

namespace Branch

variable {ρ σ : String → String}

/-- Renaming a result depends only on the names that it mentions. -/
theorem rename_congr {branch : Branch} (agree : ∀ x ∈ branch.names, ρ x = σ x) :
    branch.rename ρ = branch.rename σ := by
  rw [names, List.forall_mem_append] at agree
  rw [rename, rename, Term.rename_congr agree.1]
  cases contracted : branch.contraction with
  | none => rfl
  | some contraction =>
    rw [contracted, Option.map_some, Option.getD_some, Contraction.names, List.forall_mem_cons]
      at agree
    rw [Option.map_some, Option.map_some, Contraction.rename, Contraction.rename, agree.2.1,
      Term.rename_congr agree.2.2]

/-- The names of a renamed result are the renamed names. -/
theorem mem_names_rename {branch : Branch} {x : String} (named : x ∈ branch.names) :
    ρ x ∈ (branch.rename ρ).names := by
  rw [names, List.mem_append] at named ⊢
  rcases named with inTerm | inContraction
  · exact .inl (Term.mem_mentions_rename inTerm)
  · right
    rw [rename]
    cases contracted : branch.contraction with
    | none => simp [contracted] at inContraction
    | some contraction =>
      rw [contracted, Option.map_some, Option.getD_some, Contraction.names, List.mem_cons]
        at inContraction
      rw [Option.map_some, Option.map_some, Option.getD_some, Contraction.names, List.mem_cons]
      rcases inContraction with rfl | inPattern
      · exact .inl rfl
      · exact .inr (Term.mem_mentions_rename inPattern)

end Branch

/-- What a renamed node holds. -/
@[simp]
theorem Node.branch_rename (ρ : String → String) (node : Node) :
    (node.rename ρ).branch = node.branch.rename ρ := rfl

namespace ProcessTree

variable {ρ σ : String → String}

@[simp]
theorem node?_rename (ρ : String → String) (tree : ProcessTree) (i : Nat) :
    (tree.rename ρ).node? i = (tree.node? i).map (Node.rename ρ) :=
  Array.getElem?_map

@[simp]
theorem size_nodes_rename (ρ : String → String) (tree : ProcessTree) :
    (tree.rename ρ).nodes.size = tree.nodes.size :=
  Array.size_map

/-- Renaming leaves the children alone. -/
@[simp]
theorem children_rename (ρ : String → String) (tree : ProcessTree) (i : Nat) :
    (tree.rename ρ).children i = tree.children i := by
  rw [children, children, node?_rename, Option.map_map]
  rfl

/-- Renaming leaves the parents alone. -/
@[simp]
theorem parent?_rename (ρ : String → String) (tree : ProcessTree) (i : Nat) :
    (tree.rename ρ).parent? i = tree.parent? i := by
  rw [parent?, parent?, node?_rename, Option.bind_map]
  rfl

/-- Renaming leaves the ancestors alone. -/
@[simp]
theorem ancestors_rename (ρ : String → String) (tree : ProcessTree) (i : Nat) :
    (tree.rename ρ).ancestors i = tree.ancestors i := by
  have climbs : ∀ rounds start, (tree.rename ρ).climb rounds start = tree.climb rounds start := by
    intro rounds
    induction rounds with
    | zero => intro start; rfl
    | succ rounds ih =>
      intro start
      cases start with
      | none => rfl
      | some j => rw [climb, climb, ih, parent?_rename]
  rw [ancestors, ancestors, size_nodes_rename, parent?_rename, climbs]

/-- Renaming leaves the order of the nodes alone. -/
@[simp]
theorem nodeList_rename (ρ : String → String) (tree : ProcessTree) :
    (tree.rename ρ).nodeList = tree.nodeList := by
  have visits : ∀ rounds stack, (tree.rename ρ).visit rounds stack = tree.visit rounds stack := by
    intro rounds
    induction rounds with
    | zero => intro stack; rfl
    | succ rounds ih =>
      intro stack
      cases stack with
      | nil => rfl
      | cons j stack => rw [visit, visit, ih, children_rename]
  rw [nodeList, nodeList, walk, walk, size_nodes_rename, visits]
  rfl

/-- Renaming leaves the leaves alone. -/
@[simp]
theorem leaves_rename (ρ : String → String) (tree : ProcessTree) :
    (tree.rename ρ).leaves = tree.leaves := by
  have same : (tree.rename ρ).isLeaf = tree.isLeaf := by
    funext i
    rw [isLeaf, isLeaf, children_rename]
  have listed := nodeList_rename ρ tree
  rw [nodeList, nodeList] at listed
  rw [leaves, leaves, leavesFrom, leavesFrom, same, listed]

/-- Renaming the tree of a root renames the root. -/
theorem rename_ofTerm (ρ : String → String) (t : Term) :
    (ofTerm t).rename ρ = ofTerm (t.rename ρ) := by
  simp [ofTerm, rename, Node.rename]

/-- Renaming a tree depends only on the names that its nodes mention. -/
theorem rename_congr {tree : ProcessTree}
    (agree : ∀ {i : Nat} {node : Node}, tree.node? i = some node → ∀ x ∈ node.branch.names,
      ρ x = σ x) :
    tree.rename ρ = tree.rename σ := by
  have nodes : tree.nodes.map (Node.rename ρ) = tree.nodes.map (Node.rename σ) := by
    refine Array.map_congr_left fun node member => ?_
    obtain ⟨i, found⟩ := Array.mem_iff_getElem?.mp member
    have same := Branch.rename_congr (agree found)
    rw [Node.rename, Node.rename]
    rw [Branch.rename, Branch.rename, Branch.mk.injEq] at same
    rw [show node.term.rename ρ = node.term.rename σ from same.1,
      show node.contraction.map (Contraction.rename ρ) = node.contraction.map (Contraction.rename σ)
        from same.2]
  rw [rename, rename, nodes]

/-- Giving a node other children commutes with renaming. -/
theorem setChildren_rename (ρ : String → String) (tree : ProcessTree) (i : Nat) (kids : List Nat) :
    (tree.setChildren i kids).rename ρ = (tree.rename ρ).setChildren i kids := by
  rw [setChildren, setChildren]
  have found : (tree.rename ρ).nodes[i]? = tree.nodes[i]?.map (Node.rename ρ) := Array.getElem?_map
  rw [found]
  cases tree.nodes[i]? with
  | none => rfl
  | some node => simp [rename, Array.map_setIfInBounds, Node.rename]

/-- Appending renamed results commutes with renaming. -/
theorem addChildren_rename (ρ : String → String) (tree : ProcessTree) (i : Nat)
    (branches : List Branch) :
    (tree.addChildren i branches).rename ρ =
      (tree.rename ρ).addChildren i (branches.map (Branch.rename ρ)) := by
  rw [addChildren, addChildren]
  simp only [List.length_map, size_nodes_rename, children_rename, ← setChildren_rename]
  rw [List.foldl_push_eq_append, List.foldl_push_eq_append]
  simp only [rename, Array.map_append, List.map_toArray, List.map_map]
  rfl

/-- Replacing a node by a renamed term commutes with renaming. -/
theorem replace_rename (ρ : String → String) (tree : ProcessTree) (i : Nat) (t : Term) :
    (tree.rename ρ).replace i (t.rename ρ) =
      ((tree.replace i t).map fun outcome => (outcome.1, outcome.2.rename ρ)).mapError
        fun detached => ⟨detached.node.rename ρ⟩ := by
  rw [replace, replace, node?_rename, size_nodes_rename]
  cases tree.node? i with
  | none => rfl
  | some node =>
    have parent : (node.rename ρ).parent = node.parent := rfl
    simp only [Option.map_some, parent]
    cases node.parent with
    | none => simp [Except.map, Except.mapError, rename, Node.rename]
    | some p =>
      simp only [children_rename, ← setChildren_rename]
      split
      · simp [Except.map, Except.mapError, rename, Node.rename]
      · rfl

/-- Whether an ancestor repeats a term does not depend on names. -/
theorem repeats_rename (injective : Function.Injective ρ) (tree : ProcessTree) (t : Term)
    (a : Nat) : (tree.rename ρ).repeats (t.rename ρ) a = tree.repeats t a := by
  rw [repeats, repeats, node?_rename]
  cases tree.node? a with
  | none => rfl
  | some above =>
    simp only [Option.map_some, Node.rename, Term.kind_rename, Term.equiv_rename injective]

/-- Whether a node is processed does not depend on names. -/
theorem isProcessed_rename (injective : Function.Injective ρ) (tree : ProcessTree) (i : Nat) :
    (tree.rename ρ).isProcessed i = tree.isProcessed i := by
  rw [isProcessed, isProcessed, node?_rename, ancestors_rename]
  cases tree.node? i with
  | none => rfl
  | some node =>
    have repeated : (tree.ancestors i).any ((tree.rename ρ).repeats (node.term.rename ρ)) =
        (tree.ancestors i).any (tree.repeats node.term) :=
      congrArg _ (funext (repeats_rename injective tree node.term))
    simp only [Option.map_some, Node.rename]
    cases held : node.term with
    | var x => rw [Term.rename_var]
    | letIn body bindings => rw [Term.rename_letIn]
    | app head name args =>
      rw [held] at repeated
      rw [Term.rename_app] at repeated ⊢
      cases head with
      | ctor => exact List.isEmpty_map
      | pattern => rfl
      | fCall => exact repeated
      | gCall => exact repeated

/-- Which leaf comes next does not depend on names. -/
theorem unprocessed?_rename (injective : Function.Injective ρ) (tree : ProcessTree) :
    (tree.rename ρ).unprocessed? = tree.unprocessed? := by
  have same : (tree.rename ρ).isProcessed = tree.isProcessed :=
    funext (isProcessed_rename injective tree)
  rw [unprocessed?, unprocessed?, leaves_rename, same]

/-- To which ancestor a node is folded does not depend on names, and the bindings are renamed. -/
theorem fold?_rename (injective : Function.Injective ρ) (tree : ProcessTree) (i : Nat) :
    (tree.rename ρ).fold? i =
      (tree.fold? i).map fun found => (found.1, Substitution.rename ρ found.2) := by
  rw [fold?, fold?, node?_rename, ancestors_rename]
  cases tree.node? i with
  | none => rfl
  | some node =>
    simp only [Option.map_some]
    rw [List.map_findSome?]
    refine congrArg (fun find => List.findSome? find (tree.ancestors i)) (funext fun a => ?_)
    rw [node?_rename, Function.comp_apply]
    cases tree.node? a with
    | none => rfl
    | some above =>
      simp only [Option.map_some, Node.rename, Term.kind_rename,
        Term.matchAgainst_rename injective]
      split
      · cases above.term.matchAgainst node.term <;> rfl
      · rfl

/-- Whether a tree holds a deep term does not depend on names. -/
theorem holdsDeep_rename (ρ : String → String) (tree : ProcessTree) (frames : Nat) :
    (tree.rename ρ).holdsDeep frames = tree.holdsDeep frames := by
  rw [holdsDeep, holdsDeep, rename, Array.any_map]
  simp only [Function.comp_def, Node.rename, Term.height_rename]

/-- Whether looking for a repetition goes too deep does not depend on names. -/
theorem repeatsTooDeep_rename (injective : Function.Injective ρ) (tree : ProcessTree)
    (frames : Nat) (t : Term) (above : List Nat) :
    (tree.rename ρ).repeatsTooDeep frames (t.rename ρ) above =
      tree.repeatsTooDeep frames t above := by
  induction above with
  | nil => rfl
  | cons a rest ih =>
    rw [repeatsTooDeep, repeatsTooDeep, node?_rename, ih]
    cases tree.node? a with
    | none => rfl
    | some node =>
      simp only [Option.map_some, Node.rename, Term.kind_rename,
        Term.equivTooDeep_rename injective, Term.equiv_rename injective]

/-- Whether looking for the next leaf goes too deep does not depend on names. -/
theorem scanTooDeep_rename (injective : Function.Injective ρ) (tree : ProcessTree) (frames : Nat)
    (leaves : List Nat) :
    (tree.rename ρ).scanTooDeep frames leaves = tree.scanTooDeep frames leaves := by
  induction leaves with
  | nil => rfl
  | cons i rest ih =>
    rw [scanTooDeep, scanTooDeep, node?_rename, ih, ancestors_rename,
      isProcessed_rename injective]
    cases tree.node? i with
    | none => rfl
    | some node =>
      simp only [Option.map_some, Node.rename, Term.isCall_rename,
        repeatsTooDeep_rename injective]

/-- Whether looking for an ancestor to fold to goes too deep does not depend on names. -/
theorem foldTooDeep_rename (injective : Function.Injective ρ) (tree : ProcessTree) (frames : Nat)
    (t : Term) (above : List Nat) :
    (tree.rename ρ).foldTooDeep frames (t.rename ρ) above = tree.foldTooDeep frames t above := by
  induction above with
  | nil => rfl
  | cons a rest ih =>
    rw [foldTooDeep, foldTooDeep, node?_rename, ih]
    cases tree.node? a with
    | none => rfl
    | some node =>
      simp only [Option.map_some, Node.rename, Term.kind_rename,
        Term.matchTooDeep_rename injective, Term.matchAgainst_rename injective,
        Option.isSome_map]

/-- Whether printing a tree goes too deep does not depend on names. -/
theorem printTooDeep_rename (ρ : String → String) (tree : ProcessTree) (frames : Nat) :
    (tree.rename ρ).printTooDeep frames = tree.printTooDeep frames := by
  rw [printTooDeep, printTooDeep, nodeList_rename]
  refine congrArg (List.any tree.nodeList) (funext fun i => ?_)
  rw [node?_rename]
  cases tree.node? i with
  | none => rfl
  | some node =>
    simp only [Option.map_some, Node.rename, Term.height_rename, Option.any_map,
      Contraction.rename]

end ProcessTree

end Supercompilation
