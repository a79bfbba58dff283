import Supercompilation.Driving
import Supercompilation.Matching

/-!
# Process trees

A process tree records the terms met on the way. Nodes are numbered in the order in which
they are made and keep their number for good; a node knows its parent and its children, so a node
that has been replaced, and what stands below it, can still be looked at. A parent always has a
smaller number than its children.

Walks use an explicit list of the nodes that are still to be visited. No walk visits more nodes
than there are, which bounds its rounds.
-/

namespace Supercompilation

/-- A node of a process tree. -/
structure Node where
  /-- The term that the node holds. -/
  term : Term
  /-- The contraction on the way from its parent. -/
  contraction : Option Contraction
  /-- The number of its parent. -/
  parent : Option Nat
  /-- The numbers of its children, from left to right. -/
  children : List Nat

/-- A process tree. -/
structure ProcessTree where
  /-- All nodes ever made, by number. -/
  nodes : Array Node
  /-- The number of the root. -/
  root : Nat

/-- An attempt to replace a node that is no longer among the children of its parent. -/
structure Detached where
  /-- The node. -/
  node : Node

/-- The node with its quoted term and the number of its children. -/
def Node.inspect (node : Node) : String :=
  "Node(" ++ Text.quoted node.term.text ++ ", children=" ++ toString node.children.length ++ ")"

/-- What is wrong with replacing a detached node. -/
def Detached.message (detached : Detached) : String :=
  detached.node.inspect ++ " is not a child of its parent"

namespace ProcessTree

/-- The tree of a root alone. -/
def ofTerm (t : Term) : ProcessTree := ⟨#[⟨t, none, none, []⟩], 0⟩

/-- The node with a number. -/
def node? (tree : ProcessTree) (i : Nat) : Option Node := tree.nodes[i]?

/-- The children of a node. -/
def children (tree : ProcessTree) (i : Nat) : List Nat :=
  ((tree.node? i).map Node.children).getD []

/-- The parent of a node. -/
def parent? (tree : ProcessTree) (i : Nat) : Option Nat := (tree.node? i).bind Node.parent

/-- A node without children. -/
def isLeaf (tree : ProcessTree) (i : Nat) : Bool := (tree.children i).isEmpty

/-- Give a node other children. -/
def setChildren (tree : ProcessTree) (i : Nat) (children : List Nat) : ProcessTree :=
  match tree.nodes[i]? with
  | none => tree
  | some node => { tree with nodes := tree.nodes.setIfInBounds i { node with children } }

/-- Append one child per branch to a node. -/
def addChildren (tree : ProcessTree) (i : Nat) (branches : List Branch) : ProcessTree :=
  let first := tree.nodes.size
  let grown := tree.setChildren i
    (tree.children i ++ (List.range branches.length).map (first + ·))
  { grown with
    nodes := branches.foldl
      (fun nodes branch => nodes.push ⟨branch.term, branch.contraction, some i, []⟩)
      grown.nodes }

/-- Put a new childless node in the place of a node, with its contraction; a node without a parent
makes way for a new root. The result has the number of the new node. -/
def replace (tree : ProcessTree) (i : Nat) (t : Term) : Except Detached (Nat × ProcessTree) :=
  let new := tree.nodes.size
  match tree.node? i with
  | none => .ok (new, tree)
  | some node =>
    match node.parent with
    | none => .ok (new, ⟨tree.nodes.push ⟨t, none, none, []⟩, new⟩)
    | some p =>
      if (tree.children p).contains i then
        let changed := tree.setChildren p ((tree.children p).replace i new)
        .ok (new, { changed with
          nodes := changed.nodes.push ⟨t, node.contraction, some p, []⟩ })
      else .error ⟨node⟩

/-- Follow the parent links from a node, for at most some rounds. -/
def climb (tree : ProcessTree) : Nat → Option Nat → List Nat
  | 0, _ => []
  | _ + 1, none => []
  | rounds + 1, some i => i :: climb tree rounds (tree.parent? i)

/-- The ancestors of a node, nearest first. -/
def ancestors (tree : ProcessTree) (i : Nat) : List Nat :=
  tree.climb tree.nodes.size (tree.parent? i)

/-- Visit the nodes of a stack and what is below them, for at most some rounds. -/
def visit (tree : ProcessTree) : Nat → List Nat → List Nat
  | 0, _ => []
  | _ + 1, [] => []
  | rounds + 1, i :: stack => i :: visit tree rounds (tree.children i ++ stack)

/-- The nodes from a node on, every node before its children and those from left to right. -/
def walk (tree : ProcessTree) (i : Nat) : List Nat := tree.visit tree.nodes.size [i]

/-- The leaves from a node on, from left to right. -/
def leavesFrom (tree : ProcessTree) (i : Nat) : List Nat := (tree.walk i).filter tree.isLeaf

/-- The nodes of the tree. -/
def nodeList (tree : ProcessTree) : List Nat := tree.walk tree.root

/-- The leaves of the tree. -/
def leaves (tree : ProcessTree) : List Nat := tree.leavesFrom tree.root

/-- The number of nodes of the tree. -/
def size (tree : ProcessTree) : Nat := tree.nodeList.length

/-- The number of nodes on the longest way from the root to a leaf. -/
def depth (tree : ProcessTree) : Nat :=
  (tree.leaves.map fun i => (tree.ancestors i).length).foldl max 0 + 1

/-- Whether the term of an ancestor has the kind of `t` and is the same up to renaming. -/
def repeats (tree : ProcessTree) (t : Term) (ancestor : Nat) : Bool :=
  match tree.node? ancestor with
  | none => false
  | some above => above.term.kind = t.kind && t.equiv above.term

/-- Whether a node needs no more work: a variable, a constructor without arguments, or a call that
an ancestor holds too, up to renaming. -/
def isProcessed (tree : ProcessTree) (i : Nat) : Bool :=
  match tree.node? i with
  | none => true
  | some node =>
    match node.term with
    | .var _ => true
    | .app .ctor _ args => args.isEmpty
    | .app .fCall _ _ | .app .gCall _ _ =>
      (tree.ancestors i).any (tree.repeats node.term)
    | .app .pattern _ _ | .letIn _ _ => false

/-- The first leaf that needs more work. -/
def unprocessed? (tree : ProcessTree) : Option Nat :=
  tree.leaves.find? fun i => !tree.isProcessed i

/-- Whether no leaf needs more work. -/
def isComplete (tree : ProcessTree) : Bool := tree.unprocessed?.isNone

/-- The nearest ancestor of the same kind that a node is an instance of, and how. -/
def fold? (tree : ProcessTree) (i : Nat) : Option (Nat × Substitution) :=
  match tree.node? i with
  | none => none
  | some node =>
    (tree.ancestors i).findSome? fun a =>
      match tree.node? a with
      | none => none
      | some above =>
        if above.term.kind = node.term.kind then
          (above.term.matchAgainst node.term).map fun values => (a, values)
        else none

end ProcessTree

end Supercompilation
