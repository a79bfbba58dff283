import Supercompilation.ProcessTree.Basic

/-!
# Process trees as text and as documents

The text of a tree has a line for every node in the order of the walk, indented by four blanks per
level, with the contraction in braces. Lines are separated by a line feed and one blank.
-/

namespace Supercompilation

/-- A tree of terms and contractions without node numbers. -/
inductive Rose where
  /-- A node with its children. -/
  | node (term : Term) (contraction : Option Contraction) (children : List Rose)

/-- The contraction as a document. -/
def contractionDocument : Option Contraction → Json
  | none => .null
  | some contraction =>
    .record [("var", .text contraction.var), ("pattern", contraction.pattern.document)]

namespace Rose

mutual

/-- The tree as a document. -/
def document : Rose → Json
  | node term contraction children =>
    .record [("exp", .text term.text), ("term", term.document),
      ("contraction", contractionDocument contraction), ("children", .list (documents children))]

/-- Some trees as documents. -/
def documents : List Rose → List Json
  | [] => []
  | rose :: rest => rose.document :: documents rest

end

end Rose

namespace ProcessTree

/-- Visit the nodes of a stack with their levels, for at most some rounds. -/
def visitLevels (tree : ProcessTree) : Nat → List (Nat × Nat) → List (Nat × Nat)
  | 0, _ => []
  | _ + 1, [] => []
  | rounds + 1, (i, level) :: stack =>
    (i, level) :: visitLevels tree rounds
      ((tree.children i).map (fun child => (child, level + 1)) ++ stack)

/-- The line of a node at a level. -/
def line (indent : String) (level : Nat) (node : Node) : String :=
  indent ++ String.ofList (List.replicate (4 * level) ' ') ++ "|__" ++ node.term.text ++
    match node.contraction with
    | none => ""
    | some contraction => "  \x7b" ++ contraction.text ++ "\x7d"

/-- The text of what is below a node, with `indent` before every line. -/
def formatFrom (tree : ProcessTree) (i : Nat) (indent : String) : String :=
  Text.joined "\n " ((tree.visitLevels tree.nodes.size [(i, 0)]).filterMap fun (j, level) =>
    (tree.node? j).map (line indent level))

/-- The text of the tree. -/
def format (tree : ProcessTree) : String := tree.formatFrom tree.root ""

/-- The trees below some nodes, down to at most some levels. -/
def rosesWithin (tree : ProcessTree) : Nat → List Nat → List Rose
  | 0, _ => []
  | levels + 1, ids => ids.filterMap fun i =>
    (tree.node? i).map fun node =>
      .node node.term node.contraction (rosesWithin tree levels node.children)

/-- The tree from a node on, without node numbers. -/
def roseFrom? (tree : ProcessTree) (i : Nat) : Option Rose :=
  (tree.rosesWithin tree.nodes.size [i]).head?

/-- What is below a node, as a document. -/
def documentFrom (tree : ProcessTree) (i : Nat) : Json :=
  ((tree.roseFrom? i).map Rose.document).getD .null

/-- The tree as a document. -/
def document (tree : ProcessTree) : Json :=
  .record [("root", tree.documentFrom tree.root), ("size", .int tree.size),
    ("depth", .int tree.depth)]

/-- The quoted term of the root and the number of nodes. -/
def inspect (tree : ProcessTree) : String :=
  "Tree(root=" ++ Text.quoted (((tree.node? tree.root).map fun node => node.term.text).getD "") ++
    ", size=" ++ toString tree.size ++ ")"

end ProcessTree

end Supercompilation
