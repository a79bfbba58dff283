import Supercompilation.ProcessTree.Layout

/-!
# Growth steps

A leaf grows by one of two actions. If an ancestor of the same kind is more general than the call
at the leaf, the leaf is folded: a `let` term over the ancestor's term takes its place. Otherwise
the leaf is driven, and gets a child for every result.
-/

namespace Supercompilation

/-- What a step does to a leaf. -/
inductive Action where
  /-- The leaf gets the results as children. -/
  | drive
  /-- The leaf makes way for a `let` term. -/
  | fold
  /-- Something else, by its name. -/
  | other (name : String)
  deriving DecidableEq, Repr

/-- The word for an action. -/
def Action.word : Action → String
  | .drive => "drive"
  | .fold => "fold"
  | .other name => name

/-- The action that a word names. -/
def Action.ofWord (word : String) : Action :=
  if word = "drive" then .drive else if word = "fold" then .fold else .other word

/-- Why a leaf does not grow. -/
inductive GrowthError where
  /-- The term cannot be driven. -/
  | drive (e : DriveError)
  /-- The leaf to be folded is no longer in the tree. -/
  | detached (e : Detached)

/-- What is wrong, in words. -/
def GrowthError.message : GrowthError → String
  | .drive e => e.message
  | .detached e => e.message

/-- What a step did, and the tree after it. -/
structure Grown where
  /-- The action. -/
  action : Action
  /-- The children of a driven leaf, or the `let` term that took the place of a folded one. -/
  results : List Branch
  /-- The tree after the step. -/
  tree : ProcessTree

namespace Supercompiler

/-- Drive a node and append the results. -/
def driveNode (sc : Supercompiler) (tree : ProcessTree) (i : Nat) (t : Term) :
    Except GrowthError Grown × Supercompiler :=
  match sc.drive t with
  | (.error e, sc) => (.error (.drive e), sc)
  | (.ok branches, sc) => (.ok ⟨.drive, branches, tree.addChildren i branches⟩, sc)

/-- The `let` term that folds a node to an ancestor. -/
def foldTerm (tree : ProcessTree) (ancestor : Nat) (values : Substitution) : Option Term :=
  (tree.node? ancestor).map fun above => .letIn above.term values

/-- Grow the tree at a node by one action. -/
def step (sc : Supercompiler) (tree : ProcessTree) (i : Nat) :
    Except GrowthError Grown × Supercompiler :=
  match tree.node? i with
  | none => (.ok ⟨.drive, [], tree⟩, sc)
  | some node =>
    if node.term.isCall then
      match (tree.fold? i).bind fun (a, values) => foldTerm tree a values with
      | none => sc.driveNode tree i node.term
      | some folded =>
        match tree.replace i folded with
        | .error e => (.error (.detached e), sc)
        | .ok (new, tree) =>
          let contraction := (tree.node? new).bind Node.contraction
          (.ok ⟨.fold, [⟨folded, contraction⟩], tree⟩, sc)
    else sc.driveNode tree i node.term

end Supercompiler

end Supercompilation
