import Supercompilation.Growth

/-!
# Steps and traces

A trace is what a construction did, step by step. It can be told at length, in one line, one line
per step, or as the sequence of the trees.
-/

namespace Supercompilation

/-- A growth step as it is recorded. -/
structure Step where
  /-- Its number, counted from one. -/
  index : Int
  /-- What was done. -/
  action : Action
  /-- The term of the leaf before the step. -/
  before : Term
  /-- The children of a driven leaf, or the `let` term that took the place of a folded one. -/
  results : List Branch
  /-- The text of the tree after the step, if it was asked for. -/
  treeText : Option String := none

/-- The text of a result: the term, with its contraction in braces. -/
def Branch.text (branch : Branch) : String :=
  match branch.contraction with
  | none => branch.term.text
  | some contraction => branch.term.text ++ " \x7b" ++ contraction.text ++ "\x7d"

namespace Step

/-- The step in words. A fold shows its result, so there is nothing to say of a fold without
one. -/
def text? (step : Step) : Option String :=
  match step.action with
  | .fold =>
    step.results.head?.map fun result =>
      "fold: " ++ step.before.text ++ " => " ++ result.term.text
  | _ =>
    some ("drive: " ++ step.before.text ++ " => [" ++
      Text.joined ", " (step.results.map Branch.text) ++ "]")

/-- The step in words with its number in front. -/
def numbered? (step : Step) : Option String :=
  step.text?.map fun words => toString step.index ++ ". " ++ words

/-- A result as a document. -/
def resultDocument (branch : Branch) : Json :=
  let words := contractionText branch.contraction
  .record [("exp", .text branch.term.text),
    ("contraction", if words.isEmpty then .null else .text words)]

/-- The step as a document. -/
def document (step : Step) : Json :=
  .record [("index", .int step.index), ("action", .text step.action.word),
    ("before", .text step.before.text), ("results", .list (step.results.map resultDocument))]

end Step

/-- The steps of a construction. -/
structure Trace where
  /-- The term at the start. -/
  initial : Option Term := none
  /-- The tree at the end. -/
  tree : Option ProcessTree := none
  /-- The steps, in order. -/
  steps : List Step := []

/-- The ways to tell a trace. -/
inductive TraceStyle where
  /-- At length. -/
  | verbose
  /-- In one line. -/
  | compact
  /-- One line per step. -/
  | steps
  /-- The tree after every step. -/
  | trees
  deriving DecidableEq, Repr

/-- The style that a word names; an unknown word means at length. -/
def TraceStyle.ofWord (word : String) : TraceStyle :=
  if word = "compact" then .compact
  else if word = "steps" then .steps
  else if word = "trees" then .trees
  else .verbose

namespace Trace

/-- The initial term in words. -/
def initialText (trace : Trace) : String := (trace.initial.map Term.text).getD "None"

/-- The number of steps with an action. -/
def count (trace : Trace) (action : Action) : Nat :=
  (trace.steps.filter fun step => step.action = action).length

/-- The number of steps with each action, in the order in which the actions first occur. -/
def counts (trace : Trace) : NameMap Nat :=
  trace.steps.foldl
    (fun counts step =>
      counts.put step.action.word ((counts.value? step.action.word).getD 0 + 1))
    []

/-- The trace at length. -/
def verbose? (trace : Trace) : Option String := do
  let steps ← trace.steps.mapM Step.numbered?
  let final :=
    match trace.tree with
    | none => []
    | some tree =>
      ["Final: " ++ toString tree.size ++ " nodes, depth " ++ toString tree.depth]
  some (Text.joined "\n"
    (("Initial: " ++ trace.initialText) :: steps.map ("  " ++ ·) ++ final))

/-- The trace in one line. -/
def compact (trace : Trace) : String :=
  trace.initialText ++ " --[" ++ toString (trace.count .drive) ++ " drives, " ++
    toString (trace.count .fold) ++ " folds]--> " ++
    toString ((trace.tree.map ProcessTree.size).getD 0) ++ " nodes"

/-- One line per step. -/
def stepList? (trace : Trace) : Option String :=
  if trace.steps.isEmpty then some "(no steps)"
  else (trace.steps.mapM Step.numbered?).map (Text.joined "\n")

/-- The tree after every step. -/
def trees (trace : Trace) : String :=
  Text.joined "\n" (trace.steps.flatMap fun step =>
    ["-- step " ++ toString step.index ++ " (" ++ step.action.word ++ ") --",
      step.treeText.getD ""])

/-- The trace in a style; nothing if a step cannot be put into words. -/
def format? (trace : Trace) : TraceStyle → Option String
  | .verbose => trace.verbose?
  | .compact => some trace.compact
  | .steps => trace.stepList?
  | .trees => some trace.trees

/-- The numbers of steps in words. -/
def summary (trace : Trace) : String :=
  if trace.steps.isEmpty then "No steps taken"
  else
    toString trace.steps.length ++ " steps: " ++ toString (trace.count .drive) ++ " drives, " ++
      toString (trace.count .fold) ++ " folds"

/-- The trace as a document. -/
def document (trace : Trace) : Json :=
  .record [("initial", .text trace.initialText),
    ("steps", .list (trace.steps.map Step.document)),
    ("step_count", .int trace.steps.length),
    ("tree", (trace.tree.map ProcessTree.document).getD .null)]

end Trace

end Supercompilation
