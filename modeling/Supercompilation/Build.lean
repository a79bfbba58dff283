import Supercompilation.Nesting
import Supercompilation.Log

/-!
# Construction of process trees

A construction starts with a root and grows the first unprocessed leaf, over and over, until there
is none. It may be given a greatest number of steps and a greatest number of stack frames; a
construction that comes to one of these bounds is given up, and its unfinished tree can be looked
at.

The number of steps that may still be taken is the recursion argument of `Supercompiler.grow`. A
construction without a limit runs with a patience that its caller chooses, since not every
construction ends; when the patience is exhausted, it is unfinished and not given up.
-/

namespace Supercompilation

/-- What a construction is asked to do besides building the tree. -/
structure BuildOptions where
  /-- The greatest number of steps. -/
  limit : Option Int := none
  /-- The greatest number of stack frames that a walk may take. -/
  frames : Option Nat := none
  /-- Record the text of the tree after every step. -/
  traced : Bool := false
  /-- Every step is put into words when it is taken. -/
  shown : Bool := false

/-- How a construction ends. -/
inductive Ending where
  /-- No leaf needs more work. -/
  | completed
  /-- A leaf needs more work, and no more steps may be taken. -/
  | exhausted
  /-- A walk through a term would take too many frames. -/
  | tooDeep
  /-- A leaf does not grow. -/
  | failed (e : GrowthError)

/-- A construction: how it ended, and what was there then. -/
structure Run (α : Type) where
  /-- How it ended. -/
  ending : Ending
  /-- The tree at the end. -/
  tree : ProcessTree
  /-- The supercompiler at the end. -/
  supercompiler : Supercompiler
  /-- The number of steps that were taken. -/
  count : Nat
  /-- The recorded steps, each with what the watcher made of it. -/
  steps : List (Step × α)

/-- Why there is no finished tree: the steps taken, the limit, and the reason if it is not the
limit. -/
structure Aborted where
  /-- The number of steps taken. -/
  steps : Int
  /-- The limit. -/
  limit : Option Int := none
  /-- The reason, if it is not the limit. -/
  reason : Option String := none
  deriving DecidableEq

namespace Aborted

/-- The reason, an empty one counting as none. -/
def reasonText (aborted : Aborted) : String :=
  let limit := "limit: " ++ (aborted.limit.map toString).getD "None"
  match aborted.reason with
  | none => limit
  | some reason => if reason.isEmpty then limit else reason

/-- What is reported about a construction that was given up. -/
def message (aborted : Aborted) : String :=
  "Aborted after " ++ toString aborted.steps ++ " steps (" ++ aborted.reasonText ++ ")"

end Aborted

/-- Why a construction yields no finished tree. -/
inductive BuildError where
  /-- It was given up. -/
  | aborted (aborted : Aborted)
  /-- It has no limit and goes on. -/
  | unfinished
  /-- A leaf does not grow. -/
  | growth (e : GrowthError)

/-- A construction under way. -/
structure BuildState where
  /-- The tree so far. -/
  tree : ProcessTree
  /-- The supercompiler, with the names issued so far. -/
  supercompiler : Supercompiler
  /-- The number of steps taken. -/
  count : Nat

/-- One round of a construction. -/
inductive Round where
  /-- The construction is over. -/
  | stop (ending : Ending) (state : BuildState)
  /-- A step was taken and recorded. -/
  | go (step : Step) (state : BuildState)

namespace BuildState

/-- Whether looking for the next leaf goes too deep. -/
def scanTooDeep (options : BuildOptions) (state : BuildState) : Bool :=
  options.frames.any fun frames =>
    state.tree.holdsDeep frames && state.tree.scanTooDeep frames state.tree.leaves

/-- The record of the step that led to a state, unless it cannot be put into words. -/
def record (options : BuildOptions) (before : Term) (grown : Grown) (state : BuildState) :
    Round :=
  let deepTree := options.traced && options.frames.any fun frames => grown.tree.printTooDeep frames
  let step : Step := ⟨state.count, grown.action, before, grown.results, none⟩
  let deepStep := options.shown && options.frames.any fun frames => step.tooDeep frames
  if deepTree || deepStep then .stop .tooDeep state
  else .go { step with treeText := if options.traced then some grown.tree.format else none } state

/-- Grow the tree at a leaf. -/
def growAt (options : BuildOptions) (state : BuildState) (leaf : Nat) : Round :=
  match options.frames.bind fun frames =>
      state.supercompiler.stepBlocked frames state.tree leaf with
  | some sc => .stop .tooDeep { state with supercompiler := sc }
  | none =>
    let before := ((state.tree.node? leaf).map Node.term).getD default
    match state.supercompiler.step state.tree leaf with
    | (.error e, sc) => .stop (.failed e) { state with supercompiler := sc }
    | (.ok grown, sc) => record options before grown ⟨grown.tree, sc, state.count + 1⟩

/-- One round: find the first unprocessed leaf and grow it, if a step may still be taken. -/
def round (options : BuildOptions) (mayGrow : Bool) (state : BuildState) : Round :=
  if state.scanTooDeep options then .stop .tooDeep state
  else
    match state.tree.unprocessed? with
    | none => .stop .completed state
    | some leaf => if mayGrow then state.growAt options leaf else .stop .exhausted state

end BuildState

/-- The construction that ends in a state. -/
def Run.ofState {α : Type} (ending : Ending) (state : BuildState) : Run α :=
  ⟨ending, state.tree, state.supercompiler, state.count, []⟩

namespace Supercompiler

variable {α : Type}

/-- Go on with a construction for at most some steps. After every step the watcher sees the step
and the tree. -/
def grow (options : BuildOptions) (watch : Step → ProcessTree → α) : Nat → BuildState → Run α
  | 0, state =>
    match state.round options false with
    | .stop ending state => .ofState ending state
    | .go _ state => .ofState .exhausted state
  | allowed + 1, state =>
    match state.round options true with
    | .stop ending state => .ofState ending state
    | .go step state =>
      let seen := watch step state.tree
      let run := grow options watch allowed state
      { run with steps := (step, seen) :: run.steps }

/-- Build the process tree of a term. Without a limit, at most `patience` steps are taken. -/
def build (sc : Supercompiler) (options : BuildOptions) (patience : Nat)
    (watch : Step → ProcessTree → α) (t : Term) : Run α :=
  let allowed := (options.limit.map Int.toNat).getD patience
  grow options watch allowed ⟨.ofTerm t, sc, 0⟩

end Supercompiler

namespace Run

variable {α : Type}

/-- The recorded steps. -/
def stepList (run : Run α) : List Step := run.steps.map Prod.fst

/-- Why there is no finished tree, if there is none. -/
def error? (run : Run α) (options : BuildOptions) : Option BuildError :=
  match run.ending with
  | .completed => none
  | .exhausted =>
    match options.limit with
    | some limit => some (.aborted ⟨run.count, some limit, none⟩)
    | none => some .unfinished
  | .tooDeep => some (.aborted ⟨run.count, options.limit, some "expressions nested too deeply"⟩)
  | .failed e => some (.growth e)

/-- The trace of a construction. -/
def trace (run : Run α) (initial : Term) : Trace :=
  ⟨some initial, some run.tree, run.stepList⟩

/-- The last note on a construction. -/
def closingNotes (run : Run α) (options : BuildOptions) : List String :=
  match run.ending, options.limit with
  | .completed, _ =>
    ["Finished after " ++ toString run.count ++ " steps, " ++ toString run.tree.size ++ " nodes"]
  | .exhausted, some limit => ["Step limit " ++ toString limit ++ " reached"]
  | .tooDeep, _ => ["Recursion limit reached after " ++ toString run.count ++ " steps"]
  | _, _ => []

/-- The notes on a construction. -/
def log (run : Run α) (options : BuildOptions) (initial : Term) : List LogLine :=
  let steps := run.stepList.map fun step =>
    "Step " ++ toString step.index ++ ": " ++ step.text?.getD ""
  (("Building tree for " ++ initial.text) :: steps ++ run.closingNotes options).map LogLine.note

end Run

end Supercompilation
