import Supercompilation.Trace

/-!
# Bounded stacks

Comparing, matching, specialising, driving and printing terms go down level by level, and so do
reading a text and turning a tree into a document. Each of these walks takes some frames of the
stack for a level, and there are only so many. A construction is given up as soon as one of its
walks would take more. Binding a variable to a deep term does not go down, nor does refusing a pair
of terms by their sizes.

The functions of this module say when a walk of a construction takes too many frames. They decide
nothing else: where they answer no, the plain functions give the result.
-/

namespace Supercompilation

/-- The walks that go down level by level. -/
inductive Walk where
  /-- Matching a pattern against a term. -/
  | matching
  /-- Putting values in the place of variables. -/
  | specialising
  /-- Driving the call in the first argument of a call. -/
  | driving
  /-- Reading the arguments of an application. -/
  | reading
  /-- Turning a term or a tree into a document. -/
  | documenting
  /-- Comparing two terms. -/
  | comparing
  /-- Putting a term into words. -/
  | printing
  deriving DecidableEq, Repr

namespace Walk

/-- The number of frames that a walk takes for a level. -/
def cost : Walk → Nat
  | matching => 1
  | specialising | driving | reading | documenting => 2
  | comparing => 3
  | printing => 5

/-- Whether going down some levels takes more frames than there are. -/
def overflows (walk : Walk) (frames depth : Nat) : Bool := frames < walk.cost * depth

/-- There are frames enough for some levels. -/
theorem overflows_eq_false {walk : Walk} {frames depth : Nat} :
    walk.overflows frames depth = false ↔ walk.cost * depth ≤ frames := by
  rw [overflows, decide_eq_false_iff_not, Nat.not_lt]

/-- There are too few frames for some levels. -/
theorem overflows_eq_true {walk : Walk} {frames depth : Nat} :
    walk.overflows frames depth = true ↔ frames < walk.cost * depth := by
  rw [overflows, decide_eq_true_eq]

/-- The frames that are left one level further down; nothing if there are too few. -/
def descend? (walk : Walk) (frames : Nat) : Option Nat :=
  if walk.cost ≤ frames then some (frames - walk.cost) else none

end Walk

namespace Term

mutual

/-- Structural equality within some frames; nothing if it cannot be decided there. -/
def equalsWithin (frames : Nat) : Term → Term → Option Bool
  | t, u =>
    if t.size ≠ u.size then some false
    else
      match Walk.comparing.descend? frames with
      | none => none
      | some frames =>
        match t, u with
        | var name, var name' => some (name == name')
        | app head name args, app head' name' args' =>
          if head = head' ∧ name = name' ∧ args.length = args'.length then
            equalsArgsWithin frames args args'
          else some false
        | letIn body bindings, letIn body' bindings' =>
          if bindings.length ≠ bindings'.length then some false
          else
            match equalsBindingsWithin frames bindings bindings' with
            | some true => equalsWithin frames body body'
            | other => other
        | _, _ => some false

/-- Equality of arguments within some frames. -/
def equalsArgsWithin (frames : Nat) : List Term → List Term → Option Bool
  | t :: ts, u :: us =>
    match equalsWithin frames t u with
    | some true => equalsArgsWithin frames ts us
    | other => other
  | _, _ => some true

/-- Equality of bindings within some frames. -/
def equalsBindingsWithin (frames : Nat) :
    List (String × Term) → List (String × Term) → Option Bool
  | (x, t) :: ts, (y, u) :: us =>
    if x ≠ y then some false
    else
      match equalsWithin frames t u with
      | some true => equalsBindingsWithin frames ts us
      | other => other
  | _, _ => some true

end

mutual

/-- Matching within some frames; nothing if it cannot be decided there. -/
def matchWithin (frames : Nat) : Term → Term → Substitution → Option MatchResult
  | var name, t, values =>
    match values.value? name with
    | some bound => (bound.equalsWithin frames t).map fun same => if same then some values else none
    | none => some (some (values ++ [(name, t)]))
  | t, u, values =>
    if u.size < t.size then some none
    else
      match Walk.matching.descend? frames with
      | none => none
      | some frames =>
        match t, u with
        | app head name args, app head' name' args' =>
          if head = head' ∧ name = name' ∧ args.length = args'.length then
            matchArgsWithin frames args args' values
          else some none
        | letIn body bindings, letIn body' bindings' =>
          if NameMap.names bindings = NameMap.names bindings' then
            match matchBindingsWithin frames bindings bindings' values with
            | some (some values) => matchWithin frames body body' values
            | other => other
          else some none
        | _, _ => some none

/-- Matching of arguments within some frames. -/
def matchArgsWithin (frames : Nat) :
    List Term → List Term → Substitution → Option MatchResult
  | t :: ts, u :: us, values =>
    match matchWithin frames t u values with
    | some (some values) => matchArgsWithin frames ts us values
    | other => other
  | _, _, values => some (some values)

/-- Matching of bindings within some frames. -/
def matchBindingsWithin (frames : Nat) :
    List (String × Term) → List (String × Term) → Substitution → Option MatchResult
  | (_, t) :: ts, (_, u) :: us, values =>
    match matchWithin frames t u values with
    | some (some values) => matchBindingsWithin frames ts us values
    | other => other
  | _, _, values => some (some values)

end

/-- Whether matching a pattern against a term goes too deep. It never does if the term could be
compared level by level, nor if the pattern has no variables and another size. -/
def matchTooDeep (frames : Nat) (pattern t : Term) : Bool :=
  Walk.comparing.overflows frames t.height && !(pattern.ground && pattern.size != t.size) &&
    (pattern.matchWithin frames t []).isNone

/-- Whether comparing two terms up to renaming goes too deep. -/
def equivTooDeep (frames : Nat) (t u : Term) : Bool :=
  matchTooDeep frames t u || ((t.matchAgainst u).isSome && matchTooDeep frames u t)

end Term

namespace ProcessTree

/-- Whether a tree holds a term that is too deep for some walk. A case distinction adds a level. -/
def holdsDeep (tree : ProcessTree) (frames : Nat) : Bool :=
  tree.nodes.any fun node => Walk.printing.overflows frames (node.term.height + 1)

/-- Whether comparing a call with ancestors, until one repeats it, goes too deep. -/
def repeatsTooDeep (tree : ProcessTree) (frames : Nat) (t : Term) : List Nat → Bool
  | [] => false
  | a :: rest =>
    match tree.node? a with
    | none => repeatsTooDeep tree frames t rest
    | some above =>
      if above.term.kind ≠ t.kind then repeatsTooDeep tree frames t rest
      else if t.equivTooDeep frames above.term then true
      else if t.equiv above.term then false
      else repeatsTooDeep tree frames t rest

/-- Whether looking for the first unprocessed leaf among some leaves goes too deep. -/
def scanTooDeep (tree : ProcessTree) (frames : Nat) : List Nat → Bool
  | [] => false
  | i :: rest =>
    match tree.node? i with
    | none => scanTooDeep tree frames rest
    | some node =>
      if node.term.isCall && tree.repeatsTooDeep frames node.term (tree.ancestors i) then
        true
      else if tree.isProcessed i then scanTooDeep tree frames rest
      else false

/-- Whether looking for an ancestor to fold to, among some ancestors, goes too deep. -/
def foldTooDeep (tree : ProcessTree) (frames : Nat) (t : Term) : List Nat → Bool
  | [] => false
  | a :: rest =>
    match tree.node? a with
    | none => foldTooDeep tree frames t rest
    | some above =>
      if above.term.kind ≠ t.kind then foldTooDeep tree frames t rest
      else if above.term.matchTooDeep frames t then true
      else if (above.term.matchAgainst t).isSome then false
      else foldTooDeep tree frames t rest

/-- Whether printing the tree goes too deep. -/
def printTooDeep (tree : ProcessTree) (frames : Nat) : Bool :=
  tree.nodeList.any fun i =>
    match tree.node? i with
    | none => false
    | some node =>
      Walk.printing.overflows frames node.term.height ||
        node.contraction.any fun contraction =>
          Walk.printing.overflows frames contraction.pattern.height

end ProcessTree

/-- Whether putting a driving error into words goes too deep. -/
def DriveError.tooDeep (frames : Nat) (e : DriveError) : Bool :=
  match e with
  | .undrivable t => Walk.printing.overflows frames t.height
  | e => e.call?.any fun call => Walk.printing.overflows frames call.height

/-- Whether putting a step into words goes too deep. -/
def Step.tooDeep (frames : Nat) (step : Step) : Bool :=
  Walk.printing.overflows frames step.before.height ||
    step.results.any fun branch => Walk.printing.overflows frames branch.term.height

namespace Program

/-- Whether replacing a call by a rule goes too deep: the body of the rule, or else the words of
the error. -/
def replacementTooDeep (frames : Nat) (body : Option Term) (result : Except DriveError Term) :
    Bool :=
  match result with
  | .error e => e.tooDeep frames
  | .ok _ => body.any fun t => Walk.specialising.overflows frames t.height

/-- Whether replacing a call of a g-function goes too deep. -/
def applyTooDeep (program : Program) (frames : Nat) (name constructor : String)
    (fields rest : List Term) : Bool :=
  replacementTooDeep frames ((program.gRule? name constructor).map GRule.body)
    (program.applyG name constructor fields rest)

/-- The supply at the point where a case distinction goes too deep, if it does. -/
def splitBlocked (program : Program) (frames : Nat) (name x : String) (rest : List Term) :
    List GRule → NameSupply → Option NameSupply
  | [], _ => none
  | rule :: rules, supply =>
    let (names, supply) := supply.freshMany rule.pattern.fields.length
    let fields := names.map Term.var
    let value : Substitution := [(x, .ctor rule.pattern.name fields)]
    let others := Term.substArgs value rest
    if Walk.specialising.overflows frames (Term.gCall name (.var x :: rest)).height then some supply
    else if program.applyTooDeep frames name rule.pattern.name fields others then some supply
    else
      match program.applyG name rule.pattern.name fields others with
      | .error _ => none
      | .ok _ => splitBlocked program frames name x rest rules supply

/-- The supply at the point where a driving step goes too deep, if it does. -/
def driveBlocked (program : Program) (frames : Nat) : Term → NameSupply → Option NameSupply
  | .app .fCall name args, supply =>
    if replacementTooDeep frames ((program.f.value? name).map FRule.body)
        (program.unfold name args) then
      some supply
    else none
  | .app .gCall name (scrutinee :: rest), supply =>
    match program.gs.value? name with
    | none =>
      if Walk.printing.overflows frames (Term.gCall name (scrutinee :: rest)).height then
        some supply
      else none
    | some rules =>
      match scrutinee with
      | .app .ctor constructor fields =>
        if program.applyTooDeep frames name constructor fields rest then some supply else none
      | .var x => program.splitBlocked frames name x rest rules supply
      | other =>
        match Walk.driving.descend? frames with
        | none => some supply
        | some frames => program.driveBlocked frames other supply
  | .app .pattern name args, supply =>
    if Walk.printing.overflows frames (Term.pattern name args).height then some supply else none
  | _, _ => none

end Program

/-- The supercompiler at the point where driving a term goes too deep, if it does. -/
def Supercompiler.driveBlocked (sc : Supercompiler) (frames : Nat) (t : Term) :
    Option Supercompiler :=
  let supply := (sc.supply.reserve sc.program.vars).reserve t.vars
  (sc.program.driveBlocked frames t supply).map fun supply => { sc with supply }

/-- Whether a program holds a term that is too deep for some walk. -/
def Program.holdsDeep (program : Program) (frames : Nat) : Bool :=
  program.rules.any fun rule => Walk.printing.overflows frames rule.body.height

/-- The supercompiler at the point where a growth step of a node goes too deep, if it does. It never
does if neither the tree nor the program holds a deep term. -/
def Supercompiler.stepBlocked (sc : Supercompiler) (frames : Nat) (tree : ProcessTree) (i : Nat) :
    Option Supercompiler :=
  if tree.holdsDeep frames || sc.program.holdsDeep frames then
    match tree.node? i with
    | none => none
    | some node =>
      if node.term.isCall then
        if tree.foldTooDeep frames node.term (tree.ancestors i) then some sc
        else if (tree.fold? i).isSome then none
        else sc.driveBlocked frames node.term
      else sc.driveBlocked frames node.term
  else none

end Supercompilation
