import Supercompilation.Session.Command

/-!
# Lines that have no answer

Only a construction watches the stack. Where a text is read, where the start of a construction is
noted and where a result or the rules are shown, a walk that takes too many frames breaks off what
is under way. So does a file that cannot be read for a reason that the system does not report. And a
construction without a limit may go on for ever; then it is left unfinished, not given up.

A line that breaks down has no answer, and the session stays as it was before the line. Every other
line is answered as `Session.processLine` says.
-/

namespace Supercompilation

/-- What keeps a line from being answered. -/
inductive Breakdown where
  /-- A walk takes too many stack frames; what was reported until then. -/
  | overflow (log : List LogLine)
  /-- A file cannot be read, and the system does not report why. -/
  | file (problem : FileProblem) (path : String)
  /-- A construction without a limit goes on. -/
  | unending
  deriving DecidableEq, Repr

namespace Breakdown

/-- What is said about a line without an answer. -/
def message : Breakdown → String
  | overflow _ => "maximum recursion depth exceeded"
  | file problem path => problem.message path
  | unending => "the construction goes on"

/-- What is reported before a line breaks down. A construction that goes on is not told of. -/
def log : Breakdown → List LogLine
  | overflow log => log
  | file .. | unending => []

end Breakdown

/-- The greatest number of parentheses that are open at once in some lexemes, where some are open
before them. -/
def openDepth : Nat → List Lexeme → Nat
  | opened, [] => opened
  | opened, .mark .opening :: rest => openDepth (opened + 1) rest
  | opened, .mark .closing :: rest => max opened (openDepth (opened - 1) rest)
  | opened, _ :: rest => openDepth opened rest

/-- The tokens that are read: all of them, or those before the first that does not fit. -/
def tokensRead {α : Type} (found : List Token) : Except Mismatch α → List Token
  | .ok _ => found
  | .error mismatch => found.take (found.length - mismatch.found.length)

/-- Whether reading a text takes too many frames. The text is cut into tokens without going down. -/
def readingOverflows {α : Type} (frames : Nat) (reader : List Token → Except Mismatch α)
    (text : String) : Bool :=
  match tokens text with
  | .error _ => false
  | .ok found =>
    Walk.reading.overflows frames
      (openDepth 0 ((tokensRead found (reader found)).map Token.lexeme))

/-- Whether turning a tree into a document takes too many frames. The document of a node stands in
those of the nodes above it. -/
def ProcessTree.documentTooDeep (tree : ProcessTree) (frames : Nat) : Bool :=
  (tree.visitLevels tree.nodes.size [(tree.root, 0)]).any fun (i, level) =>
    match tree.node? i with
    | none => false
    | some node =>
      let left := frames - Walk.documenting.cost * level
      Walk.documenting.overflows frames level || Walk.printing.overflows left node.term.height ||
        node.contraction.any fun contraction =>
          Walk.documenting.overflows left contraction.pattern.height

/-- What keeps the program in a file from being loaded. -/
def Program.loadBreakdown? (read : FileReader) (path : String) : Option Breakdown :=
  match read path with
  | .error problem => if problem.reported then none else some (.file problem path)
  | .ok text =>
    if readingOverflows stackFrames rulesOfTokens text then some (.overflow []) else none

namespace Session

/-- Whether showing a finished construction takes too many frames. -/
def renderTooDeep (session : Session) (run : Run Unit) : Bool :=
  match session.format with
  | .tree => run.tree.printTooDeep stackFrames
  | .json => run.tree.documentTooDeep stackFrames
  | .steps => run.stepList.any (Step.tooDeep stackFrames)

/-- Show the construction for a term, or say what keeps it from being shown. -/
def tryReport (session : Session) (t : Term) (run : Run Unit) : Except Breakdown Response :=
  match run.error? session.buildOptions with
  | some .unfinished => .error .unending
  | none =>
    let response := session.report t run
    if session.renderTooDeep run then .error (.overflow response.log) else .ok response
  | some _ => .ok (session.report t run)

/-- Build and show the process tree of the term that a text stands for, or say what keeps that from
being done. Those who asked for notes are told the term first. -/
def trySupercompile (session : Session) (text : String) : Except Breakdown Response :=
  if readingOverflows stackFrames Term.ofTokens text then .error (.overflow [])
  else
    match Term.parse text with
    | .error e => .ok { text := some ("Error: " ++ e.message) }
    | .ok t =>
      if session.verbose && Walk.printing.overflows stackFrames t.height then .error (.overflow [])
      else session.tryReport t (session.buildTerm t)

/-- What keeps a command from being carried out. -/
def commandBreakdown? (session : Session) (read : FileReader) : Command → Option Breakdown
  | .load path => if path = "" then none else Program.loadBreakdown? read path
  | .rules => if session.program.holdsDeep stackFrames then some (.overflow []) else none
  | _ => none

/-- Answer a line, or say what keeps it from being answered. -/
def attempt (session : Session) (read : FileReader) (line : String) :
    Except Breakdown (Response × Session) :=
  match request line with
  | .nothing => .ok ({}, session)
  | .command command =>
    match session.commandBreakdown? read command with
    | some breakdown => .error breakdown
    | none => .ok (session.perform read command)
  | .define text =>
    if readingOverflows stackFrames rulesOfTokens text then .error (.overflow [])
    else .ok (session.define text)
  | .build text => (session.trySupercompile text).map fun response => (response, session)

end Session

end Supercompilation
