import Mathlib.Data.List.DropRight
import Supercompilation.Proofs.Dialogue
import Supercompilation.Proofs.RoundTrip
import Supercompilation.Proofs.Session

/-!
# When lines have no answer

A line has no answer if something is nested too deeply outside a construction, if a file cannot be
read and the system does not report why, or if a construction goes on. `BreaksDown` lists these
cases by what is read, loaded, built and shown; a line is answered exactly if none of them holds,
and then `processLine` gives the answer. A line without an answer leaves the session as it is, so
every session that lines lead to is one that answered lines alone lead to.

How many frames reading a text takes depends on how many parentheses are open at once in it. For a
term this is how deeply its applications are nested, whatever the spelling. So a number beyond some
size has no answer at all, and a call that is finished after one step has none if its argument can
be read but not be printed.
-/

namespace Supercompilation

/-- At least as many parentheses are open at once as are open before. -/
theorem le_openDepth (opened : Nat) (lexemes : List Lexeme) :
    opened ≤ openDepth opened lexemes := by
  fun_induction openDepth opened lexemes with
  | case1 | case3 | case4 => omega
  | case2 opened rest ih => omega

/-- At most some parentheses are open at once in lexemes that close all that they open, and as many
once they are. -/
def Nests (lexemes : List Lexeme) (depth : Nat) : Prop :=
  ∀ opened rest,
    openDepth opened (lexemes ++ rest) = max (opened + depth) (openDepth opened rest)

namespace Nests

/-- Nothing is open in no lexemes. -/
theorem nil : Nests [] 0 := fun opened rest =>
  (Nat.max_eq_right (le_openDepth opened rest)).symm

/-- Nothing is open in a name. -/
theorem name (name : String) : Nests [.name name] 0 := fun opened rest =>
  (Nat.max_eq_right (le_openDepth opened rest)).symm

/-- Nothing is open in a comma. -/
theorem comma : Nests [.mark .comma] 0 := fun opened rest =>
  (Nat.max_eq_right (le_openDepth opened rest)).symm

/-- Of lexemes one after another, those that are nested more deeply count. -/
theorem append {first second : List Lexeme} {depth depth' : Nat} (nests : Nests first depth)
    (nests' : Nests second depth') : Nests (first ++ second) (max depth depth') := by
  intro opened rest
  rw [List.append_assoc, nests, nests']
  omega

/-- Items behind commas are nested as deeply as the deepest of them. -/
theorem further {items : List (List Lexeme)} {depths : List Nat}
    (each : List.Forall₂ Nests items depths) :
    Nests (further items) (depths.foldr max 0) := by
  induction each with
  | nil => exact nil
  | @cons item depth items depths nests each ih =>
    have first : Nests (.mark .comma :: item) depth := by
      have both := comma.append nests
      rwa [Nat.zero_max] at both
    exact first.append ih

/-- Items with commas between them are nested as deeply as the deepest of them. -/
theorem listed {items : List (List Lexeme)} {depths : List Nat}
    (each : List.Forall₂ Nests items depths) : Nests (listed items) (depths.foldr max 0) := by
  cases each with
  | nil => exact nil
  | cons nests each => exact nests.append (further each)

/-- An application is nested one level more deeply than its arguments. -/
theorem call {items : List (List Lexeme)} {depth : Nat}
    (nests : Nests (Supercompilation.listed items) depth) (name : String) :
    Nests (callLexemes name items) (1 + depth) := by
  intro opened rest
  have inside := nests (opened + 1) (.mark .closing :: rest)
  have behind : openDepth (opened + 1) (.mark .closing :: rest) =
      max (opened + 1) (openDepth opened rest) := rfl
  rw [callLexemes, List.cons_append, List.cons_append, List.append_assoc]
  change openDepth (opened + 1) (_ ++ .mark .closing :: rest) = _
  rw [inside, behind]
  omega

end Nests

namespace Term

mutual

/-- How deeply applications are nested in a term. -/
def nesting : Term → Nat
  | var _ => 0
  | app _ _ args => 1 + (nestingArgs args).foldr max 0
  | letIn _ _ => 0

/-- How deeply applications are nested in each of some terms. -/
def nestingArgs : List Term → List Nat
  | [] => []
  | t :: ts => t.nesting :: nestingArgs ts

end

end Term

namespace BuildState

variable {options : BuildOptions} {state : BuildState}

/-- Looking for the next leaf does not go too deep if it does not with any number of frames. -/
theorem scanTooDeep_eq_false
    (scan : ∀ frames, state.tree.scanTooDeep frames state.tree.leaves = false) :
    state.scanTooDeep options = false := by
  simp [scanTooDeep, scan]

/-- A round at which no leaf needs more work is the last one. -/
theorem round_of_finished
    (scan : ∀ frames, state.tree.scanTooDeep frames state.tree.leaves = false)
    (finished : state.tree.unprocessed? = none) (mayGrow : Bool) :
    state.round options mayGrow = .stop .completed state := by
  rw [round, scanTooDeep_eq_false scan, finished]
  rfl

end BuildState

namespace Session

variable {session next : Session} {read : FileReader} {line : String}

/-- What is asked for has no answer. -/
inductive BreaksDown (session : Session) (read : FileReader) : Request → Breakdown → Prop
  /-- A file cannot be read, and the system does not report why. -/
  | unreadable {path : String} {problem : FileProblem} (named : path ≠ "")
      (found : read path = .error problem) (silent : problem.reported = false) :
      BreaksDown session read (.command (.load path)) (.file problem path)
  /-- The text of a file is nested too deeply. -/
  | loading {path text : String} (named : path ≠ "") (found : read path = .ok text)
      (deep : readingOverflows stackFrames rulesOfTokens text = true) :
      BreaksDown session read (.command (.load path)) (.overflow [])
  /-- The body of a rule is too deep to be listed. -/
  | listing {rule : Rule} (member : rule ∈ session.program.rules)
      (deep : stackFrames < Walk.printing.cost * rule.body.height) :
      BreaksDown session read (.command .rules) (.overflow [])
  /-- Rules are nested too deeply. -/
  | defining {text : String} (deep : readingOverflows stackFrames rulesOfTokens text = true) :
      BreaksDown session read (.define text) (.overflow [])
  /-- A text for a term is nested too deeply. -/
  | reading {text : String} (deep : readingOverflows stackFrames Term.ofTokens text = true) :
      BreaksDown session read (.build text) (.overflow [])
  /-- Notes are taken, and the term is too deep for them. -/
  | noting {text : String} {t : Term} (parsed : Term.parse text = .ok t)
      (verbose : session.verbose = true) (deep : stackFrames < Walk.printing.cost * t.height) :
      BreaksDown session read (.build text) (.overflow [])
  /-- The construction is finished and too deep to be shown. -/
  | showing {text : String} {t : Term} (parsed : Term.parse text = .ok t)
      (shallow : readingOverflows stackFrames Term.ofTokens text = false)
      (noted : session.verbose = true → Walk.printing.cost * t.height ≤ stackFrames)
      (finished : (session.buildTerm t).error? session.buildOptions = none)
      (deep : session.renderTooDeep (session.buildTerm t) = true) :
      BreaksDown session read (.build text)
        (.overflow (session.report t (session.buildTerm t)).log)
  /-- The construction has no limit and goes on. -/
  | goingOn {text : String} {t : Term} (parsed : Term.parse text = .ok t)
      (shallow : readingOverflows stackFrames Term.ofTokens text = false)
      (noted : session.verbose = true → Walk.printing.cost * t.height ≤ stackFrames)
      (unfinished : (session.buildTerm t).error? session.buildOptions = some .unfinished) :
      BreaksDown session read (.build text) .unending

/-- A term that is read and noted is built. -/
theorem trySupercompile_eq {text : String} {t : Term} (parsed : Term.parse text = .ok t)
    (shallow : readingOverflows stackFrames Term.ofTokens text = false)
    (noted : session.verbose = true → Walk.printing.cost * t.height ≤ stackFrames) :
    session.trySupercompile text = session.tryReport t (session.buildTerm t) := by
  have fits : (session.verbose && Walk.printing.overflows stackFrames t.height) = false :=
    Bool.and_eq_false_imp.mpr fun verbose => Walk.overflows_eq_false.mpr (noted verbose)
  rw [trySupercompile, shallow, parsed]
  simp only [fits, Bool.false_eq_true, if_false]

/-- A line that breaks down has no answer. -/
theorem BreaksDown.attempt_eq {breakdown : Breakdown}
    (breaks : session.BreaksDown read (request line) breakdown) :
    session.attempt read line = .error breakdown := by
  rw [attempt]
  generalize request line = asked at breaks
  cases breaks with
  | unreadable named found silent =>
    simp [commandBreakdown?, named, Program.loadBreakdown?, found, silent]
  | loading named found deep => simp [commandBreakdown?, named, Program.loadBreakdown?, found, deep]
  | listing member deep =>
    have holds : session.program.holdsDeep stackFrames = true :=
      List.any_eq_true.mpr ⟨_, member, Walk.overflows_eq_true.mpr deep⟩
    simp [commandBreakdown?, holds]
  | defining deep => simp [deep]
  | reading deep => simp [trySupercompile, deep, Except.map]
  | noting parsed verbose deep =>
    simp [trySupercompile, parsed, verbose, Walk.overflows_eq_true.mpr deep, Except.map]
  | showing parsed shallow noted finished deep =>
    simp only [trySupercompile_eq parsed shallow noted, tryReport, finished, deep, if_true]
    rfl
  | goingOn parsed shallow noted unfinished =>
    simp only [trySupercompile_eq parsed shallow noted, tryReport, unfinished]
    rfl

/-- A command that is not carried out breaks down. -/
theorem breaksDown_of_commandBreakdown? {command : Command} {breakdown : Breakdown}
    (breaks : session.commandBreakdown? read command = some breakdown) :
    session.BreaksDown read (.command command) breakdown := by
  cases command with
  | load path =>
    rw [commandBreakdown?] at breaks
    split at breaks
    · contradiction
    · rename_i named
      rw [Program.loadBreakdown?] at breaks
      split at breaks
      · rename_i problem found
        split at breaks
        · contradiction
        · rename_i silent
          rw [← Option.some.inj breaks]
          exact .unreadable named found (Bool.eq_false_iff.mpr silent)
      · rename_i text found
        split at breaks
        · rename_i deep
          rw [← Option.some.inj breaks]
          exact .loading named found deep
        · contradiction
  | rules =>
    rw [commandBreakdown?] at breaks
    split at breaks
    · rename_i holds
      obtain ⟨rule, member, deep⟩ := List.any_eq_true.mp holds
      rw [← Option.some.inj breaks]
      exact .listing member (Walk.overflows_eq_true.mp deep)
    · contradiction
  | _ => contradiction

/-- A text for a term is answered as it would be with frames enough, or it breaks down. -/
theorem trySupercompile_cases (session : Session) (read : FileReader) (text : String) :
    session.trySupercompile text = .ok (session.supercompile text) ∨
      ∃ breakdown, session.BreaksDown read (.build text) breakdown := by
  rw [trySupercompile, supercompile]
  cases shallow : readingOverflows stackFrames Term.ofTokens text with
  | true => exact .inr ⟨.overflow [], .reading shallow⟩
  | false =>
    cases parsed : Term.parse text with
    | error e => exact .inl rfl
    | ok t =>
      cases noted : session.verbose && Walk.printing.overflows stackFrames t.height with
      | true =>
        obtain ⟨verbose, deep⟩ := Bool.and_eq_true_iff.mp noted
        exact .inr ⟨.overflow [], .noting parsed verbose (Walk.overflows_eq_true.mp deep)⟩
      | false =>
        have fits : session.verbose = true → Walk.printing.cost * t.height ≤ stackFrames :=
          fun verbose => Walk.overflows_eq_false.mp (Bool.and_eq_false_imp.mp noted verbose)
        simp only [noted, Bool.false_eq_true, if_false]
        rw [tryReport]
        split
        · exact .inr ⟨.unending, .goingOn parsed shallow fits ‹_›⟩
        · dsimp only
          split
          · exact .inr ⟨_, .showing parsed shallow fits ‹_› ‹_›⟩
          · exact .inl rfl
        · exact .inl rfl

/-- A line is answered as it would be with frames enough, or it breaks down. -/
theorem attempt_cases (session : Session) (read : FileReader) (line : String) :
    session.attempt read line = .ok (session.processLine read line) ∨
      ∃ breakdown, session.BreaksDown read (request line) breakdown := by
  rw [attempt, processLine]
  cases request line with
  | nothing => exact .inl rfl
  | command command =>
    cases breaks : session.commandBreakdown? read command with
    | none => exact .inl (by simp only [breaks])
    | some breakdown => exact .inr ⟨breakdown, breaksDown_of_commandBreakdown? breaks⟩
  | define text =>
    by_cases deep : readingOverflows stackFrames rulesOfTokens text = true
    · exact .inr ⟨.overflow [], .defining deep⟩
    · exact .inl (if_neg deep)
  | build text =>
    refine (session.trySupercompile_cases read text).imp_left fun answered => ?_
    simp only [answered, Except.map]

/-- The answer to a line that has one is that of a session with frames enough. -/
theorem eq_of_attempt {answered : Response × Session}
    (attempted : session.attempt read line = .ok answered) :
    answered = session.processLine read line := by
  rcases session.attempt_cases read line with same | ⟨breakdown, breaks⟩
  · exact Except.ok.inj (attempted.symm.trans same)
  · rw [breaks.attempt_eq] at attempted
    contradiction

end Session

namespace Dialogue

variable {read : FileReader} {dialogue : Dialogue}

/-- What comes from the terminal is answered as it would be with frames enough, if it has an
answer. -/
theorem eq_of_attempt {input : TerminalInput} {answered : Output × Dialogue}
    (attempted : dialogue.attempt read input = .ok answered) :
    answered = dialogue.feed read input := by
  cases input with
  | interrupt => exact (Except.ok.inj attempted).symm
  | line text =>
    rw [attempt] at attempted
    split at attempted
    · rename_i balanced
      cases answers : dialogue.session.attempt read (dialogue.collect text) with
      | error breakdown =>
        rw [answers] at attempted
        contradiction
      | ok response =>
        rw [answers, Session.eq_of_attempt answers] at attempted
        rw [← Except.ok.inj attempted, feed, feedLine]
        simp [balanced]
    · exact (Except.ok.inj attempted).symm

/-- How a dialogue is held: it is that of a session with frames enough, up to an input that has no
answer. -/
inductive Held (read : FileReader) (dialogue : Dialogue) (inputs : List TerminalInput) :
    Output × Option Breakdown → Prop where
  /-- All inputs that are read have answers. -/
  | whole : Held read dialogue inputs ((converse read dialogue inputs).1, none)
  /-- An input has no answer, and those before it have. Everything up to its prompt is written as if
  the inputs ended there, when the prompt is followed by a line feed. Then comes what is reported of
  the input until it breaks down. -/
  | broken {before rest : List TerminalInput} {input : TerminalInput} {breakdown : Breakdown}
      {shown : Output} (split : inputs = before ++ input :: rest)
      (steady : hold read dialogue before = ((converse read dialogue before).1, none))
      (running : (converse read dialogue before).2.session.running = true)
      (breaks : (converse read dialogue before).2.attempt read input = .error breakdown)
      (writes : shown ++ .print "\n" = (converse read dialogue before).1) :
      Held read dialogue inputs
        (shown ++ Output.ofLog (converse read dialogue before).2.session.verbose breakdown.log,
          some breakdown)

/-- Without inputs a dialogue is held as it would be with frames enough. -/
theorem hold_nil (read : FileReader) (dialogue : Dialogue) :
    hold read dialogue [] = ((converse read dialogue []).1, none) := by
  rw [hold, converse]
  split <;> rfl

/-- An input with an answer comes before those that are held in the dialogue after it. -/
theorem Held.cons {input : TerminalInput} {rest : List TerminalInput} {output : Output}
    {next : Dialogue} (running : dialogue.session.running = true)
    (attempted : dialogue.attempt read input = .ok (output, next))
    (held : Held read next rest (hold read next rest)) :
    Held read dialogue (input :: rest) (hold read dialogue (input :: rest)) := by
  have holds : ∀ inputs, hold read dialogue (input :: inputs) =
      (.print dialogue.prompt ++ output ++ (hold read next inputs).1,
        (hold read next inputs).2) := by
    intro inputs
    rw [hold, if_pos running, attempted]
  have converses : ∀ inputs, converse read dialogue (input :: inputs) =
      (.print dialogue.prompt ++ output ++ (converse read next inputs).1,
        (converse read next inputs).2) := by
    intro inputs
    rw [converse, if_pos running, ← eq_of_attempt attempted]
  rw [holds]
  generalize hold read next rest = result at held
  cases held with
  | whole =>
    have all : Held read dialogue (input :: rest) _ := .whole
    rwa [converses] at all
  | @broken before later other breakdown shown split steady still breaks writes =>
    have sofar := converses before
    have split : input :: rest = (input :: before) ++ other :: later := congrArg (input :: ·) split
    have assembled : Held read dialogue (input :: rest)
        (.print dialogue.prompt ++ output ++ shown ++
          Output.ofLog (converse read dialogue (input :: before)).2.session.verbose breakdown.log,
          some breakdown) := by
      refine .broken split ?_ ?_ ?_ ?_
      · rw [holds, steady, sofar]
      · rwa [sofar]
      · rwa [sofar]
      · rw [sofar, ← writes, Output.append_assoc]
    rwa [sofar, Output.append_assoc] at assembled

/-- A dialogue is held as it would be with frames enough, up to an input that has no answer. -/
theorem held (read : FileReader) (dialogue : Dialogue) (inputs : List TerminalInput) :
    Held read dialogue inputs (hold read dialogue inputs) := by
  induction inputs generalizing dialogue with
  | nil =>
    rw [hold_nil]
    exact .whole
  | cons input rest ih =>
    by_cases running : dialogue.session.running = true
    · cases attempted : dialogue.attempt read input with
      | ok answered => exact .cons running attempted (ih answered.2)
      | error breakdown =>
        have ends : converse read dialogue [] = (.print (dialogue.prompt ++ "\n"), dialogue) := by
          rw [converse, if_pos running]
        rw [hold, if_pos running, attempted]
        have split : input :: rest = [] ++ input :: rest := rfl
        have assembled : Held read dialogue (input :: rest)
            (.print dialogue.prompt ++
              Output.ofLog (converse read dialogue []).2.session.verbose breakdown.log,
              some breakdown) := by
          refine .broken split (hold_nil read dialogue) ?_ ?_ ?_
          · rwa [ends]
          · rwa [ends]
          · rw [ends, Output.print_append]
        rwa [ends] at assembled
    · rw [Bool.not_eq_true] at running
      have all : Held read dialogue (input :: rest) _ := .whole
      rw [converse_of_not_running read running] at all
      rwa [hold, if_neg (by simp [running])]

end Dialogue

end Supercompilation
