import Mathlib.Data.List.DropRight
import Supercompilation.Folder.Basic
import Supercompilation.Proofs.Breakdown
import Supercompilation.Proofs.Evaluation

/-!
# What exit codes tell

The exit code of a line is read off the first characters of its answer. No answer to a line that is
done starts like the report of a failure: most start with a fixed word, a tree with its branches, a
document with its bracket, a list of steps with a number, and a list of rules with the small initial
of a function. So the code tells how the line turned out. A line without an answer has no code.

Lines outside a dialogue are answered up to and with the first one that fails or has no answer. What
is written and the result at the end say so.
-/

namespace Supercompilation

namespace Text

/-- Blanks at the ends are cut off once. -/
theorem trimmed_trimmed (p : Char → Bool) (cs : List Char) :
    trimmed p (trimmed p cs) = trimmed p cs := by
  have cut : ∀ cs, trimmed p cs = (cs.dropWhile p).rdropWhile p := fun _ => rfl
  have start : (trimmed p cs).dropWhile p = trimmed p cs := by
    rw [List.dropWhile_eq_self_iff]
    intro nonempty
    have shorter : trimmed p cs <+: cs.dropWhile p := List.rdropWhile_prefix ..
    rw [shorter.getElem nonempty]
    exact List.dropWhile_get_zero_not p cs (nonempty.trans_le shorter.length_le)
  rw [cut (trimmed p cs), start, cut cs, List.rdropWhile_idempotent]

/-- A text is stripped once. -/
theorem strip_strip (text : String) : strip (strip text) = strip text := by
  rw [strip, strip, String.toList_ofList, trimmed_trimmed]

end Text

/-- The exit code that is due. -/
def Verdict.code : Verdict → Nat
  | .done => 0
  | .failed => 1
  | .aborted => 2

/-- A failure has a code of its own. -/
theorem Verdict.code_ne_zero {verdict : Verdict} (fails : verdict ≠ .done) : verdict.code ≠ 0 := by
  cases verdict with
  | done => contradiction
  | failed | aborted => decide

/-- A text that cannot be taken for the report of a failure, by its first character. -/
def Innocent (text : String) : Prop :=
  text.toList.head? ≠ some 'A' ∧ text.toList.head? ≠ some 'E'

/-- The exit code for an innocent text. -/
theorem Innocent.exitCode {text : String} (innocent : Innocent text) :
    exitCode (some text) = 0 := by
  obtain ⟨noAbort, noError⟩ := innocent
  cases written : text.toList with
  | nil => simp [Supercompilation.exitCode, written]
  | cons c cs =>
    rw [written, List.head?_cons, ne_eq, Option.some.injEq] at noAbort noError
    simp [Supercompilation.exitCode, written, Ne.symm noAbort, Ne.symm noError]

/-- What stands behind a text does not matter, unless the text is empty. -/
theorem innocent_append {text : String} (innocent : text ≠ "" ∧ Innocent text) (later : String) :
    text ++ later ≠ "" ∧ Innocent (text ++ later) := by
  have nonempty : text.toList ≠ [] := by simpa using innocent.1
  refine ⟨by simp [innocent.1], ?_⟩
  rw [Innocent, String.toList_append, List.head?_append_of_ne_nil _ nonempty]
  exact innocent.2

/-- Texts that are joined are innocent if each of them is and none is empty. -/
theorem innocent_joined (sep : String) {texts : List String}
    (each : ∀ text ∈ texts, text ≠ "" ∧ Innocent text) : Innocent (Text.joined sep texts) := by
  cases texts with
  | nil => simp [Text.joined, Innocent]
  | cons text texts =>
    obtain ⟨given, innocent⟩ := each text List.mem_cons_self
    have nonempty : text.toList ≠ [] := by simpa using given
    rwa [Innocent, Text.joined, Text.toList_followed, List.head?_append_of_ne_nil _ nonempty]

/-- A numeral starts with a digit. -/
theorem innocent_nat (n : Nat) : n.repr ≠ "" ∧ Innocent n.repr := by
  rw [Nat.repr_eq_ofList_toDigits]
  cases digits : Nat.toDigits 10 n with
  | nil => exact absurd digits Nat.toDigits_ne_nil
  | cons c cs =>
    have digit : c.isDigit = true :=
      Nat.isDigit_of_mem_toDigits (by decide) (by decide) (digits ▸ List.mem_cons_self)
    refine ⟨by simp, ?_, ?_⟩ <;> rw [String.toList_ofList, List.head?_cons] <;> rintro ⟨⟩ <;>
      exact absurd digit (by decide)

/-- A number starts with a digit or a sign. -/
theorem innocent_int (n : Int) : toString n ≠ "" ∧ Innocent (toString n) := by
  cases n with
  | ofNat n => exact innocent_nat n
  | negSucc n =>
    have sign : toString (Int.negSucc n) = "-" ++ (n + 1).repr := rfl
    rw [sign]
    exact ⟨by simp, by simp [Innocent]⟩

namespace ProcessTree

/-- The line of a node starts with a blank or the branch. -/
theorem innocent_line (level : Nat) (node : Node) :
    line "" level node ≠ "" ∧ Innocent (line "" level node) := by
  cases level <;> simp [line, Innocent, List.replicate_succ, Nat.mul_succ]

/-- The text of a tree is innocent. -/
theorem innocent_format (tree : ProcessTree) : Innocent tree.format := by
  refine innocent_joined _ fun text member => ?_
  obtain ⟨⟨i, level⟩, -, found⟩ := List.mem_filterMap.mp member
  obtain ⟨node, -, rfl⟩ := Option.map_eq_some_iff.mp found
  exact innocent_line level node

/-- The document of a tree starts with a bracket. -/
theorem innocent_document (tree : ProcessTree) : Innocent tree.document.render := by
  simp [document, Json.render, Json.renderAt, Json.fieldsAt, Json.block, Innocent]

end ProcessTree

/-- A step in words starts with its number. -/
theorem Step.innocent_numbered {step : Step} {text : String}
    (told : step.numbered? = some text) : text ≠ "" ∧ Innocent text := by
  obtain ⟨words, -, rfl⟩ := Option.map_eq_some_iff.mp told
  exact innocent_append (innocent_append (innocent_int step.index) ". ") words

namespace Trace

/-- The list of the steps is innocent. -/
theorem innocent_stepList (trace : Trace) {text : String} (told : trace.stepList? = some text) :
    Innocent text := by
  rw [stepList?] at told
  split at told
  · rw [← Option.some.inj told]
    simp [Innocent]
  · obtain ⟨texts, numbered, rfl⟩ := Option.map_eq_some_iff.mp told
    refine innocent_joined _ fun text member => ?_
    obtain ⟨step, -, words⟩ := Program.exists_left_of_forall₂ (mapM_eq_some_iff.mp numbered) member
    exact step.innocent_numbered words

/-- The trees of a trace, with more text behind them, are innocent. -/
theorem innocent_trees (trace : Trace) (later : String) :
    Innocent (trace.trees ++ "\n" ++ later) := by
  rw [trees]
  cases trace.steps with
  | nil => simp [Text.joined, Innocent]
  | cons step steps => simp [Text.joined, Text.toList_followed, Innocent]

end Trace

/-- A call starts like the name of the function. -/
theorem innocent_call {initial : Char} {name : String}
    (starts : Name.startsIn (· == initial) name = true) (small : initial ≠ 'A' ∧ initial ≠ 'E')
    (args : List String) (later : String) :
    callText name args ++ later ≠ "" ∧ Innocent (callText name args ++ later) := by
  obtain ⟨c, rest, written, first, -⟩ := Name.startsIn_iff.mp starts
  obtain rfl := beq_iff_eq.mp first
  have characters : (callText name args ++ later).toList.head? = some c := by
    rw [String.toList_append, toList_callText, written]
    rfl
  refine ⟨fun empty => ?_, ?_⟩
  · rw [empty] at characters
    contradiction
  · rw [Innocent, characters]
    simpa using small

/-- The text of a rule starts with the small initial of its function. -/
theorem Rule.innocent_text {rule : Rule} (named : rule.wellNamed = true) :
    rule.text ≠ "" ∧ Innocent rule.text := by
  cases rule with
  | f rule =>
    rw [Rule.wellNamed, FRule.wellNamed, Bool.and_eq_true, Bool.and_eq_true] at named
    rw [text, FRule.text, String.append_assoc, String.append_assoc]
    exact innocent_call named.1.1 (by decide) _ _
  | g rule =>
    rw [Rule.wellNamed, GRule.wellNamed, Bool.and_eq_true, Bool.and_eq_true,
      Bool.and_eq_true] at named
    rw [text, GRule.text, String.append_assoc, String.append_assoc]
    exact innocent_call named.1.1.1 (by decide) _ _

/-- The rules of a program are listed innocently. -/
theorem Program.innocent_text {program : Program}
    (named : ∀ rule ∈ program.rules, rule.wellNamed = true) : Innocent program.text := by
  refine innocent_joined _ fun text member => ?_
  obtain ⟨rule, among, rfl⟩ := List.mem_map.mp member
  exact Rule.innocent_text (named rule among)

namespace Session

variable {session : Session} {read : FileReader} {line : String}

/-- A finished construction is shown innocently. -/
theorem innocent_render (session : Session) (run : Run Unit) (initial : Term) :
    Innocent (session.render run initial) := by
  rw [render]
  split
  · rw [String.append_assoc, String.append_assoc]
    exact (run.trace initial).innocent_trees _
  · split
    · exact run.tree.innocent_format
    · exact run.tree.innocent_document
    · cases told : (run.trace initial).stepList? with
      | none => simp [Innocent]
      | some text => exact (run.trace initial).innocent_stepList told

/-- The list of the commands is no report of a failure. -/
theorem exitCode_helpText : exitCode (some Command.helpText) = 0 := by
  have title : "SPSC REPL Commands:\n" ≠ "" ∧ Innocent "SPSC REPL Commands:\n" :=
    ⟨by decide, by simp [Innocent]⟩
  have list : Command.helpText ≠ "" ∧ Innocent Command.helpText := by
    -- The text is put together from the left, so its title is the first of 14 parts.
    delta Command.helpText
    iterate 13 refine innocent_append ?_ _
    exact title
  exact list.2.exitCode

/-- The report of an error has the code for that. -/
theorem exitCode_error (message : String) : exitCode (some ("Error: " ++ message)) = 1 := by
  simp [exitCode]

/-- The report of a construction that is given up has the code for that. -/
theorem exitCode_aborted (aborted : Aborted) : exitCode (some aborted.message) = 2 := by
  delta Aborted.message
  simp [exitCode]

/-- The answer to a command has the exit code for how the command turns out. -/
theorem exitCode_perform (sound : session.Sound) (read : FileReader) (command : Command) :
    exitCode (session.perform read command).1.text =
      (session.outcome read (.command command)).code := by
  cases command with
  | quit => rfl
  | help => exact exitCode_helpText
  | blank | clear | unknown => simp [perform, say, exitCode, outcome, Verdict.code]
  | load path =>
    rw [perform, outcome, loadFile, load]
    split
    · simp [say, exitCode, Verdict.code]
    · cases Program.load read path with
      | error e => simp [Except.map, say, exitCode, Verdict.code]
      | ok program => simp [Except.map, exitCode, Verdict.code]
  | rules =>
    rw [perform, say]
    split
    · simp [exitCode, outcome, Verdict.code]
    · refine (Program.innocent_text fun rule member => sound.named rule ?_).exitCode
      rwa [sound.program, Program.rules_ofRules] at member
  | trace argument =>
    obtain ⟨trace, answer⟩ : ∃ trace : Bool, (session.setTrace argument).1.text =
        some (if trace then "Tracing enabled" else "Tracing disabled") := ⟨_, rfl⟩
    rw [perform, answer]
    cases trace <;> simp [exitCode, outcome, Verdict.code]
  | steps argument =>
    rw [perform, setSteps]
    split
    · simp [say, exitCode, outcome, Verdict.code]
    · split <;> simp [say, exitCode, outcome, Verdict.code]
  | format argument =>
    rw [perform, setFormat]
    split <;> simp [say, exitCode, outcome, Verdict.code]

/-- What is answered about a construction has the exit code for how it turns out. -/
theorem exitCode_report (session : Session) (t : Term) :
    exitCode (session.report t (session.buildTerm t)).text =
      (match (session.buildTerm t).error? session.buildOptions with
        | none | some .unfinished => Verdict.done
        | some (.aborted _) => .aborted
        | some (.growth _) => .failed).code := by
  rw [report]
  cases failed : (session.buildTerm t).error? session.buildOptions with
  | none => exact (session.innocent_render _ t).exitCode
  | some e =>
    cases e with
    | aborted aborted => exact exitCode_aborted aborted
    | unfinished => rfl
    | growth e => exact exitCode_error e.message

/-- The answer to a line has the exit code for how the line turns out. -/
theorem exitCode_processLine (sound : session.Sound) (read : FileReader) (line : String) :
    exitCode (session.processLine read line).1.text = (session.verdict read line).code := by
  rw [processLine, verdict]
  cases request line with
  | nothing => rfl
  | command command => exact exitCode_perform sound read command
  | define text =>
    show exitCode (session.define text).1.text = (session.outcome read (.define text)).code
    rw [define, outcome]
    cases Program.parse text with
    | error e => exact exitCode_error e.message
    | ok program => simp [exitCode, Verdict.code]
  | build text =>
    show exitCode (session.supercompile text).text = (session.outcome read (.build text)).code
    rw [supercompile, outcome]
    cases Term.parse text with
    | error e => exact exitCode_error e.message
    | ok t => exact session.exitCode_report t

/-- Some lines have answers and are done. -/
def Passes (session : Session) : List Entry → Prop
  | [] => True
  | entry :: rest =>
    session.attempt entry.read entry.line = .ok (session.processLine entry.read entry.line) ∧
      session.verdict entry.read entry.line = .done ∧
      Passes (session.processLine entry.read entry.line).2 rest

/-- The answers that are not empty, each with a line feed behind it. -/
def printed (responses : List Response) : String :=
  String.join (((responses.filterMap Response.text).filter (· ≠ "")).map (· ++ "\n"))

/-- What is reported beside the answers. -/
def reported (verbose : Bool) (responses : List Response) : String :=
  (Output.ofLog verbose (responses.flatMap Response.log)).err

/-- Lines that are typed with the same files. -/
def typed (read : FileReader) (lines : List String) : List Entry := lines.map (.mk read)

/-- A line that is typed before others. -/
theorem typed_cons (read : FileReader) (line : String) (rest : List String) :
    typed read (line :: rest) = ⟨read, line⟩ :: typed read rest := rfl

/-- How lines outside a dialogue are answered: what is written, the exit code or what a line breaks
down at, and the session after them. -/
inductive Answered (session : Session) (read : FileReader) (lines : List String) (output : Output)
    (result : Except Breakdown Nat) (last : Session) : Prop where
  /-- All lines are done. -/
  | done (passes : session.Passes (typed read lines))
      (prints : output.out = printed (session.responses (typed read lines)))
      (reports : output.err = reported session.verbose (session.responses (typed read lines)))
      (tells : result = .ok 0)
      (leads : last = session.after (typed read lines))
  /-- A line fails, and all lines before it are done. Its answer is the message. -/
  | failed {before rest : List String} {line message : String}
      (split : lines = before ++ line :: rest)
      (passes : session.Passes (typed read before))
      (fails : (session.after (typed read before)).verdict read line ≠ .done)
      (answer :
        ((session.after (typed read before)).processLine read line).1.text = some message)
      (prints : output.out = printed (session.responses (typed read before)))
      (reports : output.err =
        reported session.verbose (session.responses (typed read (before ++ [line]))) ++
          (message ++ "\n"))
      (tells : result = .ok ((session.after (typed read before)).verdict read line).code)
      (leads : last = session.after (typed read (before ++ [line])))
  /-- A line breaks down, and all lines before it are done. Its reports until then are shown. There
  is no code, and the session is the one before that line. -/
  | broken {before rest : List String} {line : String} {breakdown : Breakdown}
      (split : lines = before ++ line :: rest)
      (passes : session.Passes (typed read before))
      (breaks :
        (session.after (typed read before)).BreaksDown read (request line) breakdown)
      (prints : output.out = printed (session.responses (typed read before)))
      (reports : output.err =
        reported session.verbose (session.responses (typed read before)) ++
          (Output.ofLog session.verbose breakdown.log).err)
      (tells : result = .error breakdown)
      (leads : last = session.after (typed read before))

/-- What is printed for some answers is printed for each of them. -/
theorem printed_cons (response : Response) (rest : List Response) :
    printed (response :: rest) = printed [response] ++ printed rest := by
  have split : response :: rest = [response] ++ rest := rfl
  rw [split, printed, List.filterMap_append, List.filter_append, List.map_append,
    String.join_append]
  rfl

/-- What is reported beside some answers is reported beside each of them. -/
theorem reported_cons (verbose : Bool) (response : Response) (rest : List Response) :
    reported verbose (response :: rest) = reported verbose [response] ++ reported verbose rest := by
  cases verbose <;> simp [reported, Output.ofLog, String.join_append]

/-- No change has to do with whether notes are taken. -/
theorem Change.verbose {next : Session} (change : session.Change next) :
    next.verbose = session.verbose := by
  cases change <;> rfl

/-- Blanks at the ends of a line do not matter. -/
theorem request_strip (line : String) : request (Text.strip line) = request line := by
  rw [request, request, Text.strip_strip]

/-- The answer to a line that is done is printed. -/
theorem tell_of_done (sound : session.Sound) (done : session.verdict read line = .done) :
    tell (session.processLine read line) =
      (⟨printed [(session.processLine read line).1],
        reported session.verbose [(session.processLine read line).1]⟩,
        0, (session.processLine read line).2) := by
  have code := exitCode_processLine sound read line
  rw [done] at code
  have notes := (session.change_of_processLine read line).verbose
  rw [tell]
  generalize session.processLine read line = answered at code notes ⊢
  obtain ⟨⟨text, log⟩, next⟩ := answered
  simp only [Verdict.code] at code notes
  cases text with
  | none => simp [code, notes, printed, reported, Output.append_eq, Output.ofLog]
  | some text =>
    by_cases empty : text = ""
    · rw [empty] at code ⊢
      simp [code, notes, printed, reported, Output.append_eq, Output.ofLog]
    · simp [code, notes, empty, printed, reported, Output.append_eq, Output.ofLog, Output.print]

/-- The answer to a line that fails is its message, which goes to standard error. -/
theorem tell_of_failed (sound : session.Sound) (fails : session.verdict read line ≠ .done) :
    ∃ message, (session.processLine read line).1.text = some message ∧
      tell (session.processLine read line) =
        (⟨"", reported session.verbose [(session.processLine read line).1] ++ (message ++ "\n")⟩,
          (session.verdict read line).code, (session.processLine read line).2) := by
  have code := exitCode_processLine sound read line
  have notes := (session.change_of_processLine read line).verbose
  have failure := Verdict.code_ne_zero fails
  rw [tell]
  generalize session.processLine read line = answered at code notes ⊢
  obtain ⟨⟨text, log⟩, next⟩ := answered
  simp only at code notes
  rw [← code] at failure ⊢
  cases text with
  | none => exact absurd rfl failure
  | some text =>
    have given : text ≠ "" := by
      rintro rfl
      exact failure (by decide)
    refine ⟨text, rfl, ?_⟩
    simp [failure, given, notes, reported, Output.append_eq, Output.ofLog, Output.complain]

/-- Lines are answered one after another until one fails or has no answer. Those that are passed
over could be answered as well: nothing would be written. -/
theorem answerLines_cons (session : Session) (read : FileReader) (line : String)
    (rest : List String) :
    session.answerLines read (line :: rest) =
      match session.answer read line with
      | .error breakdown =>
        (Output.ofLog session.verbose breakdown.log, .error breakdown, session)
      | .ok (output, code, next) =>
        if code = 0 then
          let (later, result, last) := next.answerLines read rest
          (output ++ later, result, last)
        else (output, .ok code, next) := by
  by_cases skipped : Text.strip line = "" ∨ (Text.strip line).toList.head? = some '#'
  · have nothing : request line = .nothing := by
      rcases skipped with blank | marked
      · exact request_of_blank blank
      · obtain ⟨rest, written⟩ := List.head?_eq_some_iff.mp marked
        exact request_of_comment (.inl rfl) ⟨rest, written.symm⟩
    have silent : session.answer read line = .ok ({}, 0, session) := by
      rw [answer, attempt, nothing]
      simp [Except.map, tell, exitCode, Output.ofLog, Output.append_eq]
    rw [answerLines, silent]
    simp [skipped, Output.append_eq]
  · have same : session.answer read (Text.strip line) = session.answer read line := by
      rw [answer, answer, attempt, attempt, request_strip]
    cases attempted : session.answer read line with
    | error breakdown => simp [answerLines, skipped, same, attempted]
    | ok answered => simp [answerLines, skipped, same, attempted]

/-- The session after a line and others. -/
theorem after_typed_cons (session : Session) (read : FileReader) (line : String)
    (rest : List String) : session.after (typed read (line :: rest)) =
      (session.processLine read line).2.after (typed read rest) := by
  rw [typed_cons, after]

/-- The answers to a line and others. -/
theorem responses_typed_cons (session : Session) (read : FileReader) (line : String)
    (rest : List String) : session.responses (typed read (line :: rest)) =
      (session.processLine read line).1 ::
        (session.processLine read line).2.responses (typed read rest) := by
  rw [typed_cons, responses]

/-- A line that is done comes before lines that are answered. -/
theorem Answered.cons {line : String} {rest : List String} {output : Output}
    {result : Except Breakdown Nat} {last : Session}
    (attempted : session.attempt read line = .ok (session.processLine read line))
    (done : session.verdict read line = .done)
    (answered : (session.processLine read line).2.Answered read rest output result last) :
    session.Answered read (line :: rest)
      (⟨printed [(session.processLine read line).1],
        reported session.verbose [(session.processLine read line).1]⟩ ++ output) result last := by
  have notes := (session.change_of_processLine read line).verbose
  have passesAll {later : List String}
      (passes : (session.processLine read line).2.Passes (typed read later)) :
      session.Passes (typed read (line :: later)) := ⟨attempted, done, passes⟩
  rw [Output.append_eq]
  cases answered with
  | done passes prints reports tells leads =>
    rw [← after_typed_cons] at leads
    refine .done (passesAll passes) ?_ ?_ tells leads
    · rw [responses_typed_cons, printed_cons _ (responses _ _), ← prints]
    · rw [responses_typed_cons, reported_cons _ _ (responses _ _), ← notes, ← reports]
  | failed split passes fails answer prints reports tells leads =>
    rw [← after_typed_cons] at fails answer tells leads
    refine .failed (congrArg (_ :: ·) split) (passesAll passes) fails answer ?_ ?_ tells leads
    · rw [responses_typed_cons, printed_cons _ (responses _ _), ← prints]
    · rw [List.cons_append, responses_typed_cons, reported_cons _ _ (responses _ _),
        String.append_assoc, ← notes, ← reports]
  | broken split passes breaks prints reports tells leads =>
    rw [← after_typed_cons] at breaks leads
    refine .broken (congrArg (_ :: ·) split) (passesAll passes) breaks ?_ ?_ tells leads
    · rw [responses_typed_cons, printed_cons _ (responses _ _), ← prints]
    · rw [responses_typed_cons, reported_cons _ _ (responses _ _), String.append_assoc, ← notes,
        ← reports]

/-- A line that fails is answered, and nothing behind it. -/
theorem Answered.first {line message : String} (rest : List String)
    (fails : session.verdict read line ≠ .done)
    (answer : (session.processLine read line).1.text = some message) :
    session.Answered read (line :: rest)
      ⟨"", reported session.verbose [(session.processLine read line).1] ++ (message ++ "\n")⟩
      (.ok (session.verdict read line).code) (session.processLine read line).2 := by
  have start : session.after (typed read []) = session := by simp [typed, Session.after]
  have code : (session.verdict read line).code =
      ((session.after (typed read [])).verdict read line).code := by rw [start]
  rw [← start] at fails answer
  refine .failed (List.nil_append _).symm trivial fails answer ?_ ?_ (congrArg _ code) ?_ <;>
    simp [typed, responses, Session.after, printed]

/-- A line that breaks down is not answered, and nothing behind it is. -/
theorem Answered.firstBroken {line : String} {breakdown : Breakdown} (rest : List String)
    (breaks : session.BreaksDown read (request line) breakdown) :
    session.Answered read (line :: rest) (Output.ofLog session.verbose breakdown.log)
      (.error breakdown) session := by
  have start : session.after (typed read []) = session := by simp [typed, Session.after]
  have breaks : (session.after (typed read [])).BreaksDown read (request line) breakdown := by
    rwa [start]
  refine .broken (List.nil_append _).symm trivial breaks ?_ ?_ rfl start.symm <;>
    simp [typed, responses, printed, reported, Output.ofLog]

/-- Lines outside a dialogue are answered up to and with the first one that fails or breaks down. -/
theorem Sound.answered (sound : session.Sound) (read : FileReader) (lines : List String) :
    session.Answered read lines (session.answerLines read lines).1
      (session.answerLines read lines).2.1 (session.answerLines read lines).2.2 := by
  induction lines generalizing session with
  | nil =>
    rw [answerLines]
    refine .done trivial ?_ ?_ rfl ?_ <;>
      simp [typed, responses, Session.after, printed, reported, Output.ofLog]
  | cons line rest ih =>
    rw [answerLines_cons, answer]
    rcases session.attempt_cases read line with attempted | ⟨breakdown, breaks⟩
    · rw [attempted, Except.map]
      by_cases done : session.verdict read line = .done
      · rw [tell_of_done sound done]
        exact .cons attempted done (ih ((session.change_of_processLine read line).sound sound))
      · obtain ⟨message, answer, written⟩ := tell_of_failed sound done
        rw [written]
        simp only [Verdict.code_ne_zero done, if_false]
        exact .first rest done answer
    · rw [breaks.attempt_eq, Except.map]
      exact .firstBroken rest breaks

end Session

end Supercompilation
