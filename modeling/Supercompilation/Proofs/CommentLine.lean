import Supercompilation.Proofs.Dialogue
import Supercompilation.Proofs.Session

/-!
# Comments in a dialogue

A dialogue counts the parentheses of a line before it looks at what the line is. A comment typed
while nothing is pending is therefore transparent exactly if its parentheses balance: nothing is
written for it but its prompt, and all else goes on as without it. A comment with too many closing
parentheses is complained about. One with too many opening parentheses waits for others, and the
lines up to the one that closes them are not answered, because the lines together are a comment.
-/

namespace Supercompilation

namespace Text

/-- A character that is not cut off keeps its place in front of what is trimmed. -/
theorem trimmedEnd_cons {p : Char → Bool} {c : Char} (stays : p c = false) (rest : List Char) :
    trimmedEnd p (c :: rest) = c :: trimmedEnd p rest := by
  rw [trimmedEnd, trimmedEnd, List.reverse_cons, List.dropWhile_append]
  split
  · rename_i none
    rw [List.isEmpty_iff.mp none]
    simp [stays]
  · rw [List.reverse_append]
    rfl

end Text

/-- Nothing is shown of no reports. -/
theorem Output.ofLog_nil (verbose : Bool) : ofLog verbose [] = {} := by
  cases verbose <;> rfl

namespace Session

/-- A comment: the first characters of the line that are no blanks are a number sign or two
slashes. -/
def IsComment (line : String) : Prop :=
  ∃ mark : String, (mark = "#" ∨ mark = "//") ∧ mark.toList <+: (Text.stripStart line).toList

/-- A comment asks for nothing. -/
theorem IsComment.request {line : String} (comment : IsComment line) :
    Session.request line = .nothing := by
  obtain ⟨mark, known, rest, starts⟩ := comment
  rw [Text.stripStart, String.toList_ofList] at starts
  refine request_of_comment known ⟨Text.trimmedEnd Text.isBlank rest, ?_⟩
  rw [Text.strip, String.toList_ofList, Text.trimmed, ← starts]
  rcases known with rfl | rfl
  · exact (Text.trimmedEnd_cons (by decide) rest).symm
  · change '/' :: '/' :: _ = Text.trimmedEnd Text.isBlank ('/' :: '/' :: rest)
    rw [Text.trimmedEnd_cons (by decide), Text.trimmedEnd_cons (by decide)]
    rfl

/-- What is written behind a comment leaves it a comment. -/
theorem IsComment.append {line : String} (comment : IsComment line) (more : String) :
    IsComment (line ++ more) := by
  obtain ⟨mark, known, rest, starts⟩ := comment
  rw [Text.stripStart, String.toList_ofList] at starts
  refine ⟨mark, known, rest ++ more.toList, ?_⟩
  have some : (line.toList.dropWhile Text.isBlank).isEmpty = false := by
    rw [← starts]
    rcases known with rfl | rfl <;> rfl
  rw [Text.stripStart, String.toList_ofList, String.toList_append, List.dropWhile_append, some,
    if_neg Bool.false_ne_true, ← starts, List.append_assoc]

/-- The answer to a comment is empty. -/
theorem IsComment.processLine {line : String} (comment : IsComment line) (session : Session)
    (read : FileReader) : session.processLine read line = ({}, session) := by
  rw [Session.processLine, comment.request]

end Session

namespace Dialogue

open Session

/-- What is written for inputs with the prompts before them, and where the dialogue stands then. No
prompt is written behind the last input. -/
def typed (read : FileReader) : Dialogue → List TerminalInput → Output × Dialogue
  | dialogue, [] => ({}, dialogue)
  | dialogue, input :: rest =>
    if dialogue.session.running then
      let (output, next) := dialogue.feed read input
      let (later, last) := typed read next rest
      (.print dialogue.prompt ++ output ++ later, last)
    else ({}, dialogue)

/-- A dialogue goes on where it stands after some inputs, and what it writes for the others comes
behind what it has written for them. -/
theorem converse_append (read : FileReader) (dialogue : Dialogue)
    (inputs more : List TerminalInput) :
    converse read dialogue (inputs ++ more) =
      ((typed read dialogue inputs).1 ++
        (converse read (typed read dialogue inputs).2 more).1,
        (converse read (typed read dialogue inputs).2 more).2) := by
  induction inputs generalizing dialogue with
  | nil => rw [List.nil_append, typed, Output.empty_append]
  | cons input rest ih =>
    cases running : dialogue.session.running with
    | false =>
      have stopped : typed read dialogue (input :: rest) = ({}, dialogue) := by
        rw [typed, running]
        rfl
      rw [stopped, converse_of_not_running read running, converse_of_not_running read running]
      rfl
    | true =>
      rw [List.cons_append, converse, if_pos running, typed, if_pos running]
      simp only [ih, Output.append_assoc]

/-- What a dialogue says of too many closing parentheses. -/
def tooManyClosing : String := "Error: Unbalanced parentheses (too many closing)\n"

variable {read : FileReader} {session : Session} {line : String}

/-- Lines from the start of lines that wait do so too. -/
theorem Waiting.of_prefix {lines taken : List String} (waiting : Waiting lines)
    (start : taken <+: lines) : Waiting taken :=
  fun _ further nonempty => waiting _ (further.trans start) nonempty

/-- Lines that wait are not answered, and what comes behind them finds them in the buffer. The
prompts for the lines that are there already are written before. -/
theorem Waiting.converse_append {pending more : List String} (waiting : Waiting (pending ++ more))
    (read : FileReader) (running : session.running = true) (rest : List TerminalInput) :
    .print (Chunk.prompts pending.length) ++
        (converse read ⟨session, linesText pending⟩ (more.map .line ++ rest)).1 =
      .print (Chunk.prompts (pending ++ more).length) ++
        (converse read ⟨session, linesText (pending ++ more)⟩ rest).1 ∧
    (converse read ⟨session, linesText pending⟩ (more.map .line ++ rest)).2 =
      (converse read ⟨session, linesText (pending ++ more)⟩ rest).2 := by
  induction more generalizing pending with
  | nil => simp
  | cons line more ih =>
    have whole : pending ++ line :: more = (pending ++ [line]) ++ more := by simp
    have waits : Waiting pending := waiting.of_prefix (List.prefix_append _ _)
    have kept : Waiting (pending ++ [line]) :=
      waiting.of_prefix (whole ▸ List.prefix_append _ _)
    have positive := kept _ List.prefix_rfl (by simp)
    obtain ⟨written, ends⟩ := ih (whole ▸ waiting)
    rw [List.map_cons, List.cons_append, converse_line read running,
      waits.feedLine_kept read session positive, whole, ← written, ← ends, List.length_append,
      List.length_singleton, waits.prompts_succ session, ← Output.print_append]
    simp only [Output.append_assoc, Output.empty_append, and_self]

/-- Lines together begin as the first of them. -/
theorem exists_linesText_cons (line : String) (more : List String) :
    ∃ rest, linesText (line :: more) = line ++ rest := by
  induction more generalizing line with
  | nil => exact ⟨"", by simp [linesText, Text.joined, Text.followed]⟩
  | cons next more ih =>
    obtain ⟨rest, whole⟩ := ih (line ++ "\n" ++ next)
    exact ⟨"\n" ++ next ++ rest, by
      rw [← String.append_assoc, ← String.append_assoc, ← whole]
      rfl⟩

/-- The reply to lines that are together a comment: nothing, or a complaint about too many closing
parentheses. -/
def silence (lines : List String) : Output :=
  if parenthesisBalance (linesText lines) = 0 then {} else .print tooManyClosing

/-- Lines that begin with a comment are not answered together, and leave the session as it is. -/
theorem reply_of_comment {pending : List String}
    (comment : IsComment (linesText (pending ++ [line]))) (read : FileReader)
    (session : Session) :
    (ended pending line).reply read session = silence (pending ++ [line]) ∧
      (ended pending line).next read session = session := by
  have whole : (ended pending line).text = linesText (pending ++ [line]) := rfl
  rw [Chunk.reply, Chunk.next, silence, whole, comment.processLine]
  by_cases balanced : parenthesisBalance (linesText (pending ++ [line])) = 0
  · have answered : (ended pending line).answered = true := decide_eq_true balanced
    have empty : Output.ofLog session.verbose [] ++ .print "" = {} := by
      rw [Output.ofLog_nil]
      rfl
    rw [if_pos answered, if_pos answered, if_pos balanced]
    exact ⟨empty, rfl⟩
  · have refused : ¬(ended pending line).answered = true := by simpa [ended] using balanced
    rw [if_neg refused, if_neg refused, if_neg balanced]
    exact ⟨rfl, rfl⟩

/-- Lines that begin with a comment, up to the one at which no opening parenthesis is left, are
typed in vain: the dialogue goes on behind them as it would without them. -/
theorem Waiting.converse_comment {pending : List String} (waiting : Waiting pending)
    (comment : IsComment (linesText (pending ++ [line])))
    (none : ¬0 < parenthesisBalance (linesText (pending ++ [line]))) (read : FileReader)
    (running : session.running = true) (rest : List TerminalInput) :
    converse read ⟨session, ""⟩ ((pending ++ [line]).map .line ++ rest) =
      (.print (Chunk.prompts (pending.length + 1)) ++ silence (pending ++ [line]) ++
        (converse read ⟨session, ""⟩ rest).1, (converse read ⟨session, ""⟩ rest).2) := by
  have kept : Waiting ([] ++ pending) := waiting
  obtain ⟨written, ends⟩ := kept.converse_append read running (.line line :: rest)
  obtain ⟨reply, next⟩ := reply_of_comment comment read session
  have begins : ∀ output : Output,
      .print (Chunk.prompts ([] : List String).length) ++ output = output := fun output => by
    rw [List.length_nil, Chunk.prompts]
    exact Output.empty_append output
  rw [List.nil_append] at written ends
  rw [begins, converse_line read running, waiting.feedLine_ended read session none, reply,
    next] at written
  rw [converse_line read running, waiting.feedLine_ended read session none, next] at ends
  rw [List.map_append, List.append_assoc, waiting.prompts_succ session, ← Output.print_append]
  refine Prod.ext ?_ ends
  simp only [Output.append_assoc] at written ⊢
  exact written

/-- A line typed behind some inputs makes no difference: nothing is written for it but its prompt,
the same is written for all else, and the dialogue ends in the same state. -/
def Transparent (read : FileReader) (start : Dialogue) (before : List TerminalInput)
    (line : String) (after : List TerminalInput) : Prop :=
  ∃ later last,
    converse read start (before ++ after) = ((typed read start before).1 ++ later, last) ∧
    converse read start (before ++ .line line :: after) =
      ((typed read start before).1 ++ .print "spsc> " ++ later, last)

section Reached

variable {start : Dialogue} {before : List TerminalInput} {early : Output}

/-- What a dialogue does that has reached a point at which nothing is pending. -/
theorem converse_of_reached (reached : typed read start before = (early, ⟨session, ""⟩))
    (after : List TerminalInput) :
    converse read start (before ++ after) =
      (early ++ (converse read ⟨session, ""⟩ after).1, (converse read ⟨session, ""⟩ after).2) := by
  rw [converse_append, reached]

/-- A comment on one line at which no opening parenthesis is left. -/
theorem converse_of_comment (reached : typed read start before = (early, ⟨session, ""⟩))
    (comment : IsComment line) (none : ¬0 < parenthesisBalance line)
    (running : session.running = true) (after : List TerminalInput) :
    converse read start (before ++ .line line :: after) =
      (early ++ .print "spsc> " ++ silence [line] ++ (converse read ⟨session, ""⟩ after).1,
        (converse read ⟨session, ""⟩ after).2) := by
  have alone : converse read ⟨session, ""⟩ (.line line :: after) =
      (.print "spsc> " ++ silence [line] ++ (converse read ⟨session, ""⟩ after).1,
        (converse read ⟨session, ""⟩ after).2) :=
    waiting_nil.converse_comment comment none read running after
  rw [converse_of_reached reached, alone]
  simp only [Output.append_assoc]

/-- A comment that is transparent whatever is typed behind it has balanced parentheses. -/
theorem balanced_of_transparent (reached : typed read start before = (early, ⟨session, ""⟩))
    (comment : IsComment line) (running : session.running = true)
    (transparent : Transparent read start before line []) : parenthesisBalance line = 0 := by
  obtain ⟨later, last, without, inserted⟩ := transparent
  rw [converse_of_reached reached, reached, Prod.mk.injEq] at without
  obtain ⟨written, rfl⟩ := without
  rcases Int.lt_trichotomy (parenthesisBalance line) 0 with excessive | balanced | positive
  · -- The complaint would have to be nothing.
    rw [converse_of_comment reached comment (by omega) running, reached, Prod.mk.injEq,
      silence, if_neg (by exact Int.ne_of_lt excessive)] at inserted
    have same := congrArg (fun output => output.out.toList.length) inserted.1
    have same' := congrArg (fun output => output.out.toList.length) written
    simp [Output.append_eq, Output.print, tooManyClosing] at same same'
    omega
  · exact balanced
  · -- The comment would have to be empty.
    have kept : feedLine ⟨session, ""⟩ read line = ({}, ⟨session, line⟩) :=
      waiting_nil.feedLine_kept read session positive
    rw [converse_of_reached reached, converse_line read running, kept, Prod.mk.injEq] at inserted
    have ends : ∀ buffer, (converse read ⟨session, buffer⟩ []).2 = ⟨session, buffer⟩ := by
      intro buffer
      rw [converse, if_pos running]
    rw [ends, ends] at inserted
    have empty : line = "" := congrArg Dialogue.buffer inserted.2
    rw [empty] at positive
    contradiction

/-- A comment typed while nothing is pending. Once a line has asked to leave, it is not read. Before
that it is transparent, whatever is typed behind it, exactly if its parentheses balance. If there
are too many closing parentheses, a complaint is written and all else is as without the comment.
Lines that begin with a comment which leaves an opening parenthesis are not answered up to the one
at which none is left, and if there is no such line, they are left in the buffer. -/
theorem comment_transparent_iff (comment : IsComment line)
    (reached : typed read start before = (early, ⟨session, ""⟩)) :
    (session.running = false → ∀ after,
      converse read start (before ++ .line line :: after) =
        converse read start (before ++ after)) ∧
    (session.running = true →
      ((∀ after, Transparent read start before line after) ↔ parenthesisBalance line = 0) ∧
      (parenthesisBalance line < 0 → ∀ after,
        converse read start (before ++ .line line :: after) =
          (early ++ .print "spsc> " ++ .print tooManyClosing ++
            (converse read ⟨session, ""⟩ after).1, (converse read ⟨session, ""⟩ after).2)) ∧
      ∀ more, Waiting (line :: more) →
        (∀ closing, ¬0 < parenthesisBalance (linesText (line :: more ++ [closing])) → ∀ after,
          converse read start (before ++ ((line :: more ++ [closing]).map .line ++ after)) =
            (early ++ (.print (Chunk.prompts (more.length + 2)) ++
              silence (line :: more ++ [closing]) ++ (converse read ⟨session, ""⟩ after).1),
              (converse read ⟨session, ""⟩ after).2)) ∧
        (converse read start (before ++ (line :: more).map .line)).2 =
          ⟨session, linesText (line :: more)⟩) := by
  refine ⟨fun stopped after => ?_, fun running =>
    ⟨⟨fun transparent => ?_, fun balanced after => ?_⟩, fun excessive after => ?_,
      fun more waiting => ⟨fun closing none after => ?_, ?_⟩⟩⟩
  · rw [converse_of_reached reached, converse_of_reached reached,
      converse_of_not_running read stopped, converse_of_not_running read stopped]
  · exact balanced_of_transparent reached comment running (transparent [])
  · have balanced' : parenthesisBalance (linesText [line]) = 0 := balanced
    rw [Transparent, reached]
    refine ⟨_, _, converse_of_reached reached after, ?_⟩
    rw [converse_of_comment reached comment (by omega) running, silence, if_pos balanced']
    simp only [Output.append_assoc, Output.empty_append]
  · have unbalanced : parenthesisBalance (linesText [line]) ≠ 0 := Int.ne_of_lt excessive
    rw [converse_of_comment reached comment (by omega) running, silence, if_neg unbalanced]
  · have together : IsComment (linesText (line :: more ++ [closing])) := by
      obtain ⟨rest, whole⟩ := exists_linesText_cons line (more ++ [closing])
      rw [List.cons_append, whole]
      exact comment.append rest
    rw [converse_of_reached reached, waiting.converse_comment together none read running]
    rfl
  · rw [converse_of_reached reached]
    have kept : Waiting ([] ++ line :: more) := waiting
    obtain ⟨-, ends⟩ := kept.converse_append read running []
    rw [List.append_nil] at ends
    exact ends.trans (by rw [converse, if_pos running]; rfl)

end Reached

/-- A comment with a pair of parentheses makes no difference to the answer to a rule. -/
theorem comment_transparent_iff_pair :
    IsComment "  # see (1)" ∧
      Transparent (fun _ => .ok "") ⟨{}, ""⟩ [] "  # see (1)" [.line "fA() = A();"] := by
  have comment : IsComment "  # see (1)" := ⟨"#", .inl rfl, by decide +kernel⟩
  have reached : typed (fun _ => .ok "") ⟨{}, ""⟩ [] = ({}, ⟨{}, ""⟩) := rfl
  exact ⟨comment,
    ((comment_transparent_iff comment reached).2 rfl).1.mpr (by decide +kernel) _⟩

/-- A rule behind a comment that opens a parenthesis is not taken, and a comment that closes one is
complained about. -/
theorem comment_transparent_iff_open :
    let read : FileReader := fun _ => .ok ""
    (IsComment "# see (1" ∧
      (converse read ⟨{}, ""⟩ [.line "fA() = A();"]).1.out = "spsc> Added 1 rule(s)\nspsc> \n" ∧
      (converse read ⟨{}, ""⟩ [.line "# see (1", .line "fA() = A();"]).1.out =
        "spsc> ..... ..... \n" ∧
      ¬ Transparent read ⟨{}, ""⟩ [] "# see (1" [.line "fA() = A();"]) ∧
    IsComment "# :)" ∧
      (converse read ⟨{}, ""⟩ [.line "# :)"]).1.out =
        "spsc> Error: Unbalanced parentheses (too many closing)\nspsc> \n" ∧
      ¬ Transparent read ⟨{}, ""⟩ [] "# :)" [] := by
  intro read
  refine ⟨⟨⟨"#", .inl rfl, by decide +kernel⟩, by decide +kernel, by decide +kernel, ?_⟩,
    ⟨"#", .inl rfl, by decide +kernel⟩, by decide +kernel, ?_⟩
  · rintro ⟨later, last, without, inserted⟩
    have same : (converse read ⟨{}, ""⟩ [.line "fA() = A();"]).2.buffer =
        (converse read ⟨{}, ""⟩ [.line "# see (1", .line "fA() = A();"]).2.buffer :=
      (congrArg (·.2.buffer) without).trans (congrArg (·.2.buffer) inserted).symm
    exact absurd same (by decide +kernel)
  · intro transparent
    have comment : IsComment "# :)" := ⟨"#", .inl rfl, by decide +kernel⟩
    have reached : typed read ⟨{}, ""⟩ [] = ({}, ⟨{}, ""⟩) := rfl
    exact absurd (balanced_of_transparent reached comment rfl transparent) (by decide +kernel)

end Dialogue

end Supercompilation
