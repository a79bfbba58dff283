import Mathlib.Logic.Basic
import Mathlib.Tactic.ByContra
import Supercompilation.Session.Dialogue

/-!
# How a dialogue cuts lines into chunks

A dialogue collects lines and hands them over together. The lines that are read are cut into chunks,
one after another and without a gap: a chunk ends with the first line at which no opening
parenthesis is left without a closing one. It is answered if the parentheses balance and refused if
there are too many closing ones. The lines behind the last chunk wait in the buffer, and nothing is
read once a line has asked to leave.

`Dialogue.Cutting.Fits` says when lines are cut in this way, and there is only one such cutting.
What a dialogue writes and where it ends are computed from the chunks alone, by answering them one
after another.
-/

namespace Supercompilation

namespace Text

/-- A text behind others that follow a first one. -/
theorem followed_concat (sep start text : String) (texts : List String) :
    followed sep start (texts ++ [text]) = followed sep start texts ++ sep ++ text := by
  induction texts generalizing start with
  | nil => rfl
  | cons next texts ih => exact ih (start ++ sep ++ next)

end Text

namespace Output

/-- Two outputs one after another. -/
theorem append_eq (a b : Output) : a ++ b = ⟨a.out ++ b.out, a.err ++ b.err⟩ := rfl

/-- Three outputs one after another. -/
theorem append_assoc (a b c : Output) : a ++ b ++ c = a ++ (b ++ c) := by
  simp only [append_eq, String.append_assoc]

/-- Two texts one after another. -/
theorem print_append (a b : String) : print a ++ print b = print (a ++ b) := rfl

/-- Nothing before an output. -/
theorem empty_append (a : Output) : {} ++ a = a := by
  simp only [append_eq, String.empty_append]

end Output

namespace Dialogue

/-- Lines with a line feed between neighbours. -/
def linesText (lines : List String) : String := Text.joined "\n" lines

/-- All lines are still to be answered: however many of them are taken from the start, an opening
parenthesis is left without a closing one. -/
def Waiting (lines : List String) : Prop :=
  ∀ taken, taken <+: lines → taken ≠ [] → 0 < parenthesisBalance (linesText taken)

/-- Lines that are handed over together. -/
structure Chunk where
  /-- The lines. -/
  lines : List String
  /-- The lines are answered, not refused. -/
  answered : Bool

namespace Chunk

/-- The text of a chunk. -/
def text (chunk : Chunk) : String := linesText chunk.lines

/-- A chunk ends where it has to: it is answered if its parentheses balance, and refused if there
are too many closing ones, and any shorter part of it still waits. -/
structure Complete (chunk : Chunk) : Prop where
  /-- There is a line. -/
  nonempty : chunk.lines ≠ []
  /-- The parentheses of a chunk that is answered balance. -/
  balanced : chunk.answered = true → parenthesisBalance chunk.text = 0
  /-- A chunk that is refused has too many closing parentheses. -/
  excessive : chunk.answered = false → parenthesisBalance chunk.text < 0
  /-- Fewer lines from the start have an opening parenthesis too many. -/
  shorter : ∀ taken, taken <+: chunk.lines → taken ≠ chunk.lines → taken ≠ [] →
    0 < parenthesisBalance (linesText taken)

/-- The session after a chunk. -/
def next (read : FileReader) (session : Session) (chunk : Chunk) : Session :=
  if chunk.answered then (session.processLine read chunk.text).2 else session

/-- The prompts for some lines: the lines behind the first have one of their own. -/
def prompts : Nat → String
  | 0 => ""
  | n + 1 => "spsc> " ++ String.join (List.replicate n "..... ")

/-- The reply to a chunk. -/
def reply (read : FileReader) (session : Session) (chunk : Chunk) : Output :=
  if chunk.answered then
    let (response, next) := session.processLine read chunk.text
    let text := response.text.getD ""
    Output.ofLog next.verbose response.log ++ .print (if text = "" then "" else text ++ "\n")
  else .print "Error: Unbalanced parentheses (too many closing)\n"

/-- The session after some chunks. -/
def after (read : FileReader) (session : Session) (chunks : List Chunk) : Session :=
  chunks.foldl (next read) session

/-- What is written for some chunks. -/
def written (read : FileReader) : Session → List Chunk → Output
  | _, [] => {}
  | session, chunk :: rest =>
    .print (prompts chunk.lines.length) ++ chunk.reply read session ++
      written read (chunk.next read session) rest

end Chunk

/-- Lines cut into chunks. -/
structure Cutting where
  /-- The chunks. -/
  chunks : List Chunk
  /-- The lines that are read but wait for others. -/
  pending : List String
  /-- The lines that are not read. -/
  unread : List String

namespace Cutting

variable (cutting : Cutting) (read : FileReader) (session : Session)

/-- The session after the chunks. -/
def last : Session := Chunk.after read session cutting.chunks

/-- What is written: the replies, and a last prompt if the lines end before a line asks to leave. -/
def output : Output :=
  Chunk.written read session cutting.chunks ++
    .print (if (cutting.last read session).running then
      Chunk.prompts (cutting.pending.length + 1) ++ "\n" else "")

/-- The lines are cut into chunks for a session. -/
structure Fits (lines : List String) : Prop where
  /-- Every line is used once and in order. -/
  whole : lines = cutting.chunks.flatMap Chunk.lines ++ cutting.pending ++ cutting.unread
  /-- Every chunk ends where it has to. -/
  complete : ∀ chunk ∈ cutting.chunks, chunk.Complete
  /-- The lines behind the chunks wait. -/
  waiting : Waiting cutting.pending
  /-- No chunk stands behind one that asks to leave. -/
  running : ∀ before chunk later, cutting.chunks = before ++ chunk :: later →
    (Chunk.after read session before).running = true
  /-- No line waits behind a chunk that asks to leave. -/
  pendingRunning : cutting.pending ≠ [] → (cutting.last read session).running = true
  /-- A line is left unread only behind a chunk that asks to leave. -/
  left : cutting.unread ≠ [] → (cutting.last read session).running = false

end Cutting

section Step

/-- Nothing is read once a line has asked to leave. -/
theorem converse_of_not_running (read : FileReader) {dialogue : Dialogue}
    (stopped : dialogue.session.running = false) (inputs : List TerminalInput) :
    converse read dialogue inputs = ({}, dialogue) := by
  cases inputs <;> simp [converse, stopped]

/-- A line is read behind a prompt. -/
theorem converse_line (read : FileReader) {dialogue : Dialogue}
    (running : dialogue.session.running = true) (line : String) (rest : List TerminalInput) :
    converse read dialogue (.line line :: rest) =
      (.print dialogue.prompt ++ (dialogue.feedLine read line).1 ++
        (converse read (dialogue.feedLine read line).2 rest).1,
        (converse read (dialogue.feedLine read line).2 rest).2) := by
  rw [converse, if_pos running]
  rfl

variable {session : Session} {pending : List String}

/-- The text of the lines with one more, unless they are none. -/
theorem linesText_concat (nonempty : pending ≠ []) (line : String) :
    linesText (pending ++ [line]) = linesText pending ++ "\n" ++ line := by
  cases pending with
  | nil => contradiction
  | cons first rest => exact Text.followed_concat "\n" first line rest

/-- The buffer of lines that wait is empty only if there are none. -/
theorem Waiting.linesText_eq_empty_iff (waiting : Waiting pending) :
    linesText pending = "" ↔ pending = [] := by
  constructor
  · intro empty
    cases pending with
    | nil => rfl
    | cons first rest =>
      have positive := waiting _ List.prefix_rfl (List.cons_ne_nil first rest)
      rw [empty] at positive
      contradiction
  · rintro rfl
    rfl

/-- The buffer of lines that wait is empty or has an opening parenthesis too many. -/
theorem Waiting.buffer (waiting : Waiting pending) :
    linesText pending = "" ∨ 0 < parenthesisBalance (linesText pending) := by
  by_cases nonempty : pending = []
  · exact .inl (waiting.linesText_eq_empty_iff.mpr nonempty)
  · exact .inr (waiting pending List.prefix_rfl nonempty)

/-- What is collected when a line is read behind lines that wait. -/
theorem Waiting.collect (waiting : Waiting pending) (session : Session) (line : String) :
    collect ⟨session, linesText pending⟩ line = linesText (pending ++ [line]) := by
  rw [Dialogue.collect]
  by_cases nonempty : pending = []
  · rw [if_pos (waiting.linesText_eq_empty_iff.mpr nonempty), nonempty]
    rfl
  · rw [if_neg (waiting.linesText_eq_empty_iff.not.mpr nonempty), linesText_concat nonempty]

/-- The prompt before a line that is read behind lines that wait. -/
theorem Waiting.prompts_succ (waiting : Waiting pending) (session : Session) :
    Chunk.prompts (pending.length + 1) =
      Chunk.prompts pending.length ++ prompt ⟨session, linesText pending⟩ := by
  rw [prompt]
  cases pending with
  | nil => rfl
  | cons first rest =>
    rw [if_neg (waiting.linesText_eq_empty_iff.not.mpr (List.cons_ne_nil first rest)),
      List.length_cons, Chunk.prompts, Chunk.prompts, List.replicate_succ', String.join_append,
      String.append_assoc]
    rfl

/-- Lines wait with one more if an opening parenthesis is still left. -/
theorem Waiting.concat (waiting : Waiting pending) {line : String}
    (positive : 0 < parenthesisBalance (linesText (pending ++ [line]))) :
    Waiting (pending ++ [line]) := by
  intro taken start nonempty
  rcases List.prefix_concat_iff.mp start with rfl | start
  · exact positive
  · exact waiting taken start nonempty

/-- The chunk that a line ends. -/
def ended (pending : List String) (line : String) : Chunk :=
  ⟨pending ++ [line], parenthesisBalance (linesText (pending ++ [line])) = 0⟩

/-- A line ends a chunk if no opening parenthesis is left. -/
theorem Waiting.complete (waiting : Waiting pending) {line : String}
    (ends : ¬0 < parenthesisBalance (linesText (pending ++ [line]))) :
    (ended pending line).Complete where
  nonempty := by simp [ended]
  balanced answered := of_decide_eq_true answered
  excessive refused := by
    have unbalanced := of_decide_eq_false refused
    show parenthesisBalance (linesText (pending ++ [line])) < 0
    omega
  shorter taken start other := by
    rcases List.prefix_concat_iff.mp start with whole | start
    · exact absurd whole other
    · exact waiting taken start

/-- A line that leaves an opening parenthesis is kept. -/
theorem Waiting.feedLine_kept (waiting : Waiting pending) (read : FileReader) (session : Session)
    {line : String} (positive : 0 < parenthesisBalance (linesText (pending ++ [line]))) :
    feedLine ⟨session, linesText pending⟩ read line =
      ({}, ⟨session, linesText (pending ++ [line])⟩) := by
  rw [feedLine, waiting.collect]
  simp only [positive, if_true]

/-- A line that leaves none ends a chunk. -/
theorem Waiting.feedLine_ended (waiting : Waiting pending) (read : FileReader) (session : Session)
    {line : String} (ends : ¬0 < parenthesisBalance (linesText (pending ++ [line]))) :
    feedLine ⟨session, linesText pending⟩ read line =
      ((ended pending line).reply read session, ⟨(ended pending line).next read session, ""⟩) := by
  rw [feedLine, waiting.collect]
  simp only [ends, if_false]
  by_cases balanced : parenthesisBalance (linesText (pending ++ [line])) = 0
  · have notExcessive : ¬parenthesisBalance (linesText (pending ++ [line])) < 0 := by omega
    have answered : (ended pending line).answered = true := decide_eq_true balanced
    rw [if_neg notExcessive, Chunk.reply, Chunk.next, if_pos answered, if_pos answered]
    have whole : (ended pending line).text = linesText (pending ++ [line]) := rfl
    rw [whole]
    generalize session.processLine read (linesText (pending ++ [line])) = result
    obtain ⟨⟨text, log⟩, next⟩ := result
    cases text <;> rfl
  · have excessive : parenthesisBalance (linesText (pending ++ [line])) < 0 := by omega
    have refused : ¬(ended pending line).answered = true := by simpa [ended] using balanced
    rw [if_pos excessive, Chunk.reply, Chunk.next, if_neg refused, if_neg refused]

/-- A chunk in front of lines that are cut for the session after it. -/
theorem Cutting.Fits.cons {cutting : Cutting} {read : FileReader} {lines : List String}
    {chunk : Chunk} (complete : chunk.Complete) (running : session.running = true)
    (fits : cutting.Fits read (chunk.next read session) lines) :
    ({ cutting with chunks := chunk :: cutting.chunks } : Cutting).Fits read session
      (chunk.lines ++ lines) where
  whole := by simp [fits.whole]
  complete := List.forall_mem_cons.mpr ⟨complete, fits.complete⟩
  waiting := fits.waiting
  running before other later split := by
    cases before with
    | nil => exact running
    | cons first before =>
      obtain ⟨rfl, further⟩ := List.cons.inj split
      exact fits.running before other later further
  pendingRunning := fits.pendingRunning
  left := fits.left

/-- What is written for a chunk and the lines behind it. -/
theorem Cutting.output_cons (cutting : Cutting) (read : FileReader) (session : Session)
    (chunk : Chunk) :
    ({ cutting with chunks := chunk :: cutting.chunks } : Cutting).output read session =
      .print (Chunk.prompts chunk.lines.length) ++ chunk.reply read session ++
        cutting.output read (chunk.next read session) := by
  rw [output, output, Chunk.written, Output.append_assoc]
  rfl

/-- No lines wait. -/
theorem waiting_nil : Waiting [] :=
  fun _ start nonempty => absurd (List.prefix_nil.mp start) nonempty

/-- A dialogue whose buffer holds lines cuts these and those that follow as a cutting says. The
prompts for the lines in the buffer are already written. -/
structure Cuts (read : FileReader) (session : Session) (pending lines : List String)
    (cutting : Cutting) : Prop where
  /-- The cutting fits the lines. -/
  fits : cutting.Fits read session (pending ++ lines)
  /-- What is written is what the cutting says. -/
  written : .print (Chunk.prompts pending.length) ++
    (converse read ⟨session, linesText pending⟩ (lines.map .line)).1 = cutting.output read session
  /-- The dialogue ends as the cutting says. -/
  ends : (converse read ⟨session, linesText pending⟩ (lines.map .line)).2 =
    ⟨cutting.last read session, linesText cutting.pending⟩

/-- All lines are left unread if none may be read. -/
theorem cuts_unread (read : FileReader) (stopped : session.running = false) (lines : List String) :
    Cuts read session [] lines ⟨[], [], lines⟩ where
  fits := ⟨by simp, by simp, waiting_nil, by simp, by simp, fun _ => stopped⟩
  written := by
    have last : (Cutting.last ⟨[], [], lines⟩ read session).running = false := stopped
    rw [converse_of_not_running read stopped, Cutting.output, last]
    rfl
  ends := by
    rw [converse_of_not_running read stopped]
    rfl

/-- The lines that wait still wait when there are no more. -/
theorem Waiting.cuts_nil (waiting : Waiting pending) (read : FileReader)
    (running : session.running = true) : Cuts read session pending [] ⟨[], pending, []⟩ where
  fits := ⟨by simp, by simp, waiting, by simp, fun _ => running, by simp⟩
  written := by
    have last : (Cutting.last ⟨[], pending, []⟩ read session).running = true := running
    rw [List.map_nil, converse, if_pos running, Cutting.output, if_pos last,
      waiting.prompts_succ session, String.append_assoc]
    rfl
  ends := by
    rw [List.map_nil, converse, if_pos running]
    rfl

/-- A line that leaves an opening parenthesis waits with the others. -/
theorem Waiting.cuts_kept (waiting : Waiting pending) {read : FileReader} {line : String}
    {rest : List String} {cutting : Cutting} (running : session.running = true)
    (positive : 0 < parenthesisBalance (linesText (pending ++ [line])))
    (cuts : Cuts read session (pending ++ [line]) rest cutting) :
    Cuts read session pending (line :: rest) cutting := by
  obtain ⟨fits, written, ends⟩ := cuts
  refine ⟨by simpa using fits, ?_, ?_⟩
  · rw [List.map_cons, converse_line read running, waiting.feedLine_kept read session positive,
      ← written, List.length_append, List.length_singleton, waiting.prompts_succ session,
      ← Output.print_append]
    simp only [Output.append_assoc, Output.empty_append]
  · rwa [List.map_cons, converse_line read running, waiting.feedLine_kept read session positive]

/-- A line that leaves none ends a chunk, and nothing waits behind it. -/
theorem Waiting.cuts_ended (waiting : Waiting pending) {read : FileReader} {line : String}
    {rest : List String} {cutting : Cutting} (running : session.running = true)
    (none : ¬0 < parenthesisBalance (linesText (pending ++ [line])))
    (cuts : Cuts read ((ended pending line).next read session) [] rest cutting) :
    Cuts read session pending (line :: rest)
      { cutting with chunks := ended pending line :: cutting.chunks } := by
  obtain ⟨fits, written, ends⟩ := cuts
  have whole : (ended pending line).lines ++ ([] ++ rest) = pending ++ line :: rest := by
    simp [ended]
  have length : (ended pending line).lines.length = pending.length + 1 := by simp [ended]
  have behind : (converse read ⟨(ended pending line).next read session, ""⟩ (rest.map .line)).1 =
      cutting.output read ((ended pending line).next read session) := by
    rw [← written]
    exact (Output.empty_append _).symm
  refine ⟨whole ▸ fits.cons (waiting.complete none) running, ?_, ?_⟩
  · rw [List.map_cons, converse_line read running, waiting.feedLine_ended read session none,
      Cutting.output_cons, ← behind, length, waiting.prompts_succ session, ← Output.print_append]
    simp only [Output.append_assoc]
  · rw [List.map_cons, converse_line read running, waiting.feedLine_ended read session none]
    exact ends

/-- A dialogue cuts its lines into chunks. -/
theorem exists_cuts (read : FileReader) (session : Session) {pending : List String}
    (waiting : Waiting pending) (running : pending = [] ∨ session.running = true)
    (lines : List String) : ∃ cutting, Cuts read session pending lines cutting := by
  -- A line may be kept or end a chunk, so both the session and the lines that wait vary.
  induction lines generalizing session pending with
  | nil =>
    cases goesOn : session.running with
    | false =>
      obtain rfl := running.resolve_right (by simp [goesOn])
      exact ⟨_, cuts_unread read goesOn []⟩
    | true => exact ⟨_, waiting.cuts_nil read goesOn⟩
  | cons line rest ih =>
    cases goesOn : session.running with
    | false =>
      obtain rfl := running.resolve_right (by simp [goesOn])
      exact ⟨_, cuts_unread read goesOn (line :: rest)⟩
    | true =>
      by_cases positive : 0 < parenthesisBalance (linesText (pending ++ [line]))
      · obtain ⟨cutting, cuts⟩ := ih session (waiting.concat positive) (.inr goesOn)
        exact ⟨_, waiting.cuts_kept goesOn positive cuts⟩
      · obtain ⟨cutting, cuts⟩ := ih ((ended pending line).next read session) waiting_nil (.inl rfl)
        exact ⟨_, waiting.cuts_ended goesOn positive cuts⟩

end Step

/-- A dialogue goes on where it stands after some inputs. -/
theorem snd_converse_append (read : FileReader) (dialogue : Dialogue)
    (inputs more : List TerminalInput) :
    (converse read dialogue (inputs ++ more)).2 =
      (converse read (converse read dialogue inputs).2 more).2 := by
  induction inputs generalizing dialogue with
  | nil =>
    rw [List.nil_append, converse]
    split <;> rfl
  | cons input rest ih =>
    cases running : dialogue.session.running with
    | false =>
      rw [converse_of_not_running read running, converse_of_not_running read running,
        converse_of_not_running read running]
    | true =>
      rw [List.cons_append, converse, if_pos running, converse, if_pos running]
      exact ih (dialogue.feed read input).2

section Unique

variable {read : FileReader} {session : Session} {lines : List String} {chunk : Chunk}

/-- No opening parenthesis of a chunk is left without a closing one. -/
theorem Chunk.Complete.balance_nonpos (complete : chunk.Complete) :
    parenthesisBalance chunk.text ≤ 0 := by
  cases treated : chunk.answered with
  | false => exact Int.le_of_lt (complete.excessive treated)
  | true => exact Int.le_of_eq (complete.balanced treated)

/-- No chunk is the start of another. -/
theorem Chunk.Complete.eq_of_prefix {other : Chunk} (complete : chunk.Complete)
    (otherComplete : other.Complete) (start : chunk.lines <+: other.lines) : chunk = other := by
  have nonpositive := complete.balance_nonpos
  have same : chunk.lines = other.lines := by
    by_contra differ
    exact absurd (otherComplete.shorter chunk.lines start differ complete.nonempty)
      (Int.not_lt.mpr nonpositive)
  obtain ⟨lines, answered⟩ := chunk
  obtain ⟨_, otherAnswered⟩ := other
  obtain rfl : lines = _ := same
  congr 1
  cases answered with
  | false =>
    have excessive := complete.excessive rfl
    cases otherAnswered with
    | false => rfl
    | true => exact absurd (otherComplete.balanced rfl) (Int.ne_of_lt excessive)
  | true =>
    have balanced := complete.balanced rfl
    cases otherAnswered with
    | false => exact absurd balanced (Int.ne_of_lt (otherComplete.excessive rfl))
    | true => rfl

/-- What is known of the lines behind a first chunk. -/
theorem Cutting.Fits.tail {chunks : List Chunk} {pending unread : List String}
    (fits : Cutting.Fits ⟨chunk :: chunks, pending, unread⟩ read session lines) :
    ∃ rest, lines = chunk.lines ++ rest ∧ chunk.Complete ∧ session.running = true ∧
      Cutting.Fits ⟨chunks, pending, unread⟩ read (chunk.next read session) rest := by
  obtain ⟨complete, completeAll⟩ := List.forall_mem_cons.mp fits.complete
  refine ⟨chunks.flatMap Chunk.lines ++ pending ++ unread, by simp [fits.whole], complete,
    fits.running [] chunk chunks rfl, rfl, completeAll, fits.waiting, ?_, fits.pendingRunning,
    fits.left⟩
  intro before other later split
  exact fits.running (chunk :: before) other later (congrArg (chunk :: ·) split)

/-- Lines that are cut without a chunk all wait, or none of them is read. -/
theorem Cutting.Fits.of_nil {pending unread : List String}
    (fits : Cutting.Fits ⟨[], pending, unread⟩ read session lines) :
    session.running = true ∧ unread = [] ∧ lines = pending ∨
      session.running = false ∧ pending = [] ∧ lines = unread := by
  have whole : lines = pending ++ unread := by simpa using fits.whole
  cases running : session.running with
  | false =>
    have none : pending = [] := by
      by_contra waits
      exact absurd (fits.pendingRunning waits) (Bool.eq_false_iff.mp running)
    exact .inr ⟨rfl, none, by simp [whole, none]⟩
  | true =>
    have none : unread = [] := by
      by_contra some
      exact absurd running (Bool.eq_false_iff.mp (fits.left some))
    exact .inl ⟨rfl, none, by simp [whole, none]⟩

/-- Lines that start with a chunk are not cut without one. -/
theorem Cutting.Fits.not_nil {pending unread rest : List String}
    (fits : Cutting.Fits ⟨[], pending, unread⟩ read session (chunk.lines ++ rest))
    (complete : chunk.Complete) (running : session.running = true) : False := by
  rcases fits.of_nil with ⟨-, -, whole⟩ | ⟨stopped, -⟩
  · have start : chunk.lines <+: pending := ⟨rest, whole⟩
    exact absurd (fits.waiting chunk.lines start complete.nonempty)
      (Int.not_lt.mpr complete.balance_nonpos)
  · exact absurd running (Bool.eq_false_iff.mp stopped)

/-- Lines are cut in one way only. -/
theorem Cutting.Fits.unique {cutting other : Cutting} (fits : cutting.Fits read session lines)
    (otherFits : other.Fits read session lines) : cutting = other := by
  obtain ⟨chunks, pending, unread⟩ := cutting
  obtain ⟨others, otherPending, otherUnread⟩ := other
  induction chunks generalizing session lines others with
  | nil =>
    cases others with
    | nil =>
      rcases fits.of_nil with ⟨running, rfl, rfl⟩ | ⟨stopped, rfl, rfl⟩ <;>
        rcases otherFits.of_nil with ⟨otherRunning, rfl, rfl⟩ | ⟨otherStopped, rfl, rfl⟩
      · rfl
      · exact absurd running (Bool.eq_false_iff.mp otherStopped)
      · exact absurd otherRunning (Bool.eq_false_iff.mp stopped)
      · rfl
    | cons chunk others =>
      obtain ⟨rest, rfl, complete, running, -⟩ := otherFits.tail
      exact (fits.not_nil complete running).elim
  | cons chunk chunks ih =>
    obtain ⟨rest, rfl, complete, running, fits⟩ := fits.tail
    cases others with
    | nil => exact (otherFits.not_nil complete running).elim
    | cons other others =>
      obtain ⟨otherRest, whole, otherComplete, -, otherFits⟩ := otherFits.tail
      have same : chunk = other := by
        rcases List.prefix_or_prefix_of_prefix ⟨rest, rfl⟩ ⟨otherRest, whole.symm⟩ with
          start | start
        · exact complete.eq_of_prefix otherComplete start
        · exact (otherComplete.eq_of_prefix complete start).symm
      subst same
      obtain rfl := List.append_cancel_left whole
      have later := ih fits others otherFits
      cases later
      rfl

end Unique

/-- The lines of a dialogue are cut into chunks without loss. Whatever lines are read, the buffer
before the next one is empty or has an opening parenthesis too many. All lines together are cut into
chunks as `Cutting.Fits` says, which can be done in one way only. What the dialogue writes and where
it ends come from answering these chunks one after another, and the buffer holds the lines that
wait. -/
theorem lines_cut_into_chunks (read : FileReader) (session : Session) (lines : List String) :
    (∀ before rest, lines = before ++ rest →
      let reached := (converse read ⟨session, ""⟩ (before.map .line)).2
      (reached.buffer = "" ∨ 0 < parenthesisBalance reached.buffer) ∧
        (converse read ⟨session, ""⟩ (lines.map .line)).2 =
          (converse read reached (rest.map .line)).2) ∧
      ∃ cutting : Cutting, cutting.Fits read session lines ∧
        (∀ other : Cutting, other.Fits read session lines → other = cutting) ∧
        converse read ⟨session, ""⟩ (lines.map .line) =
          (cutting.output read session,
            ⟨cutting.last read session, linesText cutting.pending⟩) := by
  constructor
  · rintro before rest rfl reached
    obtain ⟨cutting, cuts⟩ := exists_cuts read session waiting_nil (.inl rfl) before
    have ends : reached = ⟨cutting.last read session, linesText cutting.pending⟩ := cuts.ends
    refine ⟨?_, ?_⟩
    · rw [ends]
      exact cuts.fits.waiting.buffer
    · rw [List.map_append]
      exact snd_converse_append read ⟨session, ""⟩ _ _
  · obtain ⟨cutting, fits, written, ends⟩ := exists_cuts read session waiting_nil (.inl rfl) lines
    refine ⟨cutting, fits, fun _ others => others.unique fits, Prod.ext ?_ ends⟩
    rw [← written]
    exact (Output.empty_append _).symm

end Dialogue

end Supercompilation
