import Supercompilation.Invocation
import Supercompilation.Proofs.RoundTrip

/-!
# What lines do to a session

A line changes a session in one of few ways, and `Session.Change` lists them: it adds rules, all
that a text stands for and in their order, it forgets the rules, it changes one setting, or it
leaves the session as it is. The program of a session is therefore always the program of its rules,
and a limit is never zero.

A line that names a term, fails, is blank or a comment leaves the session as it is. The answer to a
line depends on the session alone, so such lines can be left out of a conversation without a change
to the session at its end or to the answer to any other line.
-/

namespace Supercompilation

/-- How a line turns out. -/
inductive Verdict where
  /-- It is answered. -/
  | done
  /-- A text cannot be read, a file cannot be loaded, or a call is not supported by the program. -/
  | failed
  /-- A construction is given up. -/
  | aborted
  deriving DecidableEq

/-- A line as it is typed, with the files as they are then. -/
structure Entry where
  /-- The files. -/
  read : FileReader
  /-- The line. -/
  line : String

/-- Whether a command is refused: there is no such command, or its argument makes no sense. -/
def Command.refused : Command → Bool
  | .blank | .unknown _ => true
  | .load path => path = ""
  | .steps argument =>
    argument ≠ "" && (Text.integer? argument).all fun n => n < 0
  | .format argument => (OutputFormat.ofWord? (Text.lower argument)).isNone
  | _ => false

namespace Session

variable {session next : Session} {read : FileReader} {line : String}

/-- How what is asked for turns out, told by what is read, loaded and built, not by the answer. A
construction that goes on has not failed. -/
def outcome (session : Session) (read : FileReader) : Request → Verdict
  | .nothing => .done
  | .command (.load path) =>
    if path = "" then .done
    else
      match Program.load read path with
      | .ok _ => .done
      | .error _ => .failed
  | .command _ => .done
  | .define text =>
    match Program.parse text with
    | .ok _ => .done
    | .error _ => .failed
  | .build text =>
    match Term.parse text with
    | .error _ => .failed
    | .ok t =>
      match (session.buildTerm t).error? session.buildOptions with
      | none | some .unfinished => .done
      | some (.aborted _) => .aborted
      | some (.growth _) => .failed

/-- How a line turns out. -/
def verdict (session : Session) (read : FileReader) (line : String) : Verdict :=
  session.outcome read (request line)

/-- What a line can do to a session. -/
inductive Change (session : Session) : Session → Prop where
  /-- Nothing. -/
  | none : Change session session
  /-- Add rules. -/
  | grown {rules : List Rule} (named : ∀ rule ∈ rules, rule.wellNamed = true) :
      Change session (session.addRules rules)
  /-- Forget the rules. -/
  | cleared : Change session { session with rules := [], program := {} }
  /-- Show the trees of the steps, or no longer. -/
  | traced (trace : Bool) : Change session { session with trace }
  /-- Change the limit, which is never zero. -/
  | limited (n : Nat) : Change session { session with maxSteps := limitOf n }
  /-- Show results in another way. -/
  | formatted (format : OutputFormat) : Change session { session with format }
  /-- Leave. -/
  | left : Change session { session with running := false }

/-- The rules of a program that is read have the right names. -/
theorem wellNamed_of_parse {text : String} {program : Program}
    (parsed : Program.parse text = .ok program) :
    ∀ rule ∈ program.rules, rule.wellNamed = true := by
  obtain ⟨rules, rfl, named, -⟩ := Program.parse_eq_ok.mp parsed
  rwa [Program.rules_ofRules]

/-- A program is loaded from the text of a file. -/
theorem load_eq_ok {path : String} {program : Program} :
    Program.load read path = .ok program ↔
      ∃ text, read path = .ok text ∧ Program.parse text = .ok program := by
  rw [Program.load]
  cases read path with
  | error problem => simp
  | ok text => simp [mapError_eq_ok]

/-- All rules of a program are appended, in their order, or there is no program and nothing
happens. -/
inductive Takes {ε : Type} (session : Session) (parsed : Except ε Program) : Session → Prop where
  /-- There is a program. -/
  | all {program : Program} (reads : parsed = .ok program) :
      Takes session parsed
        { session with
          rules := session.rules ++ program.rules
          program := .ofRules (session.rules ++ program.rules) }
  /-- There is none. -/
  | none {e : ε} (fails : parsed = .error e) : Takes session parsed session

/-- Loading a file takes its rules, all or none. -/
theorem takes_loadFile (session : Session) (read : FileReader) {path : String}
    (named : path ≠ "") :
    session.Takes (Program.load read path) (session.loadFile read path).2 := by
  rw [loadFile, if_neg named, load]
  cases Program.load read path with
  | error e => exact .none rfl
  | ok program => exact .all rfl

/-- Defining rules takes all or none of them. -/
theorem takes_define (session : Session) (text : String) :
    session.Takes (Program.parse text) (session.define text).2 := by
  rw [define]
  cases Program.parse text with
  | error e => exact .none rfl
  | ok program => exact .all rfl

/-- Taking rules is a change, if the program has the right names. -/
theorem Takes.change {ε : Type} {parsed : Except ε Program} (takes : session.Takes parsed next)
    (named : ∀ program, parsed = .ok program → ∀ rule ∈ program.rules, rule.wellNamed = true) :
    session.Change next := by
  cases takes with
  | all reads => exact .grown (named _ reads)
  | none fails => exact .none

/-- Nothing is taken where there is no program. -/
theorem Takes.eq_of_error {ε : Type} {parsed : Except ε Program} {e : ε}
    (takes : session.Takes parsed next) (fails : parsed = .error e) : next = session := by
  cases takes with
  | all reads =>
    rw [fails] at reads
    contradiction
  | none _ => rfl

/-- A command changes the session in one of the ways in which a line can. -/
theorem change_of_perform (session : Session) (read : FileReader) (command : Command) :
    session.Change (session.perform read command).2 := by
  cases command with
  | blank | help | rules | unknown => exact .none
  | quit => exact .left
  | clear => exact .cleared
  | trace argument => exact .traced _
  | load path =>
    rw [perform]
    by_cases named : path = ""
    · rw [loadFile, if_pos named]
      exact .none
    · refine (session.takes_loadFile read named).change fun program loaded => ?_
      obtain ⟨text, -, parsed⟩ := load_eq_ok.mp loaded
      exact wellNamed_of_parse parsed
  | steps argument =>
    rw [perform, setSteps]
    split
    · exact .none
    · split
      · exact .limited _
      · exact .none
  | format argument =>
    rw [perform, setFormat]
    split
    · exact .formatted _
    · exact .none

/-- A line changes the session in one of these ways. -/
theorem change_of_processLine (session : Session) (read : FileReader) (line : String) :
    session.Change (session.processLine read line).2 := by
  rw [processLine]
  split
  · exact .none
  · exact change_of_perform session read _
  · exact (session.takes_define _).change fun _ => wellNamed_of_parse
  · exact .none

/-- The parts of a session agree with each other. -/
structure Sound (session : Session) : Prop where
  /-- The program is that of the rules. -/
  program : session.program = .ofRules session.rules
  /-- The rules have the right names. -/
  named : ∀ rule ∈ session.rules, rule.wellNamed = true
  /-- A limit is a positive number. -/
  limit : ∀ n, session.maxSteps = some n → 0 < n
  /-- The format is one of those that are listed. -/
  format : session.format ∈ OutputFormat.all

/-- A limit that is set is a positive number. -/
theorem pos_of_limitOf {n limit : Nat} (set : limitOf n = some limit) : 0 < limit := by
  rw [limitOf] at set
  split at set
  · contradiction
  · rename_i positive
    rw [← Option.some.inj set]
    exact Nat.pos_of_ne_zero positive

/-- Every format is listed. -/
theorem mem_all (format : OutputFormat) : format ∈ OutputFormat.all := by
  cases format <;> decide

/-- A session that settings ask for is sound. -/
theorem sound_of_settings (settings : Settings) : settings.session.Sound where
  program := rfl
  named := by simp [Settings.session]
  limit _ := pos_of_limitOf
  format := mem_all _

example : Settings.session {} = {} := rfl

/-- A change keeps a session sound. -/
theorem Change.sound (change : session.Change next) (sound : session.Sound) : next.Sound := by
  obtain ⟨program, named, limit, format⟩ := sound
  cases change with
  | none => exact ⟨program, named, limit, format⟩
  | grown namedNew =>
    refine ⟨rfl, fun rule member => ?_, limit, format⟩
    exact (List.mem_append.mp member).elim (named rule) (namedNew rule)
  | cleared => exact ⟨rfl, by simp, limit, format⟩
  | traced trace => exact ⟨program, named, limit, format⟩
  | limited n => exact ⟨program, named, fun _ => pos_of_limitOf, format⟩
  | formatted other => exact ⟨program, named, limit, mem_all other⟩
  | left => exact ⟨program, named, limit, format⟩

/-- The session after some lines. -/
def after (session : Session) : List Entry → Session
  | [] => session
  | entry :: rest => after (session.processLine entry.read entry.line).2 rest

/-- The answers to some lines. -/
def responses (session : Session) : List Entry → List Response
  | [] => []
  | entry :: rest =>
    (session.processLine entry.read entry.line).1 ::
      responses (session.processLine entry.read entry.line).2 rest

/-- Lines keep a session sound. -/
theorem Sound.after (sound : session.Sound) (entries : List Entry) :
    (session.after entries).Sound := by
  induction entries generalizing session with
  | nil => exact sound
  | cons entry rest ih =>
    rw [Session.after]
    exact ih ((session.change_of_processLine entry.read entry.line).sound sound)

/-- A line that is there to be left out: it is blank or a comment, names a term, fails, or is a
command that is refused. -/
inductive Idle (session : Session) (read : FileReader) (line : String) : Prop where
  /-- The line is blank. -/
  | blank (empty : Text.strip line = "")
  /-- The line is a comment. -/
  | comment {mark : String} (known : mark = "#" ∨ mark = "//")
      (starts : mark.toList <+: (Text.strip line).toList)
  /-- The line names a term. -/
  | build {text : String} (names : request line = .build text)
  /-- The line fails. -/
  | failing (fails : session.verdict read line ≠ .done)
  /-- The command is refused. -/
  | refused {command : Command} (asks : request line = .command command)
      (refused : command.refused = true)

/-- A blank line asks for nothing. -/
theorem request_of_blank (empty : Text.strip line = "") : request line = .nothing := by
  rw [request, empty]
  rfl

/-- A comment asks for nothing. -/
theorem request_of_comment {mark : String} (known : mark = "#" ∨ mark = "//")
    (starts : mark.toList <+: (Text.strip line).toList) : request line = .nothing := by
  obtain ⟨rest, written⟩ := starts
  rw [request]
  rcases known with rfl | rfl <;> rw [← written] <;> rfl

/-- A command that is refused leaves the session as it is. -/
theorem perform_of_refused (session : Session) (read : FileReader) {command : Command}
    (refused : command.refused = true) : (session.perform read command).2 = session := by
  cases command with
  | blank | unknown => rfl
  | help | quit | rules | clear | trace => contradiction
  | load path =>
    have empty : path = "" := of_decide_eq_true refused
    rw [perform, loadFile, if_pos empty]
  | steps argument =>
    rw [Command.refused, Bool.and_eq_true, decide_eq_true_iff] at refused
    obtain ⟨given, negative⟩ := refused
    rw [perform, setSteps, if_neg given]
    split
    · rename_i n number
      have below : (n : Int) < 0 := by simpa [number] using negative
      omega
    · rfl
  | format argument =>
    rw [perform, setFormat, Option.isNone_iff_eq_none.mp refused]

/-- An idle line leaves the session as it is. -/
theorem Idle.snd_processLine (idle : session.Idle read line) :
    (session.processLine read line).2 = session := by
  cases idle with
  | blank empty => rw [processLine, request_of_blank empty]
  | comment known starts => rw [processLine, request_of_comment known starts]
  | build names => rw [processLine, names]
  | refused asks refused =>
    rw [processLine, asks]
    exact session.perform_of_refused read refused
  | failing fails =>
    rw [processLine]
    rw [verdict] at fails
    generalize request line = asked at fails ⊢
    cases asked with
    | nothing | build => rfl
    | define text =>
      rw [outcome] at fails
      cases parsed : Program.parse text with
      | error e => exact (session.takes_define text).eq_of_error parsed
      | ok program =>
        rw [parsed] at fails
        contradiction
    | command command =>
      cases command with
      | load path =>
        rw [outcome] at fails
        split at fails
        · contradiction
        · rename_i named
          cases loaded : Program.load read path with
          | error e => exact (session.takes_loadFile read named).eq_of_error loaded
          | ok program =>
            rw [loaded] at fails
            contradiction
      | _ => contradiction

/-- The elements of a list, less those that are marked with `false`. Those without a mark stay. -/
def select {α : Type} : List Bool → List α → List α
  | [], rest => rest
  | _ :: _, [] => []
  | false :: marks, _ :: rest => select marks rest
  | true :: marks, first :: rest => first :: select marks rest

/-- The lines that are marked with `false` are idle where they are answered. -/
def DropsIdle (session : Session) (marks : List Bool) (entries : List Entry) : Prop :=
  ∀ i entry, marks[i]? = some false → entries[i]? = some entry →
    (session.after (entries.take i)).Idle entry.read entry.line

/-- What is dropped after a first line is idle in the session that the first line leads to. -/
theorem DropsIdle.tail {keep : Bool} {marks : List Bool} {entry : Entry} {rest : List Entry}
    (idle : session.DropsIdle (keep :: marks) (entry :: rest)) :
    (session.processLine entry.read entry.line).2.DropsIdle marks rest := by
  intro i other left found
  have later := idle (i + 1) other (by simpa using left) (by simpa using found)
  rwa [List.take_succ_cons, after] at later

/-- Idle lines can be left out: the session at the end and the answers to the other lines are the
same. -/
theorem DropsIdle.after_select {marks : List Bool} {entries : List Entry}
    (idle : session.DropsIdle marks entries) :
    session.after (select marks entries) = session.after entries ∧
      session.responses (select marks entries) = select marks (session.responses entries) := by
  induction entries generalizing session marks with
  | nil => cases marks <;> exact ⟨rfl, rfl⟩
  | cons entry rest ih =>
    cases marks with
    | nil => exact ⟨rfl, rfl⟩
    | cons keep marks =>
      obtain ⟨sameEnd, sameAnswers⟩ := ih idle.tail
      cases keep with
      | true =>
        simp only [select, after, responses]
        exact ⟨sameEnd, congrArg _ sameAnswers⟩
      | false =>
        have same : (session.processLine entry.read entry.line).2 = session :=
          (idle 0 entry rfl rfl).snd_processLine
        rw [same] at sameEnd sameAnswers
        simp only [select, after, responses, same]
        exact ⟨sameEnd, sameAnswers⟩

/-- What holds of a session after any lines. The program is that of the rules, a limit is a positive
number, and the format is one of those listed. A line that defines rules, or loads a file, takes all
rules or changes nothing, and a line that names a term changes nothing. Lines before that were idle
could have been left out: the session would be the same, and so would the answers to the other
lines. -/
theorem lines_atomic (settings : Settings) (entries : List Entry) :
    let start := settings.session
    let session := start.after entries
    session.Sound ∧
      (∀ read line text, request line = .define text →
        session.Takes (Program.parse text) (session.processLine read line).2) ∧
      (∀ read line path, request line = .command (.load path) → path ≠ "" →
        session.Takes (Program.load read path) (session.processLine read line).2) ∧
      (∀ read line text, request line = .build text →
        (session.processLine read line).2 = session) ∧
      ∀ marks : List Bool, start.DropsIdle marks entries →
        start.after (select marks entries) = session ∧
          start.responses (select marks entries) = select marks (start.responses entries) := by
  refine ⟨(sound_of_settings settings).after entries, ?_, ?_, ?_, fun _ => DropsIdle.after_select⟩
  · intro read line text asked
    rw [processLine, asked]
    exact takes_define _ text
  · intro read line path asked named
    rw [processLine, asked]
    exact takes_loadFile _ read named
  · intro read line text asked
    rw [processLine, asked]

/-- A comment and a term without rules stand before a command, which is answered in the same way
without them. -/
theorem lines_atomic_three :
    let read : FileReader := fun _ => .ok ""
    let entries : List Entry := ["# note", "fA()", ":steps 5"].map (Entry.mk read)
    (Settings.session {}).DropsIdle [false, false, true] entries ∧
      (Settings.session {}).responses [⟨read, ":steps 5"⟩] =
        ((Settings.session {}).responses entries).drop 2 := by
  intro read entries
  have idle : (Settings.session {}).DropsIdle [false, false, true] entries := by
    intro i entry left found
    match i with
    | 0 =>
      obtain rfl := Option.some.inj found
      have starts : "#".toList <+: (Text.strip "# note").toList := by decide +kernel
      exact .comment (.inl rfl) starts
    | 1 =>
      obtain rfl := Option.some.inj found
      have stripped : Text.strip "fA()" = "fA()" := by decide +kernel
      have names : request "fA()" = .build "fA()" := by
        rw [request, stripped]
        rfl
      exact .build names
    | 2 => contradiction
  obtain ⟨-, -, -, -, removal⟩ := lines_atomic {} entries
  exact ⟨idle, (removal [false, false, true] idle).2⟩

end Session

end Supercompilation
