import Supercompilation.Proofs.ExitCode
import Supercompilation.Proofs.Spacing

/-!
# What a line is taken for

A line is taken for rules if there is an equality sign in it and a semicolon at its end, and else
for a term. This is decided on the characters, comments included, before anything is read. A line
that stands for rules has an equality sign, and the last of its lexemes is a semicolon; the last
lexeme of a term is none. So the decision agrees with what the line stands for, unless the line ends
in a comment: then it depends on the last character of the comment. A line that is taken for the
wrong thing is refused, and the session stays as it is.
-/

namespace Supercompilation

/-- A term does not end in a semicolon. -/
theorem Term.exists_getLast?_characters {t : Term} (named : t.wellNamed = true) :
    ∃ c, (characters t.lexemes).getLast? = some c ∧ c ≠ ';' := by
  cases t with
  | letIn body bindings => simp [wellNamed] at named
  | var name =>
    rw [wellNamed] at named
    obtain ⟨c, rest, written, initial, isWord⟩ :=
      Name.startsIn_iff.mp (Name.lawful_of_isVariable named)
    have whole : characters (var name).lexemes = c :: rest := by
      rw [lexemes_var, characters, List.flatMap_singleton, Lexeme.text, written]
    have some : c :: rest ≠ [] := List.cons_ne_nil c rest
    refine ⟨(c :: rest).getLast some, by rw [whole, List.getLast?_eq_getLast_of_ne_nil some], ?_⟩
    rcases List.mem_cons.mp (List.getLast_mem some) with same | inside
    · rw [same]
      rintro rfl
      exact absurd initial (by decide)
    · have word := isWord _ inside
      intro same
      rw [same] at word
      exact absurd word (by decide +kernel)
  | app head name args =>
    refine ⟨')', ?_, by decide⟩
    rw [lexemes_app, callLexemes, ← List.cons_append, ← List.cons_append, characters_append,
      List.getLast?_append]
    rfl

/-- A rule ends in a semicolon. -/
theorem Rule.getLast?_characters (rule : Rule) :
    (characters rule.lexemes).getLast? = some ';' := by
  have whole : ∃ head, rule.lexemes = head ++ bodyLexemes rule.body := by
    cases rule with
    | f rule => exact ⟨_, rfl⟩
    | g rule => exact ⟨_, rfl⟩
  obtain ⟨head, whole⟩ := whole
  rw [whole, bodyLexemes, ← List.cons_append, ← List.append_assoc, characters_append,
    List.getLast?_append]
  rfl

/-- A rule has an equality sign. -/
theorem Rule.mem_characters (rule : Rule) : '=' ∈ characters rule.lexemes := by
  have sign : Lexeme.mark .equality ∈ rule.lexemes := by
    cases rule with
    | _ => simp [lexemes, bodyLexemes]
  exact List.mem_flatMap.mpr ⟨_, sign, List.mem_singleton_self _⟩

/-- Rules, if there are some, end in a semicolon and have an equality sign. -/
theorem characters_flatMap_lexemes {rules : List Rule} (nonempty : rules ≠ []) :
    (characters (rules.flatMap Rule.lexemes)).getLast? = some ';' ∧
      '=' ∈ characters (rules.flatMap Rule.lexemes) := by
  obtain ⟨others, rule, rfl⟩ := (List.eq_nil_or_concat rules).resolve_left nonempty
  rw [List.concat_eq_append, List.flatMap_append, List.flatMap_singleton, characters_append,
    List.getLast?_append, rule.getLast?_characters]
  exact ⟨rfl, List.mem_append_right _ rule.mem_characters⟩

/-- A term and rules are never written in the same way. -/
theorem Term.lexemes_ne_rules {t : Term} (named : t.wellNamed = true) (rules : List Rule) :
    t.lexemes ≠ rules.flatMap Rule.lexemes := by
  intro same
  obtain ⟨c, ends, other⟩ := exists_getLast?_characters named
  rw [same] at ends
  cases rules with
  | nil => contradiction
  | cons rule rules =>
    rw [(characters_flatMap_lexemes (List.cons_ne_nil rule rules)).1] at ends
    exact other (Option.some.inj ends).symm

/-- A text does not stand for both a term and a program. -/
theorem not_parse_both {text : String} {t : Term} {program : Program}
    (term : Term.parse text = .ok t) : Program.parse text ≠ .ok program := by
  intro rules
  obtain ⟨named, cut⟩ := Term.parse_eq_ok.mp term
  obtain ⟨rules, -, -, cut'⟩ := Program.parse_eq_ok.mp rules
  exact Term.lexemes_ne_rules named rules (cut.unique cut')

/-- A text stands for the program for which it stands without blanks at its ends. -/
theorem Program.parse_strip_eq_ok {text : String} {program : Program} :
    Program.parse (Text.strip text) = .ok program ↔ Program.parse text = .ok program := by
  simp only [parse_eq_ok, cutInto_strip]

/-- A text stands for the term for which it stands without blanks at its ends. -/
theorem Term.parse_strip_eq_ok {text : String} {t : Term} :
    Term.parse (Text.strip text) = .ok t ↔ Term.parse text = .ok t := by
  simp only [parse_eq_ok, cutInto_strip]

namespace Session

/-- The line is no blank, no comment and no command: without the blanks at its ends it starts with
something else. -/
structure HasContent (line : String) : Prop where
  /-- It is not blank. -/
  nonempty : Text.strip line ≠ ""
  /-- It is no command and no comment. -/
  starts : ∀ mark ∈ [":", "#", "//"], ¬mark.toList <+: (Text.strip line).toList

/-- The answer adds the rules of a program: behind the others, in their order. -/
structure Adds (session : Session) (program : Program) (answer : Response × Session) : Prop where
  /-- The number of rules is told. -/
  text : answer.1.text = some ("Added " ++ toString program.rules.length ++ " rule(s)")
  /-- The rules that are replaced are reported, in the program and then in all rules. -/
  log : answer.1.log =
    program.warnings ++ (Program.ofRules (session.rules ++ program.rules)).warnings
  /-- Nothing else changes. -/
  session : answer.2 =
    { session with
      rules := session.rules ++ program.rules
      program := .ofRules (session.rules ++ program.rules) }

/-- The answer shows the construction of the process tree of a term. -/
structure Builds (session : Session) (t : Term) (answer : Response × Session) : Prop where
  /-- The tree is shown, or why there is none. -/
  text : answer.1.text =
    match (session.buildTerm t).error? session.buildOptions with
    | none => some (session.render (session.buildTerm t) t)
    | some (.aborted aborted) => some aborted.message
    | some .unfinished => none
    | some (.growth e) => some ("Error: " ++ e.message)
  /-- Notes are taken if they are wanted. -/
  log : answer.1.log =
    if session.verbose then (session.buildTerm t).log session.buildOptions t else []
  /-- The session stays as it is. -/
  session : answer.2 = session

/-- The answer is a complaint about a text, and the session stays as it is. -/
structure Refuses (session : Session) (e : ParseError) (answer : Response × Session) : Prop where
  /-- The complaint is shown. -/
  text : answer.1.text = some ("Error: " ++ e.message)
  /-- Nothing is reported. -/
  log : answer.1.log = []
  /-- The session stays as it is. -/
  session : answer.2 = session

variable {session : Session} {text line : String}

/-- A text that stands for a program is one whose rules are added. -/
theorem adds_define {program : Program} (parsed : Program.parse text = .ok program) :
    session.Adds program (session.define text) := by
  rw [define, parsed]
  exact ⟨rfl, rfl, rfl⟩

/-- A text that stands for no program is refused as one. -/
theorem refuses_define {e : ParseError} (refused : Program.parse text = .error e) :
    session.Refuses e (session.define text) := by
  rw [define, refused]
  exact ⟨rfl, rfl, rfl⟩

/-- A text that stands for a term is one whose tree is built. -/
theorem builds_supercompile {t : Term} (parsed : Term.parse text = .ok t) :
    session.Builds t (session.supercompile text, session) := by
  have answer : session.supercompile text = session.report t (session.buildTerm t) := by
    rw [supercompile, parsed]
  rw [answer, report]
  cases failed : (session.buildTerm t).error? session.buildOptions with
  | none => exact ⟨by simp only [failed], rfl, rfl⟩
  | some e =>
    cases e with
    | _ => exact ⟨by simp only [failed], rfl, rfl⟩

/-- A text that stands for no term is refused as one. -/
theorem refuses_supercompile {e : ParseError} (refused : Term.parse text = .error e) :
    session.Refuses e (session.supercompile text, session) := by
  rw [supercompile, refused]
  exact ⟨rfl, rfl, rfl⟩

/-- A line with content defines rules if it looks like rules, and else builds a term. -/
theorem HasContent.request (content : HasContent line) : Session.request line =
    if isRuleText (Text.strip line) then .define (Text.strip line)
    else .build (Text.strip line) := by
  obtain ⟨nonempty, starts⟩ := content
  have other : ∀ {mark : String}, mark ∈ [":", "#", "//"] → ∀ rest,
      (Text.strip line).toList ≠ mark.toList ++ rest :=
    fun member rest whole => starts _ member ⟨rest, whole.symm⟩
  rw [Session.request]
  split
  · rename_i empty
    exact absurd (String.toList_eq_nil_iff.mp empty) nonempty
  · rename_i rest whole
    exact absurd whole (other (by decide : "#" ∈ _) rest)
  · rename_i rest whole
    exact absurd whole (other (by decide : "//" ∈ _) rest)
  · rename_i rest whole
    exact absurd whole (other (by decide : ":" ∈ _) rest)
  · rfl

/-- A stripped text looks like rules if there is an equality sign in it and a semicolon at its
end. -/
theorem isRuleText_strip : isRuleText (Text.strip line) = true ↔
    '=' ∈ (Text.strip line).toList ∧ (Text.strip line).toList.getLast? = some ';' := by
  have stripped : Text.trimmedEnd Text.isBlank (Text.strip line).toList =
      (Text.strip line).toList := by
    rw [Text.toList_strip]
    exact List.rdropWhile_idempotent _ _
  rw [isRuleText, stripped, Bool.and_eq_true, List.contains_iff_mem, decide_eq_true_iff]

/-- There are lexemes in a line with content. -/
theorem HasContent.ne_nil {lexemes : List Lexeme} (content : HasContent line)
    (spaced : Spaced lexemes (Text.strip line).toList) : lexemes ≠ [] := by
  have starts : ∀ {start : List Char}, start = ['#'] ∨ start = ['/', '/'] → ∀ rest,
      (Text.strip line).toList ≠ start ++ rest := by
    rintro start (rfl | rfl) rest whole
    · exact content.starts "#" (by decide) ⟨rest, whole.symm⟩
    · exact content.starts "//" (by decide) ⟨rest, whole.symm⟩
  rintro rfl
  generalize whole : (Text.strip line).toList = cs at spaced
  cases spaced with
  | nil => exact content.nonempty (String.toList_eq_nil_iff.mp whole)
  | @blank _ c rest blank =>
    have contrary : Text.isBlank c = false :=
      Text.not_isBlank_head?_strip c (by rw [whole]; rfl)
    exact absurd (contrary.symm.trans blank) Bool.false_ne_true
  | comment opens => exact starts opens _ whole
  | lastComment opens => exact starts opens _ whole

/-- A line with content that stands for a program has an equality sign. It ends in a semicolon or in
a comment, and it stands for no term. -/
theorem HasContent.of_parse_program {program : Program} (content : HasContent line)
    (parsed : Program.parse (Text.strip line) = .ok program) :
    '=' ∈ (Text.strip line).toList ∧
      ((Text.strip line).toList.getLast? = some ';' ∨ EndsInComment (Text.strip line).toList) ∧
      ∃ e, Term.parse (Text.strip line) = .error e := by
  obtain ⟨rules, -, -, cut⟩ := Program.parse_eq_ok.mp parsed
  have spaced := cutInto_iff_spaced.mp cut
  have nonempty : rules ≠ [] := by
    rintro rfl
    exact content.ne_nil spaced rfl
  obtain ⟨semicolon, equality⟩ := characters_flatMap_lexemes nonempty
  refine ⟨spaced.sublist.subset equality, ?_, ?_⟩
  · exact (spaced.getLast?_or (Text.endsInNoBlank_strip line)).imp_left (·.trans semicolon)
  · cases term : Term.parse (Text.strip line) with
    | ok t => exact absurd parsed (not_parse_both term)
    | error e => exact ⟨e, rfl⟩

/-- A line that stands for a term ends in no semicolon or in a comment, and it stands for no
program. -/
theorem of_parse_term {t : Term} (parsed : Term.parse (Text.strip line) = .ok t) :
    ((Text.strip line).toList.getLast? ≠ some ';' ∨ EndsInComment (Text.strip line).toList) ∧
      ∃ e, Program.parse (Text.strip line) = .error e := by
  obtain ⟨named, cut⟩ := Term.parse_eq_ok.mp parsed
  obtain ⟨c, ends, other⟩ := Term.exists_getLast?_characters named
  refine ⟨?_, ?_⟩
  · have last := (cutInto_iff_spaced.mp cut).getLast?_or (Text.endsInNoBlank_strip line)
    refine last.imp_left fun same semicolon => other ?_
    rw [same, ends] at semicolon
    exact Option.some.inj semicolon
  · cases rules : Program.parse (Text.strip line) with
    | ok program => exact absurd rules (not_parse_both parsed)
    | error e => exact ⟨e, rfl⟩

/-- A line with content that looks like rules is answered as a definition. -/
theorem HasContent.processLine_define (content : HasContent line) (session : Session)
    (read : FileReader) (looks : '=' ∈ (Text.strip line).toList ∧
      (Text.strip line).toList.getLast? = some ';') :
    session.processLine read line = session.define (Text.strip line) := by
  rw [processLine, content.request, isRuleText_strip.mpr looks]
  rfl

/-- A line with content that does not look like rules is answered as a term. -/
theorem HasContent.processLine_build (content : HasContent line) (session : Session)
    (read : FileReader) (looks : ¬('=' ∈ (Text.strip line).toList ∧
      (Text.strip line).toList.getLast? = some ';')) :
    session.processLine read line = (session.supercompile (Text.strip line), session) := by
  rw [processLine, content.request, if_neg (mt isRuleText_strip.mp looks)]

/-- A line with content that stands for a program adds its rules if it ends in a semicolon, and else
it ends in a comment and is refused as a term. -/
theorem HasContent.answer_of_program {program : Program} (content : HasContent line)
    (session : Session) (read : FileReader) (parsed : Program.parse line = .ok program) :
    (Text.strip line).toList.getLast? = some ';' ∧
        session.Adds program (session.processLine read line) ∨
      (Text.strip line).toList.getLast? ≠ some ';' ∧ EndsInComment (Text.strip line).toList ∧
        ∃ e, Term.parse (Text.strip line) = .error e ∧
          session.Refuses e (session.processLine read line) := by
  have parsed' := Program.parse_strip_eq_ok.mpr parsed
  obtain ⟨equality, ends, e, refused⟩ := content.of_parse_program parsed'
  by_cases semicolon : (Text.strip line).toList.getLast? = some ';'
  · rw [content.processLine_define session read ⟨equality, semicolon⟩]
    exact .inl ⟨semicolon, adds_define parsed'⟩
  · rw [content.processLine_build session read (fun looks => semicolon looks.2)]
    exact .inr ⟨semicolon, ends.resolve_left semicolon, e, refused, refuses_supercompile refused⟩

/-- A line with content that stands for a term builds its tree, unless it has an equality sign and
ends in a semicolon: then it ends in a comment and is refused as a program. -/
theorem HasContent.answer_of_term {t : Term} (content : HasContent line) (session : Session)
    (read : FileReader) (parsed : Term.parse line = .ok t) :
    ¬('=' ∈ (Text.strip line).toList ∧ (Text.strip line).toList.getLast? = some ';') ∧
        session.Builds t (session.processLine read line) ∨
      ('=' ∈ (Text.strip line).toList ∧ (Text.strip line).toList.getLast? = some ';') ∧
        EndsInComment (Text.strip line).toList ∧
        ∃ e, Program.parse (Text.strip line) = .error e ∧
          session.Refuses e (session.processLine read line) := by
  have parsed' := Term.parse_strip_eq_ok.mpr parsed
  obtain ⟨ends, e, refused⟩ := of_parse_term parsed'
  by_cases looks : '=' ∈ (Text.strip line).toList ∧ (Text.strip line).toList.getLast? = some ';'
  · rw [content.processLine_define session read looks]
    exact .inr ⟨looks, ends.resolve_left (not_not_intro looks.2), e, refused,
      refuses_define refused⟩
  · rw [content.processLine_build session read looks]
    exact .inl ⟨looks, builds_supercompile parsed'⟩

/-- How a line with content that stands for a program or a term is answered. If the line does not
end in a comment, the rules of the program are added, and the tree of the term is built. If it does,
its last character decides: the rules are added if it is a semicolon, and the tree is built if it is
none or there is no equality sign in the line. Otherwise the line is refused as what it does not
stand for, and the session stays as it is. -/
theorem processLine_of_parse (content : HasContent line) (session : Session) (read : FileReader) :
    let text := Text.strip line
    let answer := session.processLine read line
    (¬EndsInComment text.toList →
      (∀ program, Program.parse line = .ok program → session.Adds program answer) ∧
      ∀ t, Term.parse line = .ok t → session.Builds t answer) ∧
    (∀ program, Program.parse line = .ok program →
      text.toList.getLast? = some ';' ∧ session.Adds program answer ∨
      text.toList.getLast? ≠ some ';' ∧ EndsInComment text.toList ∧
        ∃ e, Term.parse text = .error e ∧ session.Refuses e answer) ∧
    ∀ t, Term.parse line = .ok t →
      ¬('=' ∈ text.toList ∧ text.toList.getLast? = some ';') ∧ session.Builds t answer ∨
      ('=' ∈ text.toList ∧ text.toList.getLast? = some ';') ∧ EndsInComment text.toList ∧
        ∃ e, Program.parse text = .error e ∧ session.Refuses e answer := by
  have rules := fun program (parsed : Program.parse line = .ok program) =>
    content.answer_of_program session read parsed
  have terms := fun t (parsed : Term.parse line = .ok t) =>
    content.answer_of_term session read parsed
  refine ⟨fun behind => ⟨fun program parsed => ?_, fun t parsed => ?_⟩, rules, terms⟩
  · rcases rules program parsed with ⟨-, adds⟩ | ⟨-, ends, -⟩
    · exact adds
    · exact absurd ends behind
  · rcases terms t parsed with ⟨-, builds⟩ | ⟨-, ends, -⟩
    · exact builds
    · exact absurd ends behind

/-- A rule with a comment inside it and one behind it is added, as the latter ends in a
semicolon. -/
theorem processLine_of_parse_comment :
    let line := " fA() = # new\n A(); # done; "
    let rule : Rule := .f ⟨"fA", [], .app .ctor "A" []⟩
    HasContent line ∧ Program.parse line = .ok (.ofRules [rule]) ∧
      Adds {} (.ofRules [rule]) (processLine {} (fun _ => .ok "") line) := by
  intro line rule
  have content : HasContent line := ⟨by decide +kernel, by decide +kernel⟩
  have parsed : Program.parse " fA() = # new\n A(); # done; " = .ok (.ofRules [rule]) := by rfl
  have semicolon : (Text.strip line).toList.getLast? = some ';' := by decide +kernel
  rcases (processLine_of_parse content {} fun _ => .ok "").2.1 _ parsed with
    ⟨-, adds⟩ | ⟨other, -⟩
  · exact ⟨content, parsed, adds⟩
  · exact absurd semicolon other

/-- The tree of a constructor without arguments is finished at once. -/
theorem error?_buildTerm_ctor (session : Session) (name : String) :
    (session.buildTerm (.app .ctor name [])).error? session.buildOptions = none := by
  let start : BuildState := ⟨.ofTerm (.app .ctor name []), ⟨session.program, {}⟩, 0⟩
  have stops : ∀ mayGrow, start.round session.buildOptions mayGrow = .stop .completed start :=
    BuildState.round_of_finished (fun _ => rfl) rfl
  have ends : ∀ allowed, Supercompiler.grow session.buildOptions (fun _ _ => ()) allowed start =
      .ofState .completed start := by
    intro allowed
    cases allowed <;> rw [Supercompiler.grow, stops]
  rw [buildTerm, Supercompiler.build, ends, Run.error?]
  rfl

/-- Neither is a rule added behind which there is a note, nor is a term built behind which there is
an equation that ends in a semicolon. -/
theorem processLine_of_parse_note :
    let read : FileReader := fun _ => .ok ""
    let rule : Rule := .f ⟨"fA", [], .app .ctor "A" []⟩
    (HasContent "fA() = A(); # note" ∧
      Program.parse "fA() = A(); # note" = .ok (.ofRules [rule]) ∧
      (processLine {} read "fA() = A(); # note").2.rules = [] ∧
      ¬Adds {} (.ofRules [rule]) (processLine {} read "fA() = A(); # note")) ∧
    HasContent "A() # x = y;" ∧
      Term.parse "A() # x = y;" = .ok (.app .ctor "A" []) ∧
      exitCode (processLine {} read "A() # x = y;").1.text = 1 ∧
      ¬Builds {} (.app .ctor "A" []) (processLine {} read "A() # x = y;") := by
  intro read rule
  have content : HasContent "fA() = A(); # note" := ⟨by decide +kernel, by decide +kernel⟩
  have content' : HasContent "A() # x = y;" := ⟨by decide +kernel, by decide +kernel⟩
  have parsed : Program.parse "fA() = A(); # note" = .ok (.ofRules [rule]) := by rfl
  have parsed' : Term.parse "A() # x = y;" = .ok (.app .ctor "A" []) := by rfl
  have kept : (processLine {} read "fA() = A(); # note").2.rules = [] := by
    have other : (Text.strip "fA() = A(); # note").toList.getLast? ≠ some ';' := by decide +kernel
    rw [content.processLine_build {} read fun looks => other looks.2]
  have refused : exitCode (processLine {} read "A() # x = y;").1.text = 1 := by
    have looks : '=' ∈ (Text.strip "A() # x = y;").toList ∧
        (Text.strip "A() # x = y;").toList.getLast? = some ';' := by decide +kernel
    obtain ⟨-, e, refused⟩ := of_parse_term (Term.parse_strip_eq_ok.mpr parsed')
    rw [content'.processLine_define {} read looks, (refuses_define refused).text]
    exact exitCode_error e.message
  refine ⟨⟨content, parsed, kept, fun adds => ?_⟩, content', parsed', refused, fun builds => ?_⟩
  · have same := congrArg Session.rules adds.session
    rw [kept] at same
    contradiction
  · have shown := builds.text
    rw [error?_buildTerm_ctor] at shown
    rw [shown, (innocent_render _ _ _).exitCode] at refused
    contradiction

end Session

end Supercompilation
