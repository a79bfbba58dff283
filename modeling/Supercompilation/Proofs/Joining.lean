import Supercompilation.Proofs.Session
import Supercompilation.Proofs.Spacing

/-!
# Joining the texts of programs

The texts of programs with a line feed between them are the text of one program, which has the rules
of the first text, then those of the second one. The line feed ends whatever the first text ends
with: a comment that is still open, a name, or a blank. So it does not matter whether the rules of
several texts are added to a session one text after another, or all at once.
-/

namespace Supercompilation

/-- Characters in which lexemes are written may be followed, on a new line, by others. -/
theorem Spaced.join {lexemes others : List Lexeme} {cs ds : List Char}
    (first : Spaced lexemes cs) (second : Spaced others ds) :
    Spaced (lexemes ++ others) (cs ++ '\n' :: ds) := by
  have newLine : Spaced others ('\n' :: ds) := .blank rfl second
  induction first with
  | nil => exact newLine
  | blank isBlank _ ih => exact .blank isBlank ih
  | @comment lexemes start line cs opens inLine _ ih =>
    rw [List.append_assoc, List.append_assoc]
    exact .comment opens inLine ih
  | @lastComment start line opens inLine =>
    -- The comment, which ran to the end of its text, now ends at the line feed.
    rw [List.append_assoc]
    exact .comment opens inLine second
  | mark sign _ ih => exact .mark sign ih
  | @name lexemes word cs lawful apart _ ih =>
    rw [List.append_assoc]
    refine .name lawful (fun d next => ?_) ih
    cases cs with
    | nil =>
      obtain rfl : '\n' = d := Option.some.inj next
      rfl
    | cons c cs => exact apart d next

/-- Two texts with a line feed between them have the lexemes of both. -/
theorem CutInto.join {text other : String} {lexemes others : List Lexeme}
    (first : CutInto text lexemes) (second : CutInto other others) :
    CutInto (text ++ "\n" ++ other) (lexemes ++ others) := by
  rw [cutInto_iff_spaced] at first second ⊢
  have joined := first.join second
  simpa using joined

namespace Program

/-- Two texts of programs with a line feed between them are the text of the program with the rules
of both. -/
theorem parse_join {text other : String} {first second : Program}
    (parsed : parse text = .ok first) (parsed' : parse other = .ok second) :
    parse (text ++ "\n" ++ other) = .ok (ofRules (first.rules ++ second.rules)) := by
  obtain ⟨rules, rfl, named, cut⟩ := parse_eq_ok.mp parsed
  obtain ⟨others, rfl, named', cut'⟩ := parse_eq_ok.mp parsed'
  rw [rules_ofRules, rules_ofRules]
  apply parse_eq_ok.mpr
  refine ⟨rules ++ others, rfl, List.forall_mem_append.mpr ⟨named, named'⟩, ?_⟩
  rw [List.flatMap_append]
  exact cut.join cut'

variable {texts : List String} {programs : List Program}

/-- The text of a program, followed by others on lines of their own, is the text of the program with
the rules of all. -/
theorem parse_followed {start : String} {first : Program} (parsed : parse start = .ok first)
    (others : List.Forall₂ (fun text program => parse text = .ok program) texts programs) :
    parse (Text.followed "\n" start texts) =
      .ok (ofRules (first.rules ++ programs.flatMap rules)) := by
  induction others generalizing start first with
  | nil =>
    obtain ⟨found, rfl, -⟩ := parse_eq_ok.mp parsed
    rw [List.flatMap_nil, List.append_nil, rules_ofRules]
    exact parsed
  | @cons text program texts programs parsed' _ ih =>
    have joined := ih (parse_join parsed parsed')
    rw [rules_ofRules, List.append_assoc] at joined
    exact joined

/-- Texts of programs, joined by line feeds, are the text of the program with the rules of all. -/
theorem parse_joined
    (parsed : List.Forall₂ (fun text program => parse text = .ok program) texts programs) :
    parse (Text.joined "\n" texts) = .ok (ofRules (programs.flatMap rules)) := by
  cases parsed with
  | nil => rfl
  | cons first others => exact parse_followed first others

end Program

namespace Session

/-- The session with the rules of programs, added one program after another. -/
def addEach (session : Session) (programs : List Program) : Session :=
  programs.foldl (fun session program => session.addRules program.rules) session

/-- Rules that are added one list after the other are added as one list. -/
theorem addRules_addRules (session : Session) (rules others : List Rule) :
    (session.addRules rules).addRules others = session.addRules (rules ++ others) := by
  simp only [addRules, List.append_assoc]

/-- Adding no rules changes nothing if the program is that of the rules. -/
theorem addRules_nil {session : Session} (agrees : session.program = .ofRules session.rules) :
    session.addRules [] = session := by
  rw [addRules, List.append_nil, ← agrees]

/-- Rules that are added one program after another are added at once. -/
theorem addEach_eq_addRules {session : Session} (agrees : session.program = .ofRules session.rules)
    (programs : List Program) :
    session.addEach programs = session.addRules (programs.flatMap Program.rules) := by
  induction programs generalizing session with
  | nil => exact (addRules_nil agrees).symm
  | cons program programs ih =>
    have added : (session.addRules program.rules).program =
        .ofRules (session.addRules program.rules).rules := rfl
    rw [List.flatMap_cons, ← addRules_addRules]
    exact ih added

end Session

/-- The texts of two programs with a line feed between them are the text of a program, whose rules
are those of the first text and then those of the second one; its indexes are those of the first
program with the rules of the second one added. Any number of texts joined by line feeds is the text
of a program, too. Adding the rules of one text after another to a session, the program of which is
that of its rules as in every session, leads to the same rules and the same indexes as adding those
of the joined text at once. -/
theorem program_texts_compose :
    (∀ text other first second, Program.parse text = .ok first → Program.parse other = .ok second →
      ∃ whole, Program.parse (text ++ "\n" ++ other) = .ok whole ∧
        whole.rules = first.rules ++ second.rules ∧
        whole = second.rules.foldl Program.add first) ∧
    ∀ texts programs,
      List.Forall₂ (fun text program => Program.parse text = .ok program) texts programs →
      ∃ whole, Program.parse (Text.joined "\n" texts) = .ok whole ∧
        whole.rules = programs.flatMap Program.rules ∧
        ∀ session : Session, session.program = .ofRules session.rules →
          session.addEach programs = session.addRules whole.rules := by
  constructor
  · intro text other first second parsed parsed'
    refine ⟨_, Program.parse_join parsed parsed', Program.rules_ofRules _, ?_⟩
    obtain ⟨rules, rfl, -⟩ := Program.parse_eq_ok.mp parsed
    rw [Program.rules_ofRules]
    exact List.foldl_append
  · intro texts programs parsed
    refine ⟨_, Program.parse_joined parsed, Program.rules_ofRules _, fun session agrees => ?_⟩
    rw [Program.rules_ofRules]
    exact session.addEach_eq_addRules agrees programs

/-- A text that ends in an open comment, joined with a text that replaces its rule. -/
theorem program_texts_compose_comment :
    ∃ first second,
      Program.parse "fA() = Z(); # one" = .ok first ∧ Program.parse "fA() = x;" = .ok second ∧
      (∃ whole, Program.parse ("fA() = Z(); # one" ++ "\n" ++ "fA() = x;") = .ok whole ∧
        whole.rules = [.f ⟨"fA", [], .ctor "Z" []⟩, .f ⟨"fA", [], .var "x"⟩]) ∧
      ∃ whole, Program.parse (Text.joined "\n" ["fA() = Z(); # one", "fA() = x;"]) = .ok whole ∧
        Session.addEach {} [first, second] = Session.addRules {} whole.rules := by
  have first : Program.parse "fA() = Z(); # one" =
      .ok (.ofRules [.f ⟨"fA", [], .ctor "Z" []⟩]) := by rfl
  have second : Program.parse "fA() = x;" = .ok (.ofRules [.f ⟨"fA", [], .var "x"⟩]) := by rfl
  refine ⟨_, _, first, second, ?_, ?_⟩
  · obtain ⟨whole, parsed, rules, -⟩ := program_texts_compose.1 _ _ _ _ first second
    exact ⟨whole, parsed, rules⟩
  · obtain ⟨whole, parsed, -, added⟩ :=
      program_texts_compose.2 _ _ (.cons first (.cons second .nil))
    exact ⟨whole, parsed, added {} rfl⟩

end Supercompilation
