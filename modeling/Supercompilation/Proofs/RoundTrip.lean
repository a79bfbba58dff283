import Mathlib.Data.List.Forall2
import Supercompilation.Proofs.Acceptance

/-!
# Texts of terms and programs are read back

Terms and rules whose names are right for their kind are written so that their lexemes can be cut
out of the text again. Reading the text of such a term yields the term, and reading the text of a
program of such rules yields the program. Everything that is read has such names, so writing it and
reading it again changes nothing.

A name must not run into the characters behind it. `Writes` therefore speaks of characters together
with whatever follows them, as long as this does not go on with a word character.
-/

namespace Supercompilation

/-- Characters that write some lexemes, in front of every text that does not go on with a word
character. -/
def Writes (cs : List Char) (lexemes : List Lexeme) : Prop :=
  ∀ ⦃rest : List Char⦄ ⦃later : List Lexeme⦄, (∀ c ∈ rest.head?, Text.isWord c = false) →
    Spaced later rest → Spaced (lexemes ++ later) (cs ++ rest)

/-- A name writes itself. -/
theorem writes_name {name : String} (lawful : Name.startsIn Text.isInitial name = true) :
    Writes name.toList [.name name] :=
  fun _ _ apart spaced => .name lawful apart spaced

/-- A mark is no word character. -/
theorem Mark.not_isWord_char (sign : Mark) : Text.isWord sign.char = false := by
  cases sign <;> rfl

/-- Characters that start with a mark do not go on with a word character. -/
theorem apart_mark (sign : Mark) (cs : List Char) :
    ∀ c ∈ (sign.char :: cs).head?, Text.isWord c = false := by
  intro c first
  obtain rfl := Option.some.inj first
  exact sign.not_isWord_char

namespace Text

/-- The characters of texts behind a first one, each with a separator before it. -/
theorem toList_followed (sep start : String) (texts : List String) :
    (followed sep start texts).toList =
      start.toList ++ texts.flatMap fun text => sep.toList ++ text.toList := by
  induction texts generalizing start with
  | nil => simp [followed]
  | cons text texts ih => simp [followed, ih]

end Text

/-- The characters of a name with its arguments. -/
theorem toList_callText (name : String) (args : List String) :
    (callText name args).toList =
      name.toList ++ Mark.opening.char ::
        ((Text.joined ", " args).toList ++ [Mark.closing.char]) := by
  simp [callText, Mark.char]

/-- Texts behind a first one write their lexemes, with a comma before each of them. -/
theorem spaced_further {texts : List String} {items : List (List Lexeme)}
    (each : List.Forall₂ (fun text item => Writes text.toList item) texts items) {cs : List Char}
    {later : List Lexeme} (spaced : Spaced (.mark .closing :: later) (Mark.closing.char :: cs)) :
    Spaced (further items ++ .mark .closing :: later)
      (texts.flatMap (fun text => ", ".toList ++ text.toList) ++ Mark.closing.char :: cs) := by
  induction each with
  | nil => exact spaced
  | @cons text item texts items writes each ih =>
    rw [List.flatMap_cons, further, List.flatMap_cons, ← further, List.append_assoc,
      List.append_assoc, List.append_assoc]
    have apart : ∀ c ∈ (texts.flatMap (fun text => ", ".toList ++ text.toList) ++
        Mark.closing.char :: cs).head?, Text.isWord c = false := by
      cases texts with
      | nil => exact apart_mark .closing cs
      | cons text texts => exact apart_mark .comma _
    exact .mark .comma (.blank rfl (writes apart ih))

/-- Texts with separators between them write their lexemes with commas between them. -/
theorem spaced_listed {texts : List String} {items : List (List Lexeme)}
    (each : List.Forall₂ (fun text item => Writes text.toList item) texts items) {cs : List Char}
    {later : List Lexeme} (spaced : Spaced (.mark .closing :: later) (Mark.closing.char :: cs)) :
    Spaced (listed items ++ .mark .closing :: later)
      ((Text.joined ", " texts).toList ++ Mark.closing.char :: cs) := by
  cases each with
  | nil => exact spaced
  | @cons text item texts items writes each =>
    rw [Text.joined, Text.toList_followed, listed, List.append_assoc, List.append_assoc]
    refine writes ?_ (spaced_further each spaced)
    cases texts with
    | nil => exact apart_mark .closing cs
    | cons text texts => exact apart_mark .comma _

/-- A name with the texts of its arguments writes an application. -/
theorem writes_callText {name : String} (lawful : Name.startsIn Text.isInitial name = true)
    {args : List String} {items : List (List Lexeme)}
    (each : List.Forall₂ (fun text item => Writes text.toList item) args items) :
    Writes (callText name args).toList (callLexemes name items) := by
  intro rest later apart spaced
  rw [toList_callText, callLexemes]
  simp only [List.append_assoc, List.cons_append, List.nil_append]
  have behind := Spaced.mark .opening (spaced_listed each (.mark .closing spaced))
  exact .name lawful (apart_mark .opening _) behind

namespace Term

/-- The texts of arguments are those of each of them. -/
theorem textArgs_eq_map (args : List Term) : textArgs args = args.map text := by
  induction args with
  | nil => rfl
  | cons t ts ih => rw [textArgs, ih, List.map_cons]

/-- A well-named term is written by its text. -/
theorem writes_text {t : Term} (named : t.wellNamed = true) : Writes t.text.toList t.lexemes := by
  induction t with
  | letIn body bindings => simp [wellNamed] at named
  | var name =>
    rw [wellNamed] at named
    rw [text, lexemes_var]
    exact writes_name (Name.lawful_of_isVariable named)
  | app head name args ih =>
    obtain ⟨admits, namedArgs⟩ := wellNamed_app.mp named
    rw [text, textArgs_eq_map, lexemes_app]
    refine writes_callText (Name.lawful_of_admits admits) ?_
    rw [List.forall₂_map_left_iff, List.forall₂_map_right_iff, List.forall₂_same]
    exact fun t member => ih t member (namedArgs t member)

end Term

/-- Variables write themselves. -/
theorem forall₂_writes_variables {names : List String} (named : names.all Name.isVariable = true) :
    List.Forall₂ (fun text item => Writes text.toList item) names (variableLexemes names) := by
  rw [variableLexemes, List.forall₂_map_right_iff, List.forall₂_same]
  intro name member
  exact writes_name (Name.lawful_of_isVariable (List.all_eq_true.mp named name member))

/-- A well-named pattern is written by its text. -/
theorem RulePattern.writes_text {pattern : RulePattern} (named : pattern.wellNamed = true) :
    Writes pattern.text.toList pattern.lexemes := by
  rw [wellNamed, Bool.and_eq_true] at named
  have lawful : Name.startsIn Text.isInitial pattern.name = true :=
    Name.lawful_of_admits (show Head.ctor.admits pattern.name = true from named.1)
  have fields : (pattern.fields.map Term.var).map Term.text = pattern.fields := by
    rw [List.map_map]
    exact List.map_id _
  rw [text, term, Term.pattern, Term.text, Term.textArgs_eq_map, fields, lexemes]
  exact writes_callText lawful (forall₂_writes_variables named.2)

/-- A rule is written by the text of its head, an equality sign, the text of its body and a
semicolon. -/
theorem spaced_rule {head : String} {items : List Lexeme} (isHead : Writes head.toList items)
    {body : Term} (named : body.wellNamed = true) {rest : List Char} {later : List Lexeme}
    (spaced : Spaced later rest) :
    Spaced (items ++ bodyLexemes body ++ later)
      ((head ++ " = " ++ body.text ++ ";").toList ++ rest) := by
  have isBody : Spaced (body.lexemes ++ .mark .semicolon :: later)
      (body.text.toList ++ Mark.semicolon.char :: rest) :=
    Term.writes_text named (apart_mark .semicolon _) (.mark .semicolon spaced)
  have tail : Spaced (.mark .equality :: (body.lexemes ++ .mark .semicolon :: later))
      (' ' :: Mark.equality.char :: ' ' :: (body.text.toList ++ Mark.semicolon.char :: rest)) :=
    .blank rfl (.mark .equality (.blank rfl isBody))
  have apart : ∀ c ∈ (' ' :: Mark.equality.char :: ' ' ::
      (body.text.toList ++ Mark.semicolon.char :: rest)).head?, Text.isWord c = false := by
    intro c first
    obtain rfl := Option.some.inj first
    rfl
  have whole := isHead apart tail
  simpa [bodyLexemes, Mark.char] using whole

/-- A well-named rule is written by its text, whatever follows. -/
theorem Rule.spaced_text {rule : Rule} (named : rule.wellNamed = true) {rest : List Char}
    {later : List Lexeme} (spaced : Spaced later rest) :
    Spaced (rule.lexemes ++ later) (rule.text.toList ++ rest) := by
  cases rule with
  | f rule =>
    simp only [wellNamed, FRule.wellNamed, Bool.and_eq_true] at named
    obtain ⟨⟨isF, namedParams⟩, namedBody⟩ := named
    have lawful := Name.lawful_of_admits (show Head.fCall.admits rule.name = true from isF)
    exact spaced_rule (writes_callText lawful (forall₂_writes_variables namedParams)) namedBody
      spaced
  | g rule =>
    simp only [wellNamed, GRule.wellNamed, Bool.and_eq_true] at named
    obtain ⟨⟨⟨isG, namedPattern⟩, namedParams⟩, namedBody⟩ := named
    have lawful := Name.lawful_of_admits (show Head.gCall.admits rule.name = true from isG)
    have isHead := writes_callText lawful
      (.cons (RulePattern.writes_text namedPattern) (forall₂_writes_variables namedParams))
    exact spaced_rule isHead namedBody spaced

/-- Well-named rules are written by their texts, one to a line. -/
theorem spaced_rules {rules : List Rule} (named : ∀ rule ∈ rules, rule.wellNamed = true) :
    Spaced (rules.flatMap Rule.lexemes) (Text.joined "\n" (rules.map Rule.text)).toList := by
  have further : ∀ {rules : List Rule}, (∀ rule ∈ rules, rule.wellNamed = true) →
      Spaced (rules.flatMap Rule.lexemes)
        ((rules.map Rule.text).flatMap fun text => "\n".toList ++ text.toList) := by
    intro rules named
    induction rules with
    | nil => exact .nil
    | cons rule rules ih =>
      rw [List.forall_mem_cons] at named
      rw [List.flatMap_cons, List.map_cons, List.flatMap_cons, List.append_assoc]
      exact .blank rfl (rule.spaced_text named.1 (ih named.2))
  cases rules with
  | nil => exact .nil
  | cons rule rules =>
    rw [List.forall_mem_cons] at named
    rw [List.map_cons, Text.joined, Text.toList_followed, List.flatMap_cons]
    exact rule.spaced_text named.1 (further named.2)

/-- A well-named term is read from its text. -/
theorem Term.parse_text {t : Term} (named : t.wellNamed = true) : Term.parse t.text = .ok t := by
  have spaced : Spaced (t.lexemes ++ []) (t.text.toList ++ []) := writes_text named (by simp) .nil
  rw [List.append_nil, List.append_nil] at spaced
  exact Term.parse_eq_ok.mpr ⟨named, .of_spaced spaced⟩

/-- A program of well-named rules is read from its text. -/
theorem Program.parse_text {rules : List Rule} (named : ∀ rule ∈ rules, rule.wellNamed = true) :
    Program.parse (Program.ofRules rules).text = .ok (.ofRules rules) := by
  have spaced : Spaced (rules.flatMap Rule.lexemes) (Program.ofRules rules).text.toList := by
    rw [text, rules_ofRules]
    exact spaced_rules named
  exact parse_eq_ok.mpr ⟨rules, rfl, named, .of_spaced spaced⟩

/-- Writing and reading are inverse: a term with the right names is read from its text, and so is a
program of rules with the right names, with the same rules in the same order. Terms and programs
that are read have the right names, so writing them and reading them again changes nothing. -/
theorem parse_text_inverse :
    (∀ t : Term, t.wellNamed = true → Term.parse t.text = .ok t) ∧
    (∀ rules : List Rule, (∀ rule ∈ rules, rule.wellNamed = true) →
      ∃ program, Program.parse (Program.ofRules rules).text = .ok program ∧ program.rules = rules) ∧
    (∀ text t, Term.parse text = .ok t → t.wellNamed = true ∧ Term.parse t.text = .ok t) ∧
    ∀ text program, Program.parse text = .ok program →
      (∀ rule ∈ program.rules, rule.wellNamed = true) ∧
        Program.parse program.text = .ok program := by
  refine ⟨fun t named => Term.parse_text named, fun rules named => ?_, fun text t parsed => ?_,
    fun text program parsed => ?_⟩
  · exact ⟨.ofRules rules, Program.parse_text named, Program.rules_ofRules rules⟩
  · have named := (Term.parse_eq_ok.mp parsed).1
    exact ⟨named, Term.parse_text named⟩
  · obtain ⟨rules, rfl, named, -⟩ := Program.parse_eq_ok.mp parsed
    rw [Program.rules_ofRules]
    exact ⟨named, Program.parse_text named⟩

/-- Addition is read from its text, and so is a call whose arguments are a variable that is named
like an f-function and a call without arguments. -/
theorem parse_text_inverse_addition :
    (Term.app .gCall "gAdd" [.var "f", .app .fCall "f" []]).wellNamed = true ∧
    Term.parse "gAdd(f, f())" = .ok (.app .gCall "gAdd" [.var "f", .app .fCall "f" []]) ∧
    (∀ rule ∈ Program.additionRules, rule.wellNamed = true) ∧
    ∃ program, Program.parse (Program.ofRules Program.additionRules).text = .ok program ∧
      program.rules = Program.additionRules := by
  obtain ⟨terms, programs, -, -⟩ := parse_text_inverse
  have named : (Term.app .gCall "gAdd" [.var "f", .app .fCall "f" []]).wellNamed = true := by rfl
  have namedRules : ∀ rule ∈ Program.additionRules, rule.wellNamed = true := by decide
  exact ⟨named, terms _ named, namedRules, programs _ namedRules⟩

end Supercompilation
