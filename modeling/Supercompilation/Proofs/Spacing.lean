import Mathlib.Data.List.DropRight
import Supercompilation.Proofs.Acceptance

/-!
# What a text that can be cut looks like

A text is cut into some lexemes exactly if these are written in it, with blanks and comments between
them. What a character completes depends on the mode in which it is read, so the proof goes along
the characters, and `LexMode.Continues` says what a mode leaves to be written.

From the written form the characters of a text can be told. The characters of its lexemes stand in
it in their order, the last of them at its end, unless the text ends in a blank or in a comment.
Blanks at the ends of a text play no part in what it is cut into.
-/

namespace Supercompilation

namespace Text

/-- A code point in a table lies in one of its ranges. -/
theorem exists_range_of_inRanges {code : Nat} {ranges : List (Nat × Nat)}
    (found : inRanges code ranges = true) :
    ∃ range ∈ ranges, range.1 ≤ code ∧ code ≤ range.2 := by
  induction ranges with
  | nil => contradiction
  | cons range rest ih =>
    obtain ⟨first, last⟩ := range
    rw [inRanges] at found
    split at found
    · contradiction
    split at found
    · exact ⟨_, List.mem_cons_self, by omega, by assumption⟩
    · obtain ⟨range, member, bounds⟩ := ih found
      exact ⟨range, List.mem_cons_of_mem _ member, bounds⟩

/-- A blank is no word character. -/
theorem not_isWord_of_isBlank {c : Char} (blank : isBlank c = true) : isWord c = false := by
  obtain ⟨⟨first, last⟩, member, lower, upper⟩ := exists_range_of_inRanges blank
  have apart : ∀ range ∈ blankRanges, ∀ code ∈ List.range' range.1 (range.2 + 1 - range.1),
      inRanges code wordRanges = false := by decide +kernel
  exact apart _ member _ (List.mem_range'_1.mpr (by simp only at lower upper ⊢; omega))

/-- A stripped text is what stays between blanks at the start and blanks at the end. -/
theorem toList_strip (text : String) :
    (strip text).toList = (text.toList.dropWhile isBlank).rdropWhile isBlank := by
  rw [strip, String.toList_ofList]
  rfl

/-- A text has blanks on both sides of what is left of it when it is stripped. -/
theorem exists_strip (text : String) :
    ∃ before behind, text.toList = before ++ ((strip text).toList ++ behind) ∧
      (∀ c ∈ before, isBlank c = true) ∧ ∀ c ∈ behind, isBlank c = true := by
  refine ⟨text.toList.takeWhile isBlank, (text.toList.dropWhile isBlank).rtakeWhile isBlank,
    ?_, fun c => List.mem_takeWhile_imp, fun c => List.mem_rtakeWhile_imp⟩
  rw [toList_strip, List.rdropWhile_append_rtakeWhile, List.takeWhile_append_dropWhile]

/-- A stripped text starts with no blank. -/
theorem not_isBlank_head?_strip {text : String} :
    ∀ c ∈ (strip text).toList.head?, isBlank c = false := by
  intro c first
  rw [toList_strip] at first
  obtain ⟨rest, whole⟩ := List.rdropWhile_prefix isBlank (text.toList.dropWhile isBlank)
  have start : (text.toList.dropWhile isBlank).head? = some c := by
    rw [← whole, List.head?_append, Option.mem_def.mp first]
    rfl
  have stays := List.head?_dropWhile_not isBlank text.toList
  rw [start] at stays
  exact stays

/-- The last character, if there is one, is no blank. -/
def EndsInNoBlank (cs : List Char) : Prop := ∀ c ∈ cs.getLast?, isBlank c = false

/-- The end of characters that end in no blank does so too. -/
theorem EndsInNoBlank.of_append {first cs : List Char} (ends : EndsInNoBlank (first ++ cs)) :
    EndsInNoBlank cs := by
  intro c last
  refine ends c ?_
  rw [List.getLast?_append, Option.mem_def.mp last]
  rfl

/-- Behind characters that end in a blank there are others, if no blank is the last of all. -/
theorem EndsInNoBlank.getLast?_append {first cs : List Char} {last : Char}
    (ends : EndsInNoBlank (first ++ cs)) (isLast : first.getLast? = some last)
    (blank : isBlank last = true) : (first ++ cs).getLast? = cs.getLast? := by
  rw [EndsInNoBlank, List.getLast?_append, isLast] at ends
  rw [List.getLast?_append, isLast]
  cases found : cs.getLast? with
  | some c => rfl
  | none =>
    have contrary : isBlank last = false := ends last (by rw [found]; rfl)
    exact absurd (contrary.symm.trans blank) Bool.false_ne_true

/-- A stripped text ends in no blank. -/
theorem endsInNoBlank_strip (text : String) : EndsInNoBlank (strip text).toList := by
  intro c last
  rw [toList_strip] at last
  obtain ⟨nonempty, rfl⟩ := List.mem_getLast?_eq_getLast last
  exact Bool.eq_false_iff.mpr (List.rdropWhile_last_not _ _ nonempty)

end Text

/-- A mark is the character that it was found by. -/
theorem Mark.char_eq {c : Char} {sign : Mark} (found : ofChar? c = some sign) : sign.char = c := by
  simp only [ofChar?] at found
  grind [char]

namespace LexMode

/-- Blanks in front of a text complete no lexeme. -/
theorem scan_blanks_append {blanks : List Char} (blank : ∀ c ∈ blanks, Text.isBlank c = true)
    (position : Nat) (cs : List Char) :
    gap.scan position (blanks ++ cs) = gap.scan (position + blanks.length) cs := by
  induction blanks generalizing position with
  | nil => rfl
  | cons c blanks ih =>
    rw [List.forall_mem_cons] at blank
    have stepped : gap.step position c = .ok ([], gap) := by
      rw [step, inGap, if_pos blank.1]
    rw [List.cons_append, scan_silent stepped, ih blank.2, List.length_cons, Nat.add_right_comm,
      Nat.add_assoc]

/-- Blanks complete what the end of the text would complete. -/
theorem scan_blanks {blanks : List Char} (blank : ∀ c ∈ blanks, Text.isBlank c = true)
    (mode : LexMode) (position : Nat) : mode.scan position blanks = mode.finish := by
  induction blanks generalizing mode position with
  | nil => rw [scan]
  | cons c blanks ih =>
    rw [List.forall_mem_cons] at blank
    have inGap : inGap position c = .ok ([], gap) := by rw [inGap, if_pos blank.1]
    cases mode with
    | gap =>
      have stepped : gap.step position c = .ok ([], gap) := inGap
      rw [scan_silent stepped, ih blank.2]
    | slash start =>
      have other : c ≠ '/' := by
        rintro rfl
        exact absurd blank.1 (by decide)
      rw [scan, step, if_neg other]
      rfl
    | comment =>
      rw [scan_silent (show comment.step position c = .ok ([], _) from rfl), ih blank.2]
      split <;> rfl
    | name start reversed =>
      have stepped : (name start reversed).step position c =
          .ok ([nameToken start reversed], gap) := by
        rw [step, if_neg (by simp [Text.not_isWord_of_isBlank blank.1]), inGap]
        rfl
      rw [scan_cons stepped, ih blank.2]
      rfl

/-- Blanks behind a text complete nothing else. -/
theorem scan_append_blanks {blanks : List Char} (blank : ∀ c ∈ blanks, Text.isBlank c = true)
    (mode : LexMode) (position : Nat) (cs : List Char) :
    mode.scan position (cs ++ blanks) = mode.scan position cs := by
  induction cs generalizing mode position with
  | nil => rw [List.nil_append, scan_blanks blank, scan]
  | cons c cs ih =>
    rw [List.cons_append, scan, scan]
    simp only [ih]

/-- What a mode leaves to be written: the lexemes that are not complete, in the characters that are
still to be read. -/
def Continues (lexemes : List Lexeme) (cs : List Char) : LexMode → Prop
  | gap => Spaced lexemes cs
  | slash _ => Spaced lexemes ('/' :: cs)
  | comment =>
    (∃ line rest, cs = line ++ '\n' :: rest ∧ '\n' ∉ line ∧ Spaced lexemes rest) ∨
      '\n' ∉ cs ∧ lexemes = []
  | name _ reversed => Spaced lexemes (reversed.reverse ++ cs)

/-- What is left in a comment is written behind the start of one. -/
theorem Continues.spaced {lexemes : List Lexeme} {start cs : List Char}
    (continues : comment.Continues lexemes cs) (opens : start = ['#'] ∨ start = ['/', '/']) :
    Spaced lexemes (start ++ cs) := by
  rcases continues with ⟨line, rest, rfl, inLine, spaced⟩ | ⟨inLine, rfl⟩
  · exact .comment opens inLine spaced
  · exact .lastComment opens inLine

/-- A character in a gap is written in front of what the next mode leaves. -/
theorem Continues.inGap {position : Nat} {c : Char} {complete : List Token} {next : LexMode}
    {lexemes : List Lexeme} {cs : List Char} (continues : next.Continues lexemes cs)
    (stepped : inGap position c = .ok (complete, next)) :
    Spaced (complete.map Token.lexeme ++ lexemes) (c :: cs) := by
  rw [LexMode.inGap] at stepped
  split at stepped
  · rename_i blank
    obtain ⟨rfl, rfl⟩ := Prod.mk.inj (Except.ok.inj stepped)
    exact .blank blank continues
  split at stepped
  · rename_i hash
    obtain ⟨rfl, rfl⟩ := Prod.mk.inj (Except.ok.inj stepped)
    rw [hash]
    exact continues.spaced (.inl rfl)
  split at stepped
  · rename_i slash
    obtain ⟨rfl, rfl⟩ := Prod.mk.inj (Except.ok.inj stepped)
    rw [slash]
    exact continues
  split at stepped
  · obtain ⟨rfl, rfl⟩ := Prod.mk.inj (Except.ok.inj stepped)
    exact continues
  split at stepped
  · rename_i sign found
    obtain ⟨rfl, rfl⟩ := Prod.mk.inj (Except.ok.inj stepped)
    rw [← Mark.char_eq found]
    exact .mark sign continues
  · contradiction

/-- A character is written in front of what the next mode leaves. -/
theorem Continues.step {mode next : LexMode} {position : Nat} {c : Char} {complete : List Token}
    {lexemes : List Lexeme} {cs : List Char} (continues : next.Continues lexemes cs)
    (lawful : mode.Lawful) (stepped : mode.step position c = .ok (complete, next)) :
    mode.Continues (complete.map Token.lexeme ++ lexemes) (c :: cs) := by
  cases mode with
  | gap => exact continues.inGap stepped
  | slash start =>
    rw [LexMode.step] at stepped
    split at stepped
    · rename_i second
      obtain ⟨rfl, rfl⟩ := Prod.mk.inj (Except.ok.inj stepped)
      rw [second]
      exact continues.spaced (.inr rfl)
    · contradiction
  | comment =>
    rw [LexMode.step] at stepped
    split at stepped
    · rename_i lineFeed
      obtain ⟨rfl, rfl⟩ := Prod.mk.inj (Except.ok.inj stepped)
      rw [lineFeed]
      exact .inl ⟨[], cs, rfl, by simp, continues⟩
    · rename_i inLine
      obtain ⟨rfl, rfl⟩ := Prod.mk.inj (Except.ok.inj stepped)
      rcases continues with ⟨line, rest, rfl, inRest, spaced⟩ | ⟨inRest, rfl⟩
      · exact .inl ⟨c :: line, rest, rfl, by simp [Ne.symm inLine, inRest], spaced⟩
      · exact .inr ⟨by simp [Ne.symm inLine, inRest], rfl⟩
  | name start reversed =>
    rw [LexMode.step] at stepped
    split at stepped
    · obtain ⟨rfl, rfl⟩ := Prod.mk.inj (Except.ok.inj stepped)
      simpa [Continues] using continues
    · rename_i noWord
      cases read : LexMode.inGap position c with
      | error stray => simp [read, Except.map] at stepped
      | ok outcome =>
        obtain ⟨tokens, mode⟩ := outcome
        rw [read] at stepped
        obtain ⟨rfl, rfl⟩ := Prod.mk.inj (Except.ok.inj stepped)
        have apart : ∀ d ∈ (c :: cs).head?, Text.isWord d = false := by simpa using noWord
        have behind := Spaced.name lawful.nameToken apart (continues.inGap read)
        rwa [String.toList_ofList] at behind

/-- The lexemes that are found are written in the characters, as far as the mode leaves them to be
written. -/
theorem Lawful.continues {mode : LexMode} {position : Nat} {cs : List Char} {found : List Token}
    (lawful : mode.Lawful) (scanned : mode.scan position cs = .ok found) :
    mode.Continues (found.map Token.lexeme) cs := by
  induction cs generalizing mode position found with
  | nil =>
    cases mode with
    | gap =>
      obtain rfl := Except.ok.inj scanned
      exact .nil
    | slash start => simp [LexMode.scan, finish] at scanned
    | comment =>
      obtain rfl := Except.ok.inj scanned
      exact .inr ⟨by simp, rfl⟩
    | name start reversed =>
      obtain rfl := Except.ok.inj scanned
      have written := Spaced.name lawful.nameToken (by simp) .nil
      rwa [String.toList_ofList] at written
  | cons c cs ih =>
    cases stepped : mode.step position c with
    | error stray =>
      rw [LexMode.scan, stepped] at scanned
      contradiction
    | ok outcome =>
      obtain ⟨complete, next⟩ := outcome
      rw [scan_cons stepped] at scanned
      cases later : next.scan (position + 1) cs with
      | error stray => simp [later, Except.map] at scanned
      | ok rest =>
        rw [later] at scanned
        obtain rfl := Except.ok.inj scanned
        rw [List.map_append]
        exact (ih (lawful.step stepped).2 later).step lawful stepped

end LexMode

/-- Characters are cut into some lexemes, from any place on, exactly if these are written in
them. -/
theorem scan_eq_ok_iff_spaced (position : Nat) {cs : List Char} {lexemes : List Lexeme} :
    (∃ found, LexMode.gap.scan position cs = .ok found ∧ found.map Token.lexeme = lexemes) ↔
      Spaced lexemes cs := by
  constructor
  · rintro ⟨found, scanned, rfl⟩
    exact (show LexMode.gap.Lawful from trivial).continues scanned
  · intro spaced
    exact spaced.spells position

/-- A text is cut into some lexemes exactly if these are written in it. -/
theorem cutInto_iff_spaced {text : String} {lexemes : List Lexeme} :
    CutInto text lexemes ↔ Spaced lexemes text.toList := by
  simp only [CutInto, tokenize, mapError_eq_ok]
  exact scan_eq_ok_iff_spaced 0

/-- Blanks at the ends of a text play no part in what it is cut into. -/
theorem cutInto_strip {text : String} {lexemes : List Lexeme} :
    CutInto (Text.strip text) lexemes ↔ CutInto text lexemes := by
  obtain ⟨before, behind, whole, blankBefore, blankBehind⟩ := Text.exists_strip text
  rw [cutInto_iff_spaced, ← scan_eq_ok_iff_spaced (0 + before.length), cutInto_iff_spaced,
    ← scan_eq_ok_iff_spaced 0, whole, LexMode.scan_blanks_append blankBefore,
    LexMode.scan_append_blanks blankBehind]

/-- A text is cut in one way. -/
theorem CutInto.unique {text : String} {lexemes others : List Lexeme} (cut : CutInto text lexemes)
    (cut' : CutInto text others) : lexemes = others := by
  obtain ⟨found, same, rfl⟩ := cut
  obtain ⟨found', same', rfl⟩ := cut'
  rw [same] at same'
  rw [Except.ok.inj same']

/-- The characters of some lexemes one after the other. -/
def characters (lexemes : List Lexeme) : List Char :=
  lexemes.flatMap fun lexeme => lexeme.text.toList

/-- The characters of a mark and others. -/
theorem characters_mark (sign : Mark) (lexemes : List Lexeme) :
    characters (.mark sign :: lexemes) = sign.char :: characters lexemes := by
  rw [characters, List.flatMap_cons, Lexeme.text, Mark.text, String.toList_singleton]
  rfl

/-- The characters of a name and others. -/
theorem characters_name (word : String) (lexemes : List Lexeme) :
    characters (.name word :: lexemes) = word.toList ++ characters lexemes := rfl

/-- Lexemes one after the other have their characters one after the other. -/
theorem characters_append (lexemes others : List Lexeme) :
    characters (lexemes ++ others) = characters lexemes ++ characters others :=
  List.flatMap_append

/-- The characters end in a comment: its line runs to their end, and before it there are lexemes,
blanks and comments. -/
def EndsInComment (cs : List Char) : Prop :=
  ∃ before start line lexemes, cs = before ++ (start ++ line) ∧
    (start = ['#'] ∨ start = ['/', '/']) ∧ '\n' ∉ line ∧ Spaced lexemes before

/-- Characters that end in a comment also do so behind `first`, if lexemes may be written in `first`
and what stands before the comment. -/
theorem EndsInComment.append {cs : List Char} (ends : EndsInComment cs) (first : List Char)
    (written : ∀ {lexemes before}, before <+: cs → Spaced lexemes before →
      ∃ others, Spaced others (first ++ before)) : EndsInComment (first ++ cs) := by
  obtain ⟨before, start, line, lexemes, rfl, opens, inLine, spaced⟩ := ends
  obtain ⟨others, spaced'⟩ := written (List.prefix_append _ _) spaced
  exact ⟨first ++ before, start, line, others, (List.append_assoc ..).symm, opens, inLine, spaced'⟩

namespace Spaced

variable {lexemes : List Lexeme} {cs : List Char}

/-- The characters of the lexemes stand in the text in their order. -/
theorem sublist (spaced : Spaced lexemes cs) : (characters lexemes).Sublist cs := by
  induction spaced with
  | nil => exact .slnil
  | blank _ _ ih => exact ih.cons _
  | @comment lexemes start line cs _ _ _ ih =>
    exact ((ih.cons '\n').trans (List.sublist_append_right line _)).trans
      (List.sublist_append_right start _)
  | lastComment => exact List.nil_sublist _
  | mark sign _ ih =>
    rw [characters_mark]
    exact ih.cons_cons sign.char
  | name _ _ _ ih =>
    rw [characters_name]
    exact (List.Sublist.refl _).append ih

/-- A text that ends in no blank ends as the last of its lexemes does, or in a comment. -/
theorem getLast?_or (spaced : Spaced lexemes cs) (noBlank : Text.EndsInNoBlank cs) :
    cs.getLast? = (characters lexemes).getLast? ∨ EndsInComment cs := by
  induction spaced with
  | nil => exact .inl rfl
  | @blank lexemes c cs blank _ ih =>
    have split : Text.EndsInNoBlank ([c] ++ cs) := noBlank
    refine (ih split.of_append).imp (split.getLast?_append rfl blank).trans fun ends => ?_
    exact ends.append [c] fun _ spaced => ⟨_, .blank blank spaced⟩
  | @comment lexemes start line cs opens inLine _ ih =>
    have split : ∀ cs, start ++ (line ++ '\n' :: cs) = (start ++ (line ++ ['\n'])) ++ cs := by
      simp
    have last : (start ++ (line ++ ['\n'])).getLast? = some '\n' := by simp
    rw [split] at noBlank ⊢
    refine (ih noBlank.of_append).imp (noBlank.getLast?_append last rfl).trans fun ends => ?_
    refine ends.append _ fun {others _} _ spaced => ⟨others, ?_⟩
    rw [← split]
    exact .comment opens inLine spaced
  | lastComment opens inLine => exact .inr ⟨[], _, _, [], rfl, opens, inLine, .nil⟩
  | @mark lexemes cs sign _ ih =>
    have behind : Text.EndsInNoBlank ([sign.char] ++ cs) := noBlank
    refine (ih behind.of_append).imp (fun same => ?_) fun ends => ?_
    · rw [characters_mark, List.getLast?_cons, same, List.getLast?_cons]
    · exact ends.append [sign.char] fun _ spaced => ⟨_, .mark sign spaced⟩
  | @name lexemes word cs lawful apart _ ih =>
    refine (ih noBlank.of_append).imp (fun same => ?_) fun ends => ?_
    · rw [characters_name, List.getLast?_append, same, List.getLast?_append]
    · refine ends.append word.toList fun start spaced =>
        ⟨_, .name lawful (fun d first => ?_) spaced⟩
      obtain ⟨rest, rfl⟩ := start
      exact apart d (by rw [List.head?_append, Option.mem_def.mp first]; rfl)

end Spaced

end Supercompilation
