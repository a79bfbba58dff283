import Supercompilation.Proofs.Spacing

/-!
# Cutting a text in rounds

A text may also be cut in rounds. Each round takes the piece at the front: blanks as far as they
go, a comment to the end of its line, a name as far as it goes, or a mark. If there is no such
piece, the text cannot be cut, and the first character that is left is the stray one. A piece has at
least one character, so the rounds come to an end, and they find the same lexemes and the same stray
character as reading the text one character at a time.

`Piece.Takes` says once what a round can take, and what must not follow it.
-/

namespace Supercompilation

/-- What a round takes. -/
inductive Piece where
  /-- Characters that are skipped. -/
  | skipped (cs : List Char)
  /-- A lexeme. -/
  | lexeme (lexeme : Lexeme)

namespace Piece

/-- The characters of a piece. -/
def characters : Piece → List Char
  | skipped cs => cs
  | lexeme found => found.text.toList

/-- The tokens that a piece at a position yields. -/
def tokens (position : Nat) : Piece → List Token
  | skipped _ => []
  | lexeme found => [⟨found, position⟩]

/-- A comment starts with a character, in front of others. -/
def opensComment (c : Char) (cs : List Char) : Bool :=
  c = '#' || (c = '/' && cs.head? = some '/')

/-- The piece at the front of characters. -/
def first? : List Char → Option Piece
  | [] => none
  | c :: cs =>
    if Text.isBlank c then some (.skipped (c :: cs.takeWhile Text.isBlank))
    else if opensComment c cs then some (.skipped (c :: cs.takeWhile fun d => d != '\n'))
    else if Text.isInitial c then
      some (.lexeme (.name (String.ofList (c :: cs.takeWhile Text.isWord))))
    else (Mark.ofChar? c).map fun sign => .lexeme (.mark sign)

/-- A piece may be taken in front of other characters: they do not go on with blanks behind blanks,
with the line of a comment behind the comment, or with a name behind a name. -/
inductive Takes : Piece → List Char → Prop where
  /-- Blanks. -/
  | blanks {c : Char} {run rest : List Char} (blank : ∀ d ∈ c :: run, Text.isBlank d = true)
      (stops : ∀ d ∈ rest.head?, Text.isBlank d = false) : Takes (.skipped (c :: run)) rest
  /-- A comment. -/
  | comment {start line rest : List Char} (opens : start = ['#'] ∨ start = ['/', '/'])
      (inLine : '\n' ∉ line) (toEnd : ∀ d ∈ rest.head?, d = '\n') :
      Takes (.skipped (start ++ line)) rest
  /-- A name. -/
  | name {word : String} {rest : List Char} (lawful : Name.startsIn Text.isInitial word = true)
      (apart : ∀ d ∈ rest.head?, Text.isWord d = false) : Takes (.lexeme (.name word)) rest
  /-- A mark. -/
  | mark (sign : Mark) (rest : List Char) : Takes (.lexeme (.mark sign)) rest

/-- Nothing starts with a character in front of others: neither blanks nor a comment, neither a name
nor a mark. -/
structure StartsNothing (c : Char) (cs : List Char) : Prop where
  /-- The character is no blank. -/
  noBlank : Text.isBlank c = false
  /-- It is no number sign. -/
  noHash : c ≠ '#'
  /-- It is no slash in front of another one. -/
  noSlashes : ¬ (c = '/' ∧ cs.head? = some '/')
  /-- It is no letter that a name can start with. -/
  noInitial : Text.isInitial c = false
  /-- It is no mark. -/
  noMark : ∀ sign : Mark, c ≠ sign.char

/-- A comment is opened by a number sign or by two slashes. -/
theorem opensComment_iff {c : Char} {cs : List Char} :
    opensComment c cs = true ↔ c = '#' ∨ c = '/' ∧ cs.head? = some '/' := by
  simp [opensComment]

/-- A character that is no mark is not found among them. -/
theorem ofChar?_eq_none_iff {c : Char} :
    Mark.ofChar? c = none ↔ ∀ sign : Mark, c ≠ sign.char := by
  constructor
  · rintro missing sign rfl
    cases sign <;> simp [Mark.ofChar?, Mark.char] at missing
  · intro none
    cases found : Mark.ofChar? c with
    | none => rfl
    | some sign => exact absurd (Mark.char_eq found).symm (none sign)

/-- What a run of characters of a class leaves does not start with one. -/
theorem head?_dropWhile_stops (p : Char → Bool) (cs : List Char) :
    ∀ d ∈ (cs.dropWhile p).head?, p d = false := by
  intro d first
  have stops := List.head?_dropWhile_not p cs
  rw [Option.mem_def.mp first] at stops
  simpa using stops

/-- A piece that is found stands at the front, and may be taken there. -/
theorem takes_of_first? {cs : List Char} {piece : Piece} (found : first? cs = some piece) :
    ∃ rest, cs = piece.characters ++ rest ∧ piece.Takes rest := by
  cases cs with
  | nil => contradiction
  | cons c cs =>
    rw [first?] at found
    split at found
    · rename_i blank
      obtain rfl := Option.some.inj found
      refine ⟨cs.dropWhile Text.isBlank, by simp [characters], .blanks ?_ ?_⟩
      · rw [List.forall_mem_cons]
        exact ⟨blank, fun d => List.mem_takeWhile_imp⟩
      · exact head?_dropWhile_stops _ cs
    split at found
    · rename_i opens
      obtain rfl := Option.some.inj found
      have inLine : ∀ d ∈ cs.takeWhile fun d => d != '\n', d ≠ '\n' := by
        intro d member
        simpa using List.mem_takeWhile_imp member
      have toEnd : ∀ d ∈ (cs.dropWhile fun d => d != '\n').head?, d = '\n' := by
        intro d first
        simpa using head?_dropWhile_stops _ cs d first
      refine ⟨cs.dropWhile fun d => d != '\n', by simp [characters], ?_⟩
      rcases opensComment_iff.mp opens with rfl | ⟨rfl, second⟩
      · have hash : ['#'] = ['#'] ∨ ['#'] = ['/', '/'] := .inl rfl
        exact .comment hash (fun member => inLine _ member rfl) toEnd
      · obtain ⟨tail, rfl⟩ : ∃ tail, cs = '/' :: tail := by
          cases cs with
          | nil => simp at second
          | cons d tail => exact ⟨tail, by simpa using second⟩
        rw [List.takeWhile_cons_of_pos (by rfl)] at inLine ⊢
        rw [List.forall_mem_cons] at inLine
        have slashes : ['/', '/'] = ['#'] ∨ ['/', '/'] = ['/', '/'] := .inr rfl
        exact .comment slashes (fun member => inLine.2 _ member rfl) toEnd
    split at found
    · rename_i initial
      obtain rfl := Option.some.inj found
      refine ⟨cs.dropWhile Text.isWord, by simp [characters, Lexeme.text], .name ?_ ?_⟩
      · rw [Name.startsIn_iff]
        exact ⟨c, cs.takeWhile Text.isWord, by simp, initial, fun d => List.mem_takeWhile_imp⟩
      · exact head?_dropWhile_stops _ cs
    · obtain ⟨sign, isMark, rfl⟩ := Option.map_eq_some_iff.mp found
      refine ⟨cs, ?_, .mark sign cs⟩
      simp [characters, Lexeme.text, Mark.text, Mark.char_eq isMark]

/-- There is no piece at the front exactly if nothing starts there. -/
theorem first?_eq_none_iff {c : Char} {cs : List Char} :
    first? (c :: cs) = none ↔ StartsNothing c cs := by
  rw [first?]
  constructor
  · intro missing
    split at missing
    · contradiction
    split at missing
    · contradiction
    split at missing
    · contradiction
    · rename_i noBlank noComment noInitial
      rw [opensComment_iff, not_or] at noComment
      rw [Option.map_eq_none_iff, ofChar?_eq_none_iff] at missing
      exact ⟨by simpa using noBlank, noComment.1, noComment.2, by simpa using noInitial, missing⟩
  · rintro ⟨noBlank, noHash, noSlashes, noInitial, noMark⟩
    have noComment : opensComment c cs = false := by
      rw [← Bool.not_eq_true, opensComment_iff]
      exact fun opens => opens.elim noHash noSlashes
    simp [noBlank, noComment, noInitial, ofChar?_eq_none_iff.mpr noMark]

namespace Takes

variable {piece : Piece} {rest : List Char}

/-- A piece that may be taken has at least one character. -/
theorem characters_ne_nil (takes : piece.Takes rest) : piece.characters ≠ [] := by
  cases takes with
  | blanks => exact List.cons_ne_nil _ _
  | comment opens =>
    rcases opens with rfl | rfl
    · exact List.cons_ne_nil _ _
    · exact List.cons_ne_nil _ _
  | name lawful =>
    obtain ⟨c, cs, spelled, -⟩ := Name.startsIn_iff.mp lawful
    rw [characters, Lexeme.text, spelled]
    exact List.cons_ne_nil c cs
  | mark sign => cases sign <;> decide

/-- What must not follow a piece does not follow it where fewer characters follow. -/
theorem of_prefix (takes : piece.Takes rest) {fewer : List Char} (start : fewer <+: rest) :
    piece.Takes fewer := by
  have head : ∀ d ∈ fewer.head?, d ∈ rest.head? := by
    obtain ⟨others, rfl⟩ := start
    intro d first
    rw [List.head?_append, Option.mem_def.mp first]
    rfl
  cases takes with
  | blanks blank stops => exact .blanks blank fun d first => stops d (head d first)
  | comment opens inLine toEnd => exact .comment opens inLine fun d first => toEnd d (head d first)
  | name lawful apart => exact .name lawful fun d first => apart d (head d first)
  | mark sign => exact .mark sign fewer

end Takes

end Piece

namespace LexMode

/-- The line of a comment completes no lexeme. -/
theorem scan_line {line rest : List Char} (inLine : '\n' ∉ line)
    (toEnd : ∀ d ∈ rest.head?, d = '\n') (position : Nat) :
    comment.scan position (line ++ rest) = gap.scan (position + line.length) rest := by
  cases rest with
  | nil => rw [List.append_nil, Spells.scan_lastComment inLine, scan, finish]
  | cons d rest =>
    obtain rfl : d = '\n' := toEnd d rfl
    have blank : gap.step (position + line.length) '\n' = .ok ([], gap) := rfl
    rw [Spells.scan_comment inLine, scan_silent blank]

/-- Behind characters that are skipped, the text is read on between lexemes. -/
theorem scan_skipped {skipped rest : List Char} (takes : (Piece.skipped skipped).Takes rest)
    (position : Nat) :
    gap.scan position (skipped ++ rest) = gap.scan (position + skipped.length) rest := by
  cases takes with
  | blanks blank => exact scan_blanks_append blank position rest
  | @comment start line _ opens inLine toEnd =>
    rw [List.append_assoc, List.length_append]
    rcases opens with rfl | rfl
    · have hash : gap.step position '#' = .ok ([], comment) := rfl
      rw [List.singleton_append, scan_silent hash, scan_line inLine toEnd, Nat.add_assoc]
      rfl
    · have slash : gap.step position '/' = .ok ([], .slash position) := rfl
      have second : (LexMode.slash position).step (position + 1) '/' = .ok ([], comment) := rfl
      rw [List.cons_append, List.singleton_append, scan_silent slash, scan_silent second,
        scan_line inLine toEnd, Nat.add_assoc, Nat.add_assoc, ← Nat.add_assoc 1 1]
      rfl

/-- A lexeme that is not continued is found where it stands. -/
theorem scan_lexeme {found : Lexeme} {rest : List Char} (takes : (Piece.lexeme found).Takes rest)
    (position : Nat) :
    gap.scan position (found.text.toList ++ rest) =
      (gap.scan (position + found.text.toList.length) rest).map (⟨found, position⟩ :: ·) := by
  cases takes with
  | @name word _ lawful apart =>
    obtain ⟨c, cs, spelled, initial, isWord⟩ := Name.startsIn_iff.mp lawful
    obtain ⟨noBlank, noHash, noSlash⟩ := Text.ne_gap_of_isInitial initial
    have stepped : gap.step position c = .ok ([], .name position [c]) := by
      simp [step, inGap, noBlank, noHash, noSlash, initial]
    have whole : nameToken position (cs.reverse ++ [c]) = ⟨.name word, position⟩ := by
      rw [nameToken, List.reverse_append, List.reverse_reverse, List.reverse_singleton,
        List.singleton_append, ← spelled, String.ofList_toList]
    rw [Lexeme.text, spelled, List.cons_append, scan_silent stepped, scan_name isWord apart, whole,
      List.length_cons, Nat.add_assoc, Nat.add_comm 1]
  | mark sign =>
    have stepped : gap.step position sign.char = .ok ([⟨.mark sign, position⟩], gap) := by
      cases sign <;> rfl
    rw [Lexeme.text, Mark.text, String.toList_singleton, List.singleton_append, scan_cons stepped]
    rfl

/-- Behind a piece that may be taken, the text is read on between lexemes. -/
theorem scan_piece {piece : Piece} {rest : List Char} (takes : piece.Takes rest)
    (position : Nat) :
    gap.scan position (piece.characters ++ rest) =
      (gap.scan (position + piece.characters.length) rest).map (piece.tokens position ++ ·) := by
  cases piece with
  | skipped cs =>
    rw [Piece.characters, scan_skipped takes]
    cases gap.scan (position + cs.length) rest <;> rfl
  | lexeme found => exact scan_lexeme takes position

/-- Where nothing starts, the first character is stray. -/
theorem scan_of_startsNothing {c : Char} {cs : List Char} (nothing : Piece.StartsNothing c cs)
    (position : Nat) : gap.scan position (c :: cs) = .error ⟨c, position⟩ := by
  obtain ⟨noBlank, noHash, noSlashes, noInitial, noMark⟩ := nothing
  by_cases slash : c = '/'
  · subst slash
    have stepped : gap.step position '/' = .ok ([], .slash position) := rfl
    rw [scan_silent stepped]
    cases cs with
    | nil => rfl
    | cons d cs =>
      have other : d ≠ '/' := by
        rintro rfl
        exact noSlashes ⟨rfl, rfl⟩
      rw [scan, step, if_neg other]
      rfl
  · have stepped : gap.step position c = .error ⟨c, position⟩ := by
      simp [step, inGap, noBlank, noHash, slash, noInitial, Piece.ofChar?_eq_none_iff.mpr noMark]
    rw [scan, stepped]
    rfl

end LexMode

/-- Every round takes at least one character. -/
theorem Piece.length_drop_lt {cs : List Char} {piece : Piece} (found : first? cs = some piece) :
    (cs.drop piece.characters.length).length < cs.length := by
  obtain ⟨rest, rfl, takes⟩ := takes_of_first? found
  have some := List.length_pos_of_ne_nil takes.characters_ne_nil
  rw [List.drop_left, List.length_append]
  omega

/-- The lexemes of the characters from a position on, found in rounds. -/
def rounds (position : Nat) (cs : List Char) : Except StrayCharacter (List Token) :=
  match cs with
  | [] => .ok []
  | c :: rest =>
    match _ : Piece.first? (c :: rest) with
    | none => .error ⟨c, position⟩
    | some piece =>
      (rounds (position + piece.characters.length)
        ((c :: rest).drop piece.characters.length)).map (piece.tokens position ++ ·)
termination_by cs.length
decreasing_by exact Piece.length_drop_lt ‹_›

/-- The rounds find what is found by reading one character at a time. -/
theorem rounds_eq_scan (position : Nat) (cs : List Char) :
    rounds position cs = LexMode.gap.scan position cs := by
  fun_induction rounds position cs with
  | case1 position => rfl
  | case2 position c rest nothing =>
    exact (LexMode.scan_of_startsNothing (Piece.first?_eq_none_iff.mp nothing) position).symm
  | case3 position c rest piece found ih =>
    obtain ⟨behind, whole, takes⟩ := Piece.takes_of_first? found
    rw [ih, whole, List.drop_left, LexMode.scan_piece takes]

end Supercompilation
