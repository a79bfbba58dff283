import Supercompilation.Source.Token

/-!
# What the lexemes of a text are

Two facts about the cutting of a text into lexemes. First, every name that is found starts with an
ASCII letter and goes on with word characters. Second, a text that is put together from names,
marks, blanks and comments is cut into these names and marks again, provided that no name runs into
the next one. `Spaced` puts such texts together, and `Spells` says what they are cut into, whatever
their place in a text is.
-/

namespace Supercompilation

namespace Text

/-- An ASCII letter is neither a blank nor the start of a comment. -/
theorem ne_gap_of_isInitial {c : Char} (initial : isInitial c = true) :
    isBlank c = false ∧ c ≠ '#' ∧ c ≠ '/' := by
  have range : (65 ≤ c.toNat ∧ c.toNat ≤ 90) ∨ (97 ≤ c.toNat ∧ c.toNat ≤ 122) := by
    simpa [isInitial, isCapital, isSmall, Char.le_def, UInt32.le_iff_toNat_le] using initial
  refine ⟨?_, ?_, ?_⟩
  · simp only [isBlank, blankRanges, inRanges]
    grind
  · rintro rfl
    simp at range
  · rintro rfl
    simp at range

end Text

namespace Name

/-- The name starts with a character of a class and goes on with word characters. -/
def startsIn (initials : Char → Bool) (name : String) : Bool :=
  match name.toList with
  | [] => false
  | c :: rest => initials c && rest.all Text.isWord

/-- A name starts in a class if its first character is in it and all others are word characters. -/
theorem startsIn_iff {initials : Char → Bool} {name : String} :
    startsIn initials name = true ↔ ∃ c rest, name.toList = c :: rest ∧ initials c = true ∧
      ∀ d ∈ rest, Text.isWord d = true := by
  rw [startsIn]
  cases name.toList with
  | nil => simp
  | cons c rest =>
    simp only [Bool.and_eq_true, List.all_eq_true, List.cons.injEq]
    constructor
    · intro word
      exact ⟨c, rest, ⟨rfl, rfl⟩, word⟩
    · rintro ⟨_, _, ⟨rfl, rfl⟩, word⟩
      exact word

end Name

/-- A name that may stand in a text; marks always may. -/
def Lexeme.lawful : Lexeme → Bool
  | .name word => Name.startsIn Text.isInitial word
  | .mark _ => true

namespace LexMode

/-- Reading a character and then others. -/
theorem scan_cons {mode next : LexMode} {position : Nat} {c : Char} {complete : List Token}
    (stepped : mode.step position c = .ok (complete, next)) (cs : List Char) :
    mode.scan position (c :: cs) = (next.scan (position + 1) cs).map (complete ++ ·) := by
  rw [scan, stepped]
  change (next.scan (position + 1) cs >>= fun later => .ok (complete ++ later)) = _
  cases next.scan (position + 1) cs <;> rfl

/-- A character that completes no lexeme only changes the mode. -/
theorem scan_silent {mode next : LexMode} {position : Nat} {c : Char}
    (stepped : mode.step position c = .ok ([], next)) (cs : List Char) :
    mode.scan position (c :: cs) = next.scan (position + 1) cs := by
  rw [scan_cons stepped]
  cases next.scan (position + 1) cs <;> rfl

/-- Reading the rest of a name that is followed by no word character completes the name. -/
theorem scan_name {start : Nat} {reversed cs behind : List Char}
    (word : ∀ c ∈ cs, Text.isWord c = true)
    (apart : ∀ c ∈ behind.head?, Text.isWord c = false) (position : Nat) :
    (name start reversed).scan position (cs ++ behind) =
      (gap.scan (position + cs.length) behind).map
        (nameToken start (cs.reverse ++ reversed) :: ·) := by
  induction cs generalizing position reversed with
  | nil =>
    cases behind with
    | nil => rfl
    | cons c behind =>
      have noWord : Text.isWord c = false := apart c rfl
      rw [List.nil_append, scan, scan, step, step]
      simp only [noWord, Bool.false_eq_true, if_false, List.length_nil, Nat.add_zero,
        List.reverse_nil, List.nil_append]
      cases inGap position c with
      | error stray => rfl
      | ok read =>
        obtain ⟨complete, mode⟩ := read
        simp only [Except.map, bind, Except.bind]
        cases mode.scan (position + 1) behind <;> rfl
  | cons c cs ih =>
    rw [List.forall_mem_cons] at word
    have stepped : (name start reversed).step position c =
        .ok ([], name start (c :: reversed)) := by
      rw [step, if_pos word.1]
    have length : position + 1 + cs.length = position + (c :: cs).length := by
      rw [List.length_cons]
      omega
    rw [List.cons_append, scan_silent stepped, ih word.2, List.reverse_cons, List.append_assoc,
      List.singleton_append, length]

/-- A mode in which the name that is being read, if there is one, may stand in a text. -/
def Lawful : LexMode → Prop
  | name _ reversed => ∃ initial word, reversed = word ++ [initial] ∧
      Text.isInitial initial = true ∧ ∀ c ∈ word, Text.isWord c = true
  | _ => True

/-- The name that is being read may stand in a text. -/
theorem Lawful.nameToken {start : Nat} {reversed : List Char}
    (lawful : (name start reversed).Lawful) : (nameToken start reversed).lexeme.lawful = true := by
  obtain ⟨initial, word, rfl, isInitial, isWord⟩ := lawful
  rw [LexMode.nameToken, Lexeme.lawful, Name.startsIn_iff]
  refine ⟨initial, word.reverse, by simp, isInitial, fun c member => ?_⟩
  exact isWord c (List.mem_reverse.mp member)

/-- A character between lexemes completes only lexemes that may stand in a text. -/
theorem lawful_of_inGap {position : Nat} {c : Char} {complete : List Token} {next : LexMode}
    (stepped : inGap position c = .ok (complete, next)) :
    (∀ token ∈ complete, token.lexeme.lawful = true) ∧ next.Lawful := by
  rw [inGap] at stepped
  split at stepped
  · obtain ⟨rfl, rfl⟩ := Prod.mk.inj (Except.ok.inj stepped)
    exact ⟨by simp, trivial⟩
  split at stepped
  · obtain ⟨rfl, rfl⟩ := Prod.mk.inj (Except.ok.inj stepped)
    exact ⟨by simp, trivial⟩
  split at stepped
  · obtain ⟨rfl, rfl⟩ := Prod.mk.inj (Except.ok.inj stepped)
    exact ⟨by simp, trivial⟩
  split at stepped
  · rename_i initial
    obtain ⟨rfl, rfl⟩ := Prod.mk.inj (Except.ok.inj stepped)
    exact ⟨by simp, c, [], rfl, initial, by simp⟩
  split at stepped
  · obtain ⟨rfl, rfl⟩ := Prod.mk.inj (Except.ok.inj stepped)
    exact ⟨by simp [Lexeme.lawful], trivial⟩
  · contradiction

/-- A step completes only lexemes that may stand in a text. -/
theorem Lawful.step {mode next : LexMode} {position : Nat} {c : Char} {complete : List Token}
    (lawful : mode.Lawful) (stepped : mode.step position c = .ok (complete, next)) :
    (∀ token ∈ complete, token.lexeme.lawful = true) ∧ next.Lawful := by
  cases mode with
  | gap => exact lawful_of_inGap stepped
  | slash start =>
    rw [LexMode.step] at stepped
    split at stepped
    · obtain ⟨rfl, rfl⟩ := Prod.mk.inj (Except.ok.inj stepped)
      exact ⟨by simp, trivial⟩
    · contradiction
  | comment =>
    obtain ⟨rfl, rfl⟩ := Prod.mk.inj (Except.ok.inj stepped)
    refine ⟨by simp, ?_⟩
    split <;> trivial
  | name start reversed =>
    rw [LexMode.step] at stepped
    split at stepped
    · rename_i isWord
      obtain ⟨rfl, rfl⟩ := Prod.mk.inj (Except.ok.inj stepped)
      obtain ⟨initial, word, rfl, isInitial, others⟩ := lawful
      exact ⟨by simp, initial, c :: word, rfl, isInitial,
        List.forall_mem_cons.mpr ⟨isWord, others⟩⟩
    · cases read : inGap position c with
      | error stray => simp [read, Except.map] at stepped
      | ok outcome =>
        obtain ⟨tokens, mode⟩ := outcome
        rw [read] at stepped
        obtain ⟨rfl, rfl⟩ := Prod.mk.inj (Except.ok.inj stepped)
        obtain ⟨others, after⟩ := lawful_of_inGap read
        exact ⟨List.forall_mem_cons.mpr ⟨lawful.nameToken, others⟩, after⟩

/-- Only lexemes that may stand in a text are found. -/
theorem Lawful.scan {mode : LexMode} {position : Nat} {cs : List Char} {found : List Token}
    (lawful : mode.Lawful) (scanned : mode.scan position cs = .ok found) :
    ∀ token ∈ found, token.lexeme.lawful = true := by
  induction cs generalizing mode position found with
  | nil =>
    cases mode with
    | gap | comment =>
      obtain rfl := Except.ok.inj scanned
      simp
    | slash start => simp [LexMode.scan, finish] at scanned
    | name start reversed =>
      obtain rfl := Except.ok.inj scanned
      simpa using lawful.nameToken
  | cons c cs ih =>
    cases stepped : mode.step position c with
    | error stray =>
      rw [LexMode.scan, stepped] at scanned
      contradiction
    | ok outcome =>
      obtain ⟨complete, next⟩ := outcome
      obtain ⟨now, after⟩ := lawful.step stepped
      rw [scan_cons stepped] at scanned
      cases later : next.scan (position + 1) cs with
      | error stray => simp [later, Except.map] at scanned
      | ok rest =>
        rw [later] at scanned
        obtain rfl := Except.ok.inj scanned
        exact List.forall_mem_append.mpr ⟨now, ih after later⟩

end LexMode

/-- Every lexeme of a text may stand in a text. -/
theorem lawful_of_tokens {text : String} {found : List Token} (cut : tokens text = .ok found) :
    ∀ token ∈ found, token.lexeme.lawful = true :=
  LexMode.Lawful.scan (show LexMode.gap.Lawful from trivial) cut

/-- Characters spell some lexemes: from a place between lexemes on, they are cut into these. -/
def Spells (cs : List Char) (lexemes : List Lexeme) : Prop :=
  ∀ position, ∃ found, LexMode.gap.scan position cs = .ok found ∧
    found.map Token.lexeme = lexemes

namespace Spells

variable {cs : List Char} {lexemes : List Lexeme}

/-- No characters spell nothing. -/
theorem nil : Spells [] [] := fun _ => ⟨[], rfl, rfl⟩

/-- A blank in front changes nothing. -/
theorem blank {c : Char} (isBlank : Text.isBlank c = true) (spells : Spells cs lexemes) :
    Spells (c :: cs) lexemes := by
  intro position
  obtain ⟨found, scanned, spelled⟩ := spells (position + 1)
  have stepped : LexMode.gap.step position c = .ok ([], .gap) := by
    rw [LexMode.step, LexMode.inGap, if_pos isBlank]
  exact ⟨found, by rw [LexMode.scan_silent stepped, scanned], spelled⟩

/-- A mark in front is one more lexeme. -/
theorem mark (sign : Mark) (spells : Spells cs lexemes) :
    Spells (sign.char :: cs) (.mark sign :: lexemes) := by
  intro position
  obtain ⟨found, scanned, spelled⟩ := spells (position + 1)
  have stepped : LexMode.gap.step position sign.char = .ok ([⟨.mark sign, position⟩], .gap) := by
    cases sign <;> rfl
  refine ⟨⟨.mark sign, position⟩ :: found, ?_, by rw [List.map_cons, spelled]⟩
  rw [LexMode.scan_cons stepped, scanned]
  rfl

/-- A name in front is one more lexeme, if no word character follows it. -/
theorem name {word : String} (lawful : Name.startsIn Text.isInitial word = true)
    (apart : ∀ c ∈ cs.head?, Text.isWord c = false) (spells : Spells cs lexemes) :
    Spells (word.toList ++ cs) (.name word :: lexemes) := by
  intro position
  obtain ⟨c, rest, characters, initial, isWord⟩ := Name.startsIn_iff.mp lawful
  obtain ⟨found, scanned, spelled⟩ := spells (position + 1 + rest.length)
  obtain ⟨noBlank, noHash, noSlash⟩ := Text.ne_gap_of_isInitial initial
  have stepped : LexMode.gap.step position c = .ok ([], .name position [c]) := by
    simp [LexMode.step, LexMode.inGap, noBlank, noHash, noSlash, initial]
  have whole : LexMode.nameToken position (rest.reverse ++ [c]) = ⟨.name word, position⟩ := by
    rw [LexMode.nameToken, List.reverse_append, List.reverse_reverse, List.reverse_singleton,
      List.singleton_append, ← characters, String.ofList_toList]
  refine ⟨⟨.name word, position⟩ :: found, ?_, by rw [List.map_cons, spelled]⟩
  rw [characters, List.cons_append, LexMode.scan_cons stepped, LexMode.scan_name isWord apart,
    scanned, whole]
  rfl

/-- A comment up to the end of its line completes no lexeme. -/
theorem scan_comment {line : List Char} (inLine : '\n' ∉ line) (position : Nat) (cs : List Char) :
    LexMode.comment.scan position (line ++ '\n' :: cs) =
      LexMode.gap.scan (position + line.length + 1) cs := by
  induction line generalizing position with
  | nil =>
    have stepped : LexMode.comment.step position '\n' = .ok ([], .gap) := rfl
    rw [List.nil_append, LexMode.scan_silent stepped, List.length_nil, Nat.add_zero]
  | cons c line ih =>
    rw [List.mem_cons, not_or] at inLine
    have stepped : LexMode.comment.step position c = .ok ([], .comment) := by
      rw [LexMode.step, if_neg (Ne.symm inLine.1)]
    have length : position + 1 + line.length + 1 = position + (c :: line).length + 1 := by
      rw [List.length_cons]
      omega
    rw [List.cons_append, LexMode.scan_silent stepped, ih inLine.2, length]

/-- A comment that runs to the end of the text completes no lexeme. -/
theorem scan_lastComment {line : List Char} (inLine : '\n' ∉ line) (position : Nat) :
    LexMode.comment.scan position line = .ok [] := by
  induction line generalizing position with
  | nil => rfl
  | cons c line ih =>
    rw [List.mem_cons, not_or] at inLine
    have stepped : LexMode.comment.step position c = .ok ([], .comment) := by
      rw [LexMode.step, if_neg (Ne.symm inLine.1)]
    rw [LexMode.scan_silent stepped, ih inLine.2]

/-- Behind the start of a comment, its line is read. -/
theorem exists_scan_comment {start : List Char} (opens : start = ['#'] ∨ start = ['/', '/'])
    (position : Nat) (cs : List Char) :
    ∃ position', LexMode.gap.scan position (start ++ cs) = LexMode.comment.scan position' cs := by
  rcases opens with rfl | rfl
  · have hash : LexMode.gap.step position '#' = .ok ([], .comment) := rfl
    exact ⟨position + 1, LexMode.scan_silent hash cs⟩
  · have slash : LexMode.gap.step position '/' = .ok ([], .slash position) := rfl
    have second : (LexMode.slash position).step (position + 1) '/' = .ok ([], .comment) := rfl
    refine ⟨position + 1 + 1, ?_⟩
    rw [List.cons_append, LexMode.scan_silent slash]
    exact LexMode.scan_silent second cs

/-- A comment in front changes nothing. -/
theorem comment {start line : List Char} (opens : start = ['#'] ∨ start = ['/', '/'])
    (inLine : '\n' ∉ line) (spells : Spells cs lexemes) :
    Spells (start ++ (line ++ '\n' :: cs)) lexemes := by
  intro position
  obtain ⟨position', same⟩ := exists_scan_comment opens position (line ++ '\n' :: cs)
  rw [same, scan_comment inLine]
  exact spells _

/-- A comment without an end of its line spells nothing. -/
theorem lastComment {start line : List Char} (opens : start = ['#'] ∨ start = ['/', '/'])
    (inLine : '\n' ∉ line) : Spells (start ++ line) [] := by
  intro position
  obtain ⟨position', same⟩ := exists_scan_comment opens position line
  rw [same, scan_lastComment inLine]
  exact ⟨[], rfl, rfl⟩

end Spells

/-- Lexemes written one after the other, with blanks and comments anywhere between them. A name must
not run into a word character. -/
inductive Spaced : List Lexeme → List Char → Prop where
  /-- Nothing. -/
  | nil : Spaced [] []
  /-- A blank. -/
  | blank {lexemes : List Lexeme} {c : Char} {cs : List Char} (isBlank : Text.isBlank c = true)
      (later : Spaced lexemes cs) : Spaced lexemes (c :: cs)
  /-- A comment up to the end of its line. -/
  | comment {lexemes : List Lexeme} {start line cs : List Char}
      (opens : start = ['#'] ∨ start = ['/', '/']) (inLine : '\n' ∉ line)
      (later : Spaced lexemes cs) : Spaced lexemes (start ++ (line ++ '\n' :: cs))
  /-- A comment up to the end of the text. -/
  | lastComment {start line : List Char} (opens : start = ['#'] ∨ start = ['/', '/'])
      (inLine : '\n' ∉ line) : Spaced [] (start ++ line)
  /-- A mark. -/
  | mark {lexemes : List Lexeme} {cs : List Char} (sign : Mark) (later : Spaced lexemes cs) :
      Spaced (.mark sign :: lexemes) (sign.char :: cs)
  /-- A name. -/
  | name {lexemes : List Lexeme} {word : String} {cs : List Char}
      (lawful : Name.startsIn Text.isInitial word = true)
      (apart : ∀ c ∈ cs.head?, Text.isWord c = false) (later : Spaced lexemes cs) :
      Spaced (.name word :: lexemes) (word.toList ++ cs)

/-- Lexemes are cut from a text in which they are written. -/
theorem Spaced.spells {lexemes : List Lexeme} {cs : List Char} (spaced : Spaced lexemes cs) :
    Spells cs lexemes := by
  induction spaced with
  | nil => exact .nil
  | blank isBlank _ ih => exact ih.blank isBlank
  | comment opens inLine _ ih => exact ih.comment opens inLine
  | lastComment opens inLine => exact .lastComment opens inLine
  | mark sign _ ih => exact ih.mark sign
  | name lawful apart _ ih => exact ih.name lawful apart

/-- The lexemes of a text in which some lexemes are written are these. -/
theorem Spaced.tokens {lexemes : List Lexeme} {text : String}
    (spaced : Spaced lexemes text.toList) :
    ∃ found, tokens text = .ok found ∧ found.map Token.lexeme = lexemes :=
  spaced.spells 0

end Supercompilation
