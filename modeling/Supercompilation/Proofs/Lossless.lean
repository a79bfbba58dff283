import Supercompilation.Proofs.Rounds

/-!
# Nothing of a text is lost

The tokens of a text are slices of it, each at its position, in their order and as long as they can
be, and between them there are only gaps: blanks, and comments that run to the end of their line.
`Lossless` states this of a list of entries, and a text is cut into just the list of which it holds.
A text that cannot be cut is refused at the first place where nothing starts: the characters before
this place can be cut by themselves.

The proof goes along the rounds in which a text can be cut. A round in which something is skipped
makes the first gap longer, and a round in which a lexeme is found puts an entry in front.
-/

namespace Supercompilation

/-- The characters from one place up to another. -/
def slice (cs : List Char) (start stop : Nat) : List Char := (cs.take stop).drop start

section Slices

variable {cs : List Char} {start middle stop : Nat}

/-- From a place up to itself there are no characters. -/
theorem slice_self (cs : List Char) (place : Nat) : slice cs place place = [] := by
  rw [slice, List.drop_take, Nat.sub_self, List.take_zero]

/-- Up to the second of two places, and on to the end. -/
theorem slice_append_drop (ordered : start ≤ stop) :
    slice cs start stop ++ cs.drop stop = cs.drop start := by
  have behind : cs.drop stop = (cs.drop start).drop (stop - start) := by
    rw [List.drop_drop, Nat.add_sub_cancel' ordered]
  rw [slice, List.drop_take, behind, List.take_append_drop]

/-- Up to a place in between, and on from it. -/
theorem slice_append_slice (early : start ≤ middle) (late : middle ≤ stop) :
    slice cs start middle ++ slice cs middle stop = slice cs start stop := by
  have behind : cs.drop middle = (cs.drop start).drop (middle - start) := by
    rw [List.drop_drop, Nat.add_sub_cancel' early]
  have length : stop - start = (middle - start) + (stop - middle) := by omega
  rw [slice, slice, slice, List.drop_take, List.drop_take, List.drop_take, behind, length,
    List.take_add]

/-- What the characters from a place on begin with stands there. -/
theorem slice_of_drop {front behind : List Char} (split : cs.drop start = front ++ behind) :
    slice cs start (start + front.length) = front ∧ cs.drop (start + front.length) = behind := by
  rw [slice, List.drop_take, ← List.drop_drop, split, Nat.add_sub_cancel_left]
  exact ⟨List.take_left, List.drop_left⟩

/-- Between two places inside there are as many characters as they are apart. -/
theorem length_slice (inside : stop ≤ cs.length) : (slice cs start stop).length = stop - start := by
  rw [slice, List.length_drop, List.length_take, Nat.min_eq_left inside]

end Slices

/-- Characters without lexemes, in front of others: blanks, and comments that run to the end of
their line. -/
inductive Gap (behind : List Char) : List Char → Prop where
  /-- Nothing. -/
  | nil : Gap behind []
  /-- A blank. -/
  | blank {c : Char} {cs : List Char} (isBlank : Text.isBlank c = true) (later : Gap behind cs) :
      Gap behind (c :: cs)
  /-- A comment; behind it a new line begins, or the text ends. -/
  | comment {start line cs : List Char} (opens : start = ['#'] ∨ start = ['/', '/'])
      (inLine : '\n' ∉ line) (toEnd : ∀ d ∈ (cs ++ behind).head?, d = '\n')
      (later : Gap behind cs) : Gap behind (start ++ (line ++ cs))

namespace Gap

variable {behind gap : List Char}

/-- Blanks may stand in front of a gap. -/
theorem blanks {run : List Char} (blank : ∀ d ∈ run, Text.isBlank d = true)
    (later : Gap behind gap) : Gap behind (run ++ gap) := by
  induction run with
  | nil => exact later
  | cons d run ih =>
    rw [List.forall_mem_cons] at blank
    exact .blank blank.1 (ih blank.2)

/-- Characters that are skipped may stand in front of a gap. -/
theorem skip {skipped rest : List Char} (takes : (Piece.skipped skipped).Takes rest)
    (later : Gap behind gap) (split : gap ++ behind = rest) : Gap behind (skipped ++ gap) := by
  cases takes with
  | blanks blank => exact later.blanks blank
  | comment opens inLine toEnd =>
    rw [List.append_assoc]
    exact .comment opens inLine (split ▸ toEnd) later

/-- A gap is read without finding a lexeme. -/
theorem scan (isGap : Gap behind gap) (position : Nat) :
    LexMode.gap.scan position (gap ++ behind) =
      LexMode.gap.scan (position + gap.length) behind := by
  induction isGap generalizing position with
  | nil => rfl
  | @blank c cs isBlank _ ih =>
    have stepped : LexMode.gap.step position c = .ok ([], .gap) := by
      rw [LexMode.step, LexMode.inGap, if_pos isBlank]
    rw [List.cons_append, LexMode.scan_silent stepped, ih, List.length_cons, Nat.add_assoc,
      Nat.add_comm 1]
  | @comment start line cs opens inLine toEnd _ ih =>
    have takes : (Piece.skipped (start ++ line)).Takes (cs ++ behind) :=
      .comment opens inLine toEnd
    rw [← List.append_assoc, List.append_assoc, LexMode.scan_skipped takes, ih, Nat.add_assoc,
      ← List.length_append]

end Gap

/-- Between two places of characters there is only a gap. -/
structure GapBetween (cs : List Char) (start stop : Nat) : Prop where
  /-- The places are in order. -/
  ordered : start ≤ stop
  /-- They are places of the characters. -/
  inside : stop ≤ cs.length
  /-- What stands between them is a gap. -/
  gap : Gap (cs.drop stop) (slice cs start stop)

/-- A gap is longer by what is skipped in front of it. -/
theorem GapBetween.skip {cs skipped rest : List Char} {start stop : Nat}
    (split : cs.drop start = skipped ++ rest) (takes : (Piece.skipped skipped).Takes rest)
    (later : GapBetween cs (start + skipped.length) stop) : GapBetween cs start stop := by
  obtain ⟨ordered, inside, gap⟩ := later
  obtain ⟨front, behind⟩ := slice_of_drop split
  refine ⟨by omega, inside, ?_⟩
  have longer := gap.skip takes ((slice_append_drop ordered).trans behind)
  have whole : slice cs start (start + skipped.length) ++ slice cs (start + skipped.length) stop =
      slice cs start stop := slice_append_slice (Nat.le_add_right start skipped.length) ordered
  rw [front] at whole
  exact whole ▸ longer

namespace TokenEntry

/-- The place behind an entry. -/
def stop (entry : TokenEntry) : Nat := entry.position + entry.text.toList.length

/-- An entry is what its kind says, in a text of some length: a name, a mark, or the end. -/
def Fits (entry : TokenEntry) (length : Nat) : Prop :=
  match entry.kind with
  | .name => Name.startsIn Text.isInitial entry.text = true
  | .punctuation => ∃ sign : Mark, entry.text = sign.text
  | .ending => entry.position = length ∧ entry.text = ""

end TokenEntry

/-- The end of a text of some length. -/
def TokenEntry.atEnd (length : Nat) : TokenEntry := ⟨.ending, "", length⟩

/-- Entries list what stands in characters from a place on, and nothing is lost. -/
structure Lossless (cs : List Char) (start : Nat) (entries : List TokenEntry) : Prop where
  /-- The positions strictly increase. -/
  increasing : (entries.map TokenEntry.position).Pairwise (· < ·)
  /-- Each text is the slice at its position. -/
  slices : ∀ entry ∈ entries, slice cs entry.position entry.stop = entry.text.toList
  /-- There is only a gap in front of the first entry. -/
  first : ∀ entry ∈ entries.head?, GapBetween cs start entry.position
  /-- There is only a gap between neighbours. The last entry is the end, so this holds of what
  stands behind the last lexeme, too. -/
  between : entries.IsChain fun entry next => GapBetween cs entry.stop next.position
  /-- A name is not followed by a name character. -/
  apart : ∀ entry ∈ entries, entry.kind = .name → ∀ d ∈ cs[entry.stop]?, Text.isWord d = false
  /-- Each entry is what its kind says. -/
  kinds : ∀ entry ∈ entries, entry.Fits cs.length
  /-- The last entry is the end. -/
  last : entries.getLast? = some (.atEnd cs.length)

namespace Lossless

variable {cs : List Char} {start : Nat} {entries : List TokenEntry}

/-- Entries from a place on are not before this place. -/
theorem start_le (lossless : Lossless cs start entries) :
    ∀ entry ∈ entries, start ≤ entry.position := by
  cases entries with
  | nil => simp
  | cons first others =>
    have here := (lossless.first first rfl).ordered
    have later := lossless.increasing
    rw [List.map_cons, List.pairwise_cons] at later
    intro entry member
    rcases List.mem_cons.mp member with rfl | member
    · exact here
    · have after := later.1 _ (List.mem_map_of_mem member)
      omega

/-- At the end of the characters, only the end is listed. -/
theorem ending (cs : List Char) : Lossless cs cs.length [.atEnd cs.length] where
  increasing := List.pairwise_singleton _ _
  slices entry member := by
    obtain rfl := List.mem_singleton.mp member
    exact slice_self cs cs.length
  first entry member := by
    obtain rfl : TokenEntry.atEnd cs.length = entry := Option.some.inj member
    refine ⟨Nat.le_refl _, Nat.le_refl _, ?_⟩
    rw [TokenEntry.atEnd, slice_self]
    exact .nil
  between := .singleton _
  apart entry member isName := by
    obtain rfl := List.mem_singleton.mp member
    contradiction
  kinds entry member := by
    obtain rfl := List.mem_singleton.mp member
    exact ⟨rfl, rfl⟩
  last := rfl

/-- What is skipped in front makes the first gap longer. -/
theorem skip {skipped rest : List Char} (split : cs.drop start = skipped ++ rest)
    (takes : (Piece.skipped skipped).Takes rest)
    (later : Lossless cs (start + skipped.length) entries) : Lossless cs start entries :=
  { later with first := fun entry member => (later.first entry member).skip split takes }

/-- A lexeme in front is one more entry. -/
theorem lexeme {found : Lexeme} {rest : List Char} (inside : start ≤ cs.length)
    (split : cs.drop start = found.text.toList ++ rest) (takes : (Piece.lexeme found).Takes rest)
    (later : Lossless cs (start + found.text.toList.length) entries) :
    Lossless cs start (Token.entry ⟨found, start⟩ :: entries) := by
  obtain ⟨front, behind⟩ := slice_of_drop split
  have some := List.length_pos_of_ne_nil takes.characters_ne_nil
  rw [Piece.characters] at some
  have notLast : entries ≠ [] := by
    rintro rfl
    exact absurd later.last (by simp)
  constructor
  case increasing =>
    rw [List.map_cons, List.pairwise_cons]
    refine ⟨fun position listed => ?_, later.increasing⟩
    obtain ⟨entry, member, rfl⟩ := List.mem_map.mp listed
    have after := later.start_le entry member
    change start < entry.position
    omega
  case slices => exact List.forall_mem_cons.mpr ⟨front, later.slices⟩
  case first =>
    intro entry member
    obtain rfl := Option.some.inj member
    refine ⟨Nat.le_refl _, inside, ?_⟩
    rw [Token.entry, slice_self]
    exact .nil
  case between =>
    cases entries with
    | nil => contradiction
    | cons next others => exact .cons_cons (later.first next rfl) later.between
  case apart =>
    refine List.forall_mem_cons.mpr ⟨fun isName d member => ?_, later.apart⟩
    rw [← List.head?_drop] at member
    change d ∈ (cs.drop (start + found.text.toList.length)).head? at member
    rw [behind] at member
    cases takes with
    | name _ apart => exact apart d member
    | mark sign => contradiction
  case kinds =>
    refine List.forall_mem_cons.mpr ⟨?_, later.kinds⟩
    cases takes with
    | name lawful => exact lawful
    | mark sign => exact ⟨sign, rfl⟩
  case last =>
    rw [List.getLast?_cons_of_ne_nil notLast]
    exact later.last

/-- Rounds that come to the end of the characters lose nothing. -/
theorem of_rounds {rest : List Char} {found : List Token} (inside : start ≤ cs.length)
    (split : cs.drop start = rest) (cut : rounds start rest = .ok found) :
    Lossless cs start (found.map Token.entry ++ [.atEnd cs.length]) := by
  fun_induction rounds start rest generalizing found with
  | case1 start =>
    obtain rfl := Except.ok.inj cut
    have atEnd : start = cs.length := Nat.le_antisymm inside (List.drop_eq_nil_iff.mp split)
    rw [atEnd]
    exact ending cs
  | case2 => contradiction
  | case3 start c rest piece isFirst ih =>
    obtain ⟨behind, whole, takes⟩ := Piece.takes_of_first? isFirst
    rw [whole] at split
    have goesOn := (slice_of_drop split).2
    have longer : start + piece.characters.length ≤ cs.length := by
      have lengths := congrArg List.length split
      rw [List.length_drop, List.length_append] at lengths
      omega
    rw [whole, List.drop_left] at ih cut
    cases cutRest : rounds (start + piece.characters.length) behind with
    | error stray => simp [cutRest, Except.map] at cut
    | ok others =>
      rw [cutRest] at cut
      obtain rfl := Except.ok.inj cut
      have later := ih longer goesOn cutRest
      cases piece with
      | skipped cs' => exact later.skip split takes
      | lexeme lexeme => exact later.lexeme inside split takes

/-- Behind an entry that is not the end, the other entries lose nothing. -/
theorem tail {entry : TokenEntry} (lossless : Lossless cs start (entry :: entries))
    (notEnd : entry.kind ≠ .ending) : Lossless cs entry.stop entries := by
  cases entries with
  | nil =>
    have isEnd : entry = .atEnd cs.length := Option.some.inj lossless.last
    rw [isEnd] at notEnd
    exact absurd rfl notEnd
  | cons next others =>
    have neighbours := List.isChain_cons_cons.mp lossless.between
    constructor
    case increasing => exact (List.pairwise_cons.mp lossless.increasing).2
    case slices => exact (List.forall_mem_cons.mp lossless.slices).2
    case first =>
      intro entry member
      obtain rfl := Option.some.inj member
      exact neighbours.1
    case between => exact neighbours.2
    case apart => exact (List.forall_mem_cons.mp lossless.apart).2
    case kinds => exact (List.forall_mem_cons.mp lossless.kinds).2
    case last => exact lossless.last

/-- An entry that is not the end is that of a lexeme, which may be taken where it stands. -/
theorem exists_lexeme {entry : TokenEntry} (lossless : Lossless cs start (entry :: entries))
    (notEnd : entry.kind ≠ .ending) :
    ∃ found : Lexeme, entry = Token.entry ⟨found, entry.position⟩ ∧
      (Piece.lexeme found).Takes (cs.drop entry.stop) := by
  have fits := lossless.kinds entry List.mem_cons_self
  have apart := lossless.apart entry List.mem_cons_self
  rw [← List.head?_drop] at apart
  obtain ⟨kind, text, position⟩ := entry
  cases kind with
  | name => exact ⟨.name text, rfl, .name fits (apart rfl)⟩
  | punctuation =>
    obtain ⟨sign, rfl⟩ := fits
    exact ⟨.mark sign, rfl, .mark sign _⟩
  | ending => exact absurd rfl notEnd

/-- The end is listed only as the last entry. -/
theorem eq_nil_of_ending {entry : TokenEntry} (lossless : Lossless cs start (entry :: entries))
    (isEnd : entry.kind = .ending) : entry = .atEnd cs.length ∧ entries = [] := by
  cases entries with
  | nil => exact ⟨Option.some.inj lossless.last, rfl⟩
  | cons next others =>
    have fits := lossless.kinds entry List.mem_cons_self
    rw [TokenEntry.Fits, isEnd] at fits
    have inside := (List.isChain_cons_cons.mp lossless.between).1.inside
    have later := (List.pairwise_cons.mp lossless.increasing).1 next.position List.mem_cons_self
    omega

/-- Entries that lose nothing are those that are found. -/
theorem scan (lossless : Lossless cs start entries) :
    ∃ found, LexMode.gap.scan start (cs.drop start) = .ok found ∧
      entries = found.map Token.entry ++ [.atEnd cs.length] := by
  induction entries generalizing start with
  | nil => exact absurd lossless.last (by simp)
  | cons entry others ih =>
    obtain ⟨ordered, inside, gap⟩ := lossless.first entry rfl
    have skipped : LexMode.gap.scan start (cs.drop start) =
        LexMode.gap.scan entry.position (cs.drop entry.position) := by
      rw [← slice_append_drop ordered, gap.scan, length_slice inside, Nat.add_sub_cancel' ordered]
    rw [skipped]
    by_cases isEnd : entry.kind = .ending
    · obtain ⟨rfl, rfl⟩ := lossless.eq_nil_of_ending isEnd
      refine ⟨[], ?_, rfl⟩
      rw [TokenEntry.atEnd, List.drop_length]
      rfl
    · obtain ⟨lexeme, same, takes⟩ := lossless.exists_lexeme isEnd
      obtain ⟨found, later, rfl⟩ := ih (lossless.tail isEnd)
      have here := lossless.slices entry List.mem_cons_self
      have split : slice cs entry.position entry.stop ++ cs.drop entry.stop =
          cs.drop entry.position := slice_append_drop (Nat.le_add_right _ _)
      have spelled : entry.text = lexeme.text := congrArg TokenEntry.text same
      refine ⟨⟨lexeme, entry.position⟩ :: found, ?_, by rw [List.map_cons, ← same]; rfl⟩
      rw [← split, here, spelled, LexMode.scan_lexeme takes, ← spelled,
        ← TokenEntry.stop, later]
      rfl

end Lossless

/-- The list of tokens has an entry for each token, and the end. -/
theorem tokenList_eq_ok {text : String} {entries : List TokenEntry} :
    tokenList text = .ok entries ↔ ∃ found, tokens text = .ok found ∧
      entries = found.map Token.entry ++ [.atEnd text.toList.length] := by
  rw [tokenList, tokenize]
  cases tokens text with
  | error stray => simp [Except.mapError, Except.map]
  | ok found => simp [Except.mapError, Except.map, TokenEntry.atEnd, eq_comm]

/-- A text is cut into the one list of entries that loses nothing. -/
theorem tokenList_eq_ok_iff_lossless {text : String} {entries : List TokenEntry} :
    tokenList text = .ok entries ↔ Lossless text.toList 0 entries := by
  rw [tokenList_eq_ok]
  constructor
  · rintro ⟨found, cut, rfl⟩
    rw [tokens, ← rounds_eq_scan] at cut
    exact .of_rounds (Nat.zero_le _) List.drop_zero cut
  · exact fun lossless => lossless.scan

/-- A stray character stops the reading of a text: the characters before it can be cut by
themselves, and nothing starts with it. -/
structure StrayCharacter.Stops (stray : StrayCharacter) (text : String) : Prop where
  /-- The character stands at its position. -/
  here : text.toList[stray.position]? = some stray.char
  /-- The characters before it can be cut. -/
  before : ∃ entries, tokenList (String.ofList (text.toList.take stray.position)) = .ok entries
  /-- No blank, comment, name or mark starts with it. -/
  nothing : Piece.StartsNothing stray.char (text.toList.drop (stray.position + 1))

/-- Rounds that do not come to the end stop at a character with which nothing starts, and the
characters before it can be cut. -/
theorem exists_stray_of_rounds {position : Nat} {cs : List Char} {stray : StrayCharacter}
    (refused : rounds position cs = .error stray) :
    ∃ before behind, cs = before ++ stray.char :: behind ∧
      stray.position = position + before.length ∧ Piece.StartsNothing stray.char behind ∧
      ∃ found, LexMode.gap.scan position before = .ok found := by
  fun_induction rounds position cs with
  | case1 => contradiction
  | case2 position c rest nothing =>
    obtain rfl := Except.error.inj refused
    exact ⟨[], rest, rfl, rfl, Piece.first?_eq_none_iff.mp nothing, [], rfl⟩
  | case3 position c rest piece isFirst ih =>
    obtain ⟨others, whole, takes⟩ := Piece.takes_of_first? isFirst
    rw [whole, List.drop_left] at ih refused
    cases cutRest : rounds (position + piece.characters.length) others with
    | ok found => simp [cutRest, Except.map] at refused
    | error stray' =>
      rw [cutRest] at refused
      obtain rfl := Except.error.inj refused
      obtain ⟨before, behind, rfl, place, nothing, found, cut⟩ := ih cutRest
      have fewer := takes.of_prefix (List.prefix_append before _)
      refine ⟨piece.characters ++ before, behind, by rw [whole, List.append_assoc], ?_, nothing,
        piece.tokens position ++ found, ?_⟩
      · rw [place, List.length_append, Nat.add_assoc]
      · rw [LexMode.scan_piece fewer, cut]
        rfl

/-- A text that cannot be cut is refused at a character that stops its reading. -/
theorem stops_of_tokens {text : String} {stray : StrayCharacter}
    (refused : tokens text = .error stray) : stray.Stops text := by
  rw [tokens, ← rounds_eq_scan] at refused
  obtain ⟨before, behind, whole, place, nothing, found, cut⟩ := exists_stray_of_rounds refused
  rw [Nat.zero_add] at place
  constructor
  case here => simp [whole, place]
  case before =>
    rw [whole, place, List.take_left]
    refine ⟨_, tokenList_eq_ok.mpr ⟨found, ?_, rfl⟩⟩
    rw [tokens, String.toList_ofList, cut]
  case nothing =>
    rw [whole, place, ← List.drop_drop, List.drop_left]
    exact nothing

/-- Nothing starts with a single slash. -/
theorem Piece.startsNothing_slash {behind : List Char} (single : behind.head? ≠ some '/') :
    StartsNothing '/' behind where
  noBlank := rfl
  noHash := by decide
  noSlashes second := single second.2
  noInitial := rfl
  noMark sign := by cases sign <;> decide

/-- A text is cut into entries exactly if nothing is lost: the positions strictly increase, each
entry is the slice at its position, between the entries and in front of the first one there are only
blanks and comments to the end of their line, no name is followed by a name character, and the last
entry is the end. A text that cannot be cut is refused at the first character with which nothing
starts, such as a single slash, and the characters before it can be cut. Cutting goes in rounds,
each of which takes at least one character from the front. -/
theorem tokenList_lossless (text : String) :
    (∀ entries, tokenList text = .ok entries ↔ Lossless text.toList 0 entries) ∧
    (∀ e, tokenList text = .error e →
      ∃ stray : StrayCharacter, e = stray.error text ∧ stray.Stops text) ∧
    (∀ behind, behind.head? ≠ some '/' → Piece.StartsNothing '/' behind) ∧
    tokens text = rounds 0 text.toList ∧
    ∀ cs piece, Piece.first? cs = some piece →
      piece.characters <+: cs ∧ piece.characters ≠ [] := by
  refine ⟨fun entries => tokenList_eq_ok_iff_lossless, fun e refused => ?_,
    fun behind => Piece.startsNothing_slash, (rounds_eq_scan 0 _).symm,
    fun cs piece isFirst => ?_⟩
  · rw [tokenList, tokenize] at refused
    cases cut : tokens text with
    | ok found => simp [cut, Except.mapError, Except.map] at refused
    | error stray =>
      rw [cut] at refused
      exact ⟨stray, (Except.error.inj refused).symm, stops_of_tokens cut⟩
  · obtain ⟨rest, rfl, takes⟩ := Piece.takes_of_first? isFirst
    exact ⟨List.prefix_append _ rest, takes.characters_ne_nil⟩

/-- A name and a mark with a comment between them are found at their places, and a text with a
single slash is refused at this slash. -/
theorem tokenList_lossless_slash :
    Lossless "f // x\n(".toList 0 [⟨.name, "f", 0⟩, ⟨.punctuation, "(", 7⟩, .atEnd 8] ∧
    StrayCharacter.Stops ⟨'/', 2⟩ "f / x" := by
  obtain ⟨cut, -⟩ := tokenList_lossless "f // x\n("
  obtain ⟨-, refused, -⟩ := tokenList_lossless "f / x"
  have found : tokenList "f // x\n(" =
      .ok [⟨.name, "f", 0⟩, ⟨.punctuation, "(", 7⟩, .atEnd 8] := by rfl
  have stopped : tokenList "f / x" = .error ⟨.unexpectedCharacter '/', "f / x", 2⟩ := by rfl
  refine ⟨(cut _).mp found, ?_⟩
  obtain ⟨⟨c, position⟩, same, stops⟩ := refused _ stopped
  injection same with problem _ place
  obtain rfl : '/' = c := ParseProblem.unexpectedCharacter.inj problem
  obtain rfl : 2 = position := Int.ofNat.inj place
  exact stops

end Supercompilation
