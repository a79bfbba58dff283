import Mathlib.Algebra.GroupWithZero.Nat
import Supercompilation.Proofs.Acceptance
import Supercompilation.Proofs.Lossless

/-!
# Where a parse error points

A text that stands for no term, or for no program, is refused at a place in it: at the character
that stops its reading, at one of its tokens, or at its end if more is asked for. The line and the
column are the coordinates of this place among the lines of the text.

The coordinates are followed along the characters before the place. A line feed in front of them
is one more line, and any other character makes the first line longer.
-/

namespace Supercompilation

/-- Lines with their line feeds have this many characters. -/
def charactersIn (lines : List (List Char)) : Nat := (lines.map fun line => line.length + 1).sum

/-- The characters of a line, its line feed, and those of the other lines. -/
@[simp]
theorem charactersIn_cons (line : List Char) (lines : List (List Char)) :
    charactersIn (line :: lines) = line.length + 1 + charactersIn lines := rfl

/-- A line and a column, both counted from one, are those of a position among lines. -/
structure Coordinates (lines : List (List Char)) (line : Nat) (column position : Int) : Prop where
  /-- Lines are counted from one. -/
  line_pos : 1 ≤ line
  /-- There are at least as many lines. -/
  line_le : line ≤ lines.length
  /-- Columns are counted from one. -/
  column_pos : 1 ≤ column
  /-- In the line, there are at least as many characters as stand before the place. -/
  width : ∀ characters ∈ lines[line - 1]?, column - 1 ≤ characters.length
  /-- The earlier lines, and what stands before the place in its own, are all that is before the
  position. -/
  offset : charactersIn (lines.take (line - 1)) + (column - 1) = position

namespace ParseError

/-- A position among the characters is the place that it gives. -/
theorem placeIn_eq {length position : Nat} (inside : position ≤ length) :
    placeIn length position = position := by
  have notBefore : ¬ (position : Int) < 0 := by omega
  rw [placeIn, if_neg notBefore, Int.toNat_natCast, Nat.min_eq_left inside]

/-- Without a line feed, the only line starts with the first character. -/
theorem lineStart_of_notMem {cs : List Char} (oneLine : '\n' ∉ cs) : lineStart cs = 0 := by
  rw [lineStart, List.length_eq_zero_iff, List.dropWhile_eq_nil_iff]
  intro c member
  rw [List.mem_reverse] at member
  have other : c ≠ '\n' := by
    rintro rfl
    exact oneLine member
  simpa using other

/-- A character in front is one more before the last line, unless this is the first one. -/
theorem lineStart_cons {c : Char} {cs : List Char} (lines : '\n' ∈ c :: cs) :
    lineStart (c :: cs) = lineStart cs + 1 := by
  rw [lineStart, List.reverse_cons, List.dropWhile_append]
  by_cases further : '\n' ∈ cs
  · have stops : (cs.reverse.dropWhile fun d => d != '\n').isEmpty = false := by
      rw [List.isEmpty_eq_false_iff, Ne, List.dropWhile_eq_nil_iff]
      intro none
      simpa using none '\n' (List.mem_reverse.mpr further)
    rw [stops]
    exact List.length_append
  · obtain rfl : c = '\n' := (List.mem_cons.mp lines).resolve_right further |>.symm
    have nothing : (cs.reverse.dropWhile fun d => d != '\n') = [] :=
      List.length_eq_zero_iff.mp (lineStart_of_notMem further)
    rw [nothing, lineStart_of_notMem further]
    rfl

end ParseError

/-- The lines of characters, seen from a place among them: those that end before the place, and the
line of the place. -/
theorem exists_splitOn_append (before behind : List Char) :
    ∃ earlier line later, (before ++ behind).splitOn '\n' = earlier ++ line :: later ∧
      earlier.length = before.count '\n' ∧
      charactersIn earlier = ParseError.lineStart before ∧
      before.length ≤ ParseError.lineStart before + line.length := by
  induction before with
  | nil =>
    cases split : behind.splitOn '\n' with
    | nil =>
      rw [List.splitOn_eq_splitOnP] at split
      exact absurd split (List.splitOnP_ne_nil _ _)
    | cons line later => exact ⟨[], line, later, split, rfl, rfl, Nat.zero_le _⟩
  | cons c before ih =>
    obtain ⟨earlier, line, later, split, count, start, width⟩ := ih
    rw [List.splitOn_eq_splitOnP] at split
    rw [List.cons_append, List.splitOn_eq_splitOnP, List.splitOnP_cons_eq_if_modifyHead, split]
    by_cases feed : c = '\n'
    · subst feed
      rw [if_pos (beq_self_eq_true _), List.count_cons_self,
        ParseError.lineStart_cons List.mem_cons_self, List.length_cons]
      refine ⟨[] :: earlier, line, later, rfl, congrArg Nat.succ count, ?_, by omega⟩
      rw [charactersIn_cons, start, List.length_nil]
      omega
    · rw [if_neg (by simpa using feed), List.count_cons_of_ne feed, List.length_cons]
      -- The character belongs to the first line, which is that of the place if no line ends before.
      cases earlier with
      | nil =>
        have oneLine : '\n' ∉ before := List.count_eq_zero.mp count.symm
        have oneLine' : '\n' ∉ c :: before := by
          rw [List.mem_cons, not_or]
          exact ⟨fun same => feed same.symm, oneLine⟩
        rw [ParseError.lineStart_of_notMem oneLine] at width
        rw [ParseError.lineStart_of_notMem oneLine']
        refine ⟨[], c :: line, later, rfl, count, rfl, ?_⟩
        rw [List.length_cons]
        omega
      | cons first earlier =>
        have lines : '\n' ∈ before := by
          rw [← List.count_pos_iff, ← count]
          exact Nat.succ_pos _
        rw [ParseError.lineStart_cons (List.mem_cons_of_mem c lines)]
        refine ⟨(c :: first) :: earlier, line, later, rfl, count, ?_, by omega⟩
        rw [← start, charactersIn_cons, charactersIn_cons, List.length_cons]
        omega

/-- The line and the column of an error at a place in its text are the coordinates of the place. -/
theorem ParseError.coordinates {e : ParseError} {place : Nat} (position : e.position = place)
    (inside : place ≤ e.text.toList.length) :
    Coordinates (e.text.toList.splitOn '\n') e.line e.column place := by
  obtain ⟨earlier, line, later, split, count, start, width⟩ :=
    exists_splitOn_append (e.text.toList.take place) (e.text.toList.drop place)
  have before : e.before = e.text.toList.take place := by
    rw [ParseError.before, position, placeIn_eq inside]
  rw [List.take_append_drop] at split
  rw [← before] at count start width
  have length : e.before.length = place := by rw [before, List.length_take, Nat.min_eq_left inside]
  have startsBefore : lineStart e.before ≤ e.before.length := by
    have fewer := (List.dropWhile_sublist (fun c => c != '\n') (l := e.before.reverse)).length_le
    rwa [List.length_reverse] at fewer
  have isLine : e.line - 1 = earlier.length := count.symm
  have isColumn : e.column - 1 = place - lineStart e.before := by
    rw [column, position]
    omega
  rw [split]
  constructor
  case line_pos => exact Nat.succ_pos _
  case line_le =>
    rw [List.length_append, List.length_cons]
    omega
  case column_pos => omega
  case width =>
    intro characters found
    rw [isLine, List.getElem?_append_right (Nat.le_refl _), Nat.sub_self] at found
    obtain rfl := Option.some.inj found
    omega
  case offset =>
    rw [isLine, List.take_left, start, isColumn]
    omega

/-- What an error about a text may point at. -/
inductive Target (text : String) (e : ParseError) : Prop where
  /-- The first character that cannot be read. -/
  | character {stray : StrayCharacter} (stops : stray.Stops text)
      (position : e.position = stray.position)
      (problem : e.problem = .unexpectedCharacter stray.char)
  /-- A token that does not fit. -/
  | token {found : List Token} {token : Token} {expected : Expected}
      (cut : tokenize text = .ok found) (member : token ∈ found)
      (position : e.position = token.position)
      (problem : e.problem = .mismatch expected (some token.lexeme))
  /-- The end, where more should come. -/
  | ending {found : List Token} {expected : Expected} (cut : tokenize text = .ok found)
      (position : e.position = text.toList.length) (problem : e.problem = .mismatch expected none)

/-- An error points into a text. -/
structure PointsInto (text : String) (e : ParseError) : Prop where
  /-- It is about this text. -/
  about : e.text = text
  /-- The position is not before the text. -/
  position_nonneg : 0 ≤ e.position
  /-- Nor is it behind its end. -/
  position_le : e.position ≤ text.toList.length
  /-- What stands at the position is the reason for the error. -/
  target : Target text e
  /-- The line and the column are the coordinates of the position. -/
  coordinates : Coordinates (text.toList.splitOn '\n') e.line e.column e.position

/-- A token stands before the end of its text. -/
theorem position_lt_of_mem {text : String} {found : List Token} {token : Token}
    (cut : tokens text = .ok found) (member : token ∈ found) :
    token.position < text.toList.length := by
  have lossless := tokenList_eq_ok_iff_lossless.mp (tokenList_eq_ok.mpr ⟨found, cut, rfl⟩)
  have increasing := lossless.increasing
  rw [List.map_append, List.pairwise_append] at increasing
  have listed : token.position ∈ (found.map Token.entry).map TokenEntry.position :=
    List.mem_map_of_mem (List.mem_map_of_mem member)
  exact increasing.2.2 _ listed _ List.mem_cons_self

/-- A refusal of a text points into it. -/
theorem Refusal.pointsInto {text : String} {e : ParseError} (refusal : Refusal text e) :
    PointsInto text e := by
  have points : ∀ place : Nat, e.position = place → place ≤ text.toList.length → e.text = text →
      Target text e → PointsInto text e := by
    rintro place position inside rfl target
    refine ⟨rfl, by omega, by omega, target, ?_⟩
    have coordinates := ParseError.coordinates position inside
    rwa [← position] at coordinates
  cases refusal with
  | @stray stray cut =>
    have stops := stops_of_tokens cut
    have inside := (List.getElem?_eq_some_iff.mp stops.here).1
    exact points stray.position rfl (Nat.le_of_lt inside) rfl (.character stops rfl rfl)
  | @mismatch found mismatch cut within =>
    have listed : tokenize text = .ok found := mapError_eq_ok.mpr cut
    obtain ⟨expected, offending⟩ := mismatch
    cases offending with
    | nil => exact points _ rfl (Nat.le_refl _) rfl (.ending listed rfl rfl)
    | cons token rest =>
      have member : token ∈ found := within.subset List.mem_cons_self
      have inside := position_lt_of_mem cut member
      exact points token.position rfl (Nat.le_of_lt inside) rfl (.token listed member rfl rfl)

/-- A text that is refused as a term, or as a program, is refused at a place in it: the position is
between its start and its end, and it is the first character that cannot be read, the start of a
token, or the end if this is what does not fit. The line and the column are the coordinates of the
position: there are as many lines in the text, and as many characters in the line, and the earlier
lines with their line feeds and the characters before the column add up to the position. -/
theorem parse_error_points_into {text : String} {e : ParseError}
    (refused : Term.parse text = .error e ∨ Program.parse text = .error e) : PointsInto text e := by
  apply Refusal.pointsInto
  rcases refused with refused | refused
  · exact Term.refusal_of_parse refused
  · exact Program.refusal_of_parse refused

/-- A second variable without a comma is refused in the second line of its text, and a rule without
a semicolon at the end of its. -/
theorem parse_error_points_into_second_line :
    (∃ e, Term.parse "f(x\n y)" = .error e ∧ e.line = 2 ∧ e.column = 2 ∧
      PointsInto "f(x\n y)" e) ∧
    ∃ e, Program.parse "fA() = x" = .error e ∧ e.position = 8 ∧ PointsInto "fA() = x" e := by
  have term : Term.parse "f(x\n y)" =
      .error ⟨.mismatch (.mark .closing) (some (.name "y")), "f(x\n y)", 5⟩ := by rfl
  have program : Program.parse "fA() = x" =
      .error ⟨.mismatch (.mark .semicolon) none, "fA() = x", 8⟩ := by rfl
  exact ⟨⟨_, term, by decide, by decide, parse_error_points_into (.inl term)⟩,
    _, program, rfl, parse_error_points_into (.inr program)⟩

end Supercompilation
