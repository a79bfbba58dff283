import Supercompilation.Text.Ranges

/-!
# Blanks

The white space of Unicode, with the four information separators. Blanks separate lexemes and are
cut off around typed lines.
-/

namespace Supercompilation.Text

/-- White space, as ranges of code points. -/
def blankRanges : List (Nat × Nat) :=
  [(0x9, 0xd), (0x1c, 0x20), (0x85, 0x85), (0xa0, 0xa0), (0x1680, 0x1680), (0x2000, 0x200a),
   (0x2028, 0x2029), (0x202f, 0x202f), (0x205f, 0x205f), (0x3000, 0x3000)]

/-- A white-space character. -/
def isBlank (c : Char) : Bool := inRanges c.toNat blankRanges

/-- The characters without those of class `p` at the end. -/
def trimmedEnd (p : Char → Bool) (cs : List Char) : List Char :=
  (cs.reverse.dropWhile p).reverse

/-- The characters without those of class `p` at either end. -/
def trimmed (p : Char → Bool) (cs : List Char) : List Char :=
  trimmedEnd p (cs.dropWhile p)

/-- The text without blanks at either end. -/
def strip (text : String) : String := String.ofList (trimmed isBlank text.toList)

/-- The text without blanks at its start. -/
def stripStart (text : String) : String := String.ofList (text.toList.dropWhile isBlank)

/-- The first word of a text and what follows the blanks behind it; none for a blank text. -/
def firstWord? (text : String) : Option (String × String) :=
  let cs := text.toList.dropWhile isBlank
  let word := cs.takeWhile fun c => !isBlank c
  let rest := cs.dropWhile fun c => !isBlank c
  if word.isEmpty then none
  else some (String.ofList word, String.ofList (rest.dropWhile isBlank))

end Supercompilation.Text
