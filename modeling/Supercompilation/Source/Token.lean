import Supercompilation.Text.Blank
import Supercompilation.Text.Word
import Supercompilation.Text.Quoted

/-!
# Lexemes

A text is cut into names and punctuation marks. Blanks are skipped, and so are comments, which run
from `#` or `//` to the end of the line. A name is as long as possible.

The text is read one character at a time. What has been read so far matters only through a mode:
between lexemes, behind one slash, in a comment, or in a name. Reading two texts one after the
other is therefore reading the first and going on in the mode in which it ends.
-/

namespace Supercompilation

/-- A punctuation mark. -/
inductive Mark where
  /-- An opening parenthesis. -/
  | opening
  /-- A closing parenthesis. -/
  | closing
  /-- A comma. -/
  | comma
  /-- An equality sign. -/
  | equality
  /-- A semicolon. -/
  | semicolon
  deriving DecidableEq, Repr

namespace Mark

/-- The mark as a character. -/
def char : Mark → Char
  | opening => '('
  | closing => ')'
  | comma => ','
  | equality => '='
  | semicolon => ';'

/-- The mark that a character is. -/
def ofChar? (c : Char) : Option Mark :=
  if c = '(' then some opening
  else if c = ')' then some closing
  else if c = ',' then some comma
  else if c = '=' then some equality
  else if c = ';' then some semicolon
  else none

/-- The mark as a text. -/
def text (mark : Mark) : String := String.singleton mark.char

end Mark

/-- A name or a mark. -/
inductive Lexeme where
  /-- A name. -/
  | name (name : String)
  /-- A punctuation mark. -/
  | mark (mark : Mark)
  deriving DecidableEq, Repr

/-- The text of a lexeme. -/
def Lexeme.text : Lexeme → String
  | .name word => word
  | .mark sign => sign.text

/-- A lexeme and the number of characters before it. -/
structure Token where
  /-- The lexeme. -/
  lexeme : Lexeme
  /-- The number of characters before it. -/
  position : Nat
  deriving DecidableEq, Repr

/-- A character that starts nothing, and the number of characters before it. -/
structure StrayCharacter where
  /-- The character. -/
  char : Char
  /-- The number of characters before it. -/
  position : Nat
  deriving DecidableEq, Repr

/-- Where the reading of a text stands. -/
inductive LexMode where
  /-- Between lexemes. -/
  | gap
  /-- Behind a slash at a position, which must be followed by another one. -/
  | slash (position : Nat)
  /-- In a comment. -/
  | comment
  /-- In a name that started at a position; its characters so far are in reverse order. -/
  | name (position : Nat) (reversed : List Char)
  deriving DecidableEq, Repr

namespace LexMode

/-- Read a character between lexemes. -/
def inGap (position : Nat) (c : Char) : Except StrayCharacter (List Token × LexMode) :=
  if Text.isBlank c then .ok ([], gap)
  else if c = '#' then .ok ([], comment)
  else if c = '/' then .ok ([], slash position)
  else if Text.isInitial c then .ok ([], name position [c])
  else
    match Mark.ofChar? c with
    | some mark => .ok ([⟨.mark mark, position⟩], gap)
    | none => .error ⟨c, position⟩

/-- The name token of characters in reverse order. -/
def nameToken (position : Nat) (reversed : List Char) : Token :=
  ⟨.name (String.ofList reversed.reverse), position⟩

/-- Read a character: the lexemes that are complete before or with it, and the next mode. -/
def step (mode : LexMode) (position : Nat) (c : Char) :
    Except StrayCharacter (List Token × LexMode) :=
  match mode with
  | gap => inGap position c
  | slash start => if c = '/' then .ok ([], comment) else .error ⟨'/', start⟩
  | comment => .ok ([], if c = '\n' then gap else comment)
  | name start reversed =>
    if Text.isWord c then .ok ([], name start (c :: reversed))
    else (inGap position c).map fun (tokens, mode) => (nameToken start reversed :: tokens, mode)

/-- The lexemes that the end of the text completes. -/
def finish : LexMode → Except StrayCharacter (List Token)
  | gap => .ok []
  | slash start => .error ⟨'/', start⟩
  | comment => .ok []
  | name start reversed => .ok [nameToken start reversed]

/-- The lexemes of the characters from a position on. -/
def scan : LexMode → Nat → List Char → Except StrayCharacter (List Token)
  | mode, _, [] => mode.finish
  | mode, position, c :: rest => do
    let (tokens, mode) ← mode.step position c
    let later ← scan mode (position + 1) rest
    .ok (tokens ++ later)

end LexMode

/-- The lexemes of a text with their positions. -/
def tokens (text : String) : Except StrayCharacter (List Token) :=
  LexMode.gap.scan 0 text.toList

end Supercompilation
