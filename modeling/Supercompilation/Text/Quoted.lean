import Supercompilation.Text.Printable

/-!
# Quoted texts

Messages show a piece of input between quotation marks. Apostrophes are used unless the text holds
an apostrophe and no double quotation mark. Inside, the mark in use and the backslash get a
backslash, and what cannot be printed is written as an escape.
-/

namespace Supercompilation.Text

/-- The apostrophe. -/
def apostrophe : Char := Char.ofNat 0x27

/-- The double quotation mark. -/
def doubleMark : Char := Char.ofNat 0x22

/-- A number in `width` small hexadecimal digits. -/
def hexadecimal (width n : Nat) : List Char :=
  match width with
  | 0 => []
  | width + 1 => hexadecimal width (n / 16) ++ [Nat.digitChar (n % 16)]

/-- The escape of a code point by its number: two, four or eight hexadecimal digits. -/
def codeEscape (code : Nat) : List Char :=
  if code < 0x100 then '\\' :: 'x' :: hexadecimal 2 code
  else if code < 0x10000 then '\\' :: 'u' :: hexadecimal 4 code
  else '\\' :: 'U' :: hexadecimal 8 code

/-- One character between quotation marks `mark`. -/
def quotedChar (mark c : Char) : List Char :=
  if c = mark || c = '\\' then ['\\', c]
  else if c = '\n' then ['\\', 'n']
  else if c = '\r' then ['\\', 'r']
  else if c = '\t' then ['\\', 't']
  else if isPrintable c then [c]
  else codeEscape c.toNat

/-- The mark that quotes these characters. -/
def markFor (cs : List Char) : Char :=
  if cs.contains apostrophe && !cs.contains doubleMark then doubleMark else apostrophe

/-- The text between quotation marks. -/
def quoted (text : String) : String :=
  let cs := text.toList
  let mark := markFor cs
  String.ofList (mark :: cs.flatMap (quotedChar mark) ++ [mark])

end Supercompilation.Text
