import Supercompilation.Text.Quoted
import Supercompilation.Text.Lines

/-!
# Structured documents

Terms, trees and traces can be written as documents: records with named fields in a fixed order,
lists, texts, whole numbers and a null value. A document is laid out in JSON with two blanks of
indentation per level and in ASCII only.
-/

namespace Supercompilation

/-- A document. -/
inductive Json where
  /-- The absent value. -/
  | null
  /-- A whole number. -/
  | int (n : Int)
  /-- A text. -/
  | text (s : String)
  /-- A list of documents. -/
  | list (items : List Json)
  /-- Named fields in the order of writing. -/
  | record (fields : List (String × Json))

namespace Json

/-- The escape of a 16-bit unit. -/
def unitEscape (unit : Nat) : List Char := '\\' :: 'u' :: Text.hexadecimal 4 unit

/-- One character of a text. Characters outside ASCII become escapes of their 16-bit units. -/
def escapedChar (c : Char) : List Char :=
  if c = Text.doubleMark || c = '\\' then ['\\', c]
  else if c = '\n' then ['\\', 'n']
  else if c = '\r' then ['\\', 'r']
  else if c = '\t' then ['\\', 't']
  else if c.toNat = 0xc then ['\\', 'f']
  else if c.toNat = 0x8 then ['\\', 'b']
  else if 0x20 ≤ c.toNat && c.toNat ≤ 0x7e then [c]
  else if c.toNat < 0x10000 then unitEscape c.toNat
  else
    let above := c.toNat - 0x10000
    unitEscape (0xd800 + above / 0x400) ++ unitEscape (0xdc00 + above % 0x400)

/-- A text between quotation marks. -/
def quotedText (s : String) : String :=
  String.ofList (Text.doubleMark :: s.toList.flatMap escapedChar ++ [Text.doubleMark])

/-- A line feed and the blanks of a level. -/
def newLine (level : Nat) : String := String.ofList ('\n' :: List.replicate (2 * level) ' ')

/-- The parts of a list or record on lines of their own between two brackets. -/
def block (opening closing : String) (level : Nat) (parts : List String) : String :=
  if parts.isEmpty then opening ++ closing
  else
    opening ++ newLine (level + 1) ++ Text.joined ("," ++ newLine (level + 1)) parts ++
      newLine level ++ closing

mutual

/-- The document as it stands at a level of indentation. -/
def renderAt (level : Nat) : Json → String
  | .null => "null"
  | .int n => toString n
  | .text s => quotedText s
  | .list items => block "[" "]" level (itemsAt (level + 1) items)
  | .record fields => block "\x7b" "\x7d" level (fieldsAt (level + 1) fields)

/-- The items of a list. -/
def itemsAt (level : Nat) : List Json → List String
  | [] => []
  | item :: rest => renderAt level item :: itemsAt level rest

/-- The fields of a record. -/
def fieldsAt (level : Nat) : List (String × Json) → List String
  | [] => []
  | (name, value) :: rest =>
    (quotedText name ++ ": " ++ renderAt level value) :: fieldsAt level rest

end

/-- The text of a document. -/
def render (document : Json) : String := renderAt 0 document

end Json

end Supercompilation
