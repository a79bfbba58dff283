import Supercompilation.Source.Token

/-!
# Parse errors

A text that is not in the language is refused with what is wrong and where. The place is given as
the number of characters before it, and also as a line and a column, both counted from one, with an
excerpt of ten characters.
-/

namespace Supercompilation

/-- What the grammar asks for at some place. -/
inductive Expected where
  /-- A punctuation mark. -/
  | mark (mark : Mark)
  /-- A variable. -/
  | variableName
  /-- A variable, and no opening parenthesis behind it. -/
  | variableNotCall
  /-- A constructor with its fields. -/
  | constructorPattern
  /-- A term. -/
  | expression
  /-- A function name in front of an opening parenthesis. -/
  | functionName
  /-- A rule. -/
  | rule
  /-- Nothing more. -/
  | endOfInput
  deriving DecidableEq, Repr

/-- The words for what is asked for. -/
def Expected.words : Expected → String
  | .mark sign => Text.quoted sign.text
  | .variableName => "variable name"
  | .variableNotCall => "variable name (not a call)"
  | .constructorPattern => "constructor pattern"
  | .expression => "expression"
  | .functionName => "f- or g-function name before '('"
  | .rule => "f-rule or g-rule"
  | .endOfInput => "end of input"

/-- What is wrong with a text. -/
inductive ParseProblem where
  /-- A character that starts no lexeme. -/
  | unexpectedCharacter (c : Char)
  /-- The grammar asks for one thing and the text has another, or ends. -/
  | mismatch (expected : Expected) (found : Option Lexeme)
  /-- A complaint in words of its own. -/
  | complaint (words : String)
  deriving DecidableEq, Repr

/-- The words for a problem. -/
def ParseProblem.words : ParseProblem → String
  | .unexpectedCharacter c => "Unexpected character " ++ Text.quoted (String.singleton c)
  | .mismatch expected found =>
    "Expected " ++ expected.words ++ ", found " ++
      match found with
      | none => "end of input"
      | some lexeme => Text.quoted lexeme.text
  | .complaint words => words

/-- A problem at a place of a text. -/
structure ParseError where
  /-- What is wrong. -/
  problem : ParseProblem
  /-- The text. -/
  text : String := ""
  /-- The number of characters before the place; a negative number counts from the end. -/
  position : Int := 0
  deriving DecidableEq

namespace ParseError

/-- A place in a text of some length as a number of characters from its start, at most the
length. -/
def placeIn (length : Nat) (position : Int) : Nat :=
  if position < 0 then (position + length).toNat else min position.toNat length

/-- The number of characters up to and with the last line feed among some characters. -/
def lineStart (cs : List Char) : Nat :=
  (cs.reverse.dropWhile fun c => c != '\n').length

/-- The characters before the place. -/
def before (e : ParseError) : List Char :=
  e.text.toList.take (placeIn e.text.toList.length e.position)

/-- The line of the place. -/
def line (e : ParseError) : Nat := e.before.count '\n' + 1

/-- The column of the place. -/
def column (e : ParseError) : Int := e.position - lineStart e.before + 1

/-- Ten characters from the place on, with blanks for line feeds. -/
def excerpt (e : ParseError) : String :=
  let cs := e.text.toList
  let start := placeIn cs.length e.position
  let stop := placeIn cs.length (e.position + 10)
  String.ofList (((cs.take stop).drop start).map fun c => if c = '\n' then ' ' else c)

/-- The problem and its place in words. -/
def message (e : ParseError) : String :=
  e.problem.words ++ " at line " ++ toString e.line ++ ", column " ++ toString e.column ++
    " (near '" ++ e.excerpt ++ " ...')"

end ParseError

end Supercompilation
