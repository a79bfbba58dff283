/-!
# Lines and lists of texts

Texts read from a file or from standard input end their lines with a line feed, whatever the line
ends were. Texts are joined with a separator between neighbours.
-/

namespace Supercompilation.Text

/-- A text followed by others, each with `sep` before it. -/
def followed (sep : String) : String → List String → String
  | start, [] => start
  | start, text :: rest => followed sep (start ++ sep ++ text) rest

/-- The texts one after another, with `sep` between neighbours. -/
def joined (sep : String) : List String → String
  | [] => ""
  | text :: rest => followed sep text rest

/-- Carriage returns, alone or in front of a line feed, become line feeds. -/
def lineFeeds : List Char → List Char
  | [] => []
  | '\r' :: '\n' :: rest => '\n' :: lineFeeds rest
  | '\r' :: rest => '\n' :: lineFeeds rest
  | c :: rest => c :: lineFeeds rest

/-- The text with every line end written as a line feed. -/
def withLineFeeds (text : String) : String := String.ofList (lineFeeds text.toList)

/-- The characters cut at every line feed; the first list is the line under way. -/
def cutLines : List Char → List (List Char)
  | [] => [[]]
  | '\n' :: rest => [] :: cutLines rest
  | c :: rest =>
    match cutLines rest with
    | [] => [[c]]
    | line :: lines => (c :: line) :: lines

/-- The lines of a text without their line feeds; a last line without a line feed counts unless it
is empty. -/
def lines (text : String) : List String :=
  let cut := cutLines text.toList
  (if cut.getLast? = some [] then cut.dropLast else cut).map String.ofList

end Supercompilation.Text
