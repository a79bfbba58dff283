import Supercompilation.Folder.Basic

/-!
# Path patterns

In a path pattern a star stands for any characters, a question mark for one, and a set in brackets
for one of its characters, or for any other if the set starts with an exclamation mark. A bracket
that is not closed stands for itself. Names that start with a dot are found only by patterns that
do.
-/

namespace Supercompilation

/-- A piece of a name pattern. -/
inductive GlobPiece where
  /-- Any characters. -/
  | star
  /-- One character. -/
  | any
  /-- This character. -/
  | char (c : Char)
  /-- A character in one of the ranges, or in none of them. -/
  | set (inverted : Bool) (ranges : List (Char × Char))
  deriving DecidableEq, Repr

namespace GlobPiece

/-- The ranges of a set: a hyphen between two characters makes a range. -/
def ranges : List Char → List (Char × Char)
  | first :: '-' :: last :: rest => (first, last) :: ranges rest
  | c :: rest => (c, c) :: ranges rest
  | [] => []

/-- The characters of a set up to its closing bracket, and what follows. A closing bracket at the
start of the set belongs to it. -/
def setBody (cs : List Char) : Option (List Char × List Char) :=
  let (mark, cs) :=
    match cs with
    | '!' :: rest => (['!'], rest)
    | cs => ([], cs)
  let (bracket, cs) :=
    match cs with
    | ']' :: rest => ([']'], rest)
    | cs => ([], cs)
  let body := cs.takeWhile fun c => c ≠ ']'
  match cs.dropWhile fun c => c ≠ ']' with
  | [] => none
  | _ :: rest => some (mark ++ bracket ++ body, rest)

/-- Leave out the ranges at the start of a set that hold no character. -/
def dropEmptyRanges : List Char → List Char
  | first :: '-' :: last :: rest =>
    if last < first then dropEmptyRanges rest else first :: '-' :: last :: rest
  | cs => cs

/-- The set of its characters. A range without characters is as good as not written, so an
exclamation mark behind it stands at the start. -/
def ofSet (cs : List Char) : GlobPiece :=
  match if cs.head? = some '!' then cs else dropEmptyRanges cs with
  | '!' :: rest => set true (ranges rest)
  | cs => set false (ranges cs)

/-- The pieces of a name pattern. Every piece takes at least one character, so there are at most as
many pieces as characters. -/
def pieces : Nat → List Char → List GlobPiece
  | 0, _ => []
  | _ + 1, [] => []
  | count + 1, '*' :: rest => star :: pieces count rest
  | count + 1, '?' :: rest => any :: pieces count rest
  | count + 1, '[' :: rest =>
    match setBody rest with
    | none => char '[' :: pieces count rest
    | some (body, behind) => ofSet body :: pieces count behind
  | count + 1, c :: rest => char c :: pieces count rest

/-- Whether a piece stands for a character. -/
def accepts : GlobPiece → Char → Bool
  | star, _ => true
  | any, _ => true
  | char c, d => c = d
  | set inverted ranges, c =>
    (ranges.any fun (first, last) => first ≤ c && c ≤ last) != inverted

/-- All ends of a list, the list itself first. -/
def ends : List Char → List (List Char)
  | [] => [[]]
  | c :: rest => (c :: rest) :: ends rest

/-- What may be left of a name behind a piece, given what may be left before it. Both lists hold
ends of one name, longest first, so a star leaves the ends of the first. -/
def after (rests : List (List Char)) : GlobPiece → List (List Char)
  | star => (rests.head?.map ends).getD []
  | piece => rests.filterMap fun
    | [] => none
    | c :: rest => if piece.accepts c then some rest else none

/-- Whether the pieces stand for all the characters. -/
def fits (pieces : List GlobPiece) (cs : List Char) : Bool :=
  (pieces.foldl after [cs]).any List.isEmpty

end GlobPiece

namespace Glob

/-- Whether a text has a character with a meaning of its own in patterns. -/
def hasMagic (text : String) : Bool :=
  text.toList.any fun c => c = '*' || c = '?' || c = '['

/-- Whether a name is hidden. -/
def isHidden (name : String) : Bool := name.toList.head? = some '.'

/-- Whether a name fits a name pattern. -/
def nameFits (pattern name : String) : Bool :=
  let cs := pattern.toList
  (isHidden pattern || !isHidden name) && GlobPiece.fits (GlobPiece.pieces cs.length cs) name.toList

/-- The names in a folder that fit the last part of a pattern. A last part without special
characters fits if it is there, an empty one if the path before it is a folder. -/
def namesIn (folder : Folder) (foldersOnly : Bool) (path last : String) : List String :=
  if hasMagic last then
    (folder.names path).filter fun name =>
      nameFits last name && (!foldersOnly || folder.isFolder (Path.join path name))
  else if last = "" then if folder.isFolder path then [""] else []
  else if folder.leads (Path.join path last) then [last] else []

/-- The paths that fit a pattern of at most some parts. -/
def pathsWithin (folder : Folder) : Nat → Bool → String → List String
  | 0, _, _ => []
  | levels + 1, foldersOnly, pattern =>
    let (before, last) := Path.split pattern
    if before = "" then
      namesIn folder foldersOnly "" last
    else
      let folders :=
        if before ≠ pattern && hasMagic before then pathsWithin folder levels true before
        else [before]
      folders.flatMap fun path => (namesIn folder foldersOnly path last).map (Path.join path)

/-- The paths that fit a pattern, in order. -/
def paths (folder : Folder) (pattern : String) : List String :=
  (pathsWithin folder (pattern.toList.length + 1) false pattern).mergeSort fun a b => a ≤ b

end Glob

end Supercompilation
