import Supercompilation.Text.Lines
import Supercompilation.Text.Quoted

/-!
# Paths

A path is a text with slashes between its parts. In its normal form empty parts and parts that are a
single dot are left out, while parts of two dots stay. Two slashes at the start are kept, three or
more count as one.
-/

namespace Supercompilation

namespace Path

/-- Whether a path has a null character in it, which no path may have. -/
def hasNull (path : String) : Bool := path.toList.contains '\x00'

/-- The parts between the slashes. -/
def cut : List Char → List (List Char)
  | [] => [[]]
  | '/' :: rest => [] :: cut rest
  | c :: rest =>
    match cut rest with
    | [] => [[c]]
    | part :: parts => (c :: part) :: parts

/-- The parts of a path. -/
def parts (path : String) : List String := (cut path.toList).map String.ofList

/-- The parts that lead somewhere: neither empty nor a single dot. -/
def properParts (path : String) : List String :=
  (parts path).filter fun part => part ≠ "" && part ≠ "."

/-- The slashes that a path starts with, in normal form. -/
def rootText (path : String) : String :=
  match (path.toList.takeWhile fun c => c = '/').length with
  | 0 => ""
  | 2 => "//"
  | _ => "/"

/-- Whether a path does not start from the folder at hand. -/
def isAbsolute (path : String) : Bool := rootText path ≠ ""

/-- The path in normal form. -/
def normal (path : String) : String :=
  let text := rootText path ++ Text.joined "/" (properParts path)
  if text = "" then "." else text

/-- The path up to its last slash, and what stands behind it. Slashes at the end of the first part
are dropped, unless it has nothing else. -/
def split (path : String) : String × String :=
  let reversed := path.toList.reverse
  let last := (reversed.takeWhile fun c => c ≠ '/').reverse
  let before := reversed.dropWhile fun c => c ≠ '/'
  let trimmed := before.dropWhile fun c => c = '/'
  let head := if trimmed.isEmpty then before.reverse else trimmed.reverse
  (String.ofList head, String.ofList last)

/-- A name in a folder. -/
def join (folder name : String) : String :=
  if name.toList.head? = some '/' then name
  else if folder = "" || folder.toList.getLast? = some '/' then folder ++ name
  else folder ++ "/" ++ name

end Path

/-- Why a file cannot be read. -/
inductive FileProblem where
  /-- There is no such file. -/
  | missing
  /-- A part of the path before the last is a file. -/
  | notFolder
  /-- The path leads to a folder. -/
  | isFolder
  /-- There is a null character in the path. -/
  | badPath
  /-- What the file holds is no text. -/
  | undecodable (details : String)
  deriving DecidableEq, Repr

/-- What is reported about a path that cannot be read. -/
def FileProblem.message (problem : FileProblem) (path : String) : String :=
  let place := Text.quoted (Path.normal path)
  match problem with
  | .missing => "[Errno 2] No such file or directory: " ++ place
  | .notFolder => "[Errno 20] Not a directory: " ++ place
  | .isFolder => "[Errno 21] Is a directory: " ++ place
  | .badPath => "embedded null byte"
  | .undecodable details => details

/-- Whether the system reports a problem. It does not see a path that cannot be one, and it does not
know what a text is. -/
def FileProblem.reported : FileProblem → Bool
  | .missing | .notFolder | .isFolder => true
  | .badPath | .undecodable _ => false

/-- How the file at a path is read. -/
abbrev FileReader := String → Except FileProblem String

end Supercompilation
