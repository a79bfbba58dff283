import Supercompilation.Folder.Path

/-!
# Folders

A folder is given by the files below it, each with its path and its text. The folders on the way to
a file are there without being listed. Nothing is known of what lies outside, except that a way up
leads to a folder.
-/

namespace Supercompilation

/-- Files by their paths. -/
structure Folder where
  /-- The paths, as parts, and the texts. -/
  files : List (List String × String) := []

namespace Folder

/-- The folder of some files. -/
def ofFiles (files : List (String × String)) : Folder :=
  ⟨files.map fun (path, text) => (Path.properParts path, text)⟩

/-- A place that a path can lead to. -/
inductive Place where
  /-- A folder below this one, by the parts of its path. -/
  | inside (parts : List String)
  /-- A folder elsewhere. -/
  | outside
  deriving DecidableEq, Repr

/-- The folder above a place. -/
def Place.up : Place → Place
  | .inside [] => .outside
  | .inside parts => .inside parts.dropLast
  | .outside => .outside

/-- What a path leads to. -/
inductive Found where
  /-- A folder. -/
  | folder (place : Place)
  /-- A file with its text. -/
  | file (text : String)

/-- Whether some parts lead to a folder. -/
def hasFolder (folder : Folder) (parts : List String) : Bool :=
  parts.isEmpty || folder.files.any fun (path, _) => parts.isPrefixOf path && parts ≠ path

/-- The text of the file that some parts lead to. -/
def fileAt? (folder : Folder) (parts : List String) : Option String :=
  (folder.files.find? fun (path, _) => path = parts).map Prod.snd

/-- Follow the parts of a path from a place. -/
def follow (folder : Folder) : Place → List String → Except FileProblem Found
  | place, [] => .ok (.folder place)
  | place, part :: rest =>
    if part = "" || part = "." then follow folder place rest
    else if part = ".." then follow folder place.up rest
    else
      match place with
      | .outside => .error .missing
      | .inside parts =>
        let there := parts ++ [part]
        if folder.hasFolder there then follow folder (.inside there) rest
        else
          match folder.fileAt? there with
          | none => .error .missing
          | some text => if rest.isEmpty then .ok (.file text) else .error .notFolder

/-- What a path leads to. -/
def find (folder : Folder) (path : String) : Except FileProblem Found :=
  folder.follow (if Path.isAbsolute path then .outside else .inside []) (Path.parts path)

/-- Whether a path leads to a folder. -/
def isFolder (folder : Folder) (path : String) : Bool :=
  match folder.find path with
  | .ok (.folder _) => true
  | _ => false

/-- Whether a path leads anywhere. -/
def leads (folder : Folder) (path : String) : Bool := (folder.find path).toOption.isSome

/-- Read the file that a path, in normal form, leads to. Lines end with line feeds. -/
def read (folder : Folder) : FileReader := fun path =>
  if Path.hasNull path then .error .badPath
  else
    match folder.find (Path.normal path) with
    | .error problem => .error problem
    | .ok (.folder _) => .error .isFolder
    | .ok (.file text) => .ok (Text.withLineFeeds text)

/-- The names in the folder that a path leads to, each once. -/
def names (folder : Folder) (path : String) : List String :=
  match folder.find path with
  | .ok (.folder (.inside parts)) =>
    (folder.files.filterMap fun (file, _) =>
      if parts.isPrefixOf file then (file.drop parts.length).head? else none).eraseDups
  | _ => []

end Folder

end Supercompilation
