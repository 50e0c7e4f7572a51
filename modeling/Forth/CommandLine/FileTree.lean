-- SUMMARY: A directory of files held in memory, and how paths are followed in it.
import Forth.CommandLine

/-!
# File trees

A file tree is a working directory with the files below it. A path is followed
from component to component. An empty component and `.` stay where they are, and
`..` goes up; each needs a directory to stand in. Nothing is known of what lies
outside of the working directory, so no name is found there.
-/

namespace Forth.CommandLine

/-- Files by the components of their paths from the working directory. A
    directory is there if it is the working directory or a file lies below it. -/
structure FileTree where
  files : List (List String × ByteArray) := []
  deriving Inhabited

namespace FileTree

/-- The parts of a list between its slashes. -/
def split : List Char → List (List Char)
  | [] => [[]]
  | c :: cs =>
    if c = '/' then
      [] :: split cs
    else
      match split cs with
      | [] => [[c]]
      | part :: parts => (c :: part) :: parts

def components (path : String) : List String :=
  (split path.toList).map String.ofList

/-- The file tree that holds files with the given paths. -/
def ofFiles (files : List (String × ByteArray)) : FileTree :=
  ⟨files.map fun (path, content) =>
    ((components path).filter fun c => c ≠ "" && c ≠ ".", content)⟩

def file? (t : FileTree) (path : List String) : Option ByteArray :=
  (t.files.find? (·.1 = path)).map (·.2)

def isDirectory (t : FileTree) (path : List String) : Bool :=
  path.isEmpty || t.files.any fun (file, _) => path.length < file.length && path.isPrefixOf file

/-- Where a path has led so far. -/
inductive Place where
  | inside (path : List String)
  | outside
  deriving DecidableEq, Repr

def follow (t : FileTree) (place : Place) (component : String) : Except FileError Place :=
  match place with
  | .outside => if component ∈ ["", ".", ".."] then .ok .outside else .error .notFound
  | .inside path =>
    if !t.isDirectory path then
      .error .notDirectory
    else if component = "" ∨ component = "." then
      .ok place
    else if component = ".." then
      .ok (if path.isEmpty then .outside else .inside path.dropLast)
    else
      let path := path ++ [component]
      if (t.file? path).isSome || t.isDirectory path then .ok (.inside path) else .error .notFound

/-- The content of the file that a path leads to. -/
def read (t : FileTree) (path : String) : Except FileError ByteArray := do
  if path = "" then throw .notFound
  let start := if path.toList.head? = some '/' then Place.outside else Place.inside []
  match ← (components path).foldlM t.follow start with
  | .inside path =>
    match t.file? path with
    | some content => return content
    | none => throw .isDirectory
  | .outside => throw .isDirectory

def host (t : FileTree) (bootstrap : Option String) (input : ByteArray) : Host Id where
  bootstrap
  readFile path := t.read path
  readInput := pure (.ok input)

end FileTree

end Forth.CommandLine
