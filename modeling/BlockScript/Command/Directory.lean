/-
BlockScript/Command/Directory.lean

Paths on the command line: how one is shown, and which file of a working
directory it leads to.
-/
import BlockScript.Text.Blank

namespace BlockScript

/-- The components of a path between its slashes. -/
def pathComponents (path : String) : List String :=
  (pieces (· == '/') path.toList).map String.ofList

/-- A path as it is shown: without empty components and single dots.  Two
slashes in front stay, any other number of them is one. -/
def displayPath (path : String) : String :=
  let slashes := (path.toList.takeWhile (· == '/')).length
  let front := if slashes = 0 then "" else if slashes = 2 then "//" else "/"
  let shown := front ++ "/".intercalate ((pathComponents path).filter fun c => c ≠ "" && c ≠ ".")
  if shown = "" then "." else shown

/-- The files and folders in and below a working directory, each by its
components from the inside out. -/
structure Directory where
  files : List (List String × ByteArray)
  folders : List (List String)

namespace Directory

/-- A working directory from the paths of its files and folders. -/
def ofPaths (files : List (String × ByteArray)) (folders : List String) : Directory where
  files := files.map fun (path, bytes) => ((pathComponents path).reverse, bytes)
  folders := folders.map fun path => (pathComponents path).reverse

/-- The file that components lead to from a place. -/
def locate (d : Directory) (place : List String) : List String → Option ByteArray
  | [] => none
  | c :: rest =>
    if c = "" || c = "." then d.locate place rest
    else if c = ".." then
      match place with
      | [] => none
      | _ :: up => d.locate up rest
    else if d.folders.contains (c :: place) then d.locate (c :: place) rest
    else if rest = [] then d.files.lookup (c :: place)
    else none

/-- The file that a relative path leads to. -/
def file? (d : Directory) (path : String) : Option ByteArray :=
  if path.toList.head? = some '/' then none else d.locate [] (pathComponents path)

end Directory

end BlockScript
