import Parlance.Grammar.Error
import Parlance.Table

/-!
# `Grammar.Files` — paths, and the files that they lead to

A path is a text with slashes. Empty segments and segments `.` count for nothing, except that a path that
starts with `./` keeps that segment when its directory is taken.

## Contents
- **Paths.** `Path.parent?`, `Path.join`, `Path.sibling`.
- **Files.** `FileSystem`, what reading a path gives; `FileSystem.ofTable`, the one with given files, each found at a
  place.
-/

namespace Parlance

namespace Path

/-! ## Paths -/

/-- The segments of a path. -/
def segments (path : String) : List String := (path.toList.splitOn '/').map String.ofList

/-- Whether a segment counts for nothing. -/
def isVoid (segment : String) : Bool := segment.isEmpty || segment == "."

/-- Drops the void segments at the end. -/
def dropVoid (segments : List String) : List String :=
  (segments.reverse.dropWhile isVoid).reverse

/-- Whether segments lead to where they start or to directories around it. -/
def onlyClimbs (segments : List String) : Bool := segments.all fun s => isVoid s || s == ".."

/-- The segments of a directory, given those of a path that does not start with a slash. -/
def parentSegments? : List String → Option (List String)
  | [] => none
  | first :: rest =>
    match dropVoid rest with
    | [] => if first.isEmpty then none else some []
    | kept => some (first :: dropVoid kept.dropLast)

/-- The directory of a path; the empty path and the root have none. -/
def parent? (path : String) : Option String :=
  match segments path with
  | "" :: rest@(_ :: _) =>
    match dropVoid rest with
    | [] => none
    | kept => some ("/" ++ "/".intercalate (dropVoid kept.dropLast))
  | l => (parentSegments? l).map ("/".intercalate ·)

/-- A path inside a directory, unless it starts with a slash. -/
def join (directory path : String) : String :=
  if path.startsWith "/" || directory.isEmpty then path
  else if directory.endsWith "/" then directory ++ path
  else directory ++ "/" ++ path

/-- The path that a file means by a path in its text. -/
def sibling (file path : String) : String :=
  match parent? file with
  | some directory => join directory path
  | none => path

end Path

/-! ## Files -/

/-- What reading a path gives. -/
abbrev FileSystem := String → Except FileError String

namespace FileSystem

/-- What is found outside of the first directory: nothing but the directories around it. -/
def outside (segments : List String) : FileError :=
  if Path.onlyClimbs segments then .isDirectory else .missing

/-- The place that a path leads to from a directory, with its segments. Only directories can be passed. -/
def follow (isFile isDirectory : List String → Bool) (place : List String) :
    List String → Except FileError (List String)
  | [] => .ok place
  | segment :: rest =>
    if !isDirectory place then .error (if isFile place then .notDirectory else .missing)
    else if Path.isVoid segment then follow isFile isDirectory place rest
    else if segment == ".." then
      if place.isEmpty then .error (outside rest) else follow isFile isDirectory place.dropLast rest
    else follow isFile isDirectory (place ++ [segment]) rest

/-- The texts of the given files by their places, in the directories that their paths name. -/
def entries (files : Table String) : List (List String × String) :=
  files.toList.map fun (name, text) => ((Path.segments name).filter fun s => !Path.isVoid s, text)

/-- The text of the file at a place. -/
def textAt? (files : Table String) (place : List String) : Option String :=
  ((entries files).find? fun (name, _) => name == place).map (·.2)

/-- Whether there is a directory at a place. -/
def isDirectoryAt (files : Table String) (place : List String) : Bool :=
  place.isEmpty || (entries files).any fun (name, _) => place.isPrefixOf name && place != name

/-- The place that a path leads to. -/
def locate (files : Table String) (path : String) : Except FileError (List String) :=
  if path.isEmpty then .error .missing
  else if path.startsWith "/" then .error (outside (Path.segments path))
  else follow (fun place => (textAt? files place).isSome) (isDirectoryAt files) [] (Path.segments path)

/-- The given files. -/
def ofTable (files : Table String) : FileSystem := fun path =>
  match locate files path with
  | .error cause => .error cause
  | .ok place =>
    match textAt? files place with
    | some text => .ok text
    | none => .error (if isDirectoryAt files place then .isDirectory else .missing)

end FileSystem

end Parlance
