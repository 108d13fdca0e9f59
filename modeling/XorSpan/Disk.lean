/-
The files a program meets: what a path leads to, and whether a file can
be written there. How a path is looked up is left to whoever provides
the disk; `Tree` is a disk held in memory.

A path is written in its normal form in messages about reading: empty
and `.` components dropped, `..` kept, the empty path as `.`.

A name has at most 255 bytes and a path at most 4095. No path holds a NUL
character; one that does is refused before anything else is looked at.
-/
import XorSpan.Text.Quoted

namespace XorSpan

/-- Why a file cannot be opened. -/
inductive DiskProblem where
  | absent
  /-- The path goes on behind a file. -/
  | blocked
  | directory
  /-- A name on the path, or the whole path, is too long. -/
  | tooLong
  /-- The path holds a NUL character. -/
  | nul
deriving DecidableEq, Repr

/-- What a path leads to. The bytes of a file are read when asked for;
its size is known beforehand. -/
inductive Found where
  | file (size : Nat) (read : Unit → List UInt8)
  | directory
  | nothing (why : DiskProblem)

structure DiskError where
  problem : DiskProblem
  path : String
deriving DecidableEq, Repr

/-- A problem that the system reports: its number and its text. -/
def DiskError.report (e : DiskError) (number : Nat) (text : String) : String :=
  s!"[Errno {number}] {text}: {Text.quoted e.path}"

def DiskError.message (e : DiskError) : String :=
  match e.problem with
  | .absent => e.report 2 "No such file or directory"
  | .blocked => e.report 20 "Not a directory"
  | .directory => e.report 21 "Is a directory"
  | .tooLong => e.report 36 "File name too long"
  | .nul => "embedded null byte"

/-- What there is to find, and to write to, on paths that can be
looked up at all. -/
structure Disk where
  look : String → Found
  /-- Why no file can be written at a path; `none` if one can. -/
  refusal : String → Option DiskProblem

-- ================================================================= paths

namespace Path

/-- The components that name something. -/
def components (path : String) : List String :=
  (path.splitOn "/").filter fun c => c != "" && c != "."

/-- The slashes that a normal path begins with: two if the path begins
with exactly two, one if with any other number, none if with none. -/
def anchor (path : String) : String :=
  match (path.toList.takeWhile (· == '/')).length with
  | 0 => ""
  | 2 => "//"
  | _ => "/"

def normal (path : String) : String :=
  let text := anchor path ++ "/".intercalate (components path)
  if text.isEmpty then "." else text

def nameLimit : Nat := 255

/-- The most bytes of a path. -/
def limit : Nat := 4095

/-- What is wrong with a path wherever it leads. -/
def problem? (path : String) : Option DiskProblem :=
  if path.toList.contains '\x00' then some .nul
  else if path.utf8ByteSize > limit then some .tooLong
  else none

end Path

namespace Disk

/-- What a path leads to. -/
def find (disk : Disk) (path : String) : Found :=
  match Path.problem? path with
  | some problem => .nothing problem
  | none => disk.look path

/-- Why no file can be written at a path. -/
def obstacle? (disk : Disk) (path : String) : Option DiskProblem :=
  (Path.problem? path).or (disk.refusal path)

end Disk

-- ================================================================= trees

/-- Files and directories by their components below the current
directory. Directories on the way to a file need no entry. -/
structure Tree where
  files : List (List String × Nat × (Unit → List UInt8))
  directories : List (List String)

namespace Tree

/-- A place that a look-up has come to. -/
inductive Place where
  /-- These names down from the current directory. -/
  | below (names : List String)
  /-- A directory that the current one is in, the topmost included. -/
  | above
  /-- Somewhere else, where nothing is known. -/
  | elsewhere

/-- One level up. -/
def Place.up : Place → Place
  | .below [] => .above
  | .below names => .below names.dropLast
  | .above => .above
  | .elsewhere => .elsewhere

/-- One name down. -/
def Place.down (name : String) : Place → Place
  | .below names => .below (names ++ [name])
  | _ => .elsewhere

/-- Where a component leads from a directory; an empty one leads
nowhere. -/
def Place.go (place : Place) (name : String) : Place :=
  if name = "" ∨ name = "." then place
  else if name = ".." then place.up
  else place.down name

/-- Where a path starts. -/
def Place.start (path : String) : Place :=
  if path.startsWith "/" then .above else .below []

/-- What is at a place. -/
def lookAt (t : Tree) : Place → Found
  | .above => .directory
  | .elsewhere => .nothing .absent
  | .below names =>
      match t.files.find? (·.1 == names) with
      | some (_, size, read) => .file size read
      | none =>
          let leads (path : List String) : Bool := names.isPrefixOf path
          if names.isEmpty || t.directories.any leads ||
            t.files.any (leads ·.1) then .directory
          else .nothing .absent

/-- Follows components from a place. Only from a directory does any
component lead on, an empty one included, and there none that is too
long. -/
def follow (t : Tree) (place : Place) : List String → Found
  | [] => t.lookAt place
  | name :: names =>
      match t.lookAt place with
      | .directory =>
          if name.utf8ByteSize > Path.nameLimit then .nothing .tooLong
          else t.follow (place.go name) names
      | .file .. => .nothing .blocked
      | .nothing problem => .nothing problem

/-- What a path leads to. -/
def look (t : Tree) (path : String) : Found :=
  if path.isEmpty then .nothing .absent
  else t.follow (.start path) (path.splitOn "/")

/-- A file can be written over a file, or where there is nothing in a
directory. A slash at the end asks for a directory, which writing does
not make. -/
def refusal (t : Tree) (path : String) : Option DiskProblem :=
  let names := path.splitOn "/"
  let plain := (names.reverse.dropWhile (· == "")).reverse
  if path.isEmpty then some .absent
  else match t.follow (.start path) plain.dropLast with
    | .nothing problem => some problem
    | .file .. => some .blocked
    | .directory =>
        if plain.length < names.length then some .directory
        else match t.follow (.start path) plain with
          | .file .. | .nothing .absent => none
          | .directory => some .directory
          | .nothing problem => some problem

/-- The tree after a file has been written where one can be. -/
def write (t : Tree) (path : String) (contents : List UInt8) : Tree :=
  match (path.splitOn "/").foldl Place.go (.start path) with
  | .below names =>
      { t with
        files := (names, contents.length, fun () => contents) :: t.files }
  | _ => t

def disk (t : Tree) : Disk := ⟨t.look, t.refusal⟩

end Tree

end XorSpan
