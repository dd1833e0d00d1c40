/-
The files that a task can see.

The parts of a path stand between its slashes; an empty part counts for nothing. A part `.` stays where it is, a part
`..` leads up, and any other part is a name. Followed from the working directory, or from the root if the path starts
with a slash, the parts lead to a place. Two paths name the same file if they lead to the same place.

A directory exists where it leads to a file; the working directory, the directories up from it and the root are always
there. Every part of a path but the last has to lead into a directory, also a part `.` or `..`, so a path through a
missing directory leads nowhere. Reading and writing answer with the cause when they fail.
-/

namespace PolishCalc.Command

/-! ## Places -/

/-- names from the working directory on, with `..` only in front; behind `/` when they start at the root -/
abbrev Place := List String

namespace Place

def here : Place := []

def root : Place := ["/"]

/-- whether a place lies at the working directory or straight up from it, or is the root -/
def isAbove (p : Place) : Bool := p == root || p.all (· == "..")

/-- the directory around a place; the root has none but itself -/
def up (p : Place) : Place :=
  if p = root then root
  else if p.all (· == "..") then p ++ [".."]
  else p.dropLast

/-- where a part of a path leads from a place -/
def follow (p : Place) (part : String) : Place :=
  if part = "." then p
  else if part = ".." then p.up
  else p ++ [part]

def parts (path : String) : List String := (path.splitOn "/").filter (· != "")

def start (path : String) : Place := if path.startsWith "/" then root else here

/-- the place that a path leads to when all of its parts can be followed -/
def ofPath (path : String) : Place := (parts path).foldl follow (start path)

/-- the most bytes that a name may have -/
def longestName : Nat := 255

/-- the most bytes that a path may have -/
def longestPath : Nat := 4095

/-- whether the last name is too long for a file or a directory -/
def isTooLong (p : Place) : Bool := p.getLast?.any fun name => longestName < name.utf8ByteSize

end Place

/-! ## Files -/

inductive FileError where
  /-- there is no such file, or no directory to put it in -/
  | missing
  /-- the path names a directory -/
  | isDirectory
  /-- the path goes through a file -/
  | notDirectory
  /-- a name on the path is too long, or the path itself -/
  | nameTooLong
  /-- the content is not text -/
  | notText
deriving DecidableEq, Repr

def FileError.text : FileError → String
  | missing => "No such file or directory (os error 2)"
  | isDirectory => "Is a directory (os error 21)"
  | notDirectory => "Not a directory (os error 20)"
  | nameTooLong => "File name too long (os error 36)"
  | notText => "stream did not contain valid UTF-8"

structure Directory where
  files : List (Place × ByteArray)

namespace Directory

def empty : Directory := ⟨[]⟩

/-- the files at the given paths -/
def ofList (files : List (String × ByteArray)) : Directory := ⟨files.map fun f => (Place.ofPath f.1, f.2)⟩

def content? (d : Directory) (p : Place) : Option ByteArray := d.files.lookup p

/-- whether there is a directory at a place: one on the way to a file, or one that is always there -/
def hasDirectory (d : Directory) (p : Place) : Bool :=
  p.isAbove || d.files.any fun f => p.isPrefixOf f.1 && p != f.1

/-- why there is nothing at a place -/
def absence (p : Place) : FileError := if p.isTooLong then .nameTooLong else .missing

def enter (d : Directory) (p : Place) : Except FileError Place :=
  if d.hasDirectory p then .ok p
  else if (d.content? p).isSome then .error .notDirectory
  else .error (absence p)

/-- goes into the directory that each part but the last leads to, and answers with the place the last one leads to -/
def walk (d : Directory) (p : Place) : List String → Except FileError Place
  | [] => .ok p
  | [part] => .ok (p.follow part)
  | part :: next :: rest => do d.walk (← d.enter (p.follow part)) (next :: rest)

/-- the place that a path leads to -/
def reach (d : Directory) (path : String) : Except FileError Place :=
  if path = "" then .error .missing
  else if Place.longestPath < path.utf8ByteSize then .error .nameTooLong
  else d.walk (Place.start path) (Place.parts path)

/-- the bytes of the file at a path; a slash behind the name asks for a directory -/
def bytesAt (d : Directory) (path : String) : Except FileError ByteArray := do
  let p ← d.reach path
  match d.content? p with
  | some bytes => if path.endsWith "/" then .error .notDirectory else .ok bytes
  | none => .error (if d.hasDirectory p then .isDirectory else absence p)

/-- the text of the file at a path -/
def read (d : Directory) (path : String) : Except FileError String := do
  match String.fromUTF8? (← d.bytesAt path) with
  | some text => return text
  | none => throw .notText

/-- the directory with one file more, or with a new content for that file -/
def put (d : Directory) (p : Place) (bytes : ByteArray) : Directory :=
  ⟨(p, bytes) :: d.files.filter fun f => f.1 != p⟩

/-- writes a text to the file at a path; a slash behind the name asks for a directory, even where nothing is -/
def write (d : Directory) (path : String) (text : String) : Except FileError Directory := do
  let p ← d.reach path
  if d.hasDirectory p || path.endsWith "/" then .error .isDirectory
  else if p.isTooLong then .error .nameTooLong
  else .ok (d.put p text.toUTF8)

end Directory

end PolishCalc.Command
