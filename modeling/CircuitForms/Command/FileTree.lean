import CircuitForms.Text.Join
import CircuitForms.Text.Split

/-! # Files in memory

A tree of text files with the directories they are in. A place is the row of
names that leads to it from the root. Paths are followed part by part, from
the root or from the working directory.
-/

namespace CircuitForms.Command

/-- The files of a tree by their places. -/
abbrev FileTree := List (List String × String)

namespace FileTree

/-- The working directory. No path can spell its own name. -/
def home : List String := ["tmp", "/"]

/-- The places where texts are lost. -/
def sinks : List (List String) :=
  [["dev", "null"], ["dev", "zero"], ["dev", "random"], ["dev", "urandom"]]

/-- A place with no room for any text. -/
def full : List String := ["dev", "full"]

/-- The place through which nothing comes in. -/
def input : List String := ["dev", "stdin"]

/-- The place of what is printed. -/
def output : List String := ["dev", "stdout"]

/-- The place of complaints. -/
def complaints : List String := ["dev", "stderr"]

/-- The places that are files without a text of their own. -/
def devices : List (List String) := sinks ++ [full, input, output, complaints]

/-- Directories that are there without a file in them. -/
def standing : List (List String) :=
  [home, ["bin"], ["boot"], ["dev", "fd"], ["dev", "pts"], ["dev", "shm"], ["etc"], ["home"],
    ["lib"], ["media"], ["mnt"], ["opt"], ["proc"], ["root"], ["run"], ["sbin"], ["srv"], ["sys"],
    ["usr", "bin"], ["usr", "lib"], ["usr", "local"], ["usr", "share"], ["var", "lib"],
    ["var", "log"], ["var", "tmp"]]

/-- What stands at a place. -/
inductive Entry where
  | file (text : String)
  | directory
  | absent
  deriving DecidableEq, Repr

def entry (t : FileTree) (place : List String) : Entry :=
  if place ∈ devices then .file ""
  else match t.lookup place with
    | some text => .file text
    | none =>
      if (standing ++ t.map (·.1.dropLast)).any place.isPrefixOf then .directory else .absent

inductive Fault where
  | notFound
  | notDirectory
  | isDirectory
  | noSpace
  | tooLong
  deriving DecidableEq, Repr

def Fault.message : Fault → String
  | notFound => "No such file or directory (os error 2)"
  | notDirectory => "Not a directory (os error 20)"
  | isDirectory => "Is a directory (os error 21)"
  | noSpace => "No space left on device (os error 28)"
  | tooLong => "File name too long (os error 36)"

/-- The greatest number of bytes in a name. -/
def longestName : Nat := 255

/-- The greatest number of bytes in a path. -/
def longestPath : Nat := 4095

/-- Sees to it that a place is a directory. -/
def enter (t : FileTree) (place : List String) : Except Fault Unit :=
  match t.entry place with
  | .absent => .error .notFound
  | .file _ => .error .notDirectory
  | .directory => .ok ()

/-- Where a part of a path leads from a directory. The root is its own parent. -/
def step (place : List String) (part : String) : Except Fault (List String) :=
  if part = "" ∨ part = "." then .ok place
  else if part = ".." then .ok place.dropLast
  else if longestName < part.utf8ByteSize then .error .tooLong
  else .ok (place ++ [part])

/-- The place that parts of a path lead to. All but the last one lead to directories. -/
def walk (t : FileTree) : List String → List String → Except Fault (List String)
  | place, [] => .ok place
  | place, part :: rest => do
    t.enter place
    walk t (← step place part) rest

/-- Where a path starts, and its parts. -/
def parts (path : String) : Except Fault (List String × List String) :=
  if path.isEmpty then .error .notFound
  else if longestPath < path.utf8ByteSize then .error .tooLong
  else match path.toList with
    | '/' :: cs => .ok ([], (Text.pieces '/' cs).map String.ofList)
    | cs => .ok (home, (Text.pieces '/' cs).map String.ofList)

/-- The place of a path. -/
def place (t : FileTree) (path : String) : Except Fault (List String) := do
  let (start, parts) ← parts path
  t.walk start parts

/-- The text of the file under a path. -/
def read (t : FileTree) (path : String) : Except Fault String := do
  match t.entry (← t.place path) with
  | .file text => return text
  | .directory => throw .isDirectory
  | .absent => throw .notFound

/-- Whether there is something under a path. -/
def holds (t : FileTree) (path : String) : Bool :=
  match t.place path with
  | .ok place => t.entry place != .absent
  | .error _ => false

/-- A path without the slashes at its end. -/
def withoutSlashes (path : String) : String :=
  String.ofList (path.toList.reverse.dropWhile (· == '/')).reverse

/-- The tree with a text at a place. -/
def put (t : FileTree) (place : List String) (text : String) : Except Fault FileTree :=
  match t.entry place with
  | .directory => .error .isDirectory
  | .absent => .ok (t ++ [(place, text)])
  | .file _ =>
    if place = full then .error .noSpace
    else .ok (t.map fun (p, old) => (p, if p = place then text else old))

/-- The place that a text for a path is put at. A path that ends in a slash or in dots is that of a
directory. -/
def target (t : FileTree) (path : String) : Except Fault (List String) := do
  let (start, parts) ← parts path
  let bare := withoutSlashes path
  let names := parts.take (parts.length - (path.length - bare.length))
  let directory ← t.walk start names.dropLast
  t.enter directory
  let name := names.getLast?.getD ""
  if bare != path || name ∈ ["", ".", ".."] then throw .isDirectory
  else step directory name

/-- The tree of some files by their paths from the working directory. -/
def ofHome (files : List (String × String)) : FileTree :=
  files.map fun (path, text) =>
    (home ++ (Text.pieces '/' path.toList).map String.ofList, text)

/-- The files in the working directory by their paths from there. -/
def inHome (t : FileTree) : List (String × String) :=
  t.filterMap fun (place, text) =>
    if home.isPrefixOf place then some (Text.separated "/" (place.drop home.length), text) else none

end FileTree

end CircuitForms.Command
