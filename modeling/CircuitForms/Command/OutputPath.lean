import CircuitForms.Text.Join
import CircuitForms.Text.Split

/-! # Where a result is written by default

The result of `dir/name.json` goes to `dir/name_suffix.json`. Of a path, empty
parts and single dots do not count, a dot at the very start apart.
-/

namespace CircuitForms.Command

open Text

/-- Whether a path starts at the root, and its parts between slashes. -/
def pathParts (path : String) : Bool × List String :=
  match path.toList with
  | '/' :: rest => (true, (pieces '/' rest).map String.ofList)
  | cs => (false, (pieces '/' cs).map String.ofList)

/-- The parts up to the last one that counts. -/
def counted (rooted : Bool) : List String → List String
  | [] => []
  | part :: rest =>
    match counted true rest with
    | [] => if part = "" ∨ (part = "." ∧ rooted) then [] else [part]
    | kept => part :: kept

/-- A file name without its extension. A dot at its start begins none. -/
def stem (name : String) : String :=
  match firstCut '.' name.toList.reverse with
  | some (_, before) => if before.isEmpty then name else String.ofList before.reverse
  | none => name

def joinParts (rooted : Bool) (parts : List String) : String :=
  (if rooted then "/" else "") ++ separated "/" parts

/-- The path for a result with a suffix. -/
def defaultOutput (input suffix : String) : String :=
  let (rooted, parts) := pathParts input
  let parts := counted rooted parts
  let name := match parts.getLast? with
    | some name => if name = "." ∨ name = ".." then "" else stem name
    | none => ""
  let file := name ++ "_" ++ suffix ++ ".json"
  if parts.isEmpty then file
  else
    let dir := joinParts rooted (counted rooted parts.dropLast)
    if dir = "" then file
    else if dir.endsWith "/" then dir ++ file
    else dir ++ "/" ++ file

end CircuitForms.Command
