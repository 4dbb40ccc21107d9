import CircuitForms.Json.Basic
import CircuitForms.Number.Binary
import CircuitForms.Number.Literal

/-! # Reading values out of documents

A reader is told how many more arrays and objects it may enter. Records may be
written with or without the names of their fields; variants are a bare name or
an object with one member.
-/

namespace CircuitForms.Json

open Number

abbrev Reader (α : Type) := Nat → Json → Option α

namespace Reader

variable {α β : Type}

/-- The greatest number of arrays and objects inside one another. -/
def deepest : Nat := 127

def string : Reader String
  | _, .string s => some s
  | _, _ => none

def bool : Reader Bool
  | _, .bool b => some b
  | _, _ => none

/-- A whole number below a bound. -/
def natBelow (bound : Nat) : Reader Nat
  | _, .nat n => if n < bound then some n else none
  | _, _ => none

/-- An index or size of 32 bits. -/
def word : Reader Nat := natBelow (1 <<< 32)

/-- A count or value of 64 bits. -/
def wide : Reader Nat := natBelow (1 <<< 64)

def real : Reader Float
  | _, .nat n => some (ofNat n)
  | _, .real x => if isFinite x then some x else none
  | _, _ => none

def list (item : Reader α) : Reader (List α)
  | room + 1, .array items => items.mapM (item room)
  | _, _ => none

/-- Absence may be written as `null`. -/
def nullable (read : Reader α) : Reader (Option α)
  | _, .null => some none
  | room, j => (read room j).map some

/-- The values of the named members, for each name at most one. Members with other names are
skipped unless the record is closed. -/
def byName (closed : Bool) (names : List String) (members : List (String × Json)) :
    Option (List (Option Json)) :=
  if closed && members.any (fun m => !names.contains m.1) then none
  else names.mapM fun name =>
    match members.filter (·.1 = name) with
    | [] => some none
    | [m] => some (some m.2)
    | _ => none

/-- The values in the order of the fields. -/
def byPlace (names : List String) (items : List Json) : Option (List (Option Json)) :=
  if items.length ≤ names.length then
    some (items.map some ++ List.replicate (names.length - items.length) none)
  else none

/-- A record with these fields, built from the values that are there. -/
def record (closed : Bool) (names : List String)
    (build : Nat → List (Option Json) → Option α) : Reader α
  | room + 1, .object members => (byName closed names members).bind (build room)
  | room + 1, .array items => (byPlace names items).bind (build room)
  | _, _ => none

/-- A field that has to be there. -/
def required (read : Reader α) (room : Nat) (field : Option Json) : Option α :=
  field.bind (read room)

/-- A field with a value for when it is not there. -/
def optional (read : Reader α) (default : α) (room : Nat) : Option Json → Option α
  | some j => read room j
  | none => some default

/-- The name of a variant, and its content unless the name stands alone. -/
def tagged (read : Nat → String → Option Json → Option α) : Reader α
  | room, .string tag => read room tag none
  | room + 1, .object [(tag, content)] => read room tag (some content)
  | _, _ => none

/-- Whether a variant has no content. -/
def isBare : Option Json → Bool
  | none => true
  | some .null => true
  | some _ => false

/-- Reads a whole document. -/
def run (read : Reader α) (j : Json) : Option α :=
  read deepest j

end Reader

end CircuitForms.Json
