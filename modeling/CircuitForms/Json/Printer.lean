import CircuitForms.Json.Basic
import CircuitForms.Number.Layout
import CircuitForms.Text.Hex
import CircuitForms.Text.Join

/-! # JSON text, written

`compact` writes no space at all, `pretty` one member or item a line with two
spaces for each level. Numbers that are not finite are written as `null`.
-/

namespace CircuitForms.Json

open Number Text

/-- A character inside quotes. -/
def escape (c : Char) : List Char :=
  if c = '"' then ['\\', '"']
  else if c = '\\' then ['\\', '\\']
  else if c = '\x08' then ['\\', 'b']
  else if c = '\x0c' then ['\\', 'f']
  else if c = '\n' then ['\\', 'n']
  else if c = '\r' then ['\\', 'r']
  else if c = '\t' then ['\\', 't']
  else if c.toNat < 0x20 then ['\\', 'u', '0', '0'] ++ hexOctet c.toNat
  else [c]

def quote (s : String) : String :=
  String.ofList ('"' :: s.toList.flatMap escape ++ ['"'])

def realText (x : Float) : String :=
  if isFinite x then render .exact x else "null"

mutual

def compact : Json → String
  | .null => "null"
  | .bool b => if b then "true" else "false"
  | .nat n => toString n
  | .real x => realText x
  | .string s => quote s
  | .broken => "null"
  | .array items => "[" ++ separated "," (compactItems items) ++ "]"
  | .object members => "\x7b" ++ separated "," (compactMembers members) ++ "\x7d"

def compactItems : List Json → List String
  | [] => []
  | item :: items => compact item :: compactItems items

def compactMembers : List (String × Json) → List String
  | [] => []
  | (name, value) :: members => (quote name ++ ":" ++ compact value) :: compactMembers members

end

/-- A line break and the indentation of a level. -/
def newline (level : Nat) : String :=
  String.ofList ('\n' :: List.replicate (2 * level) ' ')

/-- Parts on lines of their own between brackets, nothing between the brackets if there are none. -/
def spread (level : Nat) (opening closing : String) (parts : List String) : String :=
  if parts.isEmpty then opening ++ closing
  else
    opening ++ newline (level + 1) ++ separated ("," ++ newline (level + 1)) parts ++
      newline level ++ closing

mutual

def prettyAt (level : Nat) : Json → String
  | .array items => spread level "[" "]" (prettyItems (level + 1) items)
  | .object members => spread level "\x7b" "\x7d" (prettyMembers (level + 1) members)
  | j => compact j

def prettyItems (level : Nat) : List Json → List String
  | [] => []
  | item :: items => prettyAt level item :: prettyItems level items

def prettyMembers (level : Nat) : List (String × Json) → List String
  | [] => []
  | (name, value) :: members =>
    (quote name ++ ": " ++ prettyAt level value) :: prettyMembers level members

end

def pretty (j : Json) : String :=
  prettyAt 0 j

end CircuitForms.Json
