import CircuitForms.Text.Hex
import CircuitForms.Yaml.Place
import CircuitForms.Yaml.Token

/-! # Anchors, tags and directives -/

namespace CircuitForms.Yaml

open Text

def isWord (c : Char) : Bool :=
  c.isAlphanum || c == '-' || c == '_'

/-- A row of letters, digits, hyphens and underscores, and what follows it. -/
def word (cs : List Place) : List Char × List Place :=
  let (name, rest) := cs.span (isWord ·.char)
  (name.map Place.char, rest)

/-- The name of an anchor. -/
def name? (cs : List Place) : Option (String × List Place) :=
  let (name, rest) := word cs
  if !name.isEmpty && (atGap rest || atOneOf ['?', ':', ',', ']', '\x7d', '%', '@', '\x60'] rest)
  then some (String.ofList name, rest)
  else none

/-- The characters of an address. Some stand only where no sign of flow style can. -/
def isAddress (wide : Bool) (c : Char) : Bool :=
  isWord c || [';', '/', '?', ':', '@', '&', '=', '+', '$', '.', '!', '~', '*', '\'', '(',
    ')'].contains c || (wide && [',', '[', ']'].contains c)

/-- The number of octets that follow the first one of a character. -/
def following? (octet : Nat) : Option Nat :=
  if octet < 0x80 then some 0
  else if octet < 0xC0 then none
  else if octet < 0xE0 then some 1
  else if octet < 0xF0 then some 2
  else if octet < 0xF8 then some 3
  else none

/-- The octets still due after an octet, of which so many were due before it. -/
def due? (due octet : Nat) : Option Nat :=
  match due with
  | 0 => following? octet
  | due + 1 => if 0x80 ≤ octet ∧ octet < 0xC0 then some due else none

/-- The octets of an address, and what follows it. An octet may be written as a percent sign and
two digits. -/
def address (wide : Bool) (due : Nat) : List Place → Option (List UInt8 × List Place)
  | [] => if due = 0 then some ([], []) else none
  | p :: rest =>
    if p.char = '%' then
      match rest with
      | a :: b :: rest =>
        match (hexNumber? [a.char, b.char]).bind fun n => (due? due n).map (n, ·) with
        | some (n, due) =>
          (address wide due rest).map fun (octets, after) => (n.toUInt8 :: octets, after)
        | none => none
      | _ => none
    else if due ≠ 0 then none
    else if isAddress wide p.char then
      (address wide 0 rest).map fun (octets, after) => (p.char.toNat.toUInt8 :: octets, after)
    else some ([], p :: rest)

/-- An address that is not empty. Nothing counts after a NUL octet. -/
def address? (wide : Bool) (cs : List Place) : Option (List UInt8 × List Place) :=
  match address wide 0 cs with
  | some (octet :: octets, rest) => some ((octet :: octets).takeWhile (· != 0), rest)
  | _ => none

/-- A tag in angle brackets after the first one. -/
def verbatim? (cs : List Place) : Option (Tag × List Place) := do
  let (suffix, rest) ← address? true cs
  if atOneOf ['>'] rest then return (⟨"", suffix⟩, rest.drop 1) else none

/-- A tag with a handle, which is one exclamation mark if no second one ends it. A mark that stands
alone is a tag by itself. -/
def shorthand? (cs : List Place) : Option (Tag × List Place) :=
  let (name, rest) := word cs
  if atOneOf ['!'] rest then
    (address? false (rest.drop 1)).map fun (suffix, rest) =>
      (⟨String.ofList ('!' :: name ++ ['!']), suffix⟩, rest)
  else
    let (suffix, rest) := (address? false cs).getD ([], cs)
    some (if suffix.isEmpty then ⟨"", [0x21]⟩ else ⟨"!", suffix⟩, rest)

/-- A tag after its exclamation mark. -/
def tag? (flow : Bool) (cs : List Place) : Option (Tag × List Place) := do
  let (t, rest) ← if atOneOf ['<'] cs then verbatim? (cs.drop 1) else shorthand? cs
  if atGap rest || (flow && atOneOf [','] rest) then return (t, rest) else none

/-- A number of at most nine digits. -/
def number? (cs : List Place) : Option (Nat × List Place) :=
  let (digits, rest) := cs.span (·.char.isDigit)
  if !digits.isEmpty && digits.length ≤ 9 then
    some (digits.foldl (fun n p => 10 * n + (p.char.toNat - '0'.toNat)) 0, rest)
  else none

def version? (cs : List Place) : Option (Token × List Place) := do
  let (major, rest) ← number? cs
  if atOneOf ['.'] rest then
    let (minor, rest) ← number? (rest.drop 1)
    return (.version major minor, rest)
  else none

/-- The handle that a directive explains. -/
def handle? (cs : List Place) : Option (String × List Place) :=
  if atOneOf ['!'] cs then
    let (name, rest) := word (cs.drop 1)
    if atOneOf ['!'] rest then some (String.ofList ('!' :: name ++ ['!']), rest.drop 1)
    else if name.isEmpty then some ("!", rest)
    else none
  else none

def explanation? (cs : List Place) : Option (Token × List Place) := do
  let (handle, rest) ← handle? cs
  if atOneOf [' ', '\t'] rest then
    let (octets, rest) ← address? true (rest.dropWhile Place.isBlank)
    if atGap rest then return (.handle handle octets, rest) else none
  else none

/-- A directive after its percent sign, and the lines after it. -/
def directive? (cs : List Place) : Option (Token × List Place) := do
  let (name, rest) := word cs
  if atGap rest then
    let rest := rest.dropWhile Place.isBlank
    let (t, rest) ←
      if String.ofList name = "YAML" then version? rest
      else if String.ofList name = "TAG" then explanation? rest
      else none
    return (t, ← lineEnd? rest)
  else none

end CircuitForms.Yaml
