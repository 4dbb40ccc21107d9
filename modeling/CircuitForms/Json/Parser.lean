import CircuitForms.Json.Basic
import CircuitForms.Number.Literal
import CircuitForms.Text.Hex

/-! # JSON text, read

A reader of strict JSON by recursive descent. Each step takes characters from
the front and hands on the rest; the length of the text bounds the number of
steps. Only the form is judged here: numbers out of range and halves of
surrogate pairs are kept for the one who wants the value. By which rule a
literal becomes a double is left open.
-/

namespace CircuitForms.Json

open Number Text

def isGap (c : Char) : Bool :=
  c == ' ' || c == '\t' || c == '\n' || c == '\r'

def skipGap (cs : List Char) : List Char :=
  cs.dropWhile isGap

def isLeading (n : Nat) : Bool := 0xD800 ≤ n && n < 0xDC00

def isTrailing (n : Nat) : Bool := 0xDC00 ≤ n && n < 0xE000

/-- The character of a surrogate pair. -/
def paired (leading trailing : Nat) : Char :=
  Char.ofNat (0x10000 + (leading - 0xD800) * 0x400 + (trailing - 0xDC00))

/-- The character after a backslash, `u` apart. -/
def unescape? (c : Char) : Option Char :=
  if c = '"' ∨ c = '\\' ∨ c = '/' then some c
  else if c = 'b' then some '\x08'
  else if c = 'f' then some '\x0c'
  else if c = 'n' then some '\n'
  else if c = 'r' then some '\r'
  else if c = 't' then some '\t'
  else none

/-- The code units up to the closing quote, and what follows it. An escape may stand for half
of a surrogate pair. -/
def units : List Char → Option (List Nat × List Char)
  | [] => none
  | '"' :: rest => some ([], rest)
  | '\\' :: 'u' :: a :: b :: c :: d :: rest =>
    match hexNumber? [a, b, c, d] with
    | some n => (units rest).map fun (ns, rest) => (n :: ns, rest)
    | none => none
  | '\\' :: e :: rest =>
    match unescape? e with
    | some c => (units rest).map fun (ns, rest) => (c.toNat :: ns, rest)
    | none => none
  | c :: rest =>
    if c.toNat < 0x20 then none
    else (units rest).map fun (ns, rest) => (c.toNat :: ns, rest)

/-- The characters, unless half of a pair stands alone. -/
def ofUnits : List Nat → Option (List Char)
  | [] => some []
  | [n] => if isLeading n || isTrailing n then none else some [Char.ofNat n]
  | n :: m :: ns =>
    if isLeading n then
      if isTrailing m then (ofUnits ns).map (paired n m :: ·) else none
    else if isTrailing n then none
    else (ofUnits (m :: ns)).map (Char.ofNat n :: ·)

/-- The text of a string, unless half of a pair stands alone, and what follows it. -/
def stringBody? (cs : List Char) : Option (Option String × List Char) :=
  (units cs).map fun (ns, rest) => ((ofUnits ns).map String.ofList, rest)

/-- A non-empty row of digits. -/
def digits? (cs : List Char) : Option (List Char × List Char) :=
  match cs.span Char.isDigit with
  | ([], _) => none
  | (ds, rest) => some (ds, rest)

/-- The digits of a fraction, none if there is no point. -/
def fraction? : List Char → Option (List Char × List Char)
  | '.' :: rest => digits? rest
  | cs => some ([], cs)

/-- The exponent, `none` if there is none. -/
def exponent? : List Char → Option (Option Int × List Char)
  | c :: rest =>
    if c = 'e' ∨ c = 'E' then
      match rest with
      | '-' :: rest => (digits? rest).map fun (ds, rest) => (some (-Int.ofNat (ofDigits ds)), rest)
      | '+' :: rest => (digits? rest).map fun (ds, rest) => (some (Int.ofNat (ofDigits ds)), rest)
      | rest => (digits? rest).map fun (ds, rest) => (some (Int.ofNat (ofDigits ds)), rest)
    else some (none, c :: rest)
  | [] => some (none, [])

/-- The value of a number written without a sign, fraction and exponent, or with some of them. -/
def numeral (rule : Literal → Float) (negative : Bool) (whole fraction : List Char)
    (exponent : Option Int) : Json :=
  if !negative && fraction.isEmpty && exponent.isNone && ofDigits whole < 1 <<< 64 then
    .nat (ofDigits whole)
  else .real (rule ⟨negative, whole, fraction, exponent.getD 0⟩)

def number? (rule : Literal → Float) (cs : List Char) : Option (Json × List Char) := do
  let (negative, cs) := match cs with
    | '-' :: rest => (true, rest)
    | cs => (false, cs)
  let (whole, rest) ← digits? cs
  if 1 < whole.length ∧ whole.head? = some '0' then none
  let (fraction, rest) ← fraction? rest
  let (exponent, rest) ← exponent? rest
  return (numeral rule negative whole fraction exponent, rest)

/-- The object with these members, unless a name is broken. -/
def ofMembers (members : List (Option String × Json)) : Json :=
  match members.mapM fun (name, value) => name.map (·, value) with
  | some members => .object members
  | none => .broken

mutual

def value (rule : Literal → Float) : Nat → List Char → Option (Json × List Char)
  | 0, _ => none
  | steps + 1, cs =>
    match skipGap cs with
    | '\x7b' :: rest =>
      match skipGap rest with
      | '\x7d' :: rest => some (.object [], rest)
      | rest => (members rule steps rest).map fun (ms, rest) => (ofMembers ms, rest)
    | '[' :: rest =>
      match skipGap rest with
      | ']' :: rest => some (.array [], rest)
      | rest => (items rule steps rest).map fun (vs, rest) => (.array vs, rest)
    | '"' :: rest =>
      (stringBody? rest).map fun (s, rest) => (s.elim .broken .string, rest)
    | 'n' :: 'u' :: 'l' :: 'l' :: rest => some (.null, rest)
    | 't' :: 'r' :: 'u' :: 'e' :: rest => some (.bool true, rest)
    | 'f' :: 'a' :: 'l' :: 's' :: 'e' :: rest => some (.bool false, rest)
    | cs => number? rule cs

def items (rule : Literal → Float) : Nat → List Char → Option (List Json × List Char)
  | 0, _ => none
  | steps + 1, cs =>
    match value rule steps cs with
    | none => none
    | some (v, rest) =>
      match skipGap rest with
      | ']' :: rest => some ([v], rest)
      | ',' :: rest => (items rule steps rest).map fun (vs, rest) => (v :: vs, rest)
      | _ => none

def members (rule : Literal → Float) :
    Nat → List Char → Option (List (Option String × Json) × List Char)
  | 0, _ => none
  | steps + 1, cs =>
    match skipGap cs with
    | '"' :: rest =>
      match stringBody? rest with
      | none => none
      | some (name, rest) =>
        match skipGap rest with
        | ':' :: rest =>
          match value rule steps rest with
          | none => none
          | some (v, rest) =>
            match skipGap rest with
            | '\x7d' :: rest => some ([(name, v)], rest)
            | ',' :: rest => (members rule steps rest).map fun (ms, rest) => ((name, v) :: ms, rest)
            | _ => none
        | _ => none
    | _ => none

end

/-- Reads a whole text as one document, whose numbers become doubles by a rule. -/
def parse? (text : String) (rule : Literal → Float := Literal.scaled) : Option Json :=
  let cs := text.toList
  match value rule (2 * cs.length + 1) cs with
  | some (j, rest) => if (skipGap rest).isEmpty then some j else none
  | none => none

end CircuitForms.Json
