import CircuitForms.Number.Shortest

/-! # How a double is written

A layout says which values are written out in full, which carry an exponent,
and what becomes of a whole number's fraction. `plain` is the layout of
messages, `exact` the one of documents.
-/

namespace CircuitForms.Number

structure Layout where
  /-- The powers of ten of the first digit for which no exponent is written. -/
  positional : Int → Bool
  /-- Whether a whole number ends in `.0`. -/
  keepFraction : Bool
  tie : Tie

namespace Layout

/-- Never an exponent, and no fraction on a whole number. -/
def plain : Layout := ⟨fun _ => true, false, .up⟩

/-- An exponent from `1e+16` on and below `1e-5`, and a fraction on every positional number. -/
def exact : Layout := ⟨fun e => -5 ≤ e && e < 16, true, .toEven⟩

def zeros (n : Nat) : String :=
  String.ofList (List.replicate n '0')

/-- Digits with the point after the first `whole` of them. -/
def pointed (digits : List Char) (whole : Nat) : String :=
  String.ofList (digits.take whole) ++ "." ++ String.ofList (digits.drop whole)

def positionalText (l : Layout) (d : Decimal) (digits : List Char) (first : Int) : String :=
  if 0 ≤ d.exponent then
    String.ofList digits ++ zeros d.exponent.toNat ++ if l.keepFraction then ".0" else ""
  else if 0 ≤ first then pointed digits (first.toNat + 1)
  else "0." ++ zeros (-first - 1).toNat ++ String.ofList digits

def exponentText (digits : List Char) (first : Int) : String :=
  (if digits.length = 1 then String.ofList digits else pointed digits 1) ++
    (if first < 0 then "e-" else "e+") ++ toString first.natAbs

/-- The magnitude of a finite double. -/
def magnitude (l : Layout) (b : Binary) : String :=
  if b.significand = 0 then if l.keepFraction then "0.0" else "0"
  else
    let d := b.shortest l.tie
    let digits := Nat.toDigits 10 d.digits
    let first := d.exponent + digits.length - 1
    if l.positional first then l.positionalText d digits first else exponentText digits first

end Layout

/-- The text of a double in a layout. -/
def render (l : Layout) (x : Float) : String :=
  let sign := if isNegative x then "-" else ""
  match binary? x with
  | some b => sign ++ l.magnitude b
  | none => if x.isNaN then "NaN" else sign ++ "inf"

end CircuitForms.Number
