/-! # Decimal literals

A literal is a sign, its digits before and after the point and an exponent.
There are two ways to take it for a double: `nearest` rounds once and
correctly, `scaled` makes do with one product or quotient of doubles and may
be off in the last place.
-/

namespace CircuitForms.Number

structure Literal where
  negative : Bool
  /-- The digits before the point. -/
  whole : List Char
  /-- The digits after the point. -/
  fraction : List Char
  exponent : Int
  deriving DecidableEq, Repr

def digitValue (c : Char) : Nat :=
  c.toNat - '0'.toNat

/-- The value of a row of decimal digits. -/
def ofDigits (cs : List Char) : Nat :=
  cs.foldl (fun n c => 10 * n + digitValue c) 0

def infinity : Float := Float.ofBits 0x7FF0000000000000

/-- The double nearest to `digits * 10 ^ exponent`, an infinity if that is out of range. A power of
ten far out of range is not worked out. -/
def nearest (digits : Nat) (exponent : Int) : Float :=
  let size : Int := exponent + (Nat.toDigits 10 digits).length
  if digits = 0 ∨ size < -400 then 0.0
  else if 400 < size then infinity
  else Float.ofScientific digits (exponent < 0) exponent.natAbs

/-- The nearest double to a whole number. -/
def ofNat (n : Nat) : Float :=
  nearest n 0

def signed (negative : Bool) (x : Float) : Float :=
  if negative then -x else x

namespace Literal

/-- The double nearest to the value. -/
def nearest (l : Literal) : Float :=
  signed l.negative (Number.nearest (ofDigits (l.whole ++ l.fraction))
    (l.exponent - l.fraction.length))

/-- Appends digits to a number as long as it fits 64 bits, and tells how many. -/
def accumulate (n : Nat) : List Char → Nat × Nat
  | [] => (n, 0)
  | c :: cs =>
    let m := 10 * n + digitValue c
    if m < 1 <<< 64 then
      let (n, count) := accumulate m cs
      (n, count + 1)
    else (n, 0)

/-- A double times a power of ten. Below `1e-308` it is divided by that first. -/
def shift (x : Float) (power : Int) : Float :=
  if 308 < power then if x == 0.0 then x else infinity
  else if 0 ≤ power then x * Number.nearest 1 power
  else if -308 ≤ power then x / Number.nearest 1 (-power)
  else if -616 ≤ power then x / Number.nearest 1 308 / Number.nearest 1 (-power - 308)
  else 0.0

/-- The first digits, as many as fit 64 bits, times the power of ten they lack. -/
def scaled (l : Literal) : Float :=
  let (n, taken) := accumulate 0 l.whole
  let (n, places) := accumulate n l.fraction
  signed l.negative (shift (ofNat n) (Int.ofNat (l.whole.length - taken) - places + l.exponent))

end Literal

end CircuitForms.Number
