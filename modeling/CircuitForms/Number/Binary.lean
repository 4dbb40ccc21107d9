/-! # The binary parts of a double

A finite double is a sign and a magnitude `significand * 2 ^ exponent`. The
reals that round to it lie between two bounds, stated here in quarters of
its last place so that both are whole numbers.
-/

namespace CircuitForms.Number

/-- The magnitude of a finite double. -/
structure Binary where
  significand : Nat
  exponent : Int
  /-- Whether the next smaller double is only half as far away as the next larger one. -/
  narrow : Bool
  deriving DecidableEq, Repr

def isNegative (x : Float) : Bool :=
  1 <<< 63 ≤ x.toBits.toNat

/-- The magnitude, unless the double is infinite or not a number. -/
def binary? (x : Float) : Option Binary :=
  let bits := x.toBits.toNat
  let field := (bits >>> 52) % (1 <<< 11)
  let fraction : Nat := bits % (1 <<< 52)
  if field = 2047 then none
  else if field = 0 then some ⟨fraction, -1074, false⟩
  else some ⟨(1 <<< 52) + fraction, Int.ofNat field - 1075, fraction == 0 && 1 < field⟩

def isFinite (x : Float) : Bool :=
  (binary? x).isSome

namespace Binary

/-- Quarters of the last place at the lower end of what rounds to `b`. -/
def lower (b : Binary) : Nat :=
  4 * b.significand - (if b.narrow then 1 else 2)

/-- Quarters of the last place at the upper end of what rounds to `b`. -/
def upper (b : Binary) : Nat :=
  4 * b.significand + 2

end Binary

end CircuitForms.Number
