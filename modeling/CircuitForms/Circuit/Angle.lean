import CircuitForms.Number.Layout

/-! # Angles

An angle in radians is an expression over numbers, `pi` and free symbols. It
has a value unless a symbol or a division by zero stands in the way.
-/

namespace CircuitForms

inductive Angle where
  | constant (x : Float)
  | symbol (name : String)
  | pi
  | neg (a : Angle)
  | add (a b : Angle)
  | sub (a b : Angle)
  | mul (a b : Angle)
  | div (a b : Angle)
  deriving DecidableEq

namespace Angle

/-- The double nearest to the ratio of circumference and diameter. -/
def halfTurn : Float := Float.ofBits 0x400921FB54442D18

/-- The value in radians of an angle without free symbols. A quotient by zero has none. -/
def value? : Angle → Option Float
  | .constant x => some x
  | .symbol _ => none
  | .pi => some halfTurn
  | .neg a => a.value?.map fun x => -x
  | .add a b => do return (← a.value?) + (← b.value?)
  | .sub a b => do return (← a.value?) - (← b.value?)
  | .mul a b => do return (← a.value?) * (← b.value?)
  | .div a b => do
    let divisor ← b.value?
    if divisor == 0.0 then none
    return (← a.value?) / divisor

def text : Angle → String
  | .constant x => Number.render .plain x
  | .symbol name => name
  | .pi => "pi"
  | .neg a => "-(" ++ a.text ++ ")"
  | .add a b => "(" ++ a.text ++ " + " ++ b.text ++ ")"
  | .sub a b => "(" ++ a.text ++ " - " ++ b.text ++ ")"
  | .mul a b => "(" ++ a.text ++ " * " ++ b.text ++ ")"
  | .div a b => "(" ++ a.text ++ " / " ++ b.text ++ ")"

/-- Whether two angles have the same form and equal numbers, where zero has one sign and what is
not a number equals nothing. -/
def alike : Angle → Angle → Bool
  | .constant x, .constant y => x == y
  | .symbol a, .symbol b => a == b
  | .pi, .pi => true
  | .neg a, .neg b => a.alike b
  | .add a b, .add c d => a.alike c && b.alike d
  | .sub a b, .sub c d => a.alike c && b.alike d
  | .mul a b, .mul c d => a.alike c && b.alike d
  | .div a b, .div c d => a.alike c && b.alike d
  | _, _ => false

end Angle

end CircuitForms
