import CircuitForms.Circuit.Angle

/-! # Rotations

A vertex holds its angles in half-turns when they are numbers and as they
were given otherwise. Numbers are divided by `pi` on the way in and
multiplied by it on the way out.
-/

namespace CircuitForms

inductive Rotation where
  | halfTurns (x : Float)
  | symbolic (a : Angle)
  deriving DecidableEq

namespace Rotation

def number? : Rotation → Option Float
  | .halfTurns x => some x
  | .symbolic _ => none

def text : Rotation → String
  | .halfTurns x => Number.render .plain x
  | .symbolic a => a.text

def ofAngle (a : Angle) : Rotation :=
  match a.value? with
  | some radians => .halfTurns (radians / Angle.halfTurn)
  | none => .symbolic a

def toAngle : Rotation → Angle
  | .halfTurns x => .constant (x * Angle.halfTurn)
  | .symbolic a => a

/-- Whether two rotations are of one kind and alike, where what is not a number equals nothing. -/
def alike : Rotation → Rotation → Bool
  | .halfTurns x, .halfTurns y => x == y
  | .symbolic a, .symbolic b => a.alike b
  | _, _ => false

end Rotation

end CircuitForms
