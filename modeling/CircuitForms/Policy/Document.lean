import CircuitForms.Json.Reader
import CircuitForms.Policy.Basic

/-! # Documents of policies -/

namespace CircuitForms.Policy

open Json Reader

def boxUnknownName : String := "box_unknown_ops"

def dropConditionsName : String := "drop_conditions"

def toJson (p : Policy) : Json :=
  .object [(boxUnknownName, .bool p.boxUnknown), (dropConditionsName, .bool p.dropConditions)]

/-- Reads a policy. Settings it does not know are refused. -/
def read : Reader Policy :=
  record true [boxUnknownName, dropConditionsName] fun
    | room, [boxUnknown, dropConditions] => do
      return ⟨← optional bool true room boxUnknown, ← optional bool false room dropConditions⟩
    | _, _ => none

end CircuitForms.Policy
