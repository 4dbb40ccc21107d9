import CircuitForms.Circuit.Operation
import CircuitForms.Document.Bit

/-! # Documents of angles and operations

Operands, angles and conditions that an operation lacks are left out of its
document.
-/

namespace CircuitForms

open Json Reader

namespace Angle

def toJson : Angle → Json
  | .constant x => .object [("Constant", .real x)]
  | .symbol name => .object [("Symbol", .string name)]
  | .pi => .string "Pi"
  | .neg a => .object [("Neg", a.toJson)]
  | .add a b => .object [("Add", .array [a.toJson, b.toJson])]
  | .sub a b => .object [("Sub", .array [a.toJson, b.toJson])]
  | .mul a b => .object [("Mul", .array [a.toJson, b.toJson])]
  | .div a b => .object [("Div", .array [a.toJson, b.toJson])]

/-- The angle built from two others under a tag. -/
def binary? (tag : String) : Option (Angle → Angle → Angle) :=
  if tag = "Add" then some .add
  else if tag = "Sub" then some .sub
  else if tag = "Mul" then some .mul
  else if tag = "Div" then some .div
  else none

def read : Reader Angle
  | 0, j => match j with
    | .string tag => if tag = "Pi" then some .pi else none
    | _ => none
  | room + 1, j => match j with
    | .string tag => if tag = "Pi" then some .pi else none
    | .object [(tag, content)] =>
      if tag = "Pi" then if isBare (some content) then some .pi else none
      else if tag = "Constant" then (real room content).map .constant
      else if tag = "Symbol" then (string room content).map .symbol
      else if tag = "Neg" then (read room content).map .neg
      else match binary? tag, room, content with
        | some build, room + 1, .array [a, b] => do return build (← read room a) (← read room b)
        | _, _, _ => none
    | _ => none

end Angle

namespace Condition

def toJson (c : Condition) : Json :=
  .object [("register", .string c.register), ("value", .nat c.value)]

def read : Reader Condition :=
  record false ["register", "value"] fun
    | room, [register, value] => do
      return ⟨← required string room register, ← required wide room value⟩
    | _, _ => none

end Condition

namespace Operation

/-- A member for a list, unless it is empty. -/
def unlessEmpty (name : String) (items : List Json) : List (String × Json) :=
  if items.isEmpty then [] else [(name, .array items)]

def toJson (op : Operation) : Json :=
  .object <|
    [("name", .string op.name), ("qargs", .array (op.qargs.map Qubit.toJson))] ++
      unlessEmpty "cargs" (op.cargs.map Clbit.toJson) ++
      unlessEmpty "params" (op.params.map Angle.toJson) ++
      (op.condition.map fun c => ("condition", c.toJson)).toList

def read : Reader Operation :=
  record false ["name", "qargs", "cargs", "params", "condition"] fun
    | room, [name, qargs, cargs, params, condition] => do
      return ⟨← required string room name, ← required (list Qubit.read) room qargs,
        ← optional (list Clbit.read) [] room cargs, ← optional (list Angle.read) [] room params,
        ← optional (nullable Condition.read) none room condition⟩
    | _, _ => none

end Operation

namespace Signature

def toJson (s : Signature) : Json :=
  .object [("name", .string s.name), ("num_qubits", .nat s.qubits), ("num_clbits", .nat s.clbits),
    ("num_params", .nat s.params)]

def read : Reader Signature :=
  record false ["name", "num_qubits", "num_clbits", "num_params"] fun
    | room, [name, qubits, clbits, params] => do
      return ⟨← required string room name, ← required wide room qubits,
        ← required wide room clbits, ← required wide room params⟩
    | _, _ => none

end Signature

end CircuitForms
