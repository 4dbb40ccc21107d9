import CircuitForms.Gate.Descriptor
import CircuitForms.Document.Operation

/-! # Documents of vertices -/

namespace CircuitForms

open Json Reader

namespace Rotation

def toJson : Rotation → Json
  | .halfTurns x => .object [("numeric", .real x)]
  | .symbolic a => .object [("symbolic", a.toJson)]

def read : Reader Rotation :=
  tagged fun room tag content =>
    if tag = "numeric" then (required real room content).map .halfTurns
    else if tag = "symbolic" then (required Angle.read room content).map .symbolic
    else none

end Rotation

def Kind.toJson (k : Kind) : Json :=
  .string k.text

def Kind.read : Reader Kind :=
  tagged fun _ tag content => if isBare content then Kind.ofText? tag else none

namespace Payload

def toJson : Payload → Json
  | .none => .string "none"
  | .single r => .object [("single", r.toJson)]
  | .multi rs => .object [("multi", .array (rs.map Rotation.toJson))]
  | .description s => .object [("description", .string s)]

def read : Reader Payload :=
  tagged fun room tag content =>
    if tag = "none" then if isBare content then some .none else Option.none
    else if tag = "single" then (required Rotation.read room content).map .single
    else if tag = "multi" then (required (list Rotation.read) room content).map .multi
    else if tag = "description" then (required string room content).map .description
    else Option.none

end Payload

namespace Descriptor

def toJson (d : Descriptor) : Json :=
  .object [("kind", d.kind.toJson), ("n_inputs", .nat d.inputs), ("n_outputs", .nat d.outputs),
    ("payload", d.payload.toJson)]

def read : Reader Descriptor :=
  record false ["kind", "n_inputs", "n_outputs", "payload"] fun
    | room, [kind, inputs, outputs, payload] => do
      return ⟨← required Kind.read room kind, ← required wide room inputs,
        ← required wide room outputs, ← optional Payload.read .none room payload⟩
    | _, _ => Option.none

end Descriptor

end CircuitForms
