import CircuitForms.Dag.Listing
import CircuitForms.Document.Descriptor
import CircuitForms.Vertex.Listing

/-! # Documents of nodes and listings -/

namespace CircuitForms

open Json Reader

namespace Node

def toJson : Node → Json
  | .input w => .object [("In", w.toJson)]
  | .output w => .object [("Out", w.toJson)]
  | .op o => .object [("Op", o.toJson)]

def read : Reader Node :=
  tagged fun room tag content =>
    if tag = "In" then (required Wire.read room content).map .input
    else if tag = "Out" then (required Wire.read room content).map .output
    else if tag = "Op" then (required Operation.read room content).map .op
    else none

end Node

namespace DagListing

def toJson (l : DagListing) : Json :=
  .object [("qregs", .array (l.qregs.map Register.toJson)),
    ("cregs", .array (l.cregs.map Register.toJson)),
    ("operations", .array (l.operations.map Operation.toJson))]

def read : Reader DagListing :=
  record false ["qregs", "cregs", "operations"] fun
    | room, [qregs, cregs, operations] => do
      return ⟨← required (list Register.read) room qregs,
        ← optional (list Register.read) [] room cregs,
        ← optional (list Operation.read) [] room operations⟩
    | _, _ => none

end DagListing

namespace Link

def toJson (l : Link) : Json :=
  .object [("source", .nat l.source), ("source_port", .nat l.sourcePin), ("target", .nat l.target),
    ("target_port", .nat l.targetPin)]

def read : Reader Link :=
  record false ["source", "source_port", "target", "target_port"] fun
    | room, [source, sourcePin, target, targetPin] => do
      return ⟨← required wide room source, ← required wide room sourcePin,
        ← required wide room target, ← required wide room targetPin⟩
    | _, _ => none

end Link

namespace VertexListing

def toJson (l : VertexListing) : Json :=
  .object [("vertices", .array (l.vertices.map Descriptor.toJson)),
    ("edges", .array (l.edges.map Link.toJson))]

def read : Reader VertexListing :=
  record false ["vertices", "edges"] fun
    | room, [vertices, edges] => do
      return ⟨← required (list Descriptor.read) room vertices,
        ← optional (list Link.read) [] room edges⟩
    | _, _ => none

end VertexListing

end CircuitForms
