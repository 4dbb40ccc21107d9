import CircuitForms.Catalog.Standard
import CircuitForms.Convert.Fault
import CircuitForms.Convert.Remark
import CircuitForms.Dag.Basic
import CircuitForms.Policy.Basic
import CircuitForms.Vertex.Basic

/-! # From wires to vertices

Every operation and every end of a qubit wire becomes a vertex, every segment
of a qubit wire a link. An operation's pins are its qubits in order. Of the
classical wires only the destinations of measurements remain.
-/

namespace CircuitForms.Dag

/-- The pin through which a qubit's wire passes a node. -/
def pinAt (v : Nat) (node : Node) (q : Qubit) : Except ConversionFault Nat :=
  match node with
  | .input _ | .output _ => .ok 0
  | .op o =>
    if o.qargs.length ≤ 1 then .ok 0
    else match o.qargs.idxOf? q with
      | some pin => .ok pin
      | none => .error (.noPin v o.name q)

/-- The loss of an operation's condition, where the policy allows it. -/
def dropCondition (p : Policy) (v : Nat) (op : Operation) : Except ConversionFault (List Loss) :=
  match op.condition with
  | none => .ok []
  | some c =>
    if p.dropConditions then .ok [.condition v op.name c]
    else .error (.unsupportedUse v op.name (.condition c))

/-- An operation that the catalog lacks, as a box. -/
def boxed (v : Nat) (op : Operation) : Except ConversionFault (Descriptor × List Loss) :=
  if op.qargs.isEmpty then .error (.emptyBox v op.name)
  else if !op.cargs.isEmpty then .error (.unsupportedUse v op.name (.arguments op.cargs.length))
  else
    .ok (.onLines .box op.qargs.length (.description op.name),
      .meaning v op.name ::
        if op.params.isEmpty then [] else [.params v op.name op.params.length])

/-- A measurement, which carries where its bits are written. -/
def measured (d : Dag) (v : Nat) (op : Operation) : Except ConversionFault Descriptor :=
  if !op.cargs.isEmpty && op.cargs.length != op.qargs.length then
    .error (.unsupportedUse v op.name (.unequalCounts op.qargs.length op.cargs.length))
  else
    .ok (.onLines .measure op.qargs.length
      (.description (Destination.ofClbits op.cargs d.cregs).encode))

/-- An operation that the catalog has. -/
def listed (d : Dag) (v : Nat) (e : Entry) (op : Operation) :
    Except ConversionFault Descriptor := do
  e.check v op.qargs.length op.params.length
  if e.kind = .measure then d.measured v op
  else if !op.cargs.isEmpty then .error (.unsupportedUse v op.name (.arguments op.cargs.length))
  else .ok (.onLines e.kind op.qargs.length (.ofRotations (op.params.map .ofAngle)))

/-- The vertex of an operation and what it lacks of it. -/
def describe (d : Dag) (p : Policy) (v : Nat) (op : Operation) :
    Except ConversionFault (Descriptor × List Loss) := do
  match Catalog.standard.byName? op.name with
  | some e =>
    let dropped ← dropCondition p v op
    let descriptor ← d.listed v e op
    return (descriptor, dropped)
  | none =>
    if p.boxUnknown then
      let dropped ← dropCondition p v op
      let (descriptor, losses) ← boxed v op
      return (descriptor, dropped ++ losses)
    else throw (.unsupportedOperation v op.name)

/-- Whether a node has a vertex. -/
def isCarried (d : Dag) : Node → Bool
  | .input w | .output w => w.qubit?.any d.hasQubit
  | .op _ => true

/-- The vertex of a node, unless it has none. -/
def toVertex? (d : Dag) (p : Policy) (v : Nat) (node : Node) :
    Except ConversionFault (Option (Descriptor × List Loss)) :=
  if d.isCarried node then
    match node with
    | .input _ => .ok (some (.lineStart, []))
    | .output _ => .ok (some (.lineEnd, []))
    | .op o => (d.describe p v o).map some
  else .ok none

/-- The number of a node's vertex: that of the nodes with a vertex before it. -/
def vertexOf (d : Dag) (v : Nat) : Except ConversionFault Nat :=
  if (d.node? v).any d.isCarried then
    .ok ((d.graph.nodes.toList.take v).countP d.isCarried)
  else .error (.unmappedNode v)

def getNode (d : Dag) (v : Nat) : Except ConversionFault Node :=
  match d.node? v with
  | some node => .ok node
  | none => .error (.circuit (.invalidNode v))

/-- The link of a segment, unless its wire is classical. -/
def toLink? (d : Dag) (a : Arc Wire) : Except ConversionFault (Option Link) :=
  match a.label with
  | .clbit _ => .ok none
  | .qubit q => do
    let source ← d.getNode a.source
    let target ← d.getNode a.target
    let sourcePin ← pinAt a.source source q
    let targetPin ← pinAt a.target target q
    return some ⟨← d.vertexOf a.source, sourcePin, ← d.vertexOf a.target, targetPin⟩

/-- The edits that make a circuit of these vertices and links. -/
def assemble (vertices : List Descriptor) (links : List Link) : VertexCircuit.Edit Unit := do
  vertices.forM fun x => discard (VertexCircuit.addVertex x)
  links.forM VertexCircuit.addLink

/-- The circuit of vertices and what was lost on the way. -/
def toVertices (d : Dag) (p : Policy) : Except ConversionFault (VertexCircuit × List Loss) := do
  let nodes ← d.graph.nodes.toList.zipIdx.mapM fun (node, v) => d.toVertex? p v node
  let kept := nodes.reduceOption
  let links ← d.graph.arcs.toList.mapM d.toLink?
  let c ← (VertexCircuit.after (assemble (kept.map Prod.fst) links.reduceOption) {}).mapError
    ConversionFault.circuit
  return (c, kept.flatMap Prod.snd)

/-- The losses met at a node. A condition may be dropped before the operation turns out to be one
that cannot be carried. -/
def lossesAt (d : Dag) (p : Policy) (v : Nat) (node : Node) : List Loss :=
  match d.toVertex? p v node, node with
  | .ok kept, _ => (kept.map Prod.snd).getD []
  | .error _, .op o =>
    if p.boxUnknown || (Catalog.standard.byName? o.name).isSome then
      (dropCondition p v o).toOption.getD []
    else []
  | .error _, _ => []

def remarksAt (d : Dag) (p : Policy) (v : Nat) (node : Node) : List Remark :=
  (d.lossesAt p v node).map Remark.ofLoss ++
    match d.toVertex? p v node with
    | .ok (some (x, _)) => [⟨.detail, s!"node {v} -> " ++ x.text⟩]
    | _ => []

/-- The last remark of a conversion that succeeds. -/
def closingRemark (c : VertexCircuit) (losses : List Loss) : Remark :=
  ⟨.summary, s!"Translated DAG to {c.vertexCount} vertices, {c.linkCount} edges " ++
    s!"({losses.length} degradations)"⟩

/-- What is said on the way, up to the first node that cannot be carried. -/
def remarks (d : Dag) (p : Policy) : List Remark :=
  let (carried, rest) := d.graph.nodes.toList.zipIdx.span fun (node, v) =>
    (d.toVertex? p v node).isOk
  (carried ++ rest.take 1).flatMap (fun (node, v) => d.remarksAt p v node) ++
    match d.toVertices p with
    | .ok (c, losses) => [closingRemark c losses]
    | .error _ => []

end CircuitForms.Dag
