import CircuitForms.Catalog.Standard
import CircuitForms.Convert.Fault
import CircuitForms.Convert.Namer
import CircuitForms.Convert.Remark
import CircuitForms.Dag.Basic
import CircuitForms.Grid.Layout

/-! # From vertices to wires

The circuit is laid out on its lines, and its vertices become operations step
by step. Line `j` is qubit `j` of one register. Measurements bring their
classical registers along; those that record nothing get a fresh one each.
-/

namespace CircuitForms.VertexCircuit

/-- A circuit of wires in the making, the names that are left and what was said. -/
structure Restoration where
  dag : Dag := {}
  namer : Namer := {}
  remarks : List Remark := []
  deriving DecidableEq

/-- A step of a restoration. What it did before failing stays done. -/
abbrev Restore := ExceptT ConversionFault (StateM Restoration)

/-- A change to the circuit in the making. -/
def Restore.edit {α : Type} (e : Dag.Edit α) : Restore α := do
  let s ← get
  let (outcome, dag) := Dag.edit e s.dag
  set { s with dag }
  liftExcept (outcome.mapError ConversionFault.circuit)

def Restore.say (weight : Weight) (text : String) : Restore Unit :=
  modify fun s => { s with remarks := s.remarks ++ [⟨weight, text⟩] }

/-- A name that neither is reserved nor belongs to a register. -/
def Restore.freshName (reserved : List String) : Restore String := do
  let s ← get
  let taken := reserved ++ s.dag.cregs.map Register.name ++ s.dag.qregs.map Register.name
  let (name, namer) := s.namer.fresh taken
  set { s with namer }
  return name

/-- A size as a word of 32 bits. -/
def asWord (size : Nat) (fault : LayoutFault) : Except ConversionFault Nat :=
  if size < 1 <<< 32 then .ok size else .error (.circuit (.notLayable fault))

def destination (v : Nat) (x : Descriptor) : Except ConversionFault Destination :=
  (Destination.decode (x.description?.getD "") x.outputs).mapError (.invalidDestination v)

/-- The destination of every measurement, in vertex order. -/
def destinations (c : VertexCircuit) : Except ConversionFault (List (Nat × Destination)) :=
  (c.vertices.toList.zipIdx.filter (·.1.kind == .measure)).mapM fun (x, v) =>
    (destination v x).map (v, ·)

/-- The registers that some destination names. -/
def reservedNames (destinations : List (Nat × Destination)) : List String :=
  destinations.flatMap fun (_, d) => d.bits.map Clbit.register

/-- Sees to it that a classical register has at least a size. -/
def provide (r : Register) : Dag.Edit Unit := do
  let d ← get
  if (d.creg? r.name).isSome then Dag.growCreg r.name r.size
  else Dag.addCreg r

/-- The bits that a measurement writes, their registers being provided. -/
def writtenBits (reserved : List String) (v : Nat) (x : Descriptor) (d : Destination) :
    Restore (List Clbit) := do
  if d.isEmpty then
    let name ← Restore.freshName reserved
    let size ← liftExcept (asWord x.outputs .tooWide)
    let r : Register := ⟨name, size⟩
    Restore.say .detail ("synthesized register " ++ bitText name size ++ s!" for vertex {v}")
    Restore.edit (Dag.addCreg r)
    return r.clbits
  else
    Restore.edit (d.requiredSizes.forM provide)
    return d.bits

/-- The qubits on the lines through a vertex, in the order of its input pins. -/
def lineQubits (g : Grid) (register : String) (v : Nat) (x : Descriptor) :
    Except ConversionFault (List Qubit) :=
  (List.range x.inputs).mapM fun pin =>
    match g.lineThrough? ⟨v, pin⟩ with
    | some line => .ok ⟨register, line⟩
    | none => .error (.unroutedPin v pin)

/-- The name of the operation that a vertex stands for. -/
def operationName (v : Nat) (x : Descriptor) : Except ConversionFault String :=
  let name? := if x.kind = .box then x.description?
    else (Catalog.standard.byKind? x.kind).map Entry.name
  match name? with
  | some name => .ok name
  | none => .error (.noCounterpart v x.kind)

/-- Appends the operation that a vertex stands for. The ends of lines stand for none. -/
def restoreVertex (c : VertexCircuit) (g : Grid) (register : String)
    (destinations : List (Nat × Destination)) (v : Nat) : Restore Unit := do
  match c.vertex? v with
  | none => throw (.circuit (.invalidNode v))
  | some x =>
    if x.kind.isBoundary then return ()
    else
      let qargs ← liftExcept (lineQubits g register v x)
      let name ← liftExcept (operationName v x)
      let cargs ← match destinations.lookup v with
        | some d => writtenBits (reservedNames destinations) v x d
        | none => pure []
      let params := x.rotations.map Rotation.toAngle
      Restore.say .detail (s!"vertex {v} -> " ++ name)
      discard (Restore.edit (Dag.declareAppend ⟨name, qargs, cargs, params, none⟩))

def restore (c : VertexCircuit) (register : String) : Restore Unit := do
  let qubits ← liftExcept (asWord c.lineCount .tooManyLines)
  Restore.edit (Dag.addQreg ⟨register, qubits⟩)
  let g ← liftExcept ((Grid.layOut c).mapError ConversionFault.circuit)
  let destinations ← liftExcept c.destinations
  (g.slices.flatMap Slice.vertices).forM (c.restoreVertex g register destinations)
  let d := (← get).dag
  Restore.say .summary <| s!"Translated {c.vertexCount} vertices to DAG with {d.opCount} ops, " ++
    s!"{d.cregs.length} classical registers"

/-- The outcome of a restoration, and how far it came. -/
def restored (c : VertexCircuit) (register : String) (namer : Namer) :
    Except ConversionFault Unit × Restoration :=
  (ExceptT.run (c.restore register)).run { namer }

/-- The circuit of wires, with the names that are left even if there is none. -/
def toWiresWith (c : VertexCircuit) (register : String) (namer : Namer) :
    Except ConversionFault Dag × Namer :=
  let (outcome, s) := c.restored register namer
  (outcome.map fun _ => s.dag, s.namer)

/-- The circuit of wires, with fresh names from the first on. -/
def toWires (c : VertexCircuit) (register : String) : Except ConversionFault Dag :=
  (c.toWiresWith register {}).1

/-- What is said on the way to wires. -/
def remarks (c : VertexCircuit) (register : String) : List Remark :=
  (c.restored register {}).2.remarks

end CircuitForms.VertexCircuit
