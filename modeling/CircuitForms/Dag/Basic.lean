import CircuitForms.Circuit.Fault
import CircuitForms.Digraph.Basic
import CircuitForms.Table

/-! # Circuits of wires

A circuit of wires is a graph whose nodes are the two ends of every wire and
the operations, and whose arcs are the segments of the wires. Tables say at which
nodes a wire starts and ends, and which node is its front: the last before the
end. A circuit grows by edits: registers are added or enlarged, signatures
declared, operations appended at the ends of their wires.
-/

namespace CircuitForms

/-- A node of a circuit of wires. -/
inductive Node where
  | input (w : Wire)
  | output (w : Wire)
  | op (o : Operation)
  deriving DecidableEq

namespace Node

def operation? : Node → Option Operation
  | .op o => some o
  | _ => none

/-- The wire that starts or ends at a node. -/
def wire? : Node → Option Wire
  | .input w | .output w => some w
  | .op _ => none

def isInput : Node → Bool
  | .input _ => true
  | _ => false

def isOutput : Node → Bool
  | .output _ => true
  | _ => false

def isOp : Node → Bool
  | .op _ => true
  | _ => false

end Node

structure Dag where
  graph : Digraph Node Wire := {}
  qregs : List Register := []
  cregs : List Register := []
  inputs : Table Wire Nat := {}
  outputs : Table Wire Nat := {}
  fronts : Table Wire Nat := {}
  /-- The declared signatures, at most one for each name. -/
  basis : List Signature := []
  deriving DecidableEq

namespace Dag

/-- A change to a circuit. What it did before failing stays done. -/
abbrev Edit := ExceptT CircuitFault (StateM Dag)

def qreg? (d : Dag) (name : String) : Option Register :=
  Register.find? d.qregs name

def creg? (d : Dag) (name : String) : Option Register :=
  Register.find? d.cregs name

def signature? (d : Dag) (name : String) : Option Signature :=
  d.basis.find? (·.name == name)

/-- The qubits, register by register. -/
def qubits (d : Dag) : List Qubit :=
  d.qregs.flatMap Register.qubits

/-- The classical bits, register by register. -/
def clbits (d : Dag) : List Clbit :=
  d.cregs.flatMap Register.clbits

def hasQubit (d : Dag) (q : Qubit) : Bool :=
  (d.qreg? q.register).any fun r => q.index < r.size

def hasClbit (d : Dag) (c : Clbit) : Bool :=
  (d.creg? c.register).any fun r => c.index < r.size

def qubitCount (d : Dag) : Nat :=
  Register.total d.qregs

def clbitCount (d : Dag) : Nat :=
  Register.total d.cregs

def nodeCount (d : Dag) : Nat :=
  d.graph.size

def segmentCount (d : Dag) : Nat :=
  d.graph.arcs.size

/-- The number of operations: what there is besides the two ends of every wire. -/
def opCount (d : Dag) : Nat :=
  d.graph.size - 2 * d.inputs.size

def node? (d : Dag) (v : Nat) : Option Node :=
  d.graph.nodes[v]?

/-- The newest segment of a wire that leads from one node to another. -/
def segment? (d : Dag) (w : Wire) (source target : Nat) : Option (Arc Wire) :=
  (d.graph.outgoing source).reverse.find? fun a => a.label == w && a.target == target

/-- The circuit with one more wire, on which nothing happens. -/
def addWire (d : Dag) (w : Wire) : Dag :=
  let start := d.graph.size
  { d with
    graph := ((d.graph.addNode (.input w)).addNode (.output w)).addArc start (start + 1) w
    inputs := d.inputs.insert w start
    outputs := d.outputs.insert w (start + 1)
    fronts := d.fronts.insert w start }

def registers (d : Dag) : BitKind → List Register
  | .quantum => d.qregs
  | .classical => d.cregs

def withRegister (d : Dag) : BitKind → Register → Dag
  | .quantum, r => { d with qregs := d.qregs ++ [r] }
  | .classical, r => { d with cregs := d.cregs ++ [r] }

def addRegister (k : BitKind) (r : Register) : Edit Unit := do
  let d ← get
  if (Register.find? (d.registers k) r.name).isSome then throw (.duplicateRegister r.name)
  else set (((r.wires k).foldl addWire d).withRegister k r)

def addQreg : Register → Edit Unit :=
  addRegister .quantum

def addCreg : Register → Edit Unit :=
  addRegister .classical

/-- The registers with the first of a name enlarged to a size. -/
def enlarge (name : String) (size : Nat) : List Register → List Register
  | [] => []
  | r :: rs =>
    if r.name = name then { r with size := max r.size size } :: rs
    else r :: enlarge name size rs

/-- Enlarges a classical register. A register never shrinks. -/
def growCreg (name : String) (size : Nat) : Edit Unit := do
  let d ← get
  match d.creg? name with
  | none => throw (.registerNotFound name)
  | some r =>
    let new := (List.range' r.size (size - r.size)).map fun i => Wire.clbit ⟨name, i⟩
    set { new.foldl addWire d with cregs := enlarge name size d.cregs }

/-- Declares a signature. A name keeps the one it was first declared with. -/
def declare (s : Signature) : Edit Unit := do
  let d ← get
  match d.signature? s.name with
  | none => set { d with basis := d.basis ++ [s] }
  | some declared =>
    if declared = s then pure () else throw (.basisMismatch s.name declared s)

/-- The first member of a list that stands in it before. -/
def firstRepeated? {α : Type} [DecidableEq α] : List α → List α → Option α
  | _, [] => none
  | seen, a :: rest => if a ∈ seen then some a else firstRepeated? (a :: seen) rest

def signatureFault? (d : Dag) (op : Operation) : Option CircuitFault :=
  match d.signature? op.name with
  | none => some (.undeclaredOperation op.name)
  | some declared =>
    if declared = op.signature then none
    else some (.basisMismatch op.name declared op.signature)

def conditionFault? (d : Dag) (op : Operation) : Option CircuitFault :=
  match op.condition with
  | none => none
  | some c => if (d.creg? c.register).isSome then none else some (.registerNotFound c.register)

/-- Why an operation cannot be appended, if so. -/
def fault? (d : Dag) (op : Operation) : Option CircuitFault :=
  (d.signatureFault? op).or <|
  ((op.qargs.find? (!d.hasQubit ·)).map (.qubitNotFound · op.name)).or <|
  ((op.cargs.find? (!d.hasClbit ·)).map (.clbitNotFound · op.name)).or <|
  ((firstRepeated? [] op.qargs).map (.duplicateQubit · op.name)).or <|
  d.conditionFault? op

/-- What a table has for a wire. -/
def recorded (t : Table Wire Nat) (w : Wire) : Edit Nat :=
  match t.get? w with
  | some v => pure v
  | none => throw (.invalidWires (.unrecorded w))

/-- Leads the end of a wire through a node, which becomes its front: the segment from the front it
had to its end gives way to one into the node and one out of it. -/
def extend (v : Nat) (w : Wire) : Edit Unit := do
  let d ← get
  let finish ← recorded d.outputs w
  let front ← recorded d.fronts w
  match d.segment? w front finish with
  | none => throw (.invalidWires (.noLastSegment w))
  | some a =>
    set { d with
      graph := ((d.graph.removeArc a).addArc front v w).addArc v finish w
      fronts := d.fronts.insert w v }

/-- Appends an operation at the ends of its wires and gives its node. -/
def append (op : Operation) : Edit Nat := do
  let d ← get
  match d.fault? op with
  | some fault => throw fault
  | none =>
    let v := d.graph.size
    set { d with graph := d.graph.addNode (.op op) }
    op.wires.forM (extend v)
    return v

/-- Declares the signature of an operation and appends it. -/
def declareAppend (op : Operation) : Edit Nat := do
  declare op.signature
  append op

/-- The outcome of an edit and the circuit after it. -/
def edit {α : Type} (e : Edit α) (d : Dag) : Except CircuitFault α × Dag :=
  (ExceptT.run e).run d

/-- The circuit after an edit, unless it fails. -/
def after {α : Type} (e : Edit α) (d : Dag) : Except CircuitFault Dag :=
  let (outcome, d) := edit e d
  outcome.map fun _ => d

end Dag

end CircuitForms
