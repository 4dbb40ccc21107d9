import CircuitForms.Dag.Order

/-! # Listings of circuits of wires

A listing holds the registers and the operations of a circuit. Reading one
declares each operation and appends it; writing one puts the operations in
topological order.
-/

namespace CircuitForms

structure DagListing where
  qregs : List Register
  cregs : List Register := []
  operations : List Operation := []
  deriving DecidableEq

namespace Dag

/-- The edits a listing stands for. -/
def enter (l : DagListing) : Edit Unit := do
  l.qregs.forM addQreg
  l.cregs.forM addCreg
  l.operations.forM fun op => discard (declareAppend op)

def ofListing (l : DagListing) : Except CircuitFault Dag :=
  after (enter l) {}

def toListing (d : Dag) : Except CircuitFault DagListing :=
  d.topologicalOps.map fun ops => ⟨d.qregs, d.cregs, ops.map Prod.snd⟩

end Dag

end CircuitForms
