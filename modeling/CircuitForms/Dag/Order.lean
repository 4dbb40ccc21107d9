import CircuitForms.Dag.Basic
import CircuitForms.Digraph.Order

/-! # Order and depth of a circuit of wires

Where the graph has no cycle, its operations can be listed so that each wire
meets them in order, and every node has a level: the number of operations on
the longest way to it, itself included.
-/

namespace CircuitForms.Dag

/-- The nodes in topological order. -/
def order (d : Dag) : Except CircuitFault (List Nat) :=
  match d.graph.topologicalOrder? with
  | some order => .ok order
  | none => .error (.invalidWires .cycle)

/-- The operation at a node, with the node. -/
def numbered? (d : Dag) (v : Nat) : Option (Nat × Operation) :=
  ((d.node? v).bind Node.operation?).map (v, ·)

/-- The operations with their nodes in topological order. -/
def topologicalOps (d : Dag) : Except CircuitFault (List (Nat × Operation)) :=
  d.order.map (·.filterMap d.numbered?)

/-- The level of a node, given those of the nodes before it. -/
def levelAt (d : Dag) (levels : Array Nat) (v : Nat) : Nat :=
  let before := ((d.graph.incoming v).map fun a => levels.getD a.source 0).foldl max 0
  if (d.node? v).any Node.isOp then before + 1 else before

/-- The levels of all nodes, worked out in an order. -/
def levels (d : Dag) (order : List Nat) : Array Nat :=
  order.foldl (fun levels v => levels.setIfInBounds v (d.levelAt levels v))
    (Array.replicate d.nodeCount 0)

/-- The number of operations on the longest way through the circuit. -/
def depth (d : Dag) : Except CircuitFault Nat :=
  d.order.map fun order => (d.levels order).toList.foldl max 0

/-- Follows a wire from a node until it ends, newest segment first. -/
def follow (d : Dag) (w : Wire) (finish : Nat) : Nat → Nat → Except CircuitFault Unit
  | steps, v =>
    if v = finish then .ok ()
    else
      match (d.graph.outgoing v).reverse.find? (·.label == w) with
      | none => .error (.invalidWires (.broken w v))
      | some a =>
        match steps with
        | 0 => .error (.invalidWires (.endless w))
        | steps + 1 => d.follow w finish steps a.target

/-- Whether a wire that starts at a node has an end and leads there. -/
def checkWire (d : Dag) (w : Wire) (start : Nat) : Except CircuitFault Unit :=
  match d.outputs.get? w with
  | none => .error (.invalidWires (.noOutput w))
  | some finish => d.follow w finish d.nodeCount start

/-- Whether the graph has no cycle, every wire with an end has a start, and every wire with a start
leads to its end. -/
def verify (d : Dag) : Except CircuitFault Unit := do
  if d.graph.isCyclic then throw (.invalidWires .cycle)
  d.outputs.keys.forM fun w =>
    if (d.inputs.get? w).isSome then .ok () else .error (.invalidWires (.noInput w))
  d.inputs.entries.forM fun entry => d.checkWire entry.1 entry.2

end CircuitForms.Dag
