import CircuitForms.Digraph.Basic

/-! # Topological order

A depth-first walk visits the nodes in number order and the successors of a
node oldest arc first. The nodes in the reverse of the order in which the
walk leaves them are a topological order if the graph has one, that is, if
every arc goes forward in it.
-/

namespace CircuitForms.Digraph

variable {α β : Type}

/-- How far a depth-first walk has come. -/
structure Walk where
  /-- The nodes entered. -/
  entered : List Nat := []
  /-- The nodes left, the last one first. -/
  left : List Nat := []
  deriving DecidableEq, Repr

/-- Walks through what is reachable from a node, at most `depth` nodes deep. -/
def walkFrom (g : Digraph α β) : Nat → Nat → Walk → Walk
  | 0, _, w => w
  | depth + 1, v, w =>
    if w.entered.contains v then w
    else
      let inside := (g.outgoing v).foldl (fun w a => walkFrom g depth a.target w)
        { w with entered := v :: w.entered }
      { inside with left := v :: inside.left }

/-- The nodes in the reverse of the order in which a walk through the whole graph leaves them. -/
def leavingOrder (g : Digraph α β) : List Nat :=
  ((List.range g.size).foldl (fun w v => g.walkFrom g.size v w) {}).left

/-- Whether every arc goes forward in an order. -/
def respects (g : Digraph α β) (order : List Nat) : Bool :=
  g.arcs.toList.all fun a => order.idxOf a.source < order.idxOf a.target

/-- A topological order, unless the graph has a cycle. -/
def topologicalOrder? (g : Digraph α β) : Option (List Nat) :=
  let order := g.leavingOrder
  if g.respects order then some order else none

/-- Whether no order makes every arc go forward. -/
def isCyclic (g : Digraph α β) : Bool :=
  g.topologicalOrder?.isNone

end CircuitForms.Digraph
