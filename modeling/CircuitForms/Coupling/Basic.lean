import CircuitForms.Digraph.Basic
import CircuitForms.Json.Basic

/-! # Couplings

A coupling tells which pairs of a device's qubits can interact, the first as
control and the second as target.
-/

namespace CircuitForms

/-- A graph with a node for each qubit and an arc for each pair. -/
structure Coupling where
  graph : Digraph Nat Unit := {}
  deriving DecidableEq, Repr

namespace Coupling

/-- No qubit has an index as great as this. -/
def limit : Nat := 1 <<< 16

/-- An index that is too great. -/
structure OutOfRange where
  index : Nat
  deriving DecidableEq, Repr

def OutOfRange.message (fault : OutOfRange) : String :=
  s!"Qubit {fault.index} exceeds the adjacency limit of {limit} qubits"

/-- The number of qubits, raised as far as a pair needs it. -/
def widen (n : Nat) (pair : Nat × Nat) : Except OutOfRange Nat :=
  let highest := max pair.1 pair.2
  if limit ≤ highest then .error ⟨highest⟩ else .ok (max n (highest + 1))

def addPair (g : Digraph Nat Unit) (pair : Nat × Nat) : Digraph Nat Unit :=
  if g.hasArc pair.1 pair.2 then g else g.addArc pair.1 pair.2 ()

/-- The graph of some qubits without a pair. -/
def unpaired (n : Nat) : Digraph Nat Unit :=
  (List.range n).foldl Digraph.addNode {}

/-- The coupling of a list of pairs. It has one qubit more than the greatest index. -/
def ofPairs (pairs : List (Nat × Nat)) : Except OutOfRange Coupling := do
  let n ← pairs.foldlM widen 0
  return ⟨pairs.foldl addPair (unpaired n)⟩

def qubitCount (c : Coupling) : Nat :=
  c.graph.size

/-- The pairs in the order first given, each once. -/
def pairs (c : Coupling) : List (Nat × Nat) :=
  c.graph.ends

def isConnected (c : Coupling) (a b : Nat) : Bool :=
  a < c.qubitCount && b < c.qubitCount && c.graph.hasArc a b

def insertAscending (n : Nat) : List Nat → List Nat
  | [] => [n]
  | m :: rest => if n ≤ m then n :: m :: rest else m :: insertAscending n rest

def ascending (ns : List Nat) : List Nat :=
  ns.foldr insertAscending []

/-- The targets that a control can interact with, in ascending order. -/
def successors (c : Coupling) (q : Nat) : List Nat :=
  if c.qubitCount ≤ q then [] else ascending (c.graph.neighbors q)

def toJson (c : Coupling) : Json :=
  .object [("num_qubits", .nat c.qubitCount),
    ("edges", .array (c.pairs.map fun (a, b) => .array [.nat a, .nat b]))]

end Coupling

end CircuitForms
