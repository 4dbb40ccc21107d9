/-! # Directed graphs with numbered arcs

Nodes are numbered as they are added. Arcs lie in slots: a new one takes the
slot after the last, and when one is removed the last takes its slot. Each arc
keeps the serial number it was added under, which no removal changes.
-/

namespace CircuitForms

structure Arc (β : Type) where
  source : Nat
  target : Nat
  label : β
  serial : Nat
  deriving DecidableEq, Repr

/-- The node an arc leaves and the node it enters. -/
def Arc.ends {β : Type} (a : Arc β) : Nat × Nat :=
  (a.source, a.target)

structure Digraph (α β : Type) where
  nodes : Array α := #[]
  arcs : Array (Arc β) := #[]
  /-- How many arcs were ever added. -/
  added : Nat := 0
  deriving DecidableEq, Repr

/-- An array without what is in slot `k`, which the last entry takes. -/
def swapRemove {α : Type} (as : Array α) (k : Nat) : Array α :=
  match as.back? with
  | some last => (as.setIfInBounds k last).pop
  | none => as

namespace Digraph

variable {α β : Type}

def size (g : Digraph α β) : Nat :=
  g.nodes.size

def addNode (g : Digraph α β) (a : α) : Digraph α β :=
  { g with nodes := g.nodes.push a }

def addArc (g : Digraph α β) (source target : Nat) (label : β) : Digraph α β :=
  { g with arcs := g.arcs.push ⟨source, target, label, g.added⟩, added := g.added + 1 }

def removeSlot (g : Digraph α β) (slot : Nat) : Digraph α β :=
  { g with arcs := swapRemove g.arcs slot }

/-- Removes an arc from the slot where it lies. -/
def removeArc [DecidableEq β] (g : Digraph α β) (a : Arc β) : Digraph α β :=
  match g.arcs.findIdx? (· == a) with
  | some slot => g.removeSlot slot
  | none => g

/-- Places an arc in a row of arcs by its serial number. -/
def insertBySerial (a : Arc β) : List (Arc β) → List (Arc β)
  | [] => [a]
  | b :: rest => if a.serial ≤ b.serial then a :: b :: rest else b :: insertBySerial a rest

/-- Arcs in the order they were added. -/
def bySerial : List (Arc β) → List (Arc β)
  | [] => []
  | a :: rest => insertBySerial a (bySerial rest)

/-- The arcs that leave a node, oldest first. -/
def outgoing (g : Digraph α β) (v : Nat) : List (Arc β) :=
  bySerial (g.arcs.toList.filter (·.source == v))

/-- The arcs that enter a node, in slot order. -/
def incoming (g : Digraph α β) (v : Nat) : List (Arc β) :=
  g.arcs.toList.filter (·.target == v)

/-- Whether an arc leads from one node to another. -/
def hasArc (g : Digraph α β) (source target : Nat) : Bool :=
  (g.outgoing source).any (·.target == target)

/-- Where the arcs that leave a node lead, newest first. -/
def neighbors (g : Digraph α β) (v : Nat) : List Nat :=
  ((g.outgoing v).map Arc.target).reverse

/-- The ends of the arcs, in slot order. -/
def ends (g : Digraph α β) : List (Nat × Nat) :=
  g.arcs.toList.map Arc.ends

end Digraph

end CircuitForms
