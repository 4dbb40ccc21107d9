import CircuitForms.Circuit.Fault
import CircuitForms.Gate.Descriptor

/-! # Circuits of vertices

Vertices have numbered pins on either side, and a link joins an output pin
of one to an input pin of another. A pin takes one link at most.
-/

namespace CircuitForms

structure Link where
  source : Nat
  sourcePin : Nat
  target : Nat
  targetPin : Nat
  deriving DecidableEq, Repr

/-- A vertex met through one of its pins. -/
structure Cell where
  vertex : Nat
  pin : Nat
  deriving DecidableEq, Repr

/-- The inputs among some vertices, in the order of their numbers. -/
def inputPlaces (vertices : Array Descriptor) : List Nat :=
  (List.range vertices.size).filter fun v => vertices[v]?.any (·.kind == .input)

theorem inputPlaces_push (vertices : Array Descriptor) (d : Descriptor) :
    inputPlaces (vertices.push d) = if d.kind = .input then inputPlaces vertices ++ [vertices.size]
      else inputPlaces vertices := by
  have hold : ∀ v ∈ List.range vertices.size,
      (vertices.push d)[v]?.any (·.kind == .input) = vertices[v]?.any (·.kind == .input) := by
    intro v hv
    simp [Array.getElem?_push, Nat.ne_of_lt (List.mem_range.mp hv)]
  rw [inputPlaces, Array.size_push, List.range_succ, List.filter_append, List.filter_congr hold,
    inputPlaces]
  by_cases h : d.kind = .input <;> simp [h]

theorem nil_eq_inputPlaces : [] = inputPlaces #[] := rfl

structure VertexCircuit where
  vertices : Array Descriptor := #[]
  /-- The links in the order they were added. -/
  links : Array Link := #[]
  /-- The starts of the qubit lines. Line `j` starts at the `j`-th of them. -/
  inputs : List Nat := []
  inputs_eq : inputs = inputPlaces vertices := by exact nil_eq_inputPlaces
  deriving DecidableEq

namespace VertexCircuit

/-- A change to a circuit. What it did before failing stays done. -/
abbrev Edit := ExceptT CircuitFault (StateM VertexCircuit)

def vertexCount (c : VertexCircuit) : Nat :=
  c.vertices.size

def linkCount (c : VertexCircuit) : Nat :=
  c.links.size

def vertex? (c : VertexCircuit) (v : Nat) : Option Descriptor :=
  c.vertices[v]?

/-- Where an output pin leads. -/
def next? (c : VertexCircuit) (out : Cell) : Option Cell :=
  (c.links.find? fun l => l.source == out.vertex && l.sourcePin == out.pin).map fun l =>
    ⟨l.target, l.targetPin⟩

/-- Where an input pin is led to from. -/
def previous? (c : VertexCircuit) (into : Cell) : Option Cell :=
  (c.links.find? fun l => l.target == into.vertex && l.targetPin == into.pin).map fun l =>
    ⟨l.source, l.sourcePin⟩

def hasKind (c : VertexCircuit) (kind : Kind) (v : Nat) : Bool :=
  (c.vertex? v).any (·.kind == kind)

/-- The number of qubit lines. -/
def lineCount (c : VertexCircuit) : Nat :=
  c.inputs.length

/-- The circuit with one more vertex. An input starts a line after those there are. -/
def push (c : VertexCircuit) (d : Descriptor) : VertexCircuit where
  vertices := c.vertices.push d
  links := c.links
  inputs := if d.kind = .input then c.inputs ++ [c.vertexCount] else c.inputs
  inputs_eq := by rw [inputPlaces_push, c.inputs_eq, vertexCount]

/-- Adds a vertex and gives its number. -/
def addVertex (d : Descriptor) : Edit Nat := do
  let c ← get
  set (c.push d)
  return c.vertexCount

/-- Why a link cannot be added, if so. -/
def fault? (c : VertexCircuit) (l : Link) : Option CircuitFault :=
  match c.vertex? l.source, c.vertex? l.target with
  | none, _ => some (.invalidNode l.source)
  | _, none => some (.invalidNode l.target)
  | some source, some target =>
    if source.outputs ≤ l.sourcePin then
      some (.invalidPin l.source l.sourcePin (.noOutput source.kind source.outputs))
    else if target.inputs ≤ l.targetPin then
      some (.invalidPin l.target l.targetPin (.noInput target.kind target.inputs))
    else if (c.next? ⟨l.source, l.sourcePin⟩).isSome then
      some (.invalidPin l.source l.sourcePin .outputTaken)
    else if (c.previous? ⟨l.target, l.targetPin⟩).isSome then
      some (.invalidPin l.target l.targetPin .inputTaken)
    else none

def addLink (l : Link) : Edit Unit := do
  let c ← get
  match c.fault? l with
  | some fault => throw fault
  | none => set { c with links := c.links.push l }

/-- The outcome of an edit and the circuit after it. -/
def edit {α : Type} (e : Edit α) (c : VertexCircuit) : Except CircuitFault α × VertexCircuit :=
  (ExceptT.run e).run c

/-- The circuit after an edit, unless it fails. -/
def after {α : Type} (e : Edit α) (c : VertexCircuit) : Except CircuitFault VertexCircuit :=
  let (outcome, c) := edit e c
  outcome.map fun _ => c

end VertexCircuit

end CircuitForms
