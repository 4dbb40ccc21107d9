import CircuitForms.Grid.Basic

/-! # Laying out a circuit

All lines advance together. In each round every unfinished line looks at the
vertex it leads to next; a vertex with a line on each of its input pins is
placed, and its lines move on to it. A line is finished at an output. The
order in which the vertices of each round are looked at is a parameter.
-/

namespace CircuitForms

namespace Grid

/-- A qubit line as far as it is laid out. -/
structure Line where
  cells : List (Option Cell)
  /-- The last cell that is not empty. -/
  front : Cell
  finished : Bool := false
  deriving DecidableEq, Repr

/-- A line waiting at an input pin. -/
structure Arrival where
  line : Nat
  cell : Cell
  deriving DecidableEq, Repr

/-- The arrivals at one vertex. -/
structure Group where
  vertex : Nat
  arrivals : List Arrival
  deriving DecidableEq, Repr

structure State where
  lines : List Line
  steps : Nat
  /-- How many vertices are placed. -/
  placed : Nat
  deriving DecidableEq, Repr

namespace State

/-- The starts of the lines at step 0. -/
def start (c : VertexCircuit) : State :=
  ⟨c.inputs.map fun v => ⟨[some ⟨v, 0⟩], ⟨v, 0⟩, false⟩, if c.lineCount = 0 then 0 else 1,
    c.lineCount⟩

def isFinished (s : State) : Bool :=
  s.lines.all Line.finished

/-- Where a line leads next, nowhere if it is finished. -/
def arrival? (c : VertexCircuit) (l : Line) (line : Nat) :
    Except CircuitFault (Option Arrival) :=
  if l.finished then .ok none
  else
    match c.next? l.front with
    | some cell => .ok (some ⟨line, cell⟩)
    | none => .error (.notLayable (.unwired l.front.pin l.front.vertex line))

def arrivals (c : VertexCircuit) (s : State) : Except CircuitFault (List Arrival) :=
  (s.lines.zipIdx.mapM fun (l, line) => arrival? c l line).map List.reduceOption

/-- Arrivals by vertex, in the order of the first line at each. -/
def groups (arrivals : List Arrival) : List Group :=
  (arrivals.map (·.cell.vertex)).eraseDups.map fun v =>
    ⟨v, arrivals.filter (·.cell.vertex == v)⟩

/-- Whether a vertex has all its lines. One that has must let out as many as it takes in, unless
it ends them. -/
def isReady (c : VertexCircuit) (g : Group) : Except CircuitFault Bool :=
  match c.vertex? g.vertex with
  | none => .error (.invalidNode g.vertex)
  | some d =>
    if g.arrivals.length < d.inputs then .ok false
    else if d.kind ≠ .output ∧ d.inputs ≠ d.outputs then
      .error (.notLayable (.unequalPins g.vertex d.kind d.inputs d.outputs))
    else .ok true

/-- The groups that are ready, looked at in order. -/
def readyGroups (c : VertexCircuit) : List Group → Except CircuitFault (List Group)
  | [] => .ok []
  | g :: gs => do
    let ready ← isReady c g
    let rest ← readyGroups c gs
    return if ready then g :: rest else rest

/-- A line after a step in which these groups are placed. -/
def advance (c : VertexCircuit) (ready : List Group) (l : Line) (line : Nat) : Line :=
  match (ready.flatMap Group.arrivals).find? (·.line == line) with
  | none => { l with cells := l.cells ++ [none] }
  | some a =>
    if c.hasKind .output a.cell.vertex then
      { l with cells := l.cells ++ [some a.cell], finished := true }
    else ⟨l.cells ++ [some a.cell], a.cell, false⟩

/-- One round. -/
def round (order : List Group → List Group) (c : VertexCircuit) (s : State) :
    Except CircuitFault State := do
  let arrivals ← s.arrivals c
  let ready ← readyGroups c (order (groups arrivals))
  if ready.isEmpty then .error (.notLayable (.noneReady s.steps))
  else
    return ⟨s.lines.zipIdx.map fun (l, line) => advance c ready l line, s.steps + 1,
      s.placed + ready.length⟩

/-- Rounds until every line is finished. -/
def run (order : Nat → List Group → List Group) (c : VertexCircuit) :
    Nat → State → Except CircuitFault State
  | 0, s => if s.isFinished then .ok s else .error (.notLayable (.noneReady s.steps))
  | rounds + 1, s =>
    if s.isFinished then .ok s
    else do
      let s ← s.round (order s.steps) c
      run order c rounds s

end State

/-- The layout found when the vertices of the round of each step are looked at in an order. Every
round places a vertex, so there are no more rounds than vertices. -/
def layOutBy (order : Nat → List Group → List Group) (c : VertexCircuit) :
    Except CircuitFault Grid := do
  let s ← State.run order c c.vertexCount (State.start c)
  if s.placed = c.vertexCount then return ⟨s.lines.map Line.cells, s.steps⟩
  else .error (.notLayable (.unreachable (c.vertexCount - s.placed) c.vertexCount))

def layOut (c : VertexCircuit) : Except CircuitFault Grid :=
  layOutBy (fun _ => id) c

end Grid

end CircuitForms
