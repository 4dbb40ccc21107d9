import CircuitForms.Vertex.Basic

/-! # Grids

A grid lays a circuit of vertices out on its qubit lines by time step. Step 0
holds the starts of the lines; every later step holds each vertex that all
its lines have come to.
-/

namespace CircuitForms

structure Grid where
  /-- For each line the cell of each step, `none` where nothing happens. -/
  lines : List (List (Option Cell))
  steps : Nat
  deriving DecidableEq, Repr

/-- The vertices of one step in the order of the first line they are on. -/
structure Slice where
  step : Nat
  vertices : List Nat
  deriving DecidableEq, Repr

namespace Grid

def lineCount (g : Grid) : Nat :=
  g.lines.length

def line? (g : Grid) (line : Nat) : Option (List (Option Cell)) :=
  g.lines[line]?

/-- What is on a line at a step. -/
def cell? (g : Grid) (line step : Nat) : Option Cell :=
  (g.lines[line]?).bind fun cells => (cells[step]?).join

/-- The cells of a step from the first line to the last. -/
def column (g : Grid) (step : Nat) : List Cell :=
  (List.range g.lineCount).filterMap fun line => g.cell? line step

def slice (g : Grid) (step : Nat) : Slice :=
  ⟨step, ((g.column step).map Cell.vertex).eraseDups⟩

def slices (g : Grid) : List Slice :=
  (List.range g.steps).map g.slice

/-- Every cell with its line. -/
def routes (g : Grid) : List (Cell × Nat) :=
  g.lines.zipIdx.flatMap fun (cells, line) => cells.reduceOption.map (·, line)

/-- The line that passes through a pin, the last one if there are several. -/
def lineThrough? (g : Grid) (cell : Cell) : Option Nat :=
  (g.routes.reverse.find? (·.1 == cell)).map Prod.snd

end Grid

end CircuitForms
