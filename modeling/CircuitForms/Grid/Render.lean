import CircuitForms.Grid.Basic
import CircuitForms.Text.Join

/-! # Grids as text

One row for each line; a cell shows its vertex, pin and kind.
-/

namespace CircuitForms.Grid

open Text

def cellText (c : VertexCircuit) : Option Cell → String
  | none => "-"
  | some cell =>
    s!"{cell.vertex}:{cell.pin} " ++ ((c.vertex? cell.vertex).map (·.kind.text)).getD "?"

def row (c : VertexCircuit) (g : Grid) (line : Nat) : String :=
  let cells := (List.range g.steps).map fun step => cellText c (g.cell? line step)
  padLeft 3 (toString line) ++ " | " ++ separated " | " cells

def rows (c : VertexCircuit) (g : Grid) : List String :=
  (List.range g.lineCount).map (g.row c)

end CircuitForms.Grid
