/-! # Kinds of vertices -/

namespace CircuitForms

/-- What a vertex does. `input` and `output` are the ends of a qubit line, `box` stands for an
operation known by name only. -/
inductive Kind where
  | input
  | output
  | noop
  | x
  | y
  | z
  | s
  | sdg
  | t
  | tdg
  | v
  | vdg
  | h
  | rx
  | ry
  | rz
  | u1
  | u2
  | u3
  | cx
  | cy
  | cz
  | ch
  | ccx
  | crz
  | cu1
  | cu3
  | phaseGadget
  | symbolicRz
  | measure
  | box
  | swap
  | reset
  | barrier
  | zzPhase
  deriving DecidableEq, Repr

namespace Kind

def text : Kind → String
  | input => "Input"
  | output => "Output"
  | noop => "Noop"
  | x => "X"
  | y => "Y"
  | z => "Z"
  | s => "S"
  | sdg => "Sdg"
  | t => "T"
  | tdg => "Tdg"
  | v => "V"
  | vdg => "Vdg"
  | h => "H"
  | rx => "Rx"
  | ry => "Ry"
  | rz => "Rz"
  | u1 => "U1"
  | u2 => "U2"
  | u3 => "U3"
  | cx => "CX"
  | cy => "CY"
  | cz => "CZ"
  | ch => "CH"
  | ccx => "CCX"
  | crz => "CRz"
  | cu1 => "CU1"
  | cu3 => "CU3"
  | phaseGadget => "PhaseGadget"
  | symbolicRz => "SymbolicRz"
  | measure => "Measure"
  | box => "Box"
  | swap => "Swap"
  | reset => "Reset"
  | barrier => "Barrier"
  | zzPhase => "ZZPhase"

def all : List Kind :=
  [input, output, noop, x, y, z, s, sdg, t, tdg, v, vdg, h, rx, ry, rz, u1, u2, u3, cx, cy, cz, ch,
    ccx, crz, cu1, cu3, phaseGadget, symbolicRz, measure, box, swap, reset, barrier, zzPhase]

/-- The kind with a text. -/
def ofText? (s : String) : Option Kind :=
  all.find? (·.text == s)

theorem ofText?_text (k : Kind) : ofText? k.text = some k := by
  cases k <;> decide

/-- Whether a kind is an end of a qubit line. -/
def isBoundary : Kind → Bool
  | input | output => true
  | _ => false

end Kind

end CircuitForms
