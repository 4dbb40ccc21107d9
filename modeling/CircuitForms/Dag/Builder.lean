import CircuitForms.Dag.Basic

/-! # Building circuits step by step

Every step declares what it appends, so signatures need no thought. A step
that fails to append leaves the signature declared.
-/

namespace CircuitForms.Builder

open Dag

/-- A circuit with a quantum register `q` and, if it has classical bits, a register `c`. -/
def ofSize (qubits clbits : Nat) : Edit Unit := do
  addQreg ⟨"q", qubits⟩
  if 0 < clbits then addCreg ⟨"c", clbits⟩

def apply (op : Operation) : Edit Unit :=
  discard (declareAppend op)

def gate (name : String) (qargs : List Qubit) (params : List Angle := []) : Edit Unit :=
  apply ⟨name, qargs, [], params, none⟩

/-- A gate guarded by the value of a register. -/
def conditional (name : String) (qargs : List Qubit) (register : String) (value : Nat) :
    Edit Unit :=
  apply ⟨name, qargs, [], [], some ⟨register, value⟩⟩

def h (q : Qubit) : Edit Unit := gate "h" [q]

def x (q : Qubit) : Edit Unit := gate "x" [q]

def y (q : Qubit) : Edit Unit := gate "y" [q]

def z (q : Qubit) : Edit Unit := gate "z" [q]

def s (q : Qubit) : Edit Unit := gate "s" [q]

def t (q : Qubit) : Edit Unit := gate "t" [q]

def rx (theta : Angle) (q : Qubit) : Edit Unit := gate "rx" [q] [theta]

def ry (theta : Angle) (q : Qubit) : Edit Unit := gate "ry" [q] [theta]

def rz (theta : Angle) (q : Qubit) : Edit Unit := gate "rz" [q] [theta]

def u3 (theta phi lambda : Angle) (q : Qubit) : Edit Unit := gate "u3" [q] [theta, phi, lambda]

def cx (control target : Qubit) : Edit Unit := gate "cx" [control, target]

def cz (control target : Qubit) : Edit Unit := gate "cz" [control, target]

def ccx (first second target : Qubit) : Edit Unit := gate "ccx" [first, second, target]

/-- The measurement of a qubit into a classical bit. -/
def measure (q : Qubit) (c : Clbit) : Edit Unit :=
  apply (Operation.measurement [q] [c])

end CircuitForms.Builder
