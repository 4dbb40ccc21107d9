/-! # Bits, registers and wires

Quantum and classical bits are addressed by register and index. A wire is
the line of one bit through a circuit.
-/

namespace CircuitForms

/-- Nodes and vertices are numbered by words of 32 bits. Of a greater number the low bits count. -/
def nodeNumber (n : Nat) : Nat :=
  n % (1 <<< 32)

structure Qubit where
  register : String
  index : Nat
  deriving DecidableEq, Repr

structure Clbit where
  register : String
  index : Nat
  deriving DecidableEq, Repr

structure Register where
  name : String
  size : Nat
  deriving DecidableEq, Repr

/-- The line of a quantum or classical bit. -/
inductive Wire where
  | qubit (q : Qubit)
  | clbit (c : Clbit)
  deriving DecidableEq, Repr

/-- The text of a bit: its register, then its index in brackets. -/
def bitText (register : String) (index : Nat) : String :=
  register ++ "[" ++ toString index ++ "]"

def Qubit.text (q : Qubit) : String := bitText q.register q.index

def Clbit.text (c : Clbit) : String := bitText c.register c.index

namespace Register

/-- The qubits of a quantum register, in index order. -/
def qubits (r : Register) : List Qubit :=
  (List.range r.size).map (Qubit.mk r.name)

/-- The bits of a classical register, in index order. -/
def clbits (r : Register) : List Clbit :=
  (List.range r.size).map (Clbit.mk r.name)

/-- The first register with a name. -/
def find? (rs : List Register) (name : String) : Option Register :=
  List.find? (·.name == name) rs

/-- The number of bits in some registers. -/
def total (rs : List Register) : Nat :=
  rs.foldr (·.size + ·) 0

end Register

/-- The two kinds of bits that registers hold. -/
inductive BitKind where
  | quantum
  | classical
  deriving DecidableEq, Repr

/-- The lines of the bits of a register. -/
def Register.wires : BitKind → Register → List Wire
  | .quantum, r => r.qubits.map .qubit
  | .classical, r => r.clbits.map .clbit

namespace Wire

def qubit? : Wire → Option Qubit
  | .qubit q => some q
  | .clbit _ => none

def text : Wire → String
  | .qubit q => q.text
  | .clbit c => c.text

end Wire

end CircuitForms
