import CircuitForms.Circuit.Angle
import CircuitForms.Circuit.Bit

/-! # Operations

An operation is a name with its operands. How many operands of each sort it
has is its signature, which a circuit declares once for each name.
-/

namespace CircuitForms

/-- A guard: the operation takes place when the register holds the value. -/
structure Condition where
  register : String
  value : Nat
  deriving DecidableEq, Repr

structure Operation where
  name : String
  qargs : List Qubit
  cargs : List Clbit := []
  params : List Angle := []
  condition : Option Condition := none
  deriving DecidableEq

/-- The operand counts declared for a name. -/
structure Signature where
  name : String
  qubits : Nat
  clbits : Nat
  params : Nat
  deriving DecidableEq, Repr

def Signature.text (s : Signature) : String :=
  s!"{s.qubits} qubits, {s.clbits} clbits, {s.params} params"

namespace Operation

def measurementName : String := "measure"

/-- The measurement of each qubit into the bit at the same place. -/
def measurement (qargs : List Qubit) (cargs : List Clbit) : Operation :=
  ⟨measurementName, qargs, cargs, [], none⟩

def isMeasurement (op : Operation) : Bool :=
  op.name == measurementName

def isConditional (op : Operation) : Bool :=
  op.condition.isSome

def signature (op : Operation) : Signature :=
  ⟨op.name, op.qargs.length, op.cargs.length, op.params.length⟩

/-- The wires an operation acts on, quantum ones first. -/
def wires (op : Operation) : List Wire :=
  op.qargs.map .qubit ++ op.cargs.map .clbit

end Operation

end CircuitForms
