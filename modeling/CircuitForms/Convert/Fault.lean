import CircuitForms.Catalog.Basic
import CircuitForms.Circuit.Fault
import CircuitForms.Measurement.Destination

/-! # Why a circuit cannot be converted -/

namespace CircuitForms

/-- A use of classical bits that vertices have no place for. -/
inductive ClassicalUse where
  | condition (c : Condition)
  | arguments (n : Nat)
  | unequalCounts (qubits bits : Nat)
  deriving DecidableEq, Repr

inductive ConversionFault where
  | unsupportedOperation (node : Nat) (name : String)
  | unsupportedUse (node : Nat) (name : String) (use : ClassicalUse)
  | noPin (node : Nat) (name : String) (q : Qubit)
  | noCounterpart (vertex : Nat) (kind : Kind)
  | arity (node : Nat) (entry : Entry) (qubits params : Nat)
  | emptyBox (node : Nat) (name : String)
  | invalidDestination (vertex : Nat) (fault : Destination.Fault)
  | unmappedNode (node : Nat)
  | unroutedPin (vertex pin : Nat)
  | circuit (fault : CircuitFault)
  deriving DecidableEq, Repr

def ClassicalUse.message : ClassicalUse → String
  | condition c => "condition " ++ c.register ++ s!"=={c.value}"
  | arguments n => s!"{n} classical arguments"
  | unequalCounts qubits bits => s!"{qubits} qubits measured into {bits} bits"

namespace ConversionFault

def arityMessage (node : Nat) (name expected got : String) : String :=
  "Operation '" ++ name ++ s!"' at node {node} expects " ++ expected ++ ", got " ++ got

def message : ConversionFault → String
  | unsupportedOperation node name => "Unsupported operation '" ++ name ++ s!"' at node {node}"
  | unsupportedUse node name use =>
    "Unsupported classical usage in '" ++ name ++ s!"' at node {node}: " ++ use.message
  | noPin node name q =>
    "Qubit " ++ q.text ++ " is not an argument of '" ++ name ++ s!"' at node {node}"
  | noCounterpart vertex kind =>
    s!"Vertex {vertex} of kind " ++ kind.text ++ " has no DAG counterpart"
  | arity node e qubits params =>
    arityMessage node e.name (e.qubits.text ++ s!" and {e.params} params")
      s!"{qubits} qubits and {params} params"
  | emptyBox node name => arityMessage node name "at least 1 qubit" "0 qubits"
  | invalidDestination vertex fault =>
    s!"Invalid measurement destination at vertex {vertex}: " ++ fault.message
  | unmappedNode node => s!"DAG node {node} has no vertex"
  | unroutedPin vertex pin => s!"Port {pin} of vertex {vertex} is not on any qubit line"
  | circuit fault => "IR error: " ++ fault.message

/-- The message of a fault, then those of its causes. -/
def chain (fault : ConversionFault) : List String :=
  fault.message :: match fault with
    | circuit cause => [cause.message]
    | invalidDestination _ .malformed => []
    | invalidDestination _ cause => [cause.message]
    | _ => []

end ConversionFault

/-- Whether an operation at a node has the operand counts of an entry. -/
def Entry.check (e : Entry) (node qubits params : Nat) : Except ConversionFault Unit :=
  if e.accepts qubits params then .ok () else .error (.arity node e qubits params)

end CircuitForms
