import CircuitForms.Circuit.Operation
import CircuitForms.Gate.Kind

/-! # What can be wrong with a circuit

The causes for which a circuit refuses a change or a reading, and their
messages.
-/

namespace CircuitForms

/-- What is wrong with the structure of a circuit of wires. -/
inductive WireFault where
  | cycle
  /-- A table was asked for the node of a wire that it does not have, and the program stops. -/
  | unrecorded (w : Wire)
  | noLastSegment (w : Wire)
  | noInput (w : Wire)
  | noOutput (w : Wire)
  | broken (w : Wire) (node : Nat)
  | endless (w : Wire)
  deriving DecidableEq, Repr

/-- What is wrong with the structure of a circuit of vertices. -/
inductive LayoutFault where
  | tooManyLines
  | unwired (pin vertex line : Nat)
  | unequalPins (vertex : Nat) (kind : Kind) (inputs outputs : Nat)
  | noneReady (step : Nat)
  | unreachable (missing total : Nat)
  | tooWide
  deriving DecidableEq, Repr

/-- Why a pin cannot be wired. -/
inductive PinFault where
  | noOutput (kind : Kind) (outputs : Nat)
  | noInput (kind : Kind) (inputs : Nat)
  | outputTaken
  | inputTaken
  deriving DecidableEq, Repr

inductive CircuitFault where
  | qubitNotFound (q : Qubit) (operation : String)
  | clbitNotFound (c : Clbit) (operation : String)
  | duplicateQubit (q : Qubit) (operation : String)
  | duplicateRegister (name : String)
  | registerNotFound (name : String)
  | basisMismatch (name : String) (declared used : Signature)
  | undeclaredOperation (name : String)
  | invalidWires (fault : WireFault)
  | notLayable (fault : LayoutFault)
  | invalidPin (vertex pin : Nat) (fault : PinFault)
  | invalidNode (index : Nat)
  deriving DecidableEq, Repr

def WireFault.message : WireFault → String
  | cycle => "Graph contains a cycle"
  | unrecorded _ => "no entry found for key"
  | noLastSegment w => "Missing edge from predecessor to output for wire " ++ w.text
  | noInput w => "Wire " ++ w.text ++ " has an Out node but no In node"
  | noOutput w => "Wire " ++ w.text ++ " has an In node but no Out node"
  | broken w node => "Wire " ++ w.text ++ s!" is broken: no outgoing edge from node {node}"
  | endless w => "Wire " ++ w.text ++ " has too many steps (possible infinite loop)"

def LayoutFault.message : LayoutFault → String
  | tooManyLines => "too many qubit lines"
  | unwired pin vertex line => s!"output port {pin} of vertex {vertex} on line {line} is not wired"
  | unequalPins vertex kind inputs outputs =>
    s!"vertex {vertex} (" ++ kind.text ++ s!") has {inputs} inputs but {outputs} outputs"
  | noneReady step => s!"no vertex ready at step {step}; circuit is not layerable"
  | unreachable missing total =>
    s!"{missing} of {total} vertices are not reachable from any input"
  | tooWide => "measurement too wide"

def PinFault.message : PinFault → String
  | noOutput kind outputs => kind.text ++ s!" has {outputs} output ports"
  | noInput kind inputs => kind.text ++ s!" has {inputs} input ports"
  | outputTaken => "output port already wired"
  | inputTaken => "input port already wired"

/-- The addition to a message about an operand. -/
def operationNote (operation : String) : String :=
  " (operation: " ++ operation ++ ")"

def CircuitFault.message : CircuitFault → String
  | qubitNotFound q op => "Qubit " ++ q.text ++ " not found in circuit" ++ operationNote op
  | clbitNotFound c op => "Classical bit " ++ c.text ++ " not found in circuit" ++ operationNote op
  | duplicateQubit q op => "Duplicate qubit " ++ q.text ++ " in operation" ++ operationNote op
  | duplicateRegister name => "Register '" ++ name ++ "' already exists"
  | registerNotFound name => "Register '" ++ name ++ "' not found"
  | basisMismatch name declared used =>
    "Operation '" ++ name ++ "' declared with " ++ declared.text ++ " but used with " ++ used.text
  | undeclaredOperation name =>
    "Operation '" ++ name ++ "' is not declared in the circuit basis"
  | invalidWires fault => "Invalid DAG structure: " ++ fault.message
  | notLayable fault => "Invalid vertex circuit: " ++ fault.message
  | invalidPin vertex pin fault => s!"Invalid port {pin} on vertex {vertex}: " ++ fault.message
  | invalidNode index => s!"Invalid node index {index}"

end CircuitForms
