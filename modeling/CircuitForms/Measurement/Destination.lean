import CircuitForms.Document.Bit
import CircuitForms.Json.Parser
import CircuitForms.Json.Printer
import CircuitForms.Text.Blank

/-! # Where a measurement is written

A vertex has no classical wires, so a measurement carries the bits it writes
and the sizes of their registers as a document. A text of white space means
that nothing is recorded.
-/

namespace CircuitForms

open Json Reader

structure Destination where
  bits : List Clbit := []
  registers : List Register := []
  deriving DecidableEq, Repr

namespace Destination

inductive Fault where
  | malformed
  | bitCount (outputs bits : Nat)
  | indexOutOfRange (c : Clbit) (size : Nat)
  | indexTooLarge (c : Clbit)
  | duplicateRegister (name : String)
  | duplicateBit (c : Clbit)
  deriving DecidableEq, Repr

def Fault.message : Fault → String
  | malformed => "malformed destination: "
  | bitCount outputs bits =>
    s!"destination lists {bits} bits but the measurement has {outputs} outputs"
  | indexOutOfRange c size => "bit " ++ c.text ++ s!" is outside register of size {size}"
  | indexTooLarge c => "bit " ++ c.text ++ " has no addressable register size"
  | duplicateRegister name => "register '" ++ name ++ "' is declared twice"
  | duplicateBit c => "bit " ++ c.text ++ " is written twice"

/-- The greatest word of 32 bits. No register has a bit of this index. -/
def greatest : Nat := (1 <<< 32) - 1

/-- One past the greatest index used in a register, itself at most the greatest word. -/
def usedSize (bits : List Clbit) (register : String) : Nat :=
  ((bits.filter (·.register == register)).map fun c => min (c.index + 1) greatest).foldl max 0

/-- The registers of some bits in the order of their first use. -/
def usedRegisters : List Clbit → List String
  | [] => []
  | c :: rest => c.register :: (usedRegisters rest).filter (· ≠ c.register)

/-- The destination of a measurement, with the sizes that some registers have. -/
def ofClbits (bits : List Clbit) (cregs : List Register) : Destination where
  bits
  registers := (usedRegisters bits).map fun name =>
    ⟨name, ((Register.find? cregs name).map Register.size).getD (usedSize bits name)⟩

def isEmpty (d : Destination) : Bool :=
  d.bits.isEmpty

/-- The recorded size of a register. -/
def recordedSize (d : Destination) (name : String) : Nat :=
  ((Register.find? d.registers name).map Register.size).getD 0

/-- The least size of each register that is written to, in the order of first use. -/
def requiredSizes (d : Destination) : List Register :=
  (usedRegisters d.bits).map fun name => ⟨name, max (usedSize d.bits name) (d.recordedSize name)⟩

/-- The first fault of some bits, given those before them. -/
def bitFault? (registers : List Register) : List Clbit → List Clbit → Option Fault
  | _, [] => none
  | seen, c :: rest =>
    if c.index = greatest then some (.indexTooLarge c)
    else match (Register.find? registers c.register).filter (·.size ≤ c.index) with
      | some r => some (.indexOutOfRange c r.size)
      | none => if c ∈ seen then some (.duplicateBit c) else bitFault? registers (c :: seen) rest

/-- The first name of a row of registers that stands in it before. -/
def repeatedName? : List String → List Register → Option String
  | _, [] => none
  | seen, r :: rest => if r.name ∈ seen then some r.name else repeatedName? (r.name :: seen) rest

/-- Why a destination cannot be that of a measurement with some outputs, if so. -/
def fault? (outputs : Nat) (d : Destination) : Option Fault :=
  if !d.isEmpty && d.bits.length != outputs then some (.bitCount outputs d.bits.length)
  else ((repeatedName? [] d.registers).map Fault.duplicateRegister).or
    (bitFault? d.registers [] d.bits)

def toJson (d : Destination) : Json :=
  .object [("bits", .array (d.bits.map Clbit.toJson)),
    ("registers", .array (d.registers.map Register.toJson))]

/-- Reads a destination. Members it does not know are refused. -/
def read : Reader Destination :=
  record true ["bits", "registers"] fun
    | room, [bits, registers] => do
      return ⟨← optional (list (Clbit.readAs true)) [] room bits,
        ← optional (list (Register.readAs true)) [] room registers⟩
    | _, _ => none

def encode (d : Destination) : String :=
  d.toJson.compact

/-- The valid destination that a text describes. -/
def decode (text : String) (outputs : Nat) : Except Fault Destination :=
  if (Text.strip text.toList).isEmpty then .ok {}
  else match (parse? text).bind (Reader.run read) with
    | none => .error .malformed
    | some d => match d.fault? outputs with
      | some fault => .error fault
      | none => .ok d

end Destination

end CircuitForms
