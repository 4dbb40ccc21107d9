import CircuitForms.Circuit.Bit
import CircuitForms.Json.Reader

/-! # Documents of bits, registers and wires -/

namespace CircuitForms

open Json Reader

section Labelled

variable {α : Type}

/-- A record of a name and a word of 32 bits. -/
def labelled (nameKey wordKey name : String) (n : Nat) : Json :=
  .object [(nameKey, .string name), (wordKey, .nat n)]

/-- Reads such a record, whose unknown members are refused if it is closed. -/
def readLabelled (closed : Bool) (nameKey wordKey : String) (make : String → Nat → α) :
    Reader α :=
  record closed [nameKey, wordKey] fun
    | room, [name, n] => do
      return make (← required string room name) (← required word room n)
    | _, _ => none

end Labelled

namespace Qubit

def toJson (q : Qubit) : Json :=
  labelled "register" "index" q.register q.index

def read : Reader Qubit :=
  readLabelled false "register" "index" Qubit.mk

end Qubit

namespace Clbit

def toJson (c : Clbit) : Json :=
  labelled "register" "index" c.register c.index

def readAs (closed : Bool) : Reader Clbit :=
  readLabelled closed "register" "index" Clbit.mk

def read : Reader Clbit := readAs false

end Clbit

namespace Register

def toJson (r : Register) : Json :=
  labelled "name" "size" r.name r.size

def readAs (closed : Bool) : Reader Register :=
  readLabelled closed "name" "size" Register.mk

def read : Reader Register := readAs false

end Register

namespace Wire

def toJson : Wire → Json
  | .qubit q => .object [("Qubit", q.toJson)]
  | .clbit c => .object [("Clbit", c.toJson)]

def read : Reader Wire :=
  tagged fun room tag content =>
    if tag = "Qubit" then (required Qubit.read room content).map .qubit
    else if tag = "Clbit" then (required Clbit.read room content).map .clbit
    else none

end Wire

end CircuitForms
