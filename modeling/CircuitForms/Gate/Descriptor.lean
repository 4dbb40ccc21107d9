import CircuitForms.Gate.Kind
import CircuitForms.Gate.Rotation
import CircuitForms.Text.Join

/-! # Descriptors

What stands at a vertex: its kind, the numbers of its pins on either side and
what it carries besides.
-/

namespace CircuitForms

/-- What a vertex carries: rotations, or a text that names a boxed operation or tells where a
measurement is written. -/
inductive Payload where
  | none
  | single (r : Rotation)
  | multi (rs : List Rotation)
  | description (s : String)
  deriving DecidableEq

def Payload.alike : Payload → Payload → Bool
  | none, none => true
  | single r, single s => r.alike s
  | multi rs, multi ss => rs.isEqv ss Rotation.alike
  | description s, description t => s == t
  | _, _ => false

structure Descriptor where
  kind : Kind
  inputs : Nat
  outputs : Nat
  payload : Payload := .none
  deriving DecidableEq

namespace Descriptor

/-- The start of a qubit line. -/
def lineStart : Descriptor := ⟨.input, 0, 1, .none⟩

/-- The end of a qubit line. -/
def lineEnd : Descriptor := ⟨.output, 1, 0, .none⟩

/-- A vertex on `n` qubit lines. -/
def onLines (kind : Kind) (n : Nat) (payload : Payload := .none) : Descriptor :=
  ⟨kind, n, n, payload⟩

def rotations (d : Descriptor) : List Rotation :=
  match d.payload with
  | .single r => [r]
  | .multi rs => rs
  | .none | .description _ => []

def description? (d : Descriptor) : Option String :=
  match d.payload with
  | .description s => some s
  | _ => none

def text (d : Descriptor) : String :=
  d.kind.text ++ match d.payload with
    | .none => ""
    | .single r => "(" ++ r.text ++ ")"
    | .multi rs => "(" ++ Text.separated ", " (rs.map Rotation.text) ++ ")"
    | .description s => "[" ++ s ++ "]"

def alike (d e : Descriptor) : Bool :=
  d.kind == e.kind && d.inputs == e.inputs && d.outputs == e.outputs && d.payload.alike e.payload

end Descriptor

/-- The payload that holds some rotations, each number of them in its own way. -/
def Payload.ofRotations : List Rotation → Payload
  | [] => .none
  | [r] => .single r
  | rs => .multi rs

end CircuitForms
