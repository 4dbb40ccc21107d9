import CircuitForms.Yaml.Token

/-! # Nodes and anchors

A node is a scalar, which may carry an anchor, or a reference to one.
-/

namespace CircuitForms.Yaml

structure Scalar where
  style : Style
  text : String
  tag : Option (List UInt8) := none
  deriving DecidableEq, Repr

inductive Node where
  | scalar (anchor : Option String) (s : Scalar)
  | reference (name : String)
  deriving DecidableEq, Repr

/-- The anchors so far, the latest first. Each has as its number how many names there were before
it, so a name that is used again shares its number with the next new one. -/
structure Anchors where
  numbers : List (String × Nat) := []
  /-- The node at each anchor, none for the mapping itself. -/
  targets : List (Nat × Option Scalar) := []
  deriving DecidableEq, Repr

namespace Anchors

def add (a : Anchors) (name : String) (s : Option Scalar) : Anchors :=
  let n := a.numbers.length
  ⟨(name, n) :: a.numbers.filter (·.1 != name), (n, s) :: a.targets⟩

/-- A scalar, or the number of the one that is meant. -/
abbrev Link := Scalar ⊕ Nat

def link? (a : Anchors) : Node → Option (Link × Anchors)
  | .scalar anchor s => some (.inl s, anchor.elim a (a.add · (some s)))
  | .reference name => (a.numbers.lookup name).map fun n => (.inr n, a)

def links? (a : Anchors) : List (Node × Node) → Option (List (Link × Link) × Anchors)
  | [] => some ([], a)
  | (name, value) :: entries => do
    let (name, a) ← a.link? name
    let (value, a) ← a.link? value
    let (entries, a) ← a.links? entries
    return ((name, value) :: entries, a)

/-- The scalar that is meant: the last one with its number. -/
def target? (a : Anchors) : Link → Option Scalar
  | .inl s => some s
  | .inr n => (a.targets.lookup n).join

end Anchors

end CircuitForms.Yaml
