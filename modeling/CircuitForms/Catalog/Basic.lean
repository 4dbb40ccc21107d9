import CircuitForms.Gate.Kind

/-! # Catalogs

A catalog pairs operation names with kinds of vertices, one with one, and
says how many qubits and parameters each pair takes.
-/

namespace CircuitForms

/-- How many qubits an operation acts on. `sentinel` is an end of a line, which is no operation. -/
inductive QubitArity where
  | sentinel
  | fixed (n : Nat)
  | atLeastOne
  deriving DecidableEq, Repr

namespace QubitArity

def accepts : QubitArity → Nat → Bool
  | sentinel, _ => false
  | fixed k, n => n == k
  | atLeastOne, n => 1 ≤ n

def text : QubitArity → String
  | sentinel => "no qubits (line sentinel)"
  | fixed 1 => "1 qubit"
  | fixed n => s!"{n} qubits"
  | atLeastOne => "at least 1 qubit"

end QubitArity

structure Entry where
  name : String
  kind : Kind
  qubits : QubitArity
  params : Nat
  deriving DecidableEq, Repr

/-- Whether an operation with these operand counts fits an entry. -/
def Entry.accepts (e : Entry) (qubits params : Nat) : Bool :=
  e.qubits.accepts qubits && e.params == params

namespace Catalog

/-- What occurs twice in a table. -/
inductive Repetition where
  | name (name : String)
  | kind (kind : Kind)
  deriving DecidableEq, Repr

def Repetition.message : Repetition → String
  | name s => "Duplicate catalog entry: name '" ++ s ++ "'"
  | kind k => "Duplicate catalog entry: kind " ++ k.text

/-- The places in a table of what its entries have for a key, the last place first. -/
def places {κ : Type} (key : Entry → κ) (entries : List Entry) : List (κ × Nat) :=
  (entries.zipIdx.map fun entry => (key entry.1, entry.2)).reverse

/-- At which places of a table names and kinds stand. -/
structure Index where
  names : List (String × Nat) := []
  kinds : List (Kind × Nat) := []
  deriving DecidableEq, Repr

namespace Index

/-- Records the place of an entry, for its name and then for its kind. -/
def add (ix : Index) (e : Entry) (place : Nat) : Except Repetition Index :=
  if (ix.names.lookup e.name).isSome then .error (.name e.name)
  else if (ix.kinds.lookup e.kind).isSome then .error (.kind e.kind)
  else .ok ⟨(e.name, place) :: ix.names, (e.kind, place) :: ix.kinds⟩

/-- Records the places of one entry of a table after the other. -/
def fill (entries : List Entry) : Except Repetition Index :=
  entries.zipIdx.foldlM (fun ix entry => ix.add entry.1 entry.2) {}

/-- The index of a table in which nothing occurs twice. -/
def ofTable (entries : List Entry) : Index :=
  ⟨places Entry.name entries, places Entry.kind entries⟩

end Index

end Catalog

/-- A table with its index. -/
structure Catalog where
  entries : List Entry
  index : Catalog.Index
  indexed : Catalog.Index.fill entries = .ok index
  deriving DecidableEq, Repr

namespace Catalog

/-- The catalog of a table in which nothing occurs twice. -/
def ofEntries (entries : List Entry) : Except Repetition Catalog :=
  match h : Index.fill entries with
  | .error r => .error r
  | .ok index => .ok ⟨entries, index, h⟩

def byName? (c : Catalog) (name : String) : Option Entry := do
  c.entries[← c.index.names.lookup name]?

def byKind? (c : Catalog) (kind : Kind) : Option Entry := do
  c.entries[← c.index.kinds.lookup kind]?

end Catalog

end CircuitForms
