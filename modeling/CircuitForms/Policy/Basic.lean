import CircuitForms.Text.Blank

/-! # Policies

A policy says what may be given up when a circuit of wires is turned into one
of vertices. Its settings may be overridden by flags given as text.
-/

namespace CircuitForms

structure Policy where
  /-- Whether an unknown operation becomes a box. -/
  boxUnknown : Bool := true
  /-- Whether a condition may be dropped. -/
  dropConditions : Bool := false
  deriving DecidableEq, Repr

namespace Policy

/-- Nothing is given up. -/
def strict : Policy := ⟨false, false⟩

inductive Fault where
  /-- The file cannot be read. -/
  | unreadable
  /-- The file is no policy. -/
  | malformed
  | noFlag (key value : String)
  deriving DecidableEq, Repr

def Fault.message : Fault → String
  | unreadable => "IO error: "
  | malformed => "Parse error: "
  | noFlag key value => "Validation error: " ++ key ++ " must be a boolean, got '" ++ value ++ "'"

def boxUnknownKey : String := "QBRIDGE_BOX_UNKNOWN"

def dropConditionsKey : String := "QBRIDGE_DROP_CONDITIONS"

/-- A flag's text without white space at its ends and with `A` to `Z` in lower case. -/
def normalFlag (value : String) : String :=
  String.ofList ((Text.strip value.toList).map Char.toLower)

/-- The setting that a flag's text stands for. -/
def flag (key value : String) : Except Fault Bool :=
  let text := normalFlag value
  if text ∈ ["1", "true", "yes", "on"] then .ok true
  else if text ∈ ["0", "false", "no", "off"] then .ok false
  else .error (.noFlag key text)

/-- A setting unless a flag overrides it. -/
def override (lookup : String → Option String) (key : String) (setting : Bool) :
    Except Fault Bool :=
  match lookup key with
  | some value => flag key value
  | none => .ok setting

def withOverrides (lookup : String → Option String) (p : Policy) : Except Fault Policy := do
  let boxUnknown ← override lookup boxUnknownKey p.boxUnknown
  let dropConditions ← override lookup dropConditionsKey p.dropConditions
  return ⟨boxUnknown, dropConditions⟩

end Policy

end CircuitForms
