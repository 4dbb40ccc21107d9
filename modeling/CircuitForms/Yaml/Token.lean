/-! # Tokens of a YAML text

Of the signs of YAML only those are kept that a mapping of scalars needs.
-/

namespace CircuitForms.Yaml

/-- How a scalar is written. -/
inductive Style where
  | plain
  | quoted
  | literal
  | folded
  deriving DecidableEq, Repr

/-- A tag as written. A tag in angle brackets has an empty handle. -/
structure Tag where
  handle : String
  suffix : List UInt8
  deriving DecidableEq, Repr

inductive Token where
  | version (major minor : Nat)
  /-- What a handle of tags stands for. -/
  | handle (name : String) (address : List UInt8)
  | documentStart
  | documentEnd
  | blockStart
  | blockEnd
  | flowStart
  | flowEnd
  | comma
  | key
  | value
  | anchor (name : String)
  | reference (name : String)
  | tag (t : Tag)
  | scalar (style : Style) (text : String)
  deriving DecidableEq, Repr

end CircuitForms.Yaml
