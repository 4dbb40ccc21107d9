/-! # JSON documents

A document as a value. Objects keep their members in order, repeated names
included. A number that is written as a plain row of digits is `nat` while it
fits 64 bits; every other number is `real`, infinite when out of range.
-/

namespace CircuitForms

inductive Json where
  | null
  | bool (b : Bool)
  | nat (n : Nat)
  | real (x : Float)
  | string (s : String)
  /-- A string, or an object with a name, that holds half of a surrogate pair. It can be
  skipped, but not read. -/
  | broken
  | array (items : List Json)
  | object (members : List (String × Json))
  deriving Inhabited

end CircuitForms
