import CircuitForms.Text.Hex

/-! # Text made visible

Characters that a terminal would obey are written out as their numbers. White
space is left as it is.
-/

namespace CircuitForms.Text

/-- The control characters below U+0080 that move, erase or ring. -/
def isTerminalControl (c : Char) : Bool :=
  c == '\x07' || c == '\x08' || c == '\x0c' || c == '\x1b' || c == '\x7f'

/-- The control characters from U+0080 on. -/
def isHighControl (c : Char) : Bool :=
  0x80 ≤ c.toNat && c.toNat ≤ 0x9F

def visible (c : Char) : List Char :=
  if isTerminalControl c then ['\\', 'x'] ++ hexOctet c.toNat
  else if isHighControl c then ['\\', 'u', '\x7b'] ++ hexOctet c.toNat ++ ['\x7d']
  else [c]

/-- A text with what a terminal would obey written out. -/
def madeVisible (s : String) : String :=
  String.ofList (s.toList.flatMap visible)

end CircuitForms.Text
