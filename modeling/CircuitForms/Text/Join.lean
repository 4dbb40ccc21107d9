/-! # Joining and aligning texts -/

namespace CircuitForms.Text

/-- Texts in a row with a separator between them. -/
abbrev separated (sep : String) (parts : List String) : String :=
  sep.intercalate parts

def spaces (n : Nat) : String :=
  String.ofList (List.replicate n ' ')

/-- A text with spaces after it up to a width. -/
def padRight (width : Nat) (s : String) : String :=
  s ++ spaces (width - s.length)

/-- A text with spaces before it up to a width. -/
def padLeft (width : Nat) (s : String) : String :=
  spaces (width - s.length) ++ s

end CircuitForms.Text
