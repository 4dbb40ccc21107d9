/-! # Splitting a text at a separator

`pieces` cuts at every separator, `firstCut` at the first one only.
-/

namespace CircuitForms.Text

/-- The pieces between separators, one more than there are separators. -/
abbrev pieces (sep : Char) (cs : List Char) : List (List Char) :=
  cs.splitOn sep

/-- What stands before and after the first separator. -/
def firstCut (sep : Char) : List Char → Option (List Char × List Char)
  | [] => none
  | c :: cs =>
    if c = sep then some ([], cs)
    else (firstCut sep cs).map fun (before, after) => (c :: before, after)

end CircuitForms.Text
