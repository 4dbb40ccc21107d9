import CircuitForms.Text.Split
import CircuitForms.Yaml.Scalar

/-! # Block scalars

The text of a block scalar is a row of lines with more indentation than what is
around it. Its header says how the breaks at its end are kept, and may say how
far its lines are indented.
-/

namespace CircuitForms.Yaml

/-- What becomes of the breaks at the end. -/
inductive Chomp where
  | strip
  | clip
  | keep
  deriving DecidableEq, Repr

def chomp? : List Place → Option Chomp × List Place
  | [] => (none, [])
  | p :: rest =>
    if p.char = '-' then (some .strip, rest)
    else if p.char = '+' then (some .keep, rest)
    else (none, p :: rest)

/-- The indentation that a header gives, if it does. It is not zero. -/
def depth? : List Place → Option (Option Nat × List Place)
  | [] => some (none, [])
  | p :: rest =>
    if p.char = '0' then none
    else if p.char.isDigit then some (some (p.char.toNat - '0'.toNat), rest)
    else some (none, p :: rest)

/-- The two parts of a header, in either order, and the lines after it. -/
def header? (cs : List Place) : Option (Chomp × Option Nat × List Place) := do
  let (before, cs) := chomp? cs
  let (depth, cs) ← depth? cs
  let (after, cs) := if before.isNone then chomp? cs else (none, cs)
  return ((before <|> after).getD .clip, depth, ← lineEnd? cs)

/-- The deepest indentation up to the first line that has more than spaces. -/
def deepest? (column : Nat) : List Place → Option Nat
  | [] => some column
  | p :: rest =>
    if p.char = ' ' then deepest? (max column (p.column + 1)) rest
    else if p.isBreak then deepest? column rest
    else if p.char = '\t' then none
    else some column

/-- The text of lines without their indentation, and what follows them. -/
def body? (indent : Nat) (inLine : Bool) : List Place → Option (List Char × List Place)
  | [] => some ([], [])
  | p :: rest =>
    if p.isBreak then
      (body? indent false rest).map fun (text, after) => ('\n' :: text, after)
    else if inLine || indent ≤ p.column then
      (body? indent true rest).map fun (text, after) => (p.char :: text, after)
    else if p.char = ' ' then body? indent false rest
    else if p.char = '\t' then none
    else some ([], p :: rest)

def startsBlank (line : List Char) : Bool :=
  line.head?.any fun c => c == ' ' || c == '\t'

/-- Lines joined with their breaks folded, except next to a line that starts with a blank. So many
breaks precede. -/
def foldLines (afterBlank : Bool) (breaks : Nat) : List (List Char) → List Char
  | [] => []
  | [] :: lines => foldLines afterBlank (breaks + 1) lines
  | line :: lines =>
    let gap :=
      if afterBlank || startsBlank line then List.replicate breaks '\n'
      else (Gap.across (breaks - 1)).text
    gap ++ line ++ foldLines (startsBlank line) 1 lines

/-- The breaks at the end that are left of those written. -/
def Chomp.ending (c : Chomp) (isEmpty : Bool) (breaks : List Char) : List Char :=
  match c with
  | strip => []
  | clip => if isEmpty then [] else breaks.take 1
  | keep => breaks

/-- The text of a scalar inside a mapping with this indentation, and what follows it. -/
def block? (isFolded : Bool) (indent : Option Nat) (cs : List Place) :
    Option (List Char × List Place) := do
  let (chomp, depth, cs) ← header? cs
  let own ← match depth with
    | some n => some (indent.getD 0 + n)
    | none => (deepest? 0 cs).map (max · (indent.elim 1 (· + 1)))
  let (text, after) ← body? own false cs
  let core := (text.reverse.dropWhile (· == '\n')).reverse
  let lines := if isFolded then foldLines true 0 (Text.pieces '\n' core) else core
  return (lines ++ chomp.ending core.isEmpty (text.drop core.length), after)

end CircuitForms.Yaml
