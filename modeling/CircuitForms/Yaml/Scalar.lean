import CircuitForms.Text.Hex
import CircuitForms.Yaml.Place

/-! # Plain and quoted scalars

A scalar may run over lines. White space inside it is then folded: one break
becomes a space, and of several breaks the first is dropped.
-/

namespace CircuitForms.Yaml

open Text

/-- White space inside a scalar. -/
inductive Gap where
  | within (blanks : List Char)
  /-- A break and more of them. -/
  | across (more : Nat)
  /-- An escaped break and others after it. -/
  | joined (more : Nat)
  deriving DecidableEq, Repr

namespace Gap

def empty : Gap := within []

/-- Blanks around breaks are dropped. -/
def addBlank (c : Char) : Gap → Gap
  | within blanks => within (blanks ++ [c])
  | g => g

def addBreak : Gap → Gap
  | within _ => across 0
  | across n => across (n + 1)
  | joined n => joined (n + 1)

def isBroken : Gap → Bool
  | within _ => false
  | _ => true

/-- The text that white space stands for. -/
def text : Gap → List Char
  | within blanks => blanks
  | across 0 => [' ']
  | across n => List.replicate n '\n'
  | joined n => List.replicate n '\n'

end Gap

/-- The signs that structure a mapping in flow style. -/
def flowSigns : List Char := [',', '[', ']', '\x7b', '\x7d']

/-- Whether a plain scalar ends here, after white space, whose lines are indented at least so
far. -/
def endsPlain (flow : Bool) (least : Nat) (gap : Gap) (p : Place) (rest : List Place) : Bool :=
  (gap != .empty && (p.char == '#' || atMark (p :: rest) || (!flow && p.column < least))) ||
    (p.char == ':' && atGap rest) || (flow && flowSigns.contains p.char)

/-- The text of a plain scalar, the white space after it and what follows. -/
def plain (flow : Bool) (least : Nat) (gap : Gap) :
    List Place → Option (List Char × Gap × List Place)
  | [] => some ([], gap, [])
  | p :: rest =>
    if p.isBreak then plain flow least gap.addBreak rest
    else if p.isBlank then
      if p.char = '\t' && gap.isBroken && p.column < least then none
      else plain flow least (gap.addBlank p.char) rest
    else if endsPlain flow least gap p rest then some ([], gap, p :: rest)
    else if flow && p.char = ':' && atOneOf ('?' :: flowSigns) rest then none
    else (plain flow least .empty rest).map fun (text, after) => (gap.text ++ p.char :: text, after)

/-- The characters that cannot start a plain scalar. -/
def indicators : List Char :=
  ['-', '?', ':', ',', '[', ']', '\x7b', '\x7d', '#', '&', '*', '!', '|', '>', '\'', '"', '%',
    '@', '\x60']

def startsPlain (flow : Bool) (p : Place) (rest : List Place) : Bool :=
  if p.char = '-' then !atGap rest
  else if p.char = '?' || p.char = ':' then !flow && !atGap rest
  else !p.isBlank && !p.isBreak && !indicators.contains p.char

/-- The character after a backslash. -/
def escaped : List (Char × Char) :=
  [('0', '\x00'), ('a', '\x07'), ('b', '\x08'), ('t', '\t'), ('\t', '\t'), ('n', '\n'),
    ('v', '\x0b'), ('f', '\x0c'), ('r', '\r'), ('e', '\x1b'), (' ', ' '), ('"', '"'), ('/', '/'),
    ('\\', '\\'), ('N', '\x85'), ('_', '\xa0'), ('L', '\u2028'), ('P', '\u2029')]

/-- The number of digits after a letter that starts a code point. -/
def codeLengths : List (Char × Nat) :=
  [('x', 2), ('u', 4), ('U', 8)]

/-- The character of a code point in hexadecimal digits. -/
def ofCode? (length : Nat) (digits : List Char) : Option Char := do
  let n ← hexNumber? digits
  if digits.length = length ∧ n.isValidChar then some (Char.ofNat n) else none

/-- The text up to the closing quote, and what follows it. Only in double quotes a backslash starts
an escape; in single quotes a quote is written twice. -/
def quoted (double : Bool) (gap : Gap) : List Place → Option (List Char × List Place)
  | [] => none
  | p :: rest =>
    if p.isBreak then quoted double gap.addBreak rest
    else if p.isBlank then quoted double (gap.addBlank p.char) rest
    else if atMark (p :: rest) then none
    else if p.char = (if double then '"' else '\'') then
      if !double && atOneOf ['\''] rest then
        (quoted double .empty (rest.drop 1)).map fun (text, after) =>
          (gap.text ++ '\'' :: text, after)
      else some (gap.text, rest)
    else if double && p.char = '\\' then
      match rest with
      | [] => none
      | e :: rest =>
        if e.isBreak then
          (quoted double (.joined 0) rest).map fun (text, after) => (gap.text ++ text, after)
        else
          let length := (codeLengths.lookup e.char).getD 0
          let code := (rest.take length).map Place.char
          match (if length = 0 then escaped.lookup e.char else ofCode? length code) with
          | none => none
          | some c =>
            (quoted double .empty (rest.drop length)).map fun (text, after) =>
              (gap.text ++ c :: text, after)
    else (quoted double .empty rest).map fun (text, after) => (gap.text ++ p.char :: text, after)
termination_by cs => cs.length
decreasing_by all_goals grind

end CircuitForms.Yaml
