import CircuitForms.Yaml.Place
import CircuitForms.Yaml.Token

/-! # Layout

What decides the meaning of a place: the style, the indentation, and where a key
may have started. That something was a key shows only at its colon; the tokens
before it are then put in their place. A mapping inside another is refused.
-/

namespace CircuitForms.Yaml

/-- A place where a key may have started. -/
structure Candidate where
  line : Nat
  column : Nat
  /-- The number of tokens before it. -/
  slot : Nat
  /-- Whether nothing but a key can start there. -/
  isNeeded : Bool
  deriving DecidableEq, Repr

structure Layout where
  /-- The tokens found. -/
  tokens : List Token := []
  /-- Whether a flow mapping is open. -/
  inFlow : Bool := false
  /-- The column of the open block mapping. -/
  indent : Option Nat := none
  /-- Whether a key may start at the next token. -/
  allowsKey : Bool := true
  candidate : Option Candidate := none
  deriving DecidableEq, Repr

namespace Layout

def push (l : Layout) (t : Token) : Layout :=
  { l with tokens := l.tokens ++ [t] }

/-- Puts tokens after as many others. -/
def insert (l : Layout) (slot : Nat) (ts : List Token) : Layout :=
  { l with tokens := l.tokens.take slot ++ ts ++ l.tokens.drop slot }

/-- No key started, which is wrong where one is needed. -/
def forget? (l : Layout) : Option Layout :=
  if l.candidate.any (·.isNeeded) then none else some { l with candidate := none }

/-- The greatest distance from the start of a key to its colon, which are on one line. -/
def reach : Nat := 1024

/-- Forgets a candidate that is out of reach. -/
def expire? (l : Layout) (p : Place) : Option Layout :=
  if l.candidate.any fun c => c.line < p.line || c.column + reach < p.column then l.forget?
  else some l

/-- A node starts here, so a key may do so. -/
def offer? (l : Layout) (p : Place) : Option Layout :=
  if l.allowsKey then
    l.forget?.map fun l =>
      let c := ⟨p.line, p.column, l.tokens.length, !l.inFlow && l.indent == some p.column⟩
      { l with candidate := some c, allowsKey := false }
  else some l

/-- Starts a block mapping after so many tokens unless one is open at this column. -/
def openBlock? (l : Layout) (column slot : Nat) : Option Layout :=
  if l.inFlow then some l
  else match l.indent with
    | none => some { l.insert slot [.blockStart] with indent := some column }
    | some n => if n < column then none else some l

/-- Ends the open block mapping. -/
def closeBlock (l : Layout) : Layout :=
  if l.indent.isSome then { l.push .blockEnd with indent := none } else l

/-- Ends a block mapping that is indented more than this. -/
def dedent (l : Layout) (column : Nat) : Layout :=
  if !l.inFlow && l.indent.any (column < ·) then l.closeBlock else l

/-- Ends what is open before a mark, a directive or the end. -/
def settle? (l : Layout) : Option Layout :=
  l.closeBlock.forget?.map fun l => { l with allowsKey := false }

/-- A question mark starts a key. -/
def explicitKey? (l : Layout) (p : Place) : Option Layout := do
  let l ← if l.inFlow then some l
    else if l.allowsKey then l.openBlock? p.column l.tokens.length else none
  let l ← l.forget?
  return { l.push .key with allowsKey := !l.inFlow }

/-- A colon ends the key that started at the candidate or at a question mark. -/
def value? (l : Layout) (p : Place) : Option Layout :=
  match l.candidate with
  | some c => do
    let l ← (l.insert c.slot [.key]).openBlock? c.column c.slot
    return { l.push .value with candidate := none, allowsKey := false }
  | none => do
    let l ← if l.inFlow then some l
      else if l.allowsKey then l.openBlock? p.column l.tokens.length else none
    return { l.push .value with allowsKey := !l.inFlow }

def flowStart? (l : Layout) : Option Layout :=
  if l.inFlow || l.indent.isSome then none
  else some { l.push .flowStart with inFlow := true, candidate := none, allowsKey := true }

/-- A comma or the end of a flow mapping. -/
def flowSign? (l : Layout) (t : Token) : Option Layout :=
  if l.inFlow then
    l.forget?.map fun l => { l.push t with inFlow := t != .flowEnd, allowsKey := t != .flowEnd }
  else none

end Layout

end CircuitForms.Yaml
