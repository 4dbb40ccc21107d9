import CircuitForms.Yaml.Block
import CircuitForms.Yaml.Layout
import CircuitForms.Yaml.Property

/-! # The tokens of a text

The length of the text bounds the number of tokens.
-/

namespace CircuitForms.Yaml

namespace Layout

/-- Passes over white space and comments. A tab is none where a key may start in block style. -/
def skipGap (l : Layout) (inComment : Bool) : List Place → Layout × List Place
  | [] => (l, [])
  | p :: rest =>
    if p.isBreak then skipGap { l with allowsKey := l.allowsKey || !l.inFlow } false rest
    else if inComment || p.char = '#' then skipGap l true rest
    else if p.char = ' ' || (p.char = '\t' && (l.inFlow || !l.allowsKey)) ||
        (p.char = '\uFEFF' && p.column = 0) then
      skipGap l false rest
    else (l, p :: rest)

/-- A node that starts with this sign. -/
def node? (l : Layout) (p : Place) (rest : List Place) : Option (Layout × List Place) := do
  let l ← l.offer? p
  match p.char with
  | '*' => (name? rest).map fun (name, rest) => (l.push (.reference name), rest)
  | '&' => (name? rest).map fun (name, rest) => (l.push (.anchor name), rest)
  | '!' => (tag? l.inFlow rest).map fun (t, rest) => (l.push (.tag t), rest)
  | '\'' => (quoted false .empty rest).map fun (text, rest) =>
    (l.push (.scalar .quoted (String.ofList text)), rest)
  | '"' => (quoted true .empty rest).map fun (text, rest) =>
    (l.push (.scalar .quoted (String.ofList text)), rest)
  | _ =>
    if startsPlain l.inFlow p rest then
      (plain l.inFlow (l.indent.elim 0 (· + 1)) .empty (p :: rest)).map fun (text, gap, rest) =>
        ({ l.push (.scalar .plain (String.ofList text)) with
          allowsKey := l.allowsKey || gap.isBroken }, rest)
    else none

def block? (l : Layout) (isFolded : Bool) (rest : List Place) : Option (Layout × List Place) := do
  let l ← l.forget?
  let (text, rest) ← Yaml.block? isFolded l.indent rest
  let style := if isFolded then Style.folded else Style.literal
  return ({ l.push (.scalar style (String.ofList text)) with allowsKey := true }, rest)

/-- The token at a place. -/
def step? (l : Layout) (p : Place) (rest : List Place) : Option (Layout × List Place) := do
  let l := (← l.expire? p).dedent p.column
  if p.char = '%' && p.column = 0 then
    let l ← l.settle?
    let (t, rest) ← directive? rest
    return (l.push t, rest)
  else if atMark (p :: rest) then
    let l ← l.settle?
    return (l.push (if p.char = '-' then .documentStart else .documentEnd), rest.drop 2)
  else if p.char = '\x7b' then return (← l.flowStart?, rest)
  else if p.char = '\x7d' then return (← l.flowSign? .flowEnd, rest)
  else if p.char = ',' then return (← l.flowSign? .comma, rest)
  else if p.char = '?' && (l.inFlow || atGap rest) then return (← l.explicitKey? p, rest)
  else if p.char = ':' && (l.inFlow || atGap rest) then return (← l.value? p, rest)
  else if p.char = '|' && !l.inFlow then l.block? false rest
  else if p.char = '>' && !l.inFlow then l.block? true rest
  else l.node? p rest

/-- The tokens of a text from here to its end. -/
def run (l : Layout) : Nat → List Place → Option (List Token)
  | 0, _ => none
  | steps + 1, cs =>
    match l.skipGap false cs with
    | (l, []) => l.settle?.map tokens
    | (l, p :: rest) =>
      match l.step? p rest with
      | some (l, rest) => run l steps rest
      | none => none

end Layout

def tokens? (text : String) : Option (List Token) := do
  let cs ← places? text
  ({} : Layout).run (cs.length + 1) cs

end CircuitForms.Yaml
