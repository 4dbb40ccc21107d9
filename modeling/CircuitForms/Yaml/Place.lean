/-! # Places in a YAML text

A text is read as a row of places, each a character with its line and column.
All breaks of lines are written as line feeds. Only printable characters, tabs
and breaks may stand in a text.
-/

namespace CircuitForms.Yaml

structure Place where
  char : Char
  line : Nat
  column : Nat
  deriving DecidableEq, Repr

def isAllowed (c : Char) : Bool :=
  let n := c.toNat
  n == 0x9 || n == 0xA || n == 0xD || (0x20 ≤ n && n ≤ 0x7E) || n == 0x85 ||
    (0xA0 ≤ n && n ≤ 0xFFFD) || 0x10000 ≤ n

/-- Whether a character breaks a line. -/
def breaks (c : Char) : Bool :=
  c == '\n' || c == '\r' || c == '\x85' || c == '\u2028' || c == '\u2029'

/-- The characters with a line feed for every break. -/
def unified : List Char → List Char
  | [] => []
  | '\r' :: '\n' :: cs => '\n' :: unified cs
  | c :: cs => (if breaks c then '\n' else c) :: unified cs

/-- The places of characters that start at a line and column. -/
def placesFrom (line column : Nat) : List Char → List Place
  | [] => []
  | c :: cs =>
    ⟨c, line, column⟩ ::
      if c = '\n' then placesFrom (line + 1) 0 cs else placesFrom line (column + 1) cs

def places? (text : String) : Option (List Place) :=
  if text.toList.all isAllowed then some (placesFrom 0 0 (unified text.toList)) else none

def Place.isBlank (p : Place) : Bool :=
  p.char == ' ' || p.char == '\t'

def Place.isBreak (p : Place) : Bool :=
  p.char == '\n'

/-- Whether white space or the end comes next. -/
def atGap : List Place → Bool
  | [] => true
  | p :: _ => p.isBlank || p.isBreak

/-- Whether one of these characters comes next. -/
def atOneOf (cs : List Char) : List Place → Bool
  | [] => false
  | p :: _ => cs.contains p.char

/-- Whether a line starts here with the mark of a document's start or end. -/
def atMark : List Place → Bool
  | a :: b :: c :: rest =>
    let row := [a.char, b.char, c.char]
    a.column == 0 && (row == ['-', '-', '-'] || row == ['.', '.', '.']) && atGap rest
  | _ => false

/-- What follows a line of which only blanks and a comment are left. -/
def lineEnd? (cs : List Place) : Option (List Place) :=
  match cs.dropWhile Place.isBlank with
  | [] => some []
  | p :: rest =>
    if p.isBreak then some rest
    else if p.char = '#' then some ((rest.dropWhile (!·.isBreak)).drop 1)
    else none

end CircuitForms.Yaml
