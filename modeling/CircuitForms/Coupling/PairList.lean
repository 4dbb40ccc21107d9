import CircuitForms.Coupling.Basic
import CircuitForms.Number.Literal
import CircuitForms.Text.Blank
import CircuitForms.Text.Split

/-! # Lists of pairs as text

Pairs are separated by commas, the two indices of a pair by a minus sign.
White space may stand around pairs and indices, and a pair may be left out.
-/

namespace CircuitForms.Coupling

open Text

/-- Why a text is no index. -/
inductive IndexFault where
  | empty
  | noDigit
  | tooLarge
  deriving DecidableEq, Repr

def IndexFault.message : IndexFault → String
  | empty => "cannot parse integer from empty string"
  | noDigit => "invalid digit found in string"
  | tooLarge => "number too large to fit in target type"

inductive PairFault where
  | noSeparator (pair : String)
  | index (pair : String) (fault : IndexFault)
  | beyondLimit (pair : String) (n : Nat)
  deriving DecidableEq, Repr

/-- The message of a fault, then that of its cause. -/
def PairFault.chain : PairFault → List String
  | noSeparator pair => ["Invalid pair '" ++ pair ++ "', expected A-B"]
  | index pair fault => ["Invalid qubit index in '" ++ pair ++ "'", fault.message]
  | beyondLimit pair n => [s!"Qubit {n} in '" ++ pair ++ s!"' exceeds the limit of {limit} qubits"]

/-- The digits of an index, which may follow a plus sign. -/
def unsigned : List Char → List Char
  | '+' :: cs => cs
  | cs => cs

/-- The word of 32 bits that a text writes in decimal. Of a number too large and a character that
is no digit, the one met first is at fault. -/
def word (cs : List Char) : Except IndexFault Nat :=
  if cs.isEmpty then .error .empty
  else if (unsigned cs).isEmpty then .error .noDigit
  else
    let ds := (unsigned cs).takeWhile Char.isDigit
    if 1 <<< 32 ≤ Number.ofDigits ds then .error .tooLarge
    else if ds.length < (unsigned cs).length then .error .noDigit
    else .ok (Number.ofDigits ds)

/-- An index of a pair. -/
def index (pair : String) (cs : List Char) : Except PairFault Nat :=
  match word (strip cs) with
  | .error fault => .error (.index pair fault)
  | .ok n => if limit ≤ n then .error (.beyondLimit pair n) else .ok n

def pair (cs : List Char) : Except PairFault (Nat × Nat) :=
  let text := String.ofList cs
  match firstCut '-' cs with
  | none => .error (.noSeparator text)
  | some (a, b) => do return (← index text a, ← index text b)

/-- The pairs of a text. -/
def parsePairs (text : String) : Except PairFault (List (Nat × Nat)) :=
  (((pieces ',' text.toList).map strip).filter (!·.isEmpty)).mapM pair

end CircuitForms.Coupling
