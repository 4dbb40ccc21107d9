import CircuitForms.Number.Binary

/-! # The fewest digits that read back

Of the decimals that round to a double, the ones on the coarsest grid
`10 ^ k` are the shortest, and of two neighbours on that grid the nearer is
taken. All comparisons are between whole numbers.
-/

namespace CircuitForms.Number

/-- What happens to a value halfway between two neighbours. -/
inductive Tie where
  | toEven
  | up
  deriving DecidableEq, Repr

/-- The number `digits * 10 ^ exponent`. -/
structure Decimal where
  digits : Nat
  exponent : Int
  deriving DecidableEq, Repr

namespace Binary

/-- The neighbour of `b` among the multiples of `10 ^ k` that rounds to `b`,
divided by `10 ^ k`. -/
def onGrid? (tie : Tie) (b : Binary) (k : Int) : Option Nat :=
  let place := b.exponent - 2
  let scale (quarters : Nat) : Nat := (quarters <<< place.toNat) * Nat.pow 10 (-k).toNat
  let unit := Nat.pow 10 k.toNat <<< (-place).toNat
  let value := scale (4 * b.significand)
  let rounds (point : Nat) : Bool :=
    if b.significand % 2 = 0 then scale b.lower ≤ point && point ≤ scale b.upper
    else scale b.lower < point && point < scale b.upper
  let d := value / unit
  let below := value - d * unit
  let above := (d + 1) * unit - value
  match rounds (d * unit), rounds ((d + 1) * unit) with
  | false, false => none
  | true, false => some d
  | false, true => some (d + 1)
  | true, true =>
    if below < above then some d
    else if above < below then some (d + 1)
    else match tie with
      | .toEven => some (if d % 2 = 0 then d else d + 1)
      | .up => some (d + 1)

/-- Tries ever finer grids. -/
def search (tie : Tie) (b : Binary) : Nat → Int → Decimal
  | 0, k => ⟨0, k⟩
  | tries + 1, k =>
    match b.onGrid? tie k with
    | some d => ⟨d, k⟩
    | none => search tie b tries (k - 1)

/-- A power of ten well above `b`: the decimal logarithm of two is just under `30103 / 100000`. -/
def coarsest (b : Binary) : Int :=
  (b.significand.log2 + b.exponent) * 30103 / 100000 + 2

/-- The shortest decimal that rounds to `b`. Seventeen digits always do. -/
def shortest (tie : Tie) (b : Binary) : Decimal :=
  b.search tie 24 b.coarsest

end Binary

end CircuitForms.Number
