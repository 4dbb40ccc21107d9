/-! # Fresh register names

A namer hands out its stem with the numbers from one on, each once.
-/

namespace CircuitForms

structure Namer where
  stem : String := "tk_c"
  /-- How many names were handed out. -/
  drawn : Nat := 0
  deriving DecidableEq, Repr

namespace Namer

def name (n : Namer) (number : Nat) : String :=
  n.stem ++ toString number

def next (n : Namer) : String × Namer :=
  (n.name (n.drawn + 1), { n with drawn := n.drawn + 1 })

/-- The next name that is not taken, looked for among a number of names and the one after. -/
def search (taken : List String) : Nat → Namer → String × Namer
  | 0, n => n.next
  | tries + 1, n =>
    let (name, n) := n.next
    if name ∈ taken then search taken tries n else (name, n)

/-- The next name that is not taken. Of one name more than are taken, one is free. -/
def fresh (taken : List String) (n : Namer) : String × Namer :=
  n.search taken taken.length

end Namer

end CircuitForms
