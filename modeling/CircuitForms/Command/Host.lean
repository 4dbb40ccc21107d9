import CircuitForms.Convert.Remark

/-! # Where commands run

A command reads and writes files and prints lines through a host.
-/

namespace CircuitForms.Command

/-- What is found under a path. -/
inductive Found where
  | missing
  | unreadable (reason : String)
  | text (s : String)
  deriving DecidableEq, Repr

structure Host (m : Type → Type) where
  read : String → m Found
  /-- Writes a text to a path and tells why not if it cannot. -/
  write : String → String → m (Option String)
  print : String → m Unit
  remark : Remark → m Unit

/-- The host that passes over remarks of too little weight. -/
def Host.upTo {m : Type → Type} [Monad m] (host : Host m) (verbosity : Nat) : Host m :=
  { host with remark := fun r => if r.weight.isShown verbosity then host.remark r else pure () }

end CircuitForms.Command
