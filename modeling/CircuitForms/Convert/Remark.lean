import CircuitForms.Convert.Loss
import CircuitForms.Text.Visible

/-! # Remarks

What a conversion says on its way. A remark is no part of the result; how many
of them are shown is for the one who asked.
-/

namespace CircuitForms

/-- How much a remark matters. -/
inductive Weight where
  | warning
  | summary
  | detail
  deriving DecidableEq, Repr

namespace Weight

def mark : Weight → String
  | warning => "WARN"
  | summary => "INFO"
  | detail => "DEBUG"

/-- Whether remarks are shown at some verbosity. -/
def isShown (verbosity : Nat) : Weight → Bool
  | warning => true
  | summary => 1 ≤ verbosity
  | detail => 2 ≤ verbosity

end Weight

structure Remark where
  weight : Weight
  text : String
  deriving DecidableEq, Repr

namespace Remark

def ofLoss (l : Loss) : Remark :=
  ⟨.warning, l.warning⟩

def line (r : Remark) : String :=
  r.weight.mark ++ " " ++ Text.madeVisible r.text

end Remark

end CircuitForms
