import CircuitForms.Command.Arguments
import CircuitForms.Command.Host
import CircuitForms.Command.OutputPath
import CircuitForms.Convert.ToVertices
import CircuitForms.Convert.ToWires
import CircuitForms.Coupling.PairList
import CircuitForms.Document.Listing
import CircuitForms.Grid.Render
import CircuitForms.Policy.Settings
import CircuitForms.Text.Join

/-! # Running commands

Every command loads a listing, works on it and prints what it did. A failure
is a chain of messages from the outermost to the innermost cause.
-/

namespace CircuitForms.Command

open Text

variable {m : Type → Type} [Monad m]

/-- A step of a command, which may fail with a chain of messages. -/
abbrev Step (m : Type → Type) := ExceptT (List String) m

def fail {α : Type} (chain : List String) : Step m α :=
  throw chain

/-- The value of an outcome, whose fault is told below a message about what was attempted. -/
def orFail {ε α : Type} (context : List String) (chain : ε → List String) :
    Except ε α → Step m α
  | .ok a => pure a
  | .error fault => fail (context ++ chain fault)

def say (host : Host m) (line : String) : Step m Unit :=
  ExceptT.lift (host.print line)

/-- The value that a JSON file describes. -/
def load {α : Type} (host : Host m) (read : Json.Reader α) (path : String) : Step m α := do
  match ← ExceptT.lift (host.read path) with
  | .missing => fail ["File not found: " ++ path]
  | .unreadable reason => fail ["Failed to read file: " ++ path, reason]
  | .text s =>
    match (Json.parse? s).bind (Json.Reader.run read) with
    | some a => pure a
    | none => fail ["Failed to parse JSON: " ++ path]

def loadWires (host : Host m) (path : String) : Step m Dag := do
  let l ← load host DagListing.read path
  orFail ["Invalid DAG listing: " ++ path] (fun fault => [fault.message]) (Dag.ofListing l)

def loadVertices (host : Host m) (path : String) : Step m VertexCircuit := do
  let l ← load host VertexListing.read path
  orFail ["Invalid vertex listing: " ++ path] (fun fault => [fault.message])
    (VertexCircuit.ofListing l)

def save (host : Host m) (path : String) (j : Json) : Step m Unit := do
  match ← ExceptT.lift (host.write path j.pretty) with
  | none => pure ()
  | some reason => fail ["Failed to write file: " ++ path, reason]

/-- The policy of a settings file. -/
def policyOf : Found → Except Policy.Fault Policy
  | .text s => match Policy.ofSettings? s with
    | some p => .ok p
    | none => .error .malformed
  | _ => .error .unreadable

/-- The policy of a settings file, if there is one, under the overrides of the environment. -/
def loadPolicy (lookup : String → Option String) (file : Option Found) :
    Except Policy.Fault Policy := do
  let p ← match file with
    | some found => policyOf found
    | none => pure {}
  p.withOverrides lookup

/-- The policy of an invocation, whose own options count most. -/
def choosePolicy (host : Host m) (lookup : String → Option String) (i : Invocation) :
    Step m Policy := do
  let (file, context) ← match i.config with
    | some path => do
      pure (some (← ExceptT.lift (host.read path)), "Failed to load policy from " ++ path)
    | none => pure (none, "Failed to load policy from environment")
  let p ← orFail [context] (fun fault => [fault.message]) (loadPolicy lookup file)
  return ⟨p.boxUnknown && !i.noBoxUnknown, p.dropConditions || i.dropConditions⟩

def sayLosses (host : Host m) (losses : List Loss) : Step m Unit :=
  losses.forM fun l => say host ("  ! " ++ l.text)

def remarkAll (host : Host m) (remarks : List Remark) : Step m Unit :=
  remarks.forM fun r => ExceptT.lift (host.remark r)

def toVertices (host : Host m) (d : Dag) (p : Policy) (input : String) :
    Step m (VertexCircuit × List Loss) := do
  remarkAll host (d.remarks p)
  orFail ["Forward translation failed: " ++ input] ConversionFault.chain (d.toVertices p)

def toWires (host : Host m) (c : VertexCircuit) (register context : String) : Step m Dag := do
  remarkAll host (c.remarks register)
  orFail [context] ConversionFault.chain (c.toWires register)

def depthOf (d : Dag) : Step m Nat :=
  orFail [] (fun fault => [fault.message]) d.depth

def forward (host : Host m) (input : String) (output : Option String) (p : Policy) :
    Step m Unit := do
  say host ("→ Translating " ++ input ++ " to vertex form")
  let d ← loadWires host input
  say host s!"  Loaded: {d.qubitCount} qubits, {d.clbitCount} clbits, {d.opCount} ops"
  let (c, losses) ← toVertices host d p input
  say host "✓ Translation complete"
  say host s!"  Result: {c.vertexCount} vertices, {c.linkCount} edges"
  sayLosses host losses
  let path := output.getD (defaultOutput input "vertex")
  save host path c.toListing.toJson
  say host ("  Output: " ++ path)

def reverse (host : Host m) (input : String) (output : Option String) (register : String) :
    Step m Unit := do
  say host ("→ Translating " ++ input ++ " to DAG form")
  let c ← loadVertices host input
  say host s!"  Loaded: {c.lineCount} lines, {c.vertexCount} vertices"
  let d ← toWires host c register ("Reverse translation failed: " ++ input)
  say host "✓ Translation complete"
  let depth ← depthOf d
  say host <|
    s!"  Result: {d.qubitCount} qubits, {d.clbitCount} clbits, {d.opCount} ops, depth {depth}"
  d.cregs.forM fun r => say host ("  creg " ++ bitText r.name r.size)
  let path := output.getD (defaultOutput input "dag")
  let l ← orFail [] (fun fault => [fault.message]) d.toListing
  save host path l.toJson
  say host ("  Output: " ++ path)

/-- A row of the comparison of circuits. -/
def comparisonRow (label a b c : String) : String :=
  "  " ++ separated " " [padRight 10 label, padLeft 8 a, padLeft 8 b, padLeft 8 c]

def sayShape (host : Host m) (label : String) (d : Dag) : Step m Unit := do
  let depth ← depthOf d
  say host (comparisonRow label (toString d.qubitCount) (toString d.opCount) (toString depth))

/-- Whether two circuits have the same numbers of qubits, operations and levels. -/
def haveSameShape (d e : Dag) : Step m Bool := do
  if d.qubitCount == e.qubitCount && d.opCount == e.opCount then
    return (← depthOf d) == (← depthOf e)
  else return false

/-- The verdict on a circuit that was converted and brought back. -/
def verdict (sameShape : Bool) (losses : List Loss) : String :=
  if sameShape && losses.isEmpty then "✓ Round trip preserved the circuit"
  else
    s!"! Round trip changed the circuit ({Loss.boxedCount losses} boxed, " ++
      s!"{Loss.droppedCount losses} conditions dropped)"

def roundTrip (host : Host m) (input : String) (p : Policy) : Step m Unit := do
  say host ("→ Round-tripping " ++ input)
  let d ← loadWires host input
  let (c, losses) ← toVertices host d p input
  sayLosses host losses
  let register := (d.qregs.head?.map Register.name).getD "q"
  let back ← toWires host c register "Reverse translation failed"
  say host (comparisonRow "" "qubits" "ops" "depth")
  sayShape host "original" d
  say host (comparisonRow "vertex" (toString c.lineCount) (toString c.vertexCount) "-")
  sayShape host "restored" back
  say host (verdict (← haveSameShape d back) losses)

def showGrid (host : Host m) (input : String) : Step m Unit := do
  let c ← loadVertices host input
  let g ← orFail ["Cannot lay out circuit: " ++ input] (fun fault => [fault.message])
    (Grid.layOut c)
  say host s!"Grid: {g.lineCount} lines x {g.steps} steps"
  (g.rows c).forM fun row => say host ("  " ++ row)

def showCoupling (host : Host m) (text : String) : Step m Unit := do
  let pairs ← orFail [] Coupling.PairFault.chain (Coupling.parsePairs text)
  let c ← orFail ["Invalid coupling list"] (fun fault => [fault.message]) (Coupling.ofPairs pairs)
  say host c.toJson.pretty

def runTask (host : Host m) (lookup : String → Option String) (i : Invocation) : Step m Unit := do
  let host := host.upTo i.verbosity
  match i.task with
  | .forward input output => forward host input output (← choosePolicy host lookup i)
  | .reverse input output register => reverse host input output register
  | .roundTrip input => roundTrip host input (← choosePolicy host lookup i)
  | .grid input => showGrid host input
  | .adjacency pairs => showCoupling host pairs

inductive Outcome where
  | done
  | failed (chain : List String)
  | misused
  deriving DecidableEq, Repr

namespace Outcome

def code : Outcome → Nat
  | done => 0
  | failed _ => 1
  | misused => 2

/-- What is said about a failure. -/
def complaint? : Outcome → Option String
  | failed chain => some ("Error: " ++ separated ": " chain)
  | _ => none

end Outcome

def versionText : String := "qbridge 1.9.5"

/-- Runs the program on a command line. -/
def run (host : Host m) (lookup : String → Option String) (args : List String) : m Outcome := do
  match parseArguments lookup args with
  | .misuse => return .misused
  | .version => do
    host.print versionText
    return .done
  | .run i =>
    match ← ExceptT.run (runTask host lookup i) with
    | .ok _ => return .done
    | .error chain => return .failed chain

end CircuitForms.Command
