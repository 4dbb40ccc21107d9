import CircuitForms.Command.Run

/-! # The program -/

namespace CircuitForms.Command

/-- What the system says about an error, with its number. -/
def reason : IO.Error → String
  | .noFileOrDirectory _ code details
  | .permissionDenied _ code details
  | .inappropriateType _ code details => details ++ s!" (os error {code})"
  | e => toString e

/-- Reads a path of the file system. -/
def readPath (path : String) : IO Found := do
  try
    match String.fromUTF8? (← IO.FS.readBinFile path) with
    | some s => return .text s
    | none => return .unreadable "stream did not contain valid UTF-8"
  catch
    | .noFileOrDirectory .. => return .missing
    | e => return .unreadable (reason e)

/-- Writes a text to a path of the file system. -/
def writePath (path text : String) : IO (Option String) := do
  try
    IO.FS.writeFile path text
    return none
  catch e => return some (reason e)

def realHost : Host IO := ⟨readPath, writePath, IO.println, fun r => IO.println r.line⟩

/-- The variables of the environment that count. -/
def environment : IO (String → Option String) := do
  let keys := [configKey, Policy.boxUnknownKey, Policy.dropConditionsKey]
  let values ← keys.filterMapM fun key => do return (← IO.getEnv key).map (key, ·)
  return fun key => values.lookup key

def usage : String :=
  "usage: forward|reverse|roundtrip|grid -i FILE [options], adjacency --pairs A-B,..."

end CircuitForms.Command

open CircuitForms.Command

def main (args : List String) : IO UInt32 := do
  let outcome ← run realHost (← environment) args
  match outcome, outcome.complaint? with
  | _, some complaint => IO.eprintln complaint
  | .misused, none => IO.eprintln usage
  | _, none => pure ()
  return outcome.code.toUInt32
