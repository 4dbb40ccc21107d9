import CircuitForms.Policy.Document
import CircuitForms.Yaml.Document

/-! # Settings files

A settings file is a YAML document that maps names of settings to booleans. An
empty document changes nothing.
-/

namespace CircuitForms.Policy

/-- The address of the tag of booleans. -/
def booleanTag : List UInt8 := Yaml.octets "tag:yaml.org,2002:bool"

/-- The boolean of a scalar, which is plain, or literal under the tag of booleans. -/
def boolean? (s : Yaml.Scalar) : Option Bool :=
  if s.style = .plain ∨ (s.style = .literal ∧ s.tag = some booleanTag) then
    if s.text ∈ ["true", "True", "TRUE"] then some true
    else if s.text ∈ ["false", "False", "FALSE"] then some false
    else none
  else none

/-- The policy that a settings file describes. Names may be written in any style. -/
def ofSettings? (text : String) : Option Policy := do
  let entries ← Yaml.entries? text
  let members ← entries.mapM fun (name, value) =>
    (boolean? value).map fun b => (name.text, Json.bool b)
  Json.Reader.run read (.object members)

end CircuitForms.Policy
