import CircuitForms.Yaml.Node
import CircuitForms.Yaml.Tokens

/-! # Documents

A text may hold one document, which is empty or a mapping from scalars to
scalars. What a reference stands for is settled once the whole is read.
-/

namespace CircuitForms.Yaml

/-- What each handle stands for. -/
abbrev Handles := List (String × List UInt8)

def octets (text : String) : List UInt8 :=
  text.toUTF8.toList

def standardHandles : Handles :=
  [("!", octets "!"), ("!!", octets "tag:yaml.org,2002:")]

def Token.isDirective : Token → Bool
  | .version _ _ => true
  | .handle _ _ => true
  | _ => false

/-- The handles under directives. Each may be explained once, and the version given once. -/
def handles? (ts : List Token) : Option Handles :=
  let versions := ts.filterMap fun
    | .version major minor => some (major, minor)
    | _ => none
  let given := ts.filterMap fun
    | .handle name octets => some (name, octets)
    | _ => none
  if versions ∈ [[], [(1, 1)], [(1, 2)]] ∧ (given.map (·.1)).Nodup then
    some (given ++ standardHandles)
  else none

/-- The address of a tag, unless its handle is unknown. -/
def Tag.resolve? (t : Tag) (handles : Handles) : Option (List UInt8) :=
  if t.handle = "" then some t.suffix else (handles.lookup t.handle).map (· ++ t.suffix)

/-- An anchor and a tag, in either order, and what follows. -/
def properties : List Token → (Option String × Option Tag) × List Token
  | .anchor name :: .tag t :: ts => ((some name, some t), ts)
  | .tag t :: .anchor name :: ts => ((some name, some t), ts)
  | .anchor name :: ts => ((some name, none), ts)
  | .tag t :: ts => ((none, some t), ts)
  | ts => ((none, none), ts)

theorem properties_length_le (ts : List Token) : (properties ts).2.length ≤ ts.length := by
  unfold properties
  split <;> simp <;> omega

def resolved? (handles : Handles) : Option Tag → Option (Option (List UInt8))
  | none => some none
  | some t => (t.resolve? handles).map some

def node? (handles : Handles) : List Token → Option (Node × List Token)
  | .reference name :: ts => some (.reference name, ts)
  | ts =>
    match properties ts with
    | ((anchor, tag), .scalar style text :: ts) =>
      (resolved? handles tag).map fun tag => (.scalar anchor ⟨style, text, tag⟩, ts)
    | _ => none

theorem length_lt_of_node? {handles : Handles} {ts rest : List Token} {n : Node}
    (h : node? handles ts = some (n, rest)) : rest.length < ts.length := by
  unfold node? at h
  split at h
  · grind
  · have := properties_length_le ts
    split at h
    · obtain ⟨_, _, he⟩ := Option.map_eq_some_iff.1 h
      grind
    · simp at h

/-- A key and its value. -/
def pair? (handles : Handles) : List Token → Option ((Node × Node) × List Token)
  | .key :: ts =>
    match node? handles ts with
    | some (name, .value :: ts) =>
      (node? handles ts).map fun (value, ts) => ((name, value), ts)
    | _ => none
  | _ => none

theorem length_lt_of_pair? {handles : Handles} {ts rest : List Token} {e : Node × Node}
    (h : pair? handles ts = some (e, rest)) : rest.length < ts.length := by
  unfold pair? at h
  split at h
  · split at h
    · next hn =>
      obtain ⟨_, hv, he⟩ := Option.map_eq_some_iff.1 h
      have := length_lt_of_node? hn
      have := length_lt_of_node? hv
      grind
    · simp at h
  · simp at h

abbrev Entries := List (Node × Node)

/-- The entries of a block mapping up to its end. -/
def blockEntries? (handles : Handles) (ts : List Token) : Option (Entries × List Token) :=
  match ts with
  | .blockEnd :: ts => some ([], ts)
  | ts =>
    match _h : pair? handles ts with
    | some (e, ts) => (blockEntries? handles ts).map fun (es, ts) => (e :: es, ts)
    | none => none
termination_by ts.length
decreasing_by exact length_lt_of_pair? _h

/-- The entries of a flow mapping up to its end. A comma may follow the last one. -/
def flowEntries? (handles : Handles) (ts : List Token) : Option (Entries × List Token) :=
  match ts with
  | .flowEnd :: ts => some ([], ts)
  | ts =>
    match _h : pair? handles ts with
    | some (e, .comma :: ts) => (flowEntries? handles ts).map fun (es, ts) => (e :: es, ts)
    | some (e, .flowEnd :: ts) => some ([e], ts)
    | _ => none
termination_by ts.length
decreasing_by exact Nat.lt_of_succ_lt (length_lt_of_pair? _h)

/-- A mapping with its anchor. -/
structure Mapping where
  anchor : Option String := none
  entries : Entries := []
  deriving DecidableEq, Repr

/-- The mapping of a document, which may be left out after an anchor or a tag. -/
def mapping? (handles : Handles) (ts : List Token) : Option (Mapping × List Token) := do
  let ((anchor, tag), ts) := properties ts
  let _ ← resolved? handles tag
  match ts with
  | .blockStart :: ts => (blockEntries? handles ts).map fun (es, ts) => (⟨anchor, es⟩, ts)
  | .flowStart :: ts => (flowEntries? handles ts).map fun (es, ts) => (⟨anchor, es⟩, ts)
  | ts => if anchor.isSome || tag.isSome then return ({}, ts) else none

/-- The mapping of the only document. It may be empty in a text without tokens and after a mark of
its start, which is needed after directives. -/
def document? (ts : List Token) : Option Mapping := do
  let (directives, ts) := ts.span Token.isDirective
  let handles ← handles? directives
  let (m, rest) ← match ts with
    | .documentStart :: ts =>
      if ts.head?.all (· == .documentEnd) then some ({}, ts) else mapping? handles ts
    | [] => if directives.isEmpty then some ({}, []) else none
    | ts => if directives.isEmpty then mapping? handles ts else none
  if rest.all (· == .documentEnd) then return m else none

/-- The entries of the mapping that a text describes. -/
def entries? (text : String) : Option (List (Scalar × Scalar)) := do
  let m ← document? (← tokens? text)
  let start : Anchors := m.anchor.elim {} (Anchors.add {} · none)
  let (links, anchors) ← start.links? m.entries
  links.mapM fun (name, value) => do
    return (← anchors.target? name, ← anchors.target? value)

end CircuitForms.Yaml
