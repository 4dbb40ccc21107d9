import CircuitForms.Convert.ToVertices
import CircuitForms.Convert.ToWires
import CircuitForms.Proofs.Catalog.Lookup

/-! # Operations as vertices

The vertex of an operation tells its name, its number of qubits, its parameters and,
if it is a measurement, the bits it writes. The catalog names every kind by one name.
-/

namespace CircuitForms

namespace Catalog

theorem byKind?_kind : ∀ e ∈ standard.entries, standard.byKind? e.kind = some e :=
  fun _ he => byKind?_eq_some_iff.mpr ⟨he, rfl⟩

theorem byName?_name : ∀ e ∈ standard.entries, standard.byName? e.name = some e :=
  fun _ he => byName?_eq_some_iff.mpr ⟨he, rfl⟩

theorem sentinel_of_isBoundary :
    ∀ e ∈ standard.entries, e.kind.isBoundary → e.qubits = .sentinel := by
  decide

theorem not_box : ∀ e ∈ standard.entries, e.kind ≠ .box := by
  decide

theorem not_accepts_zero : ∀ e ∈ standard.entries, e.qubits.accepts 0 = false := by
  decide

theorem params_of_measure : ∀ e ∈ standard.entries, e.kind = .measure → e.params = 0 := by
  decide

end Catalog

theorem Payload.rotations_ofRotations (kind : Kind) (n : Nat) (rs : List Rotation) :
    (Descriptor.onLines kind n (.ofRotations rs)).rotations = rs := by
  match rs with
  | [] => rfl
  | [_] => rfl
  | _ :: _ :: _ => rfl

namespace Dag

variable {d : Dag} {p : Policy} {v : Nat} {op : Operation} {x : Descriptor} {losses : List Loss}

/-- What a vertex tells of the operation it stands for. -/
structure Describes (d : Dag) (op : Operation) (x : Descriptor) : Prop where
  qargs : op.qargs ≠ []
  inputs : x.inputs = op.qargs.length
  outputs : x.outputs = op.qargs.length
  inner : x.kind.isBoundary = false
  kind : x.kind = ((Catalog.standard.byName? op.name).map Entry.kind).getD .box
  name : ∀ v, VertexCircuit.operationName v x = .ok op.name
  params : x.rotations.map Rotation.toAngle =
    if (Catalog.standard.byName? op.name).isSome then
      op.params.map fun a => (Rotation.ofAngle a).toAngle
    else []
  measure : x.kind = .measure →
    x.description? = some (Destination.ofClbits op.cargs d.cregs).encode
  cargs : x.kind ≠ .measure → op.cargs = []
  /-- If bits are written at all, there is one for each qubit. -/
  cargs_length : op.cargs ≠ [] → op.cargs.length = op.qargs.length

theorem kind_of_check {e : Entry} (he : e ∈ Catalog.standard.entries) {qubits params : Nat}
    (h : e.check v qubits params = .ok ()) :
    e.kind.isBoundary = false ∧ qubits ≠ 0 ∧ params = e.params := by
  rw [Entry.check] at h
  split_ifs at h with ha
  rw [Entry.accepts, Bool.and_eq_true, beq_iff_eq] at ha
  refine ⟨Bool.eq_false_iff.mpr fun hb => ?_, ?_, ha.2.symm⟩
  · rw [Catalog.sentinel_of_isBoundary e he hb] at ha
    cases ha.1
  · rintro rfl
    rw [Catalog.not_accepts_zero e he] at ha
    cases ha.1

theorem operationName_of_entry {e : Entry} (he : e ∈ Catalog.standard.entries) (v : Nat)
    (hk : x.kind = e.kind) : VertexCircuit.operationName v x = .ok e.name := by
  have hbox : x.kind ≠ .box := hk ▸ Catalog.not_box e he
  rw [VertexCircuit.operationName, if_neg hbox, hk, Catalog.byKind?_kind e he]
  rfl

/-- The three ways in which an operation becomes a vertex. -/
inductive Becomes (d : Dag) (op : Operation) : Descriptor → Prop
  | measurement (e : Entry) (he : Catalog.standard.byName? op.name = some e)
      (hk : e.kind = .measure) (hq : op.qargs ≠ []) (hp : op.params = [])
      (hc : op.cargs ≠ [] → op.cargs.length = op.qargs.length) :
      Becomes d op (.onLines .measure op.qargs.length
        (.description (Destination.ofClbits op.cargs d.cregs).encode))
  | entry (e : Entry) (he : Catalog.standard.byName? op.name = some e) (hk : e.kind ≠ .measure)
      (hi : e.kind.isBoundary = false) (hq : op.qargs ≠ []) (hc : op.cargs = []) :
      Becomes d op (.onLines e.kind op.qargs.length
        (.ofRotations (op.params.map Rotation.ofAngle)))
  | box (hn : Catalog.standard.byName? op.name = none) (hq : op.qargs ≠ []) (hc : op.cargs = []) :
      Becomes d op (.onLines .box op.qargs.length (.description op.name))

theorem becomes_of_boxed (hn : Catalog.standard.byName? op.name = none)
    (h : boxed v op = .ok (x, losses)) : Becomes d op x := by
  rw [boxed] at h
  by_cases hq : op.qargs.isEmpty
  · rw [if_pos hq] at h
    cases h
  by_cases hc : !op.cargs.isEmpty
  · rw [if_neg hq, if_pos hc] at h
    cases h
  rw [if_neg hq, if_neg hc] at h
  obtain ⟨rfl, -⟩ := Prod.mk.inj (Except.ok.inj h)
  exact .box hn (by simpa using hq) (by simpa using hc)

theorem becomes_of_listed {e : Entry} (he : Catalog.standard.byName? op.name = some e)
    (h : d.listed v e op = .ok x) : Becomes d op x := by
  have hmem : e ∈ Catalog.standard.entries := (Catalog.byName?_eq_some_iff.mp he).1
  obtain ⟨_, hcheck, h⟩ := bind_eq_ok.mp h
  obtain ⟨hinner, hqubits, hparams⟩ := kind_of_check hmem hcheck
  have hqargs : op.qargs ≠ [] := fun hn => hqubits (by rw [hn]; rfl)
  split_ifs at h with hk hc
  · rw [measured] at h
    split_ifs at h with hcount
    obtain rfl := Except.ok.inj h
    rw [Catalog.params_of_measure e hmem hk] at hparams
    refine .measurement e he hk hqargs (List.length_eq_zero_iff.mp hparams) fun hne => ?_
    simpa [hne] using hcount
  · obtain rfl := Except.ok.inj h
    exact .entry e he hk hinner hqargs (by simpa using hc)

theorem becomes_of_describe (h : d.describe p v op = .ok (x, losses)) : Becomes d op x := by
  rw [describe] at h
  cases he : Catalog.standard.byName? op.name with
  | some e =>
    rw [he] at h
    obtain ⟨dropped, -, h⟩ := bind_eq_ok.mp h
    obtain ⟨x', hx, h⟩ := bind_eq_ok.mp h
    obtain ⟨rfl, -⟩ := Prod.mk.inj (Except.ok.inj h)
    exact becomes_of_listed he hx
  | none =>
    rw [he] at h
    dsimp only at h
    split_ifs at h
    obtain ⟨dropped, -, h⟩ := bind_eq_ok.mp h
    obtain ⟨⟨x', ls⟩, hx, h⟩ := bind_eq_ok.mp h
    obtain ⟨rfl, -⟩ := Prod.mk.inj (Except.ok.inj h)
    exact becomes_of_boxed he hx

theorem Becomes.describes (h : Becomes d op x) : Describes d op x := by
  -- An entry found by name is one of the catalog, so the way back by kind finds it too.
  have hentry : ∀ {e : Entry}, Catalog.standard.byName? op.name = some e →
      e ∈ Catalog.standard.entries ∧ e.name = op.name := Catalog.byName?_eq_some_iff.mp
  cases h with
  | measurement e he hk hq hp hc =>
    obtain ⟨hmem, hname⟩ := hentry he
    constructor
    case qargs => exact hq
    case inputs => rfl
    case outputs => rfl
    case inner => rfl
    case kind => rw [he]; exact hk.symm
    case name => exact fun v => hname ▸ operationName_of_entry hmem v hk.symm
    case params => rw [he, hp]; rfl
    case measure => exact fun _ => rfl
    case cargs => exact fun hne => absurd rfl hne
    case cargs_length => exact hc
  | entry e he hk hi hq hc =>
    obtain ⟨hmem, hname⟩ := hentry he
    constructor
    case qargs => exact hq
    case inputs => rfl
    case outputs => rfl
    case inner => exact hi
    case kind => rw [he]; rfl
    case name => exact fun v => hname ▸ operationName_of_entry hmem v rfl
    case params =>
      rw [Payload.rotations_ofRotations, he, List.map_map]
      rfl
    case measure => exact fun hm => absurd hm hk
    case cargs => exact fun _ => hc
    case cargs_length => exact fun hne => absurd hc hne
  | box hn hq hc =>
    constructor
    case qargs => exact hq
    case inputs => rfl
    case outputs => rfl
    case inner => rfl
    case kind => rw [hn]; rfl
    case name => exact fun v => rfl
    case params => rw [hn]; rfl
    case measure => exact fun hk => nomatch hk
    case cargs => exact fun _ => hc
    case cargs_length => exact fun hne => absurd hc hne

theorem describes_of_describe (h : d.describe p v op = .ok (x, losses)) : Describes d op x :=
  (becomes_of_describe h).describes

/-- Measurements become the vertices that measure, and nothing else does. -/
theorem Describes.isMeasurement_iff (h : Describes d op x) :
    op.isMeasurement ↔ x.kind = .measure := by
  constructor
  · intro hm
    rw [h.kind, beq_iff_eq.mp hm]
    rfl
  · intro hk
    have hname := h.name 0
    rw [VertexCircuit.operationName, hk] at hname
    exact beq_iff_eq.mpr (Except.ok.inj hname).symm

theorem describes_of_toVertex? {x : Descriptor}
    (h : d.toVertex? p v (.op op) = .ok (some (x, losses))) : Describes d op x := by
  obtain ⟨_, hx, he⟩ := map_eq_ok.mp (show (d.describe p v op).map some = _ from h)
  obtain rfl := Option.some.inj he
  exact describes_of_describe hx

end Dag

end CircuitForms
