import CircuitForms.Proofs.Convert.Restorable
import CircuitForms.Proofs.Convert.WireGraph
import CircuitForms.Proofs.Measurement.Recorded

/-! # Bringing circuits back

What a circuit of wires is carried over to can be laid out, for its links are the steps of
wires that lead uphill. Its vertices stand for operations of the names that the circuit of
wires declares. So only a measurement can keep it from being restored, and only by writing
a bit twice.
-/

namespace CircuitForms.Dag

variable {d : Dag} {p : Policy} {c : VertexCircuit} {q : Qubit} {v v' u u' i : Nat}
  {o : Operation} {x : Descriptor}

theorem Follows.height_lt (hd : d.Sound) (hc : d.Consistent) (h : d.Follows q v v') :
    d.height v < d.height v' := by
  obtain ⟨s, e, hs, hm⟩ := h.exists_strand hd
  have hup := pairwise_height (count_qubit_le hc q) hs
  exact isChain_iff_consecutivePairs.mp hup.isChain _ hm

namespace Carries

variable (h : d.Carries p c) (hd : d.Sound) (hc : d.Consistent)

include h hd hc

theorem next?_isSome (hx : c.vertex? u = some x) (hi : i < x.outputs) :
    (c.next? ⟨u, i⟩).isSome := by
  obtain ⟨q, v, rfl, hl⟩ := h.exists_leaves_of_lt hx hi
  obtain ⟨v', k, -, -, hn⟩ := h.exists_next hd hc hl
  exact Option.isSome_of_eq_some hn

theorem previous?_isSome (hx : c.vertex? u = some x) (hi : i < x.inputs) :
    (c.previous? ⟨u, i⟩).isSome := by
  obtain ⟨q, v, rfl, he⟩ := h.exists_enters_of_lt hx hi
  obtain ⟨v', k, -, -, hp⟩ := h.exists_previous hd hc he
  exact Option.isSome_of_eq_some hp

theorem exists_height : ∃ height : Nat → Nat, ∀ u u', c.Leads u u' → height u < height u' := by
  have hinv := (strictMonoOn_rank d).injOn.leftInvOn_invFunOn
  have hcarried : ∀ {q v i}, d.Passes q v i → v ∈ {v | (d.node? v).any d.isCarried} := by
    intro q v i hv
    obtain ⟨node, hn, hcarried, -⟩ := hv.node hd hc
    exact (Option.any_eq_true _ _).mpr ⟨node, hn, hcarried⟩
  refine ⟨fun u => d.height (Function.invFunOn d.rank {v | (d.node? v).any d.isCarried} u), ?_⟩
  rintro _ _ ⟨l, hl, rfl, rfl⟩
  obtain ⟨q, v, i, v', k, hf, hi, hk, rfl⟩ := h.exists_step hd hc hl
  dsimp only
  rw [hinv (hcarried hi.passes), hinv (hcarried hk.passes)]
  exact hf.height_lt hd hc

/-- What is carried over can be laid out. -/
theorem layable : c.Layable := by
  constructor
  case input =>
    intro u hu
    obtain ⟨v, q, rfl, hn, hx⟩ := h.node_of_input hu
    exact h.next?_isSome hd hc hx Nat.one_pos
  case inner =>
    intro u x hx hi ho
    obtain ⟨v, -, ⟨q, -, -, rfl⟩ | ⟨q, -, -, rfl⟩ | ⟨o, -, hdesc⟩⟩ := h.node_cases hx
    · exact absurd (VertexCircuit.hasKind_iff.mpr ⟨_, hx, rfl⟩) hi
    · exact absurd (VertexCircuit.hasKind_iff.mpr ⟨_, hx, rfl⟩) ho
    · refine ⟨hdesc.inputs.trans hdesc.outputs.symm, ?_, fun i => h.previous?_isSome hd hc hx,
        fun i => h.next?_isSome hd hc hx⟩
      rw [hdesc.inputs]
      exact List.length_pos_iff.mpr hdesc.qargs
  case output =>
    intro u x hx ho
    obtain rfl := Option.some.inj (hx.symm.trans (h.vertex_of_output ho))
    exact ⟨Nat.one_pos, fun i => h.previous?_isSome hd hc hx⟩
  case link =>
    intro l hl
    constructor
    · intro ho
      have hn := h.wired.next?_iff.mpr ⟨l, hl, rfl, rfl⟩
      cases hn.symm.trans (h.next?_of_output (x := l.out) ho)
    · intro hi
      obtain ⟨x, hx, hlt⟩ := h.wired.out_lt l hl
      obtain ⟨v, q, -, -, hstart⟩ := h.node_of_input hi
      obtain rfl := Option.some.inj (hx.symm.trans hstart)
      exact Nat.lt_one_iff.mp hlt
  case acyclic =>
    intro u hu
    obtain ⟨height, hheight⟩ := h.exists_height hd hc
    have hlt : Relation.TransGen (· < ·) (height u) (height u) := hu.lift height hheight
    rw [Relation.transGen_eq_self] at hlt
    exact Nat.lt_irrefl _ hlt

theorem exists_layOut : ∃ g, Grid.layOut c = .ok g :=
  (Grid.exists_layOutBy_iff h.wired (fun _ => h.pins_of_input) fun _ gs => .refl gs).mpr
    (h.layable hd hc)

end Carries

/-- The signature of an operation once it is brought back. A measurement then writes a bit for each
qubit, and only the operations of the catalog have their parameters. -/
def signatureBack (s : Signature) : Signature where
  name := s.name
  qubits := s.qubits
  clbits :=
    if (Catalog.standard.byName? s.name).map Entry.kind = some .measure then s.qubits else 0
  params := if (Catalog.standard.byName? s.name).isSome then s.params else 0

theorem Describes.kind_eq_measure_iff (hx : Describes d o x) : x.kind = .measure ↔
    (Catalog.standard.byName? o.name).map Entry.kind = some .measure := by
  rw [hx.kind]
  cases Catalog.standard.byName? o.name with
  | none => simp
  | some e => simp

theorem Describes.signatureAt? (hx : Describes d o x) (hu : c.vertex? u = some x) :
    c.signatureAt? u = some (signatureBack o.signature) := by
  have hparams : x.rotations.length =
      if (Catalog.standard.byName? o.name).isSome then o.params.length else 0 := by
    simpa [apply_ite List.length] using congrArg List.length hx.params
  rw [VertexCircuit.signatureAt?_eq_some hu (by simp [hx.inner]) (hx.name u), hx.inputs,
    hx.outputs, hparams, if_congr hx.kind_eq_measure_iff rfl rfl]
  rfl

section Measured

variable (hsize : ∀ r ∈ d.cregs, r.size < 1 <<< 32)

include hsize

theorem Describes.decode_eq (hx : Describes d o x) (ho : d.Admits o) (hk : x.kind = .measure) :
    Destination.decode (x.description?.getD "") x.outputs =
      match firstRepeated? [] o.cargs with
      | some b => .error (.duplicateBit b)
      | none => .ok (Destination.ofClbits o.cargs d.cregs) := by
  rw [hx.measure hk, hx.outputs]
  exact Destination.decode_encode_ofClbits (fun b hb => hasClbit_iff.mp (ho.clbit b hb)) hsize
    hx.cargs_length

theorem Describes.decodes_iff (hx : Describes d o x) (ho : d.Admits o) :
    (x.kind = .measure →
      ∃ dest, Destination.decode (x.description?.getD "") x.outputs = .ok dest) ↔
      o.cargs.Nodup := by
  by_cases hk : x.kind = .measure
  · have hnodup : firstRepeated? [] o.cargs = none ↔ o.cargs.Nodup := by
      simp [firstRepeated?_eq_none_iff]
    rw [← hnodup, hx.decode_eq hsize ho hk]
    cases firstRepeated? [] o.cargs with
    | none => simp [hk]
    | some b => simp [hk]
  · simp [hk, hx.cargs hk]

end Measured

namespace Carries

variable (h : d.Carries p c) (hd : d.Sound) (hc : d.Consistent)

include h hc

theorem decoded_iff (hsize : ∀ r ∈ d.cregs, r.size < 1 <<< 32) :
    c.Decoded ↔ ∀ x ∈ d.operations, x.2.cargs.Nodup := by
  constructor
  · intro hdec x ho
    obtain ⟨y, hy, hdesc⟩ := h.vertex_op (mem_operations_iff.mp ho)
    exact (hdesc.decodes_iff hsize (hc _ ho)).mp (hdec _ y hy)
  · intro hn u x hx hk
    obtain ⟨v, -, ⟨q, -, -, rfl⟩ | ⟨q, -, -, rfl⟩ | ⟨o, ho, hdesc⟩⟩ := h.node_cases hx
    · cases hk
    · cases hk
    · have ho := mem_operations_iff.mpr ho
      exact (hdesc.decodes_iff hsize (hc _ ho)).mpr (hn _ ho) hk

theorem restorable (hd : d.Sound) (hdec : c.Decoded) : c.Restorable := by
  -- A vertex asks for the signature that its operation was declared with.
  have hsignature : ∀ u a, c.signatureAt? u = some a → ∃ s, d.signature? a.name = some s ∧
      a = signatureBack s := by
    intro u a ha
    obtain ⟨x, hx, hsome⟩ := Option.bind_eq_some_iff.mp ha
    have hinner : c.isInner u := by
      rw [VertexCircuit.isInner_iff_of_vertex? hx]
      rintro hb
      rw [if_pos hb] at hsome
      cases hsome
    obtain ⟨v, o, ho, rfl⟩ := h.isInner_iff.mp hinner
    obtain ⟨x, hx, hdesc⟩ := h.vertex_op ho
    obtain rfl := Option.some.inj (ha.symm.trans (hdesc.signatureAt? hx))
    exact ⟨_, (hc _ (mem_operations_iff.mpr ho)).signature, rfl⟩
  constructor
  case laid => exact h.exists_layOut hd hc
  case decoded => exact hdec
  case named =>
    intro u x hx hi
    obtain ⟨v, o, ho, rfl⟩ := h.isInner_iff.mp hi
    obtain ⟨x', hx', hdesc⟩ := h.vertex_op ho
    obtain rfl := Option.some.inj (hx.symm.trans hx')
    rcases VertexCircuit.operationName_cases (d.rank v) x with ⟨-, hn⟩ | ⟨hn, -⟩
    · exact hn
    · cases hn.symm.trans (hdesc.name _)
  case agree =>
    intro u u' a b ha hb hname
    obtain ⟨s, hs, rfl⟩ := hsignature u a ha
    obtain ⟨s', hs', rfl⟩ := hsignature u' b hb
    rw [hname, hs'] at hs
    rw [Option.some.inj hs]

end Carries

/-- Whether what was carried over is brought back. -/
structure BroughtBack (d : Dag) (c : VertexCircuit) (register : String) (namer : Namer) :
    Prop where
  isOk_iff : (∃ d', (c.toWiresWith register namer).1 = .ok d') ↔
    d.qubitCount < 1 <<< 32 ∧ ∀ x ∈ d.operations, x.2.cargs.Nodup
  tooManyLines : ¬ d.qubitCount < 1 <<< 32 →
    (c.toWiresWith register namer).1 = .error (.circuit (.notLayable .tooManyLines))
  /-- Else what keeps it is the first operation that writes a bit twice, for the bit it writes
  again. -/
  refused : d.qubitCount < 1 <<< 32 → ∀ f, (c.toWiresWith register namer).1 = .error f →
    ∃ v o b, d.node? v = some (.op o) ∧ firstRepeated? [] o.cargs = some b ∧
      (∀ x ∈ d.operations, x.1 < v → x.2.cargs.Nodup) ∧
      f = .invalidDestination (d.rank v) (.duplicateBit b)

theorem Carries.exists_of_destinations (h : d.Carries p c) (hc : d.Consistent)
    (hsize : ∀ r ∈ d.cregs, r.size < 1 <<< 32) {f : ConversionFault}
    (hds : c.destinations = .error f) : ∃ v o b, d.node? v = some (.op o) ∧
      firstRepeated? [] o.cargs = some b ∧ (∀ x ∈ d.operations, x.1 < v → x.2.cargs.Nodup) ∧
      f = .invalidDestination (d.rank v) (.duplicateBit b) := by
  obtain ⟨u, x, fault, hx, hk, hfault, rfl, hfirst⟩ :=
    VertexCircuit.exists_of_destinations_eq_error hds
  obtain ⟨v, rfl, ⟨q, -, -, rfl⟩ | ⟨q, -, -, rfl⟩ | ⟨o, ho, hdesc⟩⟩ := h.node_cases hx
  · cases hk
  · cases hk
  have hearlier : ∀ y ∈ d.operations, y.1 < v → y.2.cargs.Nodup := by
    intro y hy hlt
    have hyn := mem_operations_iff.mp hy
    obtain ⟨z, hz, hdescz⟩ := h.vertex_op hyn
    have hrank := strictMonoOn_rank d ((Option.any_eq_true _ _).mpr ⟨_, hyn, rfl⟩)
      ((Option.any_eq_true _ _).mpr ⟨_, ho, rfl⟩) hlt
    exact (hdescz.decodes_iff hsize (hc _ hy)).mp (hfirst _ hrank z hz)
  rw [hdesc.decode_eq hsize (hc _ (mem_operations_iff.mpr ho)) hk] at hfault
  cases hb : firstRepeated? [] o.cargs with
  | none =>
    rw [hb] at hfault
    cases hfault
  | some b =>
    rw [hb] at hfault
    obtain rfl := Except.error.inj hfault
    exact ⟨v, o, b, ho, hb, hearlier, rfl⟩

theorem Carries.broughtBack (h : d.Carries p c) (hd : d.Sound) (hc : d.Consistent)
    (hsize : ∀ r ∈ d.cregs, r.size < 1 <<< 32) (register : String) (namer : Namer) :
    BroughtBack d c register namer := by
  have hcount := h.lineCount_eq hd
  have hiff (hlines : d.qubitCount < 1 <<< 32) :=
    VertexCircuit.exists_toWiresWith_iff h.wired (fun _ => h.pins_of_input) (hcount ▸ hlines)
      register namer
  constructor
  case isOk_iff =>
    rw [← h.decoded_iff hc hsize]
    constructor
    · rintro ⟨d', hd'⟩
      have hlines := hcount ▸ VertexCircuit.lineCount_lt_of_toWiresWith hd'
      exact ⟨hlines, ((hiff hlines).mp ⟨d', hd'⟩).decoded⟩
    · rintro ⟨hlines, hdec⟩
      exact (hiff hlines).mpr (h.restorable hc hd hdec)
  case tooManyLines =>
    exact fun hlines => VertexCircuit.toWiresWith_of_not_lt (hcount ▸ hlines) namer
  case refused =>
    intro hlines f hf
    obtain ⟨g, hlaid⟩ := h.exists_layOut hd hc
    cases hds : c.destinations with
    | ok ds =>
      have hdec := VertexCircuit.decoded_of_destinations hds
      obtain ⟨d', hd'⟩ := (hiff hlines).mpr (h.restorable hc hd hdec)
      cases hf.symm.trans hd'
    | error f' =>
      obtain rfl := Except.error.inj (hf.symm.trans
        (VertexCircuit.toWiresWith_of_not_decoded (hcount ▸ hlines) hlaid hds namer))
      exact h.exists_of_destinations hc hsize hds

/-- Whatever calls a circuit is built by, the sizes of its classical registers fitting 32 bits, what
it is carried over to is brought back unless one of its operations writes a bit twice, or the qubits
are too many for one register. -/
theorem broughtBack_of_toVertices {calls : List Call} {losses : List Loss}
    (hsize : ∀ r ∈ (History.of calls).dag.cregs, r.size < 1 <<< 32)
    (hc : (History.of calls).dag.toVertices p = .ok (c, losses)) (register : String)
    (namer : Namer) : BroughtBack (History.of calls).dag c register namer :=
  (carries_of_toVertices hc).broughtBack (History.sound_of calls).dag (consistent_of calls) hsize
    register namer

/-- Two qubits are measured into one bit. -/
def colliding : List Call :=
  [.addQreg ⟨"q", 2⟩, .addCreg ⟨"c", 1⟩, .declare ⟨"measure", 2, 2, 0⟩,
    .append (.measurement [⟨"q", 0⟩, ⟨"q", 1⟩] [⟨"c", 0⟩, ⟨"c", 0⟩])]

def collidingVertices : VertexCircuit :=
  .of [.addVertex .lineStart, .addVertex .lineEnd, .addVertex .lineStart, .addVertex .lineEnd,
    .addVertex (.onLines .measure 2
      (.description (Destination.encode ⟨[⟨"c", 0⟩, ⟨"c", 0⟩], [⟨"c", 1⟩]⟩))),
    .addLink ⟨4, 1, 3, 0⟩, .addLink ⟨4, 0, 1, 0⟩, .addLink ⟨0, 0, 4, 0⟩, .addLink ⟨2, 0, 4, 1⟩]

theorem broughtBack_colliding :
    (∀ r ∈ (History.of colliding).dag.cregs, r.size < 1 <<< 32) ∧
      (History.of colliding).dag.toVertices {} = .ok (collidingVertices, []) ∧
      BroughtBack (History.of colliding).dag collidingVertices "q" {} ∧
      (collidingVertices.toWiresWith "q" {}).1 =
        .error (.invalidDestination 4 (.duplicateBit ⟨"c", 0⟩)) := by
  have hsize : ∀ r ∈ (History.of colliding).dag.cregs, r.size < 1 <<< 32 := by
    decide +kernel
  have hc : (History.of colliding).dag.toVertices {} = .ok (collidingVertices, []) := by
    decide +kernel
  have hf : (collidingVertices.toWiresWith "q" {}).1 =
      .error (.invalidDestination 4 (.duplicateBit ⟨"c", 0⟩)) := by
    decide +kernel
  exact ⟨hsize, hc, broughtBack_of_toVertices hsize hc "q" {}, hf⟩

end CircuitForms.Dag
