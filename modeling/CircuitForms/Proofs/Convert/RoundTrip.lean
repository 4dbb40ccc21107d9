import CircuitForms.Proofs.Convert.Operands
import CircuitForms.Proofs.Dag.History

/-! # From wires to vertices and back

A circuit of wires that is carried over into vertices and restored from them has the
same operations on its qubits, in the same order along every qubit wire.
-/

namespace CircuitForms

namespace Dag

variable {d d' : Dag} {p : Policy} {c : VertexCircuit} {register : String}

/-- A circuit and what is restored of it, with the node of each operation in both. -/
structure RoundTrip (d d' : Dag) (register : String) (f : Nat → Nat) : Prop where
  qregs : d'.qregs = [⟨register, d.qubitCount⟩]
  bijective : Set.BijOn f {v | ∃ o, d.node? v = some (.op o)} {v | ∃ o, d'.node? v = some (.op o)}
  /-- Both wires of a qubit lead through the same operations. -/
  wire : ∀ (j : Nat) (q : Qubit), d.qubits[j]? = some q → ∃ s e s' e',
    d.graph.Strand (.qubit q) s (visits d.operations (.qubit q)) e ∧
      d'.graph.Strand (.qubit ⟨register, j⟩) s' ((visits d.operations (.qubit q)).map f) e'
  restores : ∀ v o, d.node? v = some (.op o) →
    ∃ o', d'.node? (f v) = some (.op o') ∧ d.Restores register o o'

namespace Carries

variable {g : Grid} {ds : List (Nat × Destination)} {op : Nat → Nat × Operation}
  (h : d.Carries p c) (hd : d.Sound) (hg : Grid.Layered c g)

include h hd hg

theorem wire_eq {j : Nat} {q : Qubit} (r : c.ReadOff register g ds op d')
    (hq : d.qubits[j]? = some q) :
    visits d'.operations (.qubit ⟨register, j⟩) =
      (visits d.operations (.qubit q)).map fun v => (op (d.rank v)).1 := by
  obtain ⟨l, hl⟩ := h.exists_line hd hg hq
  have hqubit : d.hasQubit q := hd.mem_qubits_iff.mp (List.mem_of_getElem? hq)
  obtain ⟨s, e, hs⟩ := hd.exists_strand (List.mem_of_getElem? hq)
  -- The ends of the wire carry no operation, and everything between them does.
  have hstart : c.isInner (d.rank s) = false := by
    rw [VertexCircuit.isInner, h.vertex_input hs.start hqubit]
    rfl
  have hend : c.isInner (d.rank e) = false := by
    rw [VertexCircuit.isInner, h.vertex_output hs.finish hqubit]
    rfl
  have hinner : ∀ u ∈ (visits d.operations (.qubit q)).map d.rank, c.isInner u := by
    intro u hu
    obtain ⟨v, hv, rfl⟩ := List.mem_map.mp hu
    obtain ⟨o, ho⟩ := hs.inner v hv
    exact h.isInner_iff.mpr ⟨v, o, ho, rfl⟩
  have hvertices : (s :: visits d.operations (.qubit q) ++ [e]).map
      (Cell.vertex ∘ d.cellAt q) = (s :: visits d.operations (.qubit q) ++ [e]).map d.rank := rfl
  rw [r.visits_qubit hg hl, h.line_eq hd hg hq hs hl, List.map_map, hvertices, List.map_append,
    List.map_cons, List.map_singleton, List.filter_append,
    List.filter_cons_of_neg (by simp [hstart]), List.filter_cons_of_neg (by simp [hend]),
    List.filter_nil, List.append_nil, List.filter_eq_self.mpr hinner, List.map_map]
  rfl

theorem roundTrip (r : c.ReadOff register g ds op d') (hds : c.destinations = .ok ds) :
    RoundTrip d d' register fun v => (op (d.rank v)).1 := by
  have hnode : ∀ {v o}, d.node? v = some (.op o) →
      d'.node? (op (d.rank v)).1 = some (.op (op (d.rank v)).2) := fun {v o} hv =>
    (r.node?_iff hg).mpr ⟨_, h.isInner_iff.mpr ⟨v, o, hv, rfl⟩, rfl⟩
  constructor
  case qregs => rw [r.qregs, h.lineCount_eq hd]
  case bijective =>
    refine ⟨?_, ?_, ?_⟩
    · rintro v ⟨o, hv⟩
      exact ⟨_, hnode hv⟩
    · rintro v ⟨o, hv⟩ v' ⟨o', hv'⟩ he
      have hrank := r.node_inj hg (h.isInner_iff.mpr ⟨v, o, hv, rfl⟩)
        (h.isInner_iff.mpr ⟨v', o', hv', rfl⟩) he
      exact rank_inj hv rfl hv' rfl hrank
    · rintro n ⟨o', hn⟩
      obtain ⟨u, hu, he⟩ := (r.node?_iff hg).mp hn
      obtain ⟨v, o, hv, rfl⟩ := h.isInner_iff.mp hu
      exact ⟨v, ⟨o, hv⟩, congrArg Prod.fst he⟩
  -- The lines make up one register, so line `j` is its qubit `j`.
  case wire =>
    intro j q hq
    obtain ⟨s, e, hs⟩ := hd.exists_strand (List.mem_of_getElem? hq)
    have hj : j < d.qubitCount := by
      rw [← length_qubits]
      exact (List.getElem?_eq_some_iff.mp hq).1
    have hwire' : Wire.qubit ⟨register, j⟩ ∈ d'.wires := by
      rw [r.sound.mem_wires_iff]
      simpa [hasWire, hasQubit, qreg?, Register.find?, r.qregs, h.lineCount_eq hd] using hj
    obtain ⟨s', e', hs'⟩ := r.sound.threaded.exists_strand hwire'
    rw [h.wire_eq hd hg r hq] at hs'
    exact ⟨s, e, s', e', hs, hs'⟩
  case restores =>
    intro v o hv
    obtain ⟨x, hxv, hx, ho⟩ := h.restored_op r hv
    exact ⟨_, hnode hv, h.restores hd hg hds hv hxv hx ho⟩

end Carries

/-- Whatever calls a circuit is built by, if it can be carried over and restored, then what is
restored has the same operations in the same order along every qubit wire. -/
theorem roundTrip_of {calls : List Call} {losses : List Loss}
    (hc : (History.of calls).dag.toVertices p = .ok (c, losses))
    (hd' : c.toWires register = .ok d') :
    ∃ f, RoundTrip (History.of calls).dag d' register f := by
  have hd := (History.sound_of calls).dag
  have h := carries_of_toVertices hc
  obtain ⟨g, ds, op, hg, hds, r⟩ := h.exists_readOff hd'
  exact ⟨_, h.roundTrip hd hg r hds⟩

def entangling : List Call :=
  [.addQreg ⟨"a", 1⟩, .addQreg ⟨"b", 1⟩, .addCreg ⟨"m", 1⟩, .declare ⟨"h", 1, 0, 0⟩,
    .declare ⟨"cx", 2, 0, 0⟩, .declare ⟨"measure", 1, 1, 0⟩,
    .append ⟨"h", [⟨"b", 0⟩], [], [], none⟩, .append ⟨"cx", [⟨"b", 0⟩, ⟨"a", 0⟩], [], [], none⟩,
    .append (.measurement [⟨"a", 0⟩] [⟨"m", 0⟩])]

def entanglingVertices : VertexCircuit :=
  .of [.addVertex .lineStart, .addVertex .lineEnd, .addVertex .lineStart, .addVertex .lineEnd,
    .addVertex (.onLines .h 1), .addVertex (.onLines .cx 2),
    .addVertex (.onLines .measure 1
      (.description (Destination.encode ⟨[⟨"m", 0⟩], [⟨"m", 1⟩]⟩))),
    .addLink ⟨5, 0, 3, 0⟩, .addLink ⟨6, 0, 1, 0⟩, .addLink ⟨2, 0, 4, 0⟩, .addLink ⟨4, 0, 5, 0⟩,
    .addLink ⟨0, 0, 5, 1⟩, .addLink ⟨5, 1, 6, 0⟩]

def entanglingRestored : Dag :=
  (History.of [.addQreg ⟨"q", 2⟩, .declare ⟨"h", 1, 0, 0⟩, .append ⟨"h", [⟨"q", 1⟩], [], [], none⟩,
    .declare ⟨"cx", 2, 0, 0⟩, .append ⟨"cx", [⟨"q", 1⟩, ⟨"q", 0⟩], [], [], none⟩,
    .addCreg ⟨"m", 1⟩, .declare ⟨"measure", 1, 1, 0⟩,
    .append (.measurement [⟨"q", 0⟩] [⟨"m", 0⟩])]).dag

theorem roundTrip_entangling :
    (History.of entangling).dag.toVertices {} = .ok (entanglingVertices, []) ∧
      entanglingVertices.toWires "q" = .ok entanglingRestored ∧
      ∃ f, RoundTrip (History.of entangling).dag entanglingRestored "q" f := by
  have hc : (History.of entangling).dag.toVertices {} = .ok (entanglingVertices, []) := by
    decide +kernel
  have hd : entanglingVertices.toWires "q" = .ok entanglingRestored := by
    decide +kernel
  exact ⟨hc, hd, roundTrip_of hc hd⟩

end Dag

end CircuitForms
