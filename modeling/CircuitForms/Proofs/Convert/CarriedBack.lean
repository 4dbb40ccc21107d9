import CircuitForms.Proofs.Convert.Exchanged
import CircuitForms.Proofs.Convert.Redescribed
import CircuitForms.Proofs.Convert.Standing

/-! # Carrying back what was restored

A circuit of vertices that the catalog supports is restored as a circuit of wires that is
carried over by the default policy. What comes back is the circuit that was restored, but
for the numbers of its vertices, the angles having been read off and the measurements
recording the bits that they were restored with.
-/

namespace CircuitForms.VertexCircuit

open Grid

variable {c w : VertexCircuit} {g : Grid} {register : String} {ds : List (Nat × Destination)}
  {op : Nat → Nat × Operation} {d : Dag} {namer : Namer} {losses : List Loss} {p : Policy}
  {v u n i : Nat} {x : Descriptor} {q : Qubit} {node : Nat → Nat} {f : Nat → Nat}

section Supported

variable (hs : ∀ v x, c.vertex? v = some x → x.isSupported)

include hs

theorem pins_of_input (hv : c.hasKind .input v) : c.pins v = 0 := by
  obtain ⟨x, hx, hk⟩ := hasKind_iff.mp hv
  have hsupported := hs v x hx
  simp only [Descriptor.isSupported, hk, Bool.and_eq_true, beq_iff_eq] at hsupported
  rw [pins, hx]
  exact hsupported.1

theorem pins_of_output (hv : c.hasKind .output v) : c.pins v = 1 := by
  obtain ⟨x, hx, hk⟩ := hasKind_iff.mp hv
  have hsupported := hs v x hx
  simp only [Descriptor.isSupported, hk, Bool.and_eq_true, beq_iff_eq] at hsupported
  rw [pins, hx]
  exact hsupported.1

end Supported

theorem resembles_lineStart (hs : x.isSupported) (hk : x.kind = .input) :
    Resembles x .lineStart := by
  simp only [Descriptor.isSupported, hk, Bool.and_eq_true, beq_iff_eq] at hs
  exact ⟨hk.symm, hs.1.symm, hs.2.symm, by simp [hk, Kind.isBoundary], by simp [hk]⟩

theorem resembles_lineEnd (hs : x.isSupported) (hk : x.kind = .output) : Resembles x .lineEnd := by
  simp only [Descriptor.isSupported, hk, Bool.and_eq_true, beq_iff_eq] at hs
  exact ⟨hk.symm, hs.1.symm, hs.2.symm, by simp [hk, Kind.isBoundary], by simp [hk]⟩

theorem exists_onLine_of_mem_links (hc : c.Wired) (hg : Layered c g) (hlay : c.Layable) {l : Link}
    (hl : l ∈ c.links.toList) : ∃ j, OnLine c j l.out := by
  refine hg.exists_onLine hlay ?_
  obtain ⟨hout, hpin⟩ := hlay.link l hl
  obtain ⟨x, hx, hlt⟩ := hc.out_lt l hl
  by_cases hi : c.hasKind .input l.source
  · exact .inl ⟨hi, hpin hi⟩
  · have hinner := hlay.inner _ x hx hi hout
    refine .inr ?_
    rw [pins, Link.out, hx]
    exact hlt.trans_eq hinner.1.symm

/-- Where a wire leaves the node of a vertex, a link leaves the vertex. -/
theorem Stands.next?_isSome (hs : Stands c register op d v n) (hlay : c.Layable)
    (hr : ReadsLines c register (fun v => (op v).1) d) (hl : d.Leaves q n i) :
    (c.next? ⟨v, i⟩).isSome := by
  cases hs with
  | inner hv =>
    obtain ⟨x, hx, -⟩ := (Option.any_eq_true _ _).mp hv
    obtain ⟨o, hn, ho⟩ := hr.operation v x hx hv
    have hinner := isInner_iff_not_boundary.mp hv
    obtain ⟨heq, -, -, hnext⟩ := hlay.inner v x hx hinner.2.1 hinner.2.2
    cases hl with
    | input hn' => cases hn.symm.trans hn'
    | op hn' hi =>
      cases hn.symm.trans hn'
      refine hnext i ?_
      rw [← heq, ← ho.qargs_length]
      exact (List.getElem?_eq_some_iff.mp hi).1
  | start hv hn =>
    cases hl with
    | input => exact hlay.input v (mem_inputs.mp (List.mem_of_getElem? hv))
    | op hn' => cases hn.symm.trans hn'
  | finish _ _ hn =>
    cases hl with
    | input hn' => cases hn.symm.trans hn'
    | op hn' => cases hn.symm.trans hn'

section Back

variable {N : Nat → Nat} (h : Restores c register g ds op d) (hc : c.Wired) (hg : Layered c g)
  (hlay : c.Layable) (hr : ReadsLines c register (fun v => (op v).1) d)
  (hs : ∀ v x, c.vertex? v = some x → x.isSupported)
  (hw : d.toVertices {} = .ok (w, losses))
  (hN : ∀ v < c.vertexCount, Stands c register op d v (N v))

include h hg hlay hs

theorem exists_bijOn_stands : ∃ N : Nat → Nat,
    (∀ v < c.vertexCount, Stands c register op d v (N v)) ∧
    Set.BijOn N (Set.Iio c.vertexCount) {n | (d.node? n).any d.isCarried} := by
  have hout : ∀ v, c.hasKind .output v → c.pins v = 1 := fun v => pins_of_output hs
  choose! N hN using fun v hv => exists_stands h.toReadOff hg hlay hout (v := v) hv
  refine ⟨N, hN, fun v hv => (hN v hv).carried h.toReadOff hg, fun v hv u hu he => ?_, ?_⟩
  · exact (hN v hv).vertex_unique h.toReadOff hg hlay (he ▸ hN u hu)
  · intro n hn
    obtain ⟨v, hv⟩ := exists_stands_of_carried h.toReadOff hg hlay hout hn
    exact ⟨v, hv.lt, (hN v hv.lt).node_unique h.toReadOff hg hlay hv⟩

include hc hr hw hN

theorem renumber_mem_links {l : Link} (hl : l ∈ c.links.toList) :
    l.renumber (d.rank ∘ N) ∈ w.links.toList := by
  have hout : ∀ v, c.hasKind .output v → c.pins v = 1 := fun v => pins_of_output hs
  have k := Dag.carries_of_toVertices hw
  obtain ⟨x, hx, -⟩ := hc.out_lt l hl
  obtain ⟨y, hy, hlt⟩ := hc.into_lt l hl
  have hsource := hN _ (lt_of_vertex? hx)
  have htarget := hN _ (lt_of_vertex? hy)
  have hnext := hc.mem_links_iff.mp hl
  obtain ⟨j, ha⟩ := exists_onLine_of_mem_links hc hg hlay hl
  have hinput : ¬ c.hasKind .input l.target := by
    intro hi
    have hpins : y.inputs = 0 := by simpa [pins, hy] using pins_of_input hs hi
    exact Nat.not_lt_zero _ (hpins ▸ hlt)
  rw [k.wired.mem_links_iff]
  exact k.next?_eq h.sound h.consistent (hsource.leaves hg hlay hr ha (hlay.link l hl).1)
    (follows_of_next? h.toReadOff hg hlay hout hsource htarget ha hnext)
    (htarget.enters hg hlay hr (.next ha hnext) hinput hout)

theorem exists_of_mem_links (hbij : Set.BijOn N (Set.Iio c.vertexCount)
    {n | (d.node? n).any d.isCarried}) {l : Link} (hl : l ∈ w.links.toList) :
    ∃ k ∈ c.links.toList, k.renumber (d.rank ∘ N) = l := by
  have k := Dag.carries_of_toVertices hw
  obtain ⟨q, n, i, n', j, -, hleaves, -, rfl⟩ := (Dag.wireGraph h.sound h.consistent hw).link l hl
  obtain ⟨v, hv, rfl⟩ := hbij.surjOn (hleaves.passes.carried h.sound h.consistent)
  obtain ⟨b, hb⟩ := Option.isSome_iff_exists.mp ((hN v hv).next?_isSome hlay hr hleaves)
  obtain ⟨m, hm, hout, -⟩ := hc.next?_iff.mp hb
  have hback := renumber_mem_links h hc hg hlay hr hs hw hN hm
  refine ⟨m, hm, List.inj_on_of_nodup_map k.wired.out_nodup hback hl ?_⟩
  exact congrArg (Cell.renumber (d.rank ∘ N)) hout

omit hc hr hs in
theorem inputs_eq_map : w.inputs = c.inputs.map (d.rank ∘ N) := by
  have hqubits : d.qubits = (List.range c.lineCount).map (Qubit.mk register) := by
    rw [Dag.qubits, h.qregs, List.flatMap_singleton, Register.qubits]
  have hinputs := (Dag.wireGraph h.sound h.consistent hw).inputs
  rw [hqubits, List.forall₂_map_left_iff] at hinputs
  have hlen : w.inputs.length = c.inputs.length := by simpa [lineCount] using hinputs.length_eq.symm
  refine List.ext_getElem (by rw [hlen, List.length_map]) fun j hj hj' => ?_
  have hjc : j < c.inputs.length := hlen ▸ hj
  have hv : c.inputs[j]? = some c.inputs[j] := List.getElem?_eq_getElem hjc
  obtain ⟨n, hn, hrank⟩ := hinputs.get (by simpa [lineCount] using hjc) hj
  rw [List.get_eq_getElem, List.getElem_range] at hn
  have hstart : Stands c register op d c.inputs[j] n := .start hv hn
  rw [List.getElem_map, Function.comp_apply,
    (hN _ hstart.lt).node_unique h.toReadOff hg hlay hstart]
  exact hrank.symm

theorem maps_rank (hbij : Set.BijOn N (Set.Iio c.vertexCount) {n | (d.node? n).any d.isCarried}) :
    Maps (d.rank ∘ N) c w where
  vertices := (Dag.wireGraph h.sound h.consistent hw).bijOn_rank.comp hbij
  inputs := inputs_eq_map h hg hlay hw hN
  link l := by
    constructor
    · exact exists_of_mem_links h hc hg hlay hr hs hw hN hbij
    · rintro ⟨k, hk, rfl⟩
      exact renumber_mem_links h hc hg hlay hr hs hw hN hk

omit hc hr in
theorem exists_resembles (hx : c.vertex? v = some x) :
    ∃ y, w.vertex? (d.rank (N v)) = some y ∧ Resembles x y ∧
      (c.isInner v → Recovers x (op v).2 y) := by
  have hgraph := Dag.wireGraph h.sound h.consistent hw
  have hsupported := hs v x hx
  have hstands := hN v (lt_of_vertex? hx)
  generalize N v = n at hstands
  cases hstands with
  | inner hv =>
    obtain ⟨y, ls, hy, hw⟩ := hgraph.op _ _ ((h.node?_iff hg).mpr ⟨v, hv, rfl⟩)
    obtain ⟨y', ls', hy', hrecovers⟩ := h.exists_describe hg hlay hx hv hsupported (op v).1
    obtain ⟨rfl, -⟩ := Prod.mk.inj (Except.ok.inj (hy.symm.trans hy'))
    exact ⟨y, hw, hrecovers.toResembles, fun _ => hrecovers⟩
  | start hv hn =>
    have hi := mem_inputs.mp (List.mem_of_getElem? hv)
    refine ⟨_, hgraph.input _ _ hn, resembles_lineStart hsupported ?_, fun hv => ?_⟩
    · exact (hasKind_of_vertex? hx).mp hi
    · exact absurd hi (not_input_of_isInner hv)
  | finish _ ho hn =>
    refine ⟨_, hgraph.output _ _ hn, resembles_lineEnd hsupported ?_, fun hv => ?_⟩
    · exact (hasKind_of_vertex? hx).mp ho
    · exact absurd ho (isInner_iff_not_boundary.mp hv).2.2

end Back

/-- What a circuit is carried back as, after its vertices were restored at nodes of their own. -/
structure CarriedBack (c : VertexCircuit) (node f : Nat → Nat) (d : Dag) (w : VertexCircuit) : Prop
    extends Maps f c w where
  vertex : ∀ v x, c.vertex? v = some x → ∃ y, w.vertex? (f v) = some y ∧ Resembles x y
  /-- A measurement tells the bits that its operation writes, those it recorded if any. -/
  measured : ∀ v x, c.vertex? v = some x → x.kind = .measure → ∃ y text dest o,
    w.vertex? (f v) = some y ∧ y.description? = some text ∧
    Destination.decode text y.outputs = .ok dest ∧
    d.node? (node v) = some (.op o) ∧ dest.bits = o.cargs ∧
    ∀ recorded, Destination.decode (x.description?.getD "") x.outputs = .ok recorded →
      recorded.isEmpty = false → dest.bits = recorded.bits

/-- Whatever calls a circuit is built by, if its vertices are supported, then what it is restored as
is carried over by the default policy, and it is carried back as a circuit like it. -/
theorem exists_carriedBack {calls : List Call}
    (hs : ∀ x ∈ (of calls).vertices, x.isSupported)
    (h : ((of calls).toWiresWith register namer).1 = .ok d) :
    ∃ w losses node f, d.toVertices {} = .ok (w, losses) ∧
      ReadsLines (of calls) register node d ∧ CarriedBack (of calls) node f d w := by
  have hs : ∀ v x, (of calls).vertex? v = some x → x.isSupported := by
    intro v x hx
    exact hs x (Array.mem_of_getElem? hx)
  have hc := wired_of calls
  obtain ⟨g, ds, op, hg, hlay, hr, hreads⟩ := exists_restores hc (fun v => pins_of_input hs) h
  obtain ⟨⟨w, losses⟩, hw⟩ : ∃ r, d.toVertices {} = .ok r := by
    refine (Dag.exists_toVertices_iff hr.sound hr.consistent).mpr fun n o hn => ?_
    obtain ⟨v, hv, ho⟩ := (hr.node?_iff hg).mp hn
    obtain ⟨x, hx, -⟩ := (Option.any_eq_true _ _).mp hv
    obtain ⟨y, losses, hy, -⟩ := hr.exists_describe hg hlay hx hv (hs v x hx) n
    rw [ho] at hy
    exact ⟨_, hy⟩
  obtain ⟨N, hN, hbij⟩ := exists_bijOn_stands hr hg hlay hs
  have hvertex := fun v x hx => exists_resembles (v := v) (x := x) hr hg hlay hs hw hN hx
  refine ⟨w, losses, _, d.rank ∘ N, hw, hreads,
    maps_rank hr hc hg hlay hreads hs hw hN hbij, ?_, ?_⟩
  · intro v x hx
    obtain ⟨y, hy, hresembles, -⟩ := hvertex v x hx
    exact ⟨y, hy, hresembles⟩
  · intro v x hx hk
    have hv := isInner_of_measure hx hk
    obtain ⟨y, hy, -, hrecovers⟩ := hvertex v x hx
    obtain ⟨text, dest, htext, hdecode, hbits⟩ := (hrecovers hv).measured hk
    refine ⟨y, text, dest, _, hy, htext, hdecode, (hr.node?_iff hg).mpr ⟨v, hv, rfl⟩, hbits, ?_⟩
    intro recorded hrecorded he
    exact hbits.trans ((hr.written v x hx hk).recorded recorded hrecorded he)

/-- Two lines that cross in a controlled gate, a turn, a box and two measurements, the second of
which records nothing. -/
def assorted : List Call :=
  [.addVertex .lineStart, .addVertex .lineStart, .addVertex (.onLines .cx 2),
    .addVertex (.onLines .rz 1 (.single (.symbolic (.symbol "t")))),
    .addVertex (.onLines .box 2 (.description "twist")),
    .addVertex (.onLines .measure 1 (.description (Destination.ofClbits [⟨"c", 1⟩] []).encode)),
    .addVertex (.onLines .measure 1), .addVertex .lineEnd, .addVertex .lineEnd,
    .addLink ⟨0, 0, 2, 1⟩, .addLink ⟨1, 0, 2, 0⟩, .addLink ⟨2, 0, 3, 0⟩, .addLink ⟨3, 0, 4, 0⟩,
    .addLink ⟨2, 1, 4, 1⟩, .addLink ⟨4, 0, 5, 0⟩, .addLink ⟨4, 1, 6, 0⟩, .addLink ⟨5, 0, 7, 0⟩,
    .addLink ⟨6, 0, 8, 0⟩]

theorem exists_carriedBack_assorted :
    (∀ x ∈ (of assorted).vertices, x.isSupported) ∧
      ∃ d, ((of assorted).toWiresWith "q" {}).1 = .ok d ∧
        ∃ w losses node f, d.toVertices {} = .ok (w, losses) ∧
          ReadsLines (of assorted) "q" node d ∧ CarriedBack (of assorted) node f d w := by
  have hs : ∀ x ∈ (of assorted).vertices, x.isSupported := by
    decide +kernel
  have hok : ((of assorted).toWiresWith "q" {}).1.toOption.isSome := by
    decide +kernel
  obtain ⟨d, hd⟩ := Option.isSome_iff_exists.mp hok
  have hd := toOption_eq_some.mp hd
  exact ⟨hs, d, hd, exists_carriedBack hs hd⟩

/-- A line whose start is turned. -/
def turnedStart : VertexCircuit :=
  of [.addVertex ⟨.input, 0, 1, .single (.symbolic (.symbol "t"))⟩, .addVertex .lineEnd,
    .addLink ⟨0, 0, 1, 0⟩]

def bareQubit : Dag :=
  (Dag.History.of [.addQreg ⟨"q", 1⟩]).dag

def plainLine : VertexCircuit :=
  of [.addVertex .lineStart, .addVertex .lineEnd, .addLink ⟨0, 0, 1, 0⟩]

/-- The angle of an end of a line is not carried back, whatever vertex the end is compared with. -/
theorem not_exists_rotations_turnedStart :
    (∀ x ∈ turnedStart.vertices, x.isSupported) ∧ turnedStart.toWires "q" = .ok bareQubit ∧
      bareQubit.toVertices {} = .ok (plainLine, []) ∧
      ¬ ∃ f : Nat → Nat, ∀ v x, turnedStart.vertex? v = some x → ∃ y,
        plainLine.vertex? (f v) = some y ∧
          y.rotations = x.rotations.map fun r => .ofAngle r.toAngle := by
  have hs : ∀ x ∈ turnedStart.vertices, x.isSupported := by
    decide +kernel
  have hd : turnedStart.toWires "q" = .ok bareQubit := by
    decide +kernel
  have hw : bareQubit.toVertices {} = .ok (plainLine, []) := by
    decide +kernel
  have hplain : ∀ y ∈ plainLine.vertices, y.rotations = [] := by
    decide +kernel
  refine ⟨hs, hd, hw, ?_⟩
  rintro ⟨f, hf⟩
  obtain ⟨y, hy, hrotations⟩ := hf 0 _ rfl
  rw [hplain y (Array.mem_of_getElem? hy)] at hrotations
  cases hrotations

end CircuitForms.VertexCircuit
