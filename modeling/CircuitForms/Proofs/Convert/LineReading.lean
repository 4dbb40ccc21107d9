import CircuitForms.Proofs.Convert.Restorable
import CircuitForms.Proofs.Dag.Integrity

/-! # Circuits read off their lines

Whatever circuit of vertices is restored, each vertex within its lines becomes one
operation, on the qubits of the lines that come to its pins. Along the wire of a qubit
stand the operations of the vertices that are met on the way from the start of its line
to an output. The circuit that results has an order and can be listed.
-/

namespace CircuitForms

namespace VertexCircuit

variable {c : VertexCircuit} {j : Nat} {x : Cell}

/-- The cells on a line: where it starts and wherever the links lead on from there. A line leaves a
vertex by the output pin of the same number as the input pin it comes in by. -/
inductive OnLine (c : VertexCircuit) (j : Nat) : Cell → Prop where
  | start {v : Nat} (hv : c.inputs[j]? = some v) : OnLine c j ⟨v, 0⟩
  | next {a b : Cell} (ha : OnLine c j a) (hb : c.next? a = some b) : OnLine c j b

theorem onLine_of_isChain {a : Cell} {cells : List Cell} (ha : OnLine c j a)
    (h : (a :: cells).IsChain fun x y => c.next? x = some y) : ∀ x ∈ a :: cells, OnLine c j x := by
  induction cells generalizing a with
  | nil => simpa using ha
  | cons b cells ih =>
    obtain ⟨hab, hb⟩ := List.isChain_cons_cons.mp h
    rintro x hx
    rcases List.mem_cons.mp hx with rfl | hx
    · exact ha
    · exact ih (.next ha hab) hb x hx

theorem next?_eq_none_of_output (hlay : c.Layable) (hx : c.hasKind .output x.vertex) :
    c.next? x = none := by
  rw [Option.eq_none_iff_forall_not_mem]
  intro y hy
  obtain ⟨l, hl, rfl, -⟩ := exists_link_of_next? hy
  exact (hlay.link l hl).1 hx

theorem isInner_iff_not_boundary {v : Nat} : c.isInner v ↔
    v < c.vertexCount ∧ ¬ c.hasKind .input v ∧ ¬ c.hasKind .output v := by
  by_cases hv : v < c.vertexCount
  · obtain ⟨x, hx⟩ : ∃ x, c.vertex? v = some x := ⟨_, Array.getElem?_eq_getElem hv⟩
    rw [isInner_iff_of_vertex? hx, hasKind_of_vertex? hx, hasKind_of_vertex? hx, and_iff_right hv]
    cases x.kind <;> simp [Kind.isBoundary]
  · exact iff_of_false (fun hi => hv (mem_of_isInner hi)) fun hi => hv hi.1

end VertexCircuit

theorem exists_pair_of_isChain {α : Type} {R : α → α → Prop} {l : List α} {a b : α}
    (h : (l ++ [b]).IsChain R) (ha : a ∈ l) :
    ∃ a', (a, a') ∈ (l ++ [b]).consecutivePairs ∧ R a a' := by
  rw [← map_fst_consecutivePairs l b] at ha
  obtain ⟨x, hx, rfl⟩ := List.mem_map.mp ha
  exact ⟨x.2, hx, isChain_iff_consecutivePairs.mp h x hx⟩

theorem exists_of_isChain {α : Type} {R : α → α → Prop} {l : List α} {a b : α}
    (h : (l ++ [b]).IsChain R) (ha : a ∈ l) : ∃ a' ∈ l ++ [b], R a a' := by
  obtain ⟨a', hm, haa'⟩ := exists_pair_of_isChain h ha
  exact ⟨a', List.mem_of_mem_tail (List.of_mem_zip hm).2, haa'⟩

namespace Grid

open VertexCircuit

variable {c : VertexCircuit} {g : Grid} {j v : Nat} {l : List (Option Cell)} {x : Cell}

theorem mem_line (hl : g.lines[j]? = some l) : x ∈ l.reduceOption ↔ ∃ k, g.cell? j k = some x := by
  rw [List.reduceOption_mem_iff, List.mem_iff_getElem?]
  refine exists_congr fun k => ?_
  rw [cell?_eq_some]
  constructor
  · exact fun hk => ⟨l, hl, hk⟩
  · rintro ⟨l', hl', hk⟩
    rwa [Option.some.inj (hl.symm.trans hl')]

namespace Layered

variable (h : Layered c g) (hlay : c.Layable)

include h hlay

/-- A line goes from its start through vertices within the lines to an output. -/
theorem exists_line (hv : c.inputs[j]? = some v) : ∃ l cells x, g.lines[j]? = some l ∧
    l.reduceOption = ⟨v, 0⟩ :: cells ++ [x] ∧ c.hasKind .output x.vertex ∧
    (l.reduceOption.IsChain fun a b => c.next? a = some b) ∧ ∀ y ∈ cells, c.isInner y.vertex := by
  have hj : j < g.lines.length := by
    rw [h.length_lines]
    exact (List.getElem?_eq_some_iff.mp hv).1
  obtain ⟨l, hl⟩ : ∃ l, g.lines[j]? = some l := ⟨_, List.getElem?_eq_getElem hj⟩
  obtain ⟨⟨u, hu, hhead⟩, hchain, pre, x, n, hlast, hout⟩ := h.line j l hl
  obtain rfl := Option.some.inj (hu.symm.trans hv)
  have hinput : c.hasKind .input u := mem_inputs.mp (List.mem_of_getElem? hu)
  have hrow : l.reduceOption = pre.reduceOption ++ [x] := by
    rw [hlast, List.reduceOption_append, List.reduceOption_cons_of_some,
      List.reduceOption_replicate_none]
  cases pre with
  | nil =>
    obtain rfl : x = ⟨u, 0⟩ := by simpa [hlast] using hhead
    exact absurd hout (not_output_of_input hinput)
  | cons o pre =>
    obtain rfl : o = some ⟨u, 0⟩ := by simpa [hlast] using hhead
    rw [List.reduceOption_cons_of_some] at hrow
    refine ⟨l, pre.reduceOption, x, hl, hrow, hout, hchain, fun y hy => ?_⟩
    have hmem : y ∈ (⟨u, 0⟩ :: pre.reduceOption : List Cell) := List.mem_cons_of_mem _ hy
    obtain ⟨k, hk⟩ := List.mem_iff_getElem?.mp (List.reduceOption_mem_iff.mp hy)
    have hcell : g.cell? j (k + 1) = some y := by
      refine cell?_eq_some.mpr ⟨l, hl, ?_⟩
      rw [hlast, List.cons_append, List.getElem?_cons_succ,
        List.getElem?_append_left (List.getElem?_eq_some_iff.mp hk).1, hk]
    have hlt := (h.meets_lt y.vertex (k + 1) ⟨j, y.pin, hcell⟩).1
    refine isInner_iff_not_boundary.mpr ⟨hlt, ?_, ?_⟩
    · -- A start of a line is met at the first step only.
      intro hi
      obtain ⟨i, hi⟩ := List.mem_iff_getElem?.mp (mem_inputs.mpr hi)
      have hzero := ((h.input i y.vertex hi j (k + 1) y.pin).mp hcell).2.1
      omega
    · intro ho
      obtain ⟨z, -, hz⟩ := exists_of_isChain (hrow ▸ hchain) hmem
      rw [next?_eq_none_of_output hlay ho] at hz
      cases hz

theorem onLine_iff : OnLine c j x ↔ ∃ k, g.cell? j k = some x := by
  constructor
  · intro hx
    -- The row of a line is a chain of successors that goes on as long as the path does.
    induction hx with
    | start hv => exact ⟨0, (h.input j _ hv j 0 0).mpr ⟨rfl, rfl, rfl⟩⟩
    | @next a b _ hb ih =>
      obtain ⟨k, hk⟩ := ih
      obtain ⟨l, hl, -⟩ := cell?_eq_some.mp hk
      obtain ⟨⟨v, hv, -⟩, -⟩ := h.line j l hl
      obtain ⟨l', cells, z, hl', hrow, hout, hchain, -⟩ := h.exists_line hlay hv
      obtain rfl := Option.some.inj (hl.symm.trans hl')
      have hmem : a ∈ l.reduceOption := (mem_line hl).mpr ⟨k, hk⟩
      rw [hrow, List.mem_append, List.mem_singleton] at hmem
      rcases hmem with hmem | rfl
      · obtain ⟨b', hb', hnext⟩ := exists_of_isChain (hrow ▸ hchain) hmem
        obtain rfl := Option.some.inj (hb.symm.trans hnext)
        exact (mem_line hl).mp (hrow ▸ hb')
      · cases hb.symm.trans (next?_eq_none_of_output hlay hout)
  · rintro ⟨k, hk⟩
    obtain ⟨l, hl, -⟩ := cell?_eq_some.mp hk
    obtain ⟨⟨v, hv, -⟩, -⟩ := h.line j l hl
    obtain ⟨l', cells, z, hl', hrow, -, hchain, -⟩ := h.exists_line hlay hv
    obtain rfl := Option.some.inj (hl.symm.trans hl')
    have hmem := (mem_line hl).mpr ⟨k, hk⟩
    rw [hrow] at hmem hchain
    exact onLine_of_isChain (.start hv) hchain x hmem

end Layered

end Grid

namespace VertexCircuit

open Grid

variable {c : VertexCircuit} {g : Grid} {register : String} {ds : List (Nat × Destination)}
  {v : Nat} {x : Descriptor} {op : Operation} {d : Dag} {namer : Namer}

structure Reads (c : VertexCircuit) (register : String) (v : Nat) (x : Descriptor)
    (op : Operation) : Prop where
  qargs_length : op.qargs.length = x.inputs
  /-- The qubit at a place is that of the line that comes to the pin of this number. -/
  qargs : ∀ k q, op.qargs[k]? = some q ↔ ∃ j, OnLine c j ⟨v, k⟩ ∧ q = ⟨register, j⟩
  boxed : x.kind = .box → x.description? = some op.name
  named : x.kind ≠ .box → ∃ e, Catalog.standard.byKind? x.kind = some e ∧ op.name = e.name
  params : op.params = x.rotations.map Rotation.toAngle
  cargs : x.kind ≠ .measure → op.cargs = []
  condition : op.condition = none

theorem getElem?_lineQubits {qs : List Qubit} (h : lineQubits g register v x = .ok qs) {k : Nat}
    {q : Qubit} : qs[k]? = some q ↔
      k < x.inputs ∧ ∃ j, g.lineThrough? ⟨v, k⟩ = some j ∧ q = ⟨register, j⟩ := by
  have hall := lineQubits_ok h
  have hlen : x.inputs = qs.length := by simpa using hall.length_eq
  have hget : ∀ (hk : k < qs.length), ∃ j, g.lineThrough? ⟨v, k⟩ = some j ∧
      qs[k]? = some ⟨register, j⟩ := by
    intro hk
    have hk' : k < (List.range x.inputs).length := hall.length_eq ▸ hk
    obtain ⟨j, hj, he⟩ := hall.get hk' hk
    refine ⟨j, by simpa using hj, ?_⟩
    rw [← he]
    exact List.getElem?_eq_getElem hk
  constructor
  · intro hq
    have hk := (List.getElem?_eq_some_iff.mp hq).1
    obtain ⟨j, hj, he⟩ := hget hk
    exact ⟨hlen ▸ hk, j, hj, Option.some.inj (hq.symm.trans he)⟩
  · rintro ⟨hk, j, hj, rfl⟩
    obtain ⟨j', hj', he⟩ := hget (hlen ▸ hk)
    rwa [Option.some.inj (hj.symm.trans hj')]

theorem RestoredAs.reads (h : RestoredAs g register ds v x op) (hg : Layered c g)
    (hlay : c.Layable) (hds : c.destinations = .ok ds) (hx : c.vertex? v = some x)
    (hv : c.isInner v) : Reads c register v x op := by
  have hname := h.name
  unfold operationName at hname
  constructor
  case qargs_length => simpa using (lineQubits_ok h.qargs).length_eq.symm
  case qargs =>
    intro k q
    rw [getElem?_lineQubits h.qargs]
    constructor
    · rintro ⟨-, j, hj, rfl⟩
      exact ⟨j, (hg.onLine_iff hlay).mpr ((hg.lineThrough _ _).mp hj), rfl⟩
    · rintro ⟨j, hj, rfl⟩
      have hcell := (hg.onLine_iff hlay).mp hj
      obtain ⟨m, hm⟩ := hcell
      have hk := hg.pin_lt _ _ _ _ (not_input_of_isInner hv) hm
      rw [pins, hx] at hk
      exact ⟨hk, j, (hg.lineThrough _ _).mpr ⟨m, hm⟩, rfl⟩
  case boxed =>
    intro hk
    cases hd : x.description? with
    | none => simp [hk, hd] at hname
    | some name => simpa [hk, hd] using hname
  case named =>
    intro hk
    cases he : Catalog.standard.byKind? x.kind with
    | none => simp [hk, he] at hname
    | some e => exact ⟨e, rfl, by simpa [hk, he, eq_comm] using hname⟩
  case params => exact h.params
  case cargs => exact fun hk => h.no_cargs ((lookup_destinations hds hx).2 hk)
  case condition => exact h.condition

/-- A circuit of wires is read off the lines of a circuit of vertices. -/
structure ReadsLines (c : VertexCircuit) (register : String) (node : Nat → Nat) (d : Dag) :
    Prop where
  qregs : d.qregs = [⟨register, c.lineCount⟩]
  /-- Each vertex within the lines has an operation node of its own, and there are no more. -/
  nodes : Set.BijOn node {v | c.isInner v} {n | ∃ op, d.node? n = some (.op op)}
  operation : ∀ v x, c.vertex? v = some x → c.isInner v →
    ∃ op, d.node? (node v) = some (.op op) ∧ Reads c register v x op
  /-- Each line leads from its start to an output, and along the wire of its qubit stand the
  operations of the vertices between. -/
  wire : ∀ j v, c.inputs[j]? = some v → ∃ cells x s e,
    ((⟨v, 0⟩ :: cells ++ [x] : List Cell).IsChain fun a b => c.next? a = some b) ∧
    c.hasKind .output x.vertex ∧ (∀ y ∈ cells, c.isInner y.vertex) ∧
    d.graph.Strand (.qubit ⟨register, j⟩) s (cells.map fun y => node y.vertex) e
  readable : d.Readable

theorem ReadOff.mem_qubits {op : Nat → Nat × Operation} (h : ReadOff c register g ds op d)
    {q : Qubit} : q ∈ d.qubits ↔ ∃ j < c.lineCount, q = ⟨register, j⟩ := by
  rw [Dag.qubits, h.qregs, List.flatMap_singleton, Register.mem_qubits]
  constructor
  · rintro ⟨rfl, hj⟩
    exact ⟨q.index, hj, rfl⟩
  · rintro ⟨j, hj, rfl⟩
    exact ⟨rfl, hj⟩

theorem ReadOff.exists_row {op : Nat → Nat × Operation} (h : ReadOff c register g ds op d)
    (hg : Layered c g) (hlay : c.Layable) {j : Nat} (hv : c.inputs[j]? = some v) :
    ∃ cells x s e, (∀ y, OnLine c j y ↔ y ∈ ⟨v, 0⟩ :: cells ++ [x]) ∧
      ((⟨v, 0⟩ :: cells ++ [x] : List Cell).IsChain fun a b => c.next? a = some b) ∧
      c.hasKind .output x.vertex ∧ (∀ y ∈ cells, c.isInner y.vertex) ∧
      d.graph.Strand (.qubit ⟨register, j⟩) s (cells.map fun y => (op y.vertex).1) e := by
  obtain ⟨l, cells, x, hl, hrow, hout, hchain, hinner⟩ := hg.exists_line hlay hv
  have hj : j < c.lineCount := (List.getElem?_eq_some_iff.mp hv).1
  obtain ⟨s, e, hs⟩ := h.sound.exists_strand (h.mem_qubits.mpr ⟨j, hj, rfl⟩)
  have hvisits : Dag.visits d.operations (.qubit ⟨register, j⟩) =
      cells.map fun y => (op y.vertex).1 := by
    have hfilter : (cells.map Cell.vertex).filter c.isInner = cells.map Cell.vertex := by
      refine List.filter_eq_self.mpr fun u hu => ?_
      obtain ⟨y, hy, rfl⟩ := List.mem_map.mp hu
      exact hinner y hy
    have hstart : ¬ c.isInner v := fun hi =>
      not_input_of_isInner hi (mem_inputs.mp (List.mem_of_getElem? hv))
    have hend : ¬ c.isInner x.vertex := fun hi => (isInner_iff_not_boundary.mp hi).2.2 hout
    rw [h.visits_qubit hg hl, hrow]
    simp [hfilter, hstart, hend]
  refine ⟨cells, x, s, e, fun y => ?_, hrow ▸ hchain, hout, hinner, hvisits ▸ hs⟩
  rw [hg.onLine_iff hlay, ← mem_line hl, hrow]

theorem ReadOff.readsLines {op : Nat → Nat × Operation} (h : ReadOff c register g ds op d)
    (hg : Layered c g) (hlay : c.Layable) (hds : c.destinations = .ok ds) (hd : d.Readable) :
    ReadsLines c register (fun v => (op v).1) d := by
  have hnode : ∀ v, c.isInner v → d.node? (op v).1 = some (.op (op v).2) := fun v hv =>
    (h.node?_iff hg).mpr ⟨v, hv, rfl⟩
  constructor
  case qregs => exact h.qregs
  case nodes =>
    refine ⟨fun v hv => ⟨_, hnode v hv⟩, fun v hv u hu => h.node_inj hg hv hu, ?_⟩
    rintro n ⟨o, ho⟩
    obtain ⟨v, hv, he⟩ := (h.node?_iff hg).mp ho
    exact ⟨v, hv, congrArg Prod.fst he⟩
  case operation =>
    intro v x hx hv
    obtain ⟨x', hx', hr⟩ := h.restored v hv
    obtain rfl := Option.some.inj (hx.symm.trans hx')
    exact ⟨_, hnode v hv, hr.reads hg hlay hds hx hv⟩
  case wire =>
    intro j v hv
    obtain ⟨cells, x, s, e, -, hchain, hout, hinner, hs⟩ := h.exists_row hg hlay hv
    exact ⟨cells, x, s, e, hchain, hout, hinner, hs⟩
  case readable => exact hd

theorem exists_readsLines (hc : c.Wired) (hin : ∀ v, c.hasKind .input v → c.pins v = 0)
    (h : (c.toWiresWith register namer).1 = .ok d) :
    ∃ g ds op, layOut c = .ok g ∧ Layered c g ∧ c.destinations = .ok ds ∧
      ReadOff c register g ds op d ∧ ReadsLines c register (fun v => (op v).1) d := by
  obtain ⟨g, ds, op, hlaid, hg, hds, hr⟩ := exists_readOff hc hin h
  have hlay : c.Layable := (exists_layOutBy_iff hc hin fun _ gs => .refl gs).mp ⟨g, hlaid⟩
  have hd : d.Readable := by
    rcases toWiresWith_cases hc hin (lineCount_lt_of_toWiresWith h) hlaid hds register namer with
      ⟨s, hs, hrestoring⟩ | ⟨f, v, hf, -⟩
    · obtain rfl := Except.ok.inj (h.symm.trans hs)
      exact hrestoring.sound.readable hrestoring.nodup
    · cases h.symm.trans hf
  exact ⟨g, ds, op, hlaid, hg, hds, hr, hr.readsLines hg hlay hds hd⟩

/-- Whatever calls a circuit is built by, if no input has input pins, then what it is restored as is
read off its lines. -/
theorem readsLines_of_toWiresWith {calls : List Call}
    (hin : ∀ v, (of calls).hasKind .input v → (of calls).pins v = 0)
    (h : ((of calls).toWiresWith register namer).1 = .ok d) :
    ∃ node, ReadsLines (of calls) register node d := by
  obtain ⟨-, -, op, -, -, -, -, hr⟩ := exists_readsLines (wired_of calls) hin h
  exact ⟨_, hr⟩

/-- Two lines that cross in a controlled gate. One measurement records where it is written, the
other does not. -/
def measured : VertexCircuit :=
  of [.addVertex .lineStart, .addVertex .lineStart, .addVertex (.onLines .cx 2),
    .addVertex (.onLines .measure 1 (.description (Destination.ofClbits [⟨"c", 1⟩] []).encode)),
    .addVertex (.onLines .measure 1), .addVertex .lineEnd, .addVertex .lineEnd,
    .addLink ⟨0, 0, 2, 1⟩, .addLink ⟨1, 0, 2, 0⟩, .addLink ⟨2, 0, 3, 0⟩, .addLink ⟨2, 1, 4, 0⟩,
    .addLink ⟨3, 0, 5, 0⟩, .addLink ⟨4, 0, 6, 0⟩]

def measuredRestored : Dag :=
  (Dag.History.of [.addQreg ⟨"q", 2⟩, .declare ⟨"cx", 2, 0, 0⟩,
    .append ⟨"cx", [⟨"q", 1⟩, ⟨"q", 0⟩], [], [], none⟩, .addCreg ⟨"m1", 1⟩,
    .declare ⟨"measure", 1, 1, 0⟩, .append (.measurement [⟨"q", 0⟩] [⟨"m1", 0⟩]),
    .addCreg ⟨"c", 2⟩, .append (.measurement [⟨"q", 1⟩] [⟨"c", 1⟩])]).dag

theorem readsLines_measured :
    (measured.toWiresWith "q" { stem := "m" }).1 = .ok measuredRestored ∧
      ∃ node, ReadsLines measured "q" node measuredRestored := by
  have hpins : ∀ v ∈ measured.inputs, measured.pins v = 0 := by
    decide +kernel
  have hin : ∀ v, measured.hasKind .input v → measured.pins v = 0 := fun v hv =>
    hpins v (mem_inputs.mpr hv)
  have hd : (measured.toWiresWith "q" { stem := "m" }).1 = .ok measuredRestored := by
    decide +kernel
  exact ⟨hd, readsLines_of_toWiresWith hin hd⟩

end VertexCircuit

end CircuitForms
