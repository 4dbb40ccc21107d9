import CircuitForms.Proofs.Convert.Carried
import CircuitForms.Proofs.Convert.ReadOff

/-! # Qubit wires as lines

The line of a qubit in the circuit of vertices leads through the vertices of the nodes
on the qubit's wire, one after the other. So the layout meets on each line what the
wire leads through.
-/

namespace CircuitForms

theorem eq_of_isChain {α : Type} {next : α → Option α} {xs ys : List α}
    (hx : xs.IsChain fun a b => next a = some b) (hy : ys.IsChain fun a b => next a = some b)
    (hhead : xs.head? = ys.head?) (hxl : ∃ a, xs.getLast? = some a ∧ next a = none)
    (hyl : ∃ a, ys.getLast? = some a ∧ next a = none) : xs = ys := by
  -- The next item is a function of the last, so the two part only where one ends.
  induction xs generalizing ys with
  | nil => exact (List.head?_eq_none_iff.mp hhead.symm).symm
  | cons a xs ih =>
    cases ys with
    | nil => cases hhead
    | cons b ys =>
      obtain rfl := Option.some.inj hhead
      cases hx with
      | singleton =>
        cases hy with
        | singleton => rfl
        | cons_cons hb _ =>
          obtain ⟨a', ha', hn⟩ := hxl
          obtain rfl := Option.some.inj ha'
          cases hb.symm.trans hn
      | cons_cons ha hx =>
        cases hy with
        | singleton =>
          obtain ⟨a', ha', hn⟩ := hyl
          obtain rfl := Option.some.inj ha'
          cases ha.symm.trans hn
        | cons_cons hb hy =>
          rw [ih hx hy (ha.symm.trans hb) hxl hyl]

namespace Dag

variable {d : Dag} {p : Policy} {c : VertexCircuit} {v s e : Nat} {vs : List Nat} {q : Qubit}

/-- Where a qubit's wire enters a node and leaves it. -/
def cellAt (d : Dag) (q : Qubit) (v : Nat) : Cell :=
  ⟨d.rank v, ((d.node? v).bind fun node => (pinAt v node q).toOption).getD 0⟩

theorem cellAt_of_pinAt {node : Node} {pin : Nat} (hn : d.node? v = some node)
    (hp : pinAt v node q = .ok pin) : d.cellAt q v = ⟨d.rank v, pin⟩ := by
  rw [cellAt, hn, Option.bind_some, hp]
  rfl

theorem getNode_eq_ok {node : Node} : d.getNode v = .ok node ↔ d.node? v = some node := by
  rw [getNode]
  split <;> simp_all

theorem ends_of_toLink? {a : Arc Wire} {o : Option Link} (hq : a.label = .qubit q)
    (ho : d.toLink? a = .ok o) : ∃ l, o = some l ∧ l.out = d.cellAt q a.source ∧
      l.into = d.cellAt q a.target ∧ (d.node? a.target).any d.isCarried := by
  rw [toLink?, hq] at ho
  obtain ⟨source, hsource, ho⟩ := bind_eq_ok.mp ho
  obtain ⟨target, htarget, ho⟩ := bind_eq_ok.mp ho
  obtain ⟨sp, hsp, ho⟩ := bind_eq_ok.mp ho
  obtain ⟨tp, htp, ho⟩ := bind_eq_ok.mp ho
  obtain ⟨su, hsu, ho⟩ := bind_eq_ok.mp ho
  obtain ⟨tu, htu, ho⟩ := bind_eq_ok.mp ho
  obtain ⟨-, rfl⟩ := vertexOf_eq_ok.mp hsu
  obtain ⟨hcarried, rfl⟩ := vertexOf_eq_ok.mp htu
  refine ⟨_, (Except.ok.inj ho).symm, ?_, ?_, hcarried⟩
  · exact (cellAt_of_pinAt (getNode_eq_ok.mp hsource) hsp).symm
  · exact (cellAt_of_pinAt (getNode_eq_ok.mp htarget) htp).symm

namespace Carries

variable (h : d.Carries p c)

include h

theorem next?_of_mem_segments {a b : Nat} (hab : (a, b) ∈ d.graph.segments (.qubit q)) :
    c.next? (d.cellAt q a) = some (d.cellAt q b) := by
  obtain ⟨arc, harc, he⟩ := List.mem_map.mp hab
  obtain ⟨harc, hlabel⟩ := List.mem_filter.mp harc
  obtain ⟨rfl, rfl⟩ := Prod.mk.inj he
  obtain ⟨o, ho⟩ := h.link arc harc
  obtain ⟨l, rfl, hout, hinto, -⟩ := ends_of_toLink? (of_decide_eq_true hlabel) ho
  rw [← hout, ← hinto, h.wired.next?_iff]
  exact ⟨l, (h.mem_links l).mpr ⟨arc, harc, ho⟩, rfl, rfl⟩

theorem exists_segment_of_next? {x y : Cell} (hn : c.next? x = some y) :
    ∃ q a b, (a, b) ∈ d.graph.segments (.qubit q) ∧ x = d.cellAt q a ∧ y = d.cellAt q b ∧
      (d.node? b).any d.isCarried := by
  obtain ⟨l, hl, rfl, rfl⟩ := h.wired.next?_iff.mp hn
  obtain ⟨arc, harc, ho⟩ := (h.mem_links l).mp hl
  cases hlabel : arc.label with
  | clbit b =>
    rw [toLink?, hlabel] at ho
    cases ho
  | qubit q =>
    obtain ⟨l', he, hout, hinto, hcarried⟩ := ends_of_toLink? hlabel ho
    obtain rfl := Option.some.inj he
    refine ⟨q, arc.source, arc.target, List.mem_map.mpr ⟨arc, ?_, rfl⟩, hout, hinto, hcarried⟩
    exact List.mem_filter.mpr ⟨harc, decide_eq_true hlabel⟩

/-- Along a qubit's wire each cell leads to the next. -/
theorem isChain (hs : d.graph.Strand (.qubit q) s vs e) :
    ((s :: vs ++ [e]).map (d.cellAt q)).IsChain fun x y => c.next? x = some y := by
  rw [List.isChain_map]
  exact isChain_iff_consecutivePairs.mpr fun x hx =>
    h.next?_of_mem_segments (hs.segments.mem_iff.mpr hx)

theorem vertex_input (hv : d.node? v = some (.input (.qubit q))) (hq : d.hasQubit q) :
    c.vertex? (d.rank v) = some .lineStart := by
  have hcarried : d.isCarried (.input (.qubit q)) := by simpa [isCarried, Wire.qubit?] using hq
  obtain ⟨x, losses, ht, hx⟩ := h.vertex v _ hv hcarried
  rw [toVertex?, if_pos hcarried] at ht
  cases ht
  exact hx

theorem vertex_output (hv : d.node? v = some (.output (.qubit q))) (hq : d.hasQubit q) :
    c.vertex? (d.rank v) = some .lineEnd := by
  have hcarried : d.isCarried (.output (.qubit q)) := by simpa [isCarried, Wire.qubit?] using hq
  obtain ⟨x, losses, ht, hx⟩ := h.vertex v _ hv hcarried
  rw [toVertex?, if_pos hcarried] at ht
  cases ht
  exact hx

theorem vertex_describe {o : Operation} (hv : d.node? v = some (.op o)) :
    ∃ x losses, d.describe p v o = .ok (x, losses) ∧ c.vertex? (d.rank v) = some x := by
  obtain ⟨x, losses, ht, hx⟩ := h.vertex v _ hv rfl
  obtain ⟨_, ht, he⟩ := map_eq_ok.mp ht
  obtain rfl := Option.some.inj he
  exact ⟨x, losses, ht, hx⟩

theorem vertex_op {o : Operation} (hv : d.node? v = some (.op o)) :
    ∃ x, c.vertex? (d.rank v) = some x ∧ Describes d o x := by
  obtain ⟨x, losses, ht, hx⟩ := h.vertex_describe hv
  exact ⟨x, hx, describes_of_describe ht⟩

/-- A vertex is the start of a line, the end of one, or that of an operation. -/
theorem node_cases {u : Nat} {x : Descriptor} (hx : c.vertex? u = some x) :
    ∃ v, d.rank v = u ∧
      ((∃ q, d.node? v = some (.input (.qubit q)) ∧ d.hasQubit q ∧ x = .lineStart) ∨
        (∃ q, d.node? v = some (.output (.qubit q)) ∧ d.hasQubit q ∧ x = .lineEnd) ∨
        ∃ o, d.node? v = some (.op o) ∧ Describes d o x) := by
  obtain ⟨v, node, losses, hv, hcarried, hu, ht⟩ := h.node u x hx
  refine ⟨v, hu, ?_⟩
  cases node with
  | input w =>
    obtain ⟨q, hw, hq⟩ := (Option.any_eq_true _ _).mp hcarried
    cases w with
    | clbit _ => cases hw
    | qubit _ =>
      cases hw
      rw [toVertex?, if_pos hcarried] at ht
      cases ht
      exact .inl ⟨q, hv, hq, rfl⟩
  | output w =>
    obtain ⟨q, hw, hq⟩ := (Option.any_eq_true _ _).mp hcarried
    cases w with
    | clbit _ => cases hw
    | qubit _ =>
      cases hw
      rw [toVertex?, if_pos hcarried] at ht
      cases ht
      exact .inr (.inl ⟨q, hv, hq, rfl⟩)
  | op o =>
    exact .inr (.inr ⟨o, hv, describes_of_toVertex? ht⟩)

theorem node_of_input {u : Nat} (hu : c.hasKind .input u) : ∃ v q,
    d.rank v = u ∧ d.node? v = some (.input (.qubit q)) ∧ c.vertex? u = some .lineStart := by
  obtain ⟨x, hx, hk⟩ := VertexCircuit.hasKind_iff.mp hu
  obtain ⟨v, hv, ⟨q, hn, -, rfl⟩ | ⟨q, -, -, rfl⟩ | ⟨o, -, hd⟩⟩ := h.node_cases hx
  · exact ⟨v, q, hv, hn, hx⟩
  · cases hk
  · have hb := hd.inner
    rw [hk] at hb
    cases hb

theorem vertex_of_output {u : Nat} (hu : c.hasKind .output u) : c.vertex? u = some .lineEnd := by
  obtain ⟨x, hx, hk⟩ := VertexCircuit.hasKind_iff.mp hu
  obtain ⟨v, hv, ⟨q, -, -, rfl⟩ | ⟨q, -, -, rfl⟩ | ⟨o, -, hd⟩⟩ := h.node_cases hx
  · cases hk
  · exact hx
  · have hb := hd.inner
    rw [hk] at hb
    cases hb

theorem pins_of_input {u : Nat} (hu : c.hasKind .input u) : c.pins u = 0 := by
  obtain ⟨v, q, -, -, hx⟩ := h.node_of_input hu
  rw [VertexCircuit.pins, hx]
  rfl

/-- The vertices within the lines are those of the operations. -/
theorem isInner_iff {u : Nat} :
    c.isInner u ↔ ∃ v o, d.node? v = some (.op o) ∧ d.rank v = u := by
  constructor
  · intro hi
    obtain ⟨x, hx, hb⟩ := (Option.any_eq_true _ _).mp hi
    obtain ⟨v, hu, ⟨q, -, -, rfl⟩ | ⟨q, -, -, rfl⟩ | ⟨o, hv, -⟩⟩ := h.node_cases hx
    · cases hb
    · cases hb
    · exact ⟨v, o, hv, hu⟩
  · rintro ⟨v, o, hv, rfl⟩
    obtain ⟨x, hx, hd⟩ := h.vertex_op hv
    rw [VertexCircuit.isInner, hx, Option.any_some, hd.inner]
    rfl

end Carries

def startAt? (d : Dag) (v : Nat) : Option Qubit :=
  (d.node? v).bind fun
    | .input w => w.qubit?
    | _ => none

theorem startAt?_eq_some : d.startAt? v = some q ↔ d.node? v = some (.input (.qubit q)) := by
  rw [startAt?, Option.bind_eq_some_iff]
  constructor
  · rintro ⟨node, hv, hq⟩
    cases node with
    | input w =>
      cases w with
      | qubit _ => rwa [← Option.some.inj hq]
      | clbit _ => cases hq
    | output w | op o => cases hq
  · intro hv
    exact ⟨_, hv, rfl⟩

theorem map_filter_isSome {α β : Type} (g : α → Option β) (l : List α) :
    (l.filter fun a => (g a).isSome).map g = (l.filterMap g).map some := by
  induction l with
  | nil => rfl
  | cons a l ih => cases ha : g a <;> simp [ha, ih]

theorem qubits_eq_filterMap (hd : d.Sound) :
    d.qubits = (List.range d.nodeCount).filterMap d.startAt? := by
  rw [← hd.starts_eq, starts, ← filterMap_node?, List.filterMap_filterMap, List.filterMap_filterMap]
  congr 1
  funext v
  rw [startAt?]
  congr 1
  funext node
  cases node <;> rfl

def startNodes (d : Dag) : List Nat :=
  (List.range d.nodeCount).filter fun v => (d.startAt? v).isSome

theorem startNodes_getElem? (hd : d.Sound) {j : Nat} (hq : d.qubits[j]? = some q) :
    ∃ v, d.startNodes[j]? = some v ∧ d.node? v = some (.input (.qubit q)) := by
  have hmap : d.startNodes.map d.startAt? = d.qubits.map some := by
    rw [startNodes, map_filter_isSome, qubits_eq_filterMap hd]
  have hj : (d.startNodes.map d.startAt?)[j]? = some (some q) := by
    rw [hmap, List.getElem?_map, hq]
    rfl
  rw [List.getElem?_map, Option.map_eq_some_iff] at hj
  obtain ⟨v, hv, hs⟩ := hj
  exact ⟨v, hv, startAt?_eq_some.mp hs⟩

theorem hasQubit_of_input (hd : d.Sound) (hv : d.node? v = some (.input (.qubit q))) :
    d.hasQubit q :=
  hd.mem_wires_iff.mp (hd.mem_wires_of_input hv)

namespace Carries

variable (h : d.Carries p c) (hd : d.Sound)

include h hd

theorem mem_inputs_iff {u : Nat} : u ∈ c.inputs ↔ u ∈ d.startNodes.map d.rank := by
  simp only [VertexCircuit.mem_inputs, startNodes, List.mem_map, List.mem_filter, List.mem_range,
    Option.isSome_iff_exists, startAt?_eq_some]
  constructor
  · intro hu
    obtain ⟨v, q, hv, hn, -⟩ := h.node_of_input hu
    exact ⟨v, ⟨(Array.getElem?_eq_some_iff.mp hn).1, q, hn⟩, hv⟩
  · rintro ⟨v, ⟨-, q, hv⟩, rfl⟩
    exact VertexCircuit.hasKind_iff.mpr ⟨_, h.vertex_input hv (hasQubit_of_input hd hv), rfl⟩

theorem inputs_eq : c.inputs = d.startNodes.map d.rank := by
  have hcarried : ∀ {v}, v ∈ d.startNodes → ∃ node, d.graph.nodes.toList[v]? = some node ∧
      d.isCarried node := by
    intro v hv
    obtain ⟨q, hq⟩ := Option.isSome_iff_exists.mp (List.mem_filter.mp hv).2
    have hn := startAt?_eq_some.mp hq
    refine ⟨_, by simpa [node?] using hn, ?_⟩
    simpa [isCarried, Wire.qubit?] using hasQubit_of_input hd hn
  have hlt : (d.startNodes.map d.rank).Pairwise (· < ·) := by
    rw [List.pairwise_map]
    refine (List.pairwise_lt_range.filter _).imp_of_mem fun {v u} hv _ hvu => ?_
    obtain ⟨node, hn, hc⟩ := hcarried hv
    exact countP_take_lt hn hc hvu
  have hlt' := c.inputs_pairwise
  refine List.Perm.eq_of_pairwise (fun a b _ _ hab hba => absurd hab hba.not_gt) hlt' hlt ?_
  rw [List.perm_ext_iff_of_nodup c.inputs_nodup (hlt.imp Nat.ne_of_lt)]
  exact fun u => h.mem_inputs_iff hd

theorem lineCount_eq : c.lineCount = d.qubitCount := by
  have hlen := congrArg List.length (map_filter_isSome d.startAt? (List.range d.nodeCount))
  rw [← qubits_eq_filterMap hd, List.length_map, List.length_map] at hlen
  rw [VertexCircuit.lineCount, h.inputs_eq hd, List.length_map]
  exact hlen.trans (length_qubits d)

theorem inputs_getElem? {j : Nat} (hq : d.qubits[j]? = some q)
    (hv : d.node? v = some (.input (.qubit q))) : c.inputs[j]? = some (d.rank v) := by
  obtain ⟨u, hu, hn⟩ := startNodes_getElem? hd hq
  rw [h.inputs_eq hd, List.getElem?_map, hu, hd.start_unique hn hv]
  rfl

omit hd in
theorem next?_of_output {x : Cell} (hx : c.hasKind .output x.vertex) : c.next? x = none := by
  cases hn : c.next? x with
  | none => rfl
  | some y =>
    obtain ⟨l, hl, ho, -⟩ := h.wired.next?_iff.mp hn
    obtain ⟨z, hz, hlt⟩ := h.wired.out_lt l hl
    obtain rfl := ho
    obtain rfl := Option.some.inj ((h.vertex_of_output hx).symm.trans hz)
    exact absurd hlt (Nat.not_lt_zero _)

theorem line_eq {g : Grid} (hg : Grid.Layered c g) {j : Nat} (hq : d.qubits[j]? = some q)
    (hs : d.graph.Strand (.qubit q) s vs e) {l : List (Option Cell)} (hl : g.lines[j]? = some l) :
    l.reduceOption = (s :: vs ++ [e]).map (d.cellAt q) := by
  have hqubit : d.hasQubit q := hd.mem_qubits_iff.mp (List.mem_of_getElem? hq)
  obtain ⟨⟨u, hu, hhead⟩, hchain, pre, x, n, hlast, hout⟩ := hg.line j l hl
  obtain rfl := Option.some.inj (hu.symm.trans (h.inputs_getElem? hd hq hs.start))
  refine eq_of_isChain hchain (h.isChain hs) ?_ ⟨x, ?_, h.next?_of_output hout⟩
    ⟨d.cellAt q e, ?_, h.next?_of_output ?_⟩
  · cases l with
    | nil => cases hhead
    | cons o l =>
      obtain rfl := Option.some.inj hhead
      rw [List.reduceOption_cons_of_some, List.head?_cons, List.cons_append, List.map_cons,
        List.head?_cons, cellAt_of_pinAt hs.start rfl]
  · rw [hlast, List.reduceOption_append, List.reduceOption_cons_of_some,
      List.reduceOption_replicate_none, List.getLast?_concat]
  · rw [List.map_append, List.map_singleton, List.getLast?_concat]
  · exact VertexCircuit.hasKind_iff.mpr ⟨_, h.vertex_output hs.finish hqubit, rfl⟩

end Carries

end Dag

end CircuitForms
