import CircuitForms.Proofs.Convert.Restoring

/-! # Reading the wires off the lines

A restored circuit is read off the lines of its layout: along the wire of each qubit
stand the operations of the vertices within the lines that its line meets, in the
order in which it meets them.
-/

namespace CircuitForms

theorem exists_map_eq {α β : Type} [DecidableEq α] [Inhabited β] {l : List α} {r : List β}
    (hl : l.Nodup) (hlen : l.length = r.length) : ∃ f : α → β, l.map f = r := by
  refine ⟨fun a => r[l.idxOf a]?.getD default, ?_⟩
  refine List.ext_getElem ((List.length_map _).trans hlen) fun i hi hr => ?_
  rw [List.length_map] at hi
  rw [List.getElem_map, hl.idxOf_getElem i hi, List.getElem?_eq_getElem hr, Option.getD_some]

theorem flatMap_replicate {α β : Type} {l : List α} {n : α → Nat} {on : α → Bool} (f : α → β)
    (h : ∀ a ∈ l, n a = if on a then 1 else 0) :
    (l.flatMap fun a => List.replicate (n a) (f a)) = (l.filter on).map f := by
  induction l with
  | nil => rfl
  | cons a l ih =>
    rw [List.flatMap_cons, ih fun b hb => h b (List.mem_cons_of_mem _ hb), h a List.mem_cons_self]
    by_cases ha : on a <;> simp [ha]

theorem Operation.count_qubit (op : Operation) (q : Qubit) :
    op.wires.count (.qubit q) = op.qargs.count q := by
  have hinj : Function.Injective Wire.qubit := fun _ _ h => Wire.qubit.inj h
  have hnone : (op.cargs.map Wire.clbit).count (.qubit q) = 0 := by
    simp [List.count_eq_zero]
  rw [wires, List.count_append, List.count_map_of_injective _ _ hinj, hnone, Nat.add_zero]

theorem Operation.count_clbit (op : Operation) (b : Clbit) :
    op.wires.count (.clbit b) = op.cargs.count b := by
  have hinj : Function.Injective Wire.clbit := fun _ _ h => Wire.clbit.inj h
  have hnone : (op.qargs.map Wire.qubit).count (.clbit b) = 0 := by
    simp [List.count_eq_zero]
  rw [wires, List.count_append, List.count_map_of_injective _ _ hinj, hnone, Nat.zero_add]

namespace Grid

variable {c : VertexCircuit} {g : Grid}

def passes (g : Grid) (j v : Nat) : Bool :=
  (g.line? j).any fun cells => cells.reduceOption.any (·.vertex == v)

theorem passes_iff {j v : Nat} : g.passes j v ↔ ∃ k p, g.cell? j k = some ⟨v, p⟩ := by
  simp only [passes, line?, Option.any_eq_true, List.any_eq_true, List.reduceOption_mem_iff,
    beq_iff_eq, cell?_eq_some]
  constructor
  · rintro ⟨l, hl, ⟨_, p⟩, hx, rfl⟩
    obtain ⟨k, hk⟩ := List.mem_iff_getElem?.mp hx
    exact ⟨k, p, l, hl, hk⟩
  · rintro ⟨k, p, l, hl, hk⟩
    exact ⟨l, hl, ⟨v, p⟩, List.mem_of_getElem? hk, rfl⟩

theorem Layered.reading_nodup (h : Layered c g) : g.reading.Nodup :=
  h.slices_perm.nodup_iff.mpr List.nodup_range

theorem Layered.mem_reading (h : Layered c g) {v : Nat} : v ∈ g.reading ↔ v < c.vertexCount :=
  h.slices_perm.mem_iff.trans List.mem_range

theorem Layered.lineThrough_inj (h : Layered c g) {j v p q : Nat}
    (hp : g.lineThrough? ⟨v, p⟩ = some j) (hq : g.lineThrough? ⟨v, q⟩ = some j) : p = q := by
  obtain ⟨k, hk⟩ := (h.lineThrough _ _).mp hp
  obtain ⟨m, hm⟩ := (h.lineThrough _ _).mp hq
  obtain rfl := h.step_unique hk hm
  exact congrArg Cell.pin (Option.some.inj (hk.symm.trans hm))

end Grid

namespace VertexCircuit

open Grid

variable {c : VertexCircuit} {g : Grid} {register : String} {ds : List (Nat × Destination)}

theorem mem_of_isInner {v : Nat} (h : c.isInner v) : v < c.vertexCount := by
  obtain ⟨x, hx, -⟩ := (Option.any_eq_true _ _).mp h
  exact lt_of_vertex? hx

theorem not_input_of_isInner {v : Nat} (h : c.isInner v) : ¬ c.hasKind .input v := by
  intro hi
  obtain ⟨x, hx, hb⟩ := (Option.any_eq_true _ _).mp h
  obtain ⟨y, hy, hk⟩ := hasKind_iff.mp hi
  obtain rfl := Option.some.inj (hx.symm.trans hy)
  rw [hk] at hb
  cases hb

section Qubits

variable {v : Nat} {x : Descriptor} {qs : List Qubit}

theorem lineQubits_ok (h : lineQubits g register v x = .ok qs) :
    List.Forall₂ (fun p q => ∃ j, g.lineThrough? ⟨v, p⟩ = some j ∧ q = ⟨register, j⟩)
      (List.range x.inputs) qs := by
  refine (mapM_eq_ok.mp h).imp fun p q hq => ?_
  cases hl : g.lineThrough? ⟨v, p⟩ with
  | none => rw [hl] at hq; cases hq
  | some j => rw [hl] at hq; exact ⟨j, rfl, (Except.ok.inj hq).symm⟩

theorem nodup_lineQubits (hg : Layered c g) (h : lineQubits g register v x = .ok qs) :
    qs.Nodup := by
  have huniq : Relator.BiUnique
      fun p (q : Qubit) => ∃ j, g.lineThrough? ⟨v, p⟩ = some j ∧ q = ⟨register, j⟩ := by
    constructor
    · rintro p p' q ⟨j, hj, rfl⟩ ⟨j', hj', he⟩
      obtain rfl : j = j' := congrArg Qubit.index he
      exact hg.lineThrough_inj hj hj'
    · rintro p q q' ⟨j, hj, rfl⟩ ⟨j', hj', rfl⟩
      rw [Option.some.inj (hj.symm.trans hj')]
  exact (List.rel_nodup huniq (lineQubits_ok h)).mp List.nodup_range

theorem count_lineQubits (hg : Layered c g) (hv : c.isInner v) (hx : c.vertex? v = some x)
    (h : lineQubits g register v x = .ok qs) (j : Nat) :
    qs.count ⟨register, j⟩ = if g.passes j v then 1 else 0 := by
  have hall := lineQubits_ok h
  have hpins : c.pins v = x.inputs := by rw [pins, hx]; rfl
  have hmem : (⟨register, j⟩ : Qubit) ∈ qs ↔ g.passes j v := by
    rw [passes_iff]
    constructor
    · intro hm
      obtain ⟨i, hi, he⟩ := List.getElem_of_mem hm
      have hi' : i < (List.range x.inputs).length := hall.length_eq ▸ hi
      obtain ⟨j', hj', hq⟩ := hall.get hi' hi
      have hjj : j = j' := congrArg Qubit.index (he.symm.trans hq)
      obtain ⟨k, hk⟩ := (hg.lineThrough _ _).mp hj'
      exact ⟨k, _, hjj ▸ hk⟩
    · rintro ⟨k, p, hk⟩
      have hp : p < x.inputs := hpins ▸ hg.pin_lt _ _ _ _ (not_input_of_isInner hv) hk
      have hi : p < (List.range x.inputs).length := by rwa [List.length_range]
      have hi' : p < qs.length := hall.length_eq ▸ hi
      obtain ⟨j', hj', hq⟩ := hall.get hi hi'
      have hthrough := (hg.lineThrough ⟨v, p⟩ j).mpr ⟨k, hk⟩
      have hget : (List.range x.inputs).get ⟨p, hi⟩ = p := by simp
      rw [hget, hthrough] at hj'
      rw [Option.some.inj hj', ← hq]
      exact List.get_mem qs ⟨p, hi'⟩
  rw [(nodup_lineQubits hg h).count]
  simp only [hmem]

end Qubits

/-- A circuit of wires whose operations are those of the vertices within the lines, each at its own
node, in the order in which the layout is read. -/
structure ReadOff (c : VertexCircuit) (register : String) (g : Grid)
    (ds : List (Nat × Destination)) (op : Nat → Nat × Operation) (d : Dag) : Prop where
  sound : d.Sound
  qregs : d.qregs = [⟨register, c.lineCount⟩]
  operations : d.operations = (g.reading.filter c.isInner).map op
  restored : ∀ v, c.isInner v → ∃ x, c.vertex? v = some x ∧ RestoredAs g register ds v x (op v).2

theorem exists_readOff (hc : c.Wired) (hin : ∀ v, c.hasKind .input v → c.pins v = 0) {d : Dag}
    {namer : Namer} (h : (c.toWiresWith register namer).1 = .ok d) :
    ∃ g ds op, layOut c = .ok g ∧ Layered c g ∧ c.destinations = .ok ds ∧
      ReadOff c register g ds op d := by
  obtain ⟨g, ds, hg, hds, hsound, hqregs, hall⟩ := toWires_ok h
  have hl : Layered c g := layered_of_wired hc hin (fun _ gs => .refl gs) hg
  have : Inhabited Operation := ⟨⟨"", [], [], [], none⟩⟩
  have hnodup := hl.reading_nodup.filter c.isInner
  obtain ⟨op, hop⟩ := exists_map_eq hnodup hall.length_eq
  refine ⟨g, ds, op, hg, hl, hds, hsound, hqregs, hop.symm, fun v hv => ?_⟩
  rw [← hop, List.forall₂_map_right_iff, List.forall₂_same] at hall
  exact hall v (List.mem_filter.mpr ⟨hl.mem_reading.mpr (mem_of_isInner hv), hv⟩)

namespace ReadOff

variable {op : Nat → Nat × Operation} {d : Dag} (h : ReadOff c register g ds op d)
  (hg : Layered c g)

include h hg

theorem node?_iff {n : Nat} {o : Operation} :
    d.node? n = some (.op o) ↔ ∃ v, c.isInner v ∧ op v = (n, o) := by
  rw [← Dag.mem_operations_iff, h.operations, List.mem_map]
  constructor
  · rintro ⟨v, hv, ho⟩
    exact ⟨v, (List.mem_filter.mp hv).2, ho⟩
  · rintro ⟨v, hv, ho⟩
    exact ⟨v, List.mem_filter.mpr ⟨hg.mem_reading.mpr (mem_of_isInner hv), hv⟩, ho⟩

/-- Vertices have nodes of their own. -/
theorem node_inj {v v' : Nat} (hv : c.isInner v) (hv' : c.isInner v') (he : (op v).1 = (op v').1) :
    v = v' := by
  have hpair := Dag.operations_pairwise d
  rw [h.operations, List.pairwise_map] at hpair
  have hmem : ∀ {v}, c.isInner v → v ∈ g.reading.filter c.isInner := fun hv =>
    List.mem_filter.mpr ⟨hg.mem_reading.mpr (mem_of_isInner hv), hv⟩
  have hnodup : ((g.reading.filter c.isInner).map fun v => (op v).1).Nodup :=
    List.pairwise_map.mpr (hpair.imp Nat.ne_of_lt)
  exact List.inj_on_of_nodup_map hnodup (hmem hv) (hmem hv') he

/-- Along the wire of a qubit stand the operations of the vertices on its line. -/
theorem visits_qubit {j : Nat} {l : List (Option Cell)} (hl : g.lines[j]? = some l) :
    Dag.visits d.operations (.qubit ⟨register, j⟩) =
      ((l.reduceOption.map Cell.vertex).filter c.isInner).map fun v => (op v).1 := by
  have hcount : ∀ v ∈ g.reading.filter c.isInner,
      (op v).2.wires.count (.qubit ⟨register, j⟩) = if g.passes j v then 1 else 0 := by
    intro v hv
    have hi := (List.mem_filter.mp hv).2
    obtain ⟨x, hx, hr⟩ := h.restored v hi
    rw [Operation.count_qubit, count_lineQubits hg hi hx hr.qargs]
  rw [Dag.visits, h.operations, List.flatMap_map, flatMap_replicate _ hcount, List.filter_comm,
    hg.filter_reading hl fun v => passes_iff]

end ReadOff

end VertexCircuit

end CircuitForms
