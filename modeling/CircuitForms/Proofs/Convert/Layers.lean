import CircuitForms.Proofs.Convert.Operands
import CircuitForms.Proofs.Dag.Layer

/-! # Layers as steps

The layout of a circuit that is carried over meets every operation at the step that is
its layer. Read step by step, the operations come by layer, and in a layer by the first
of their qubits.
-/

namespace CircuitForms

theorem mem_consecutivePairs_of_nodup {α : Type} {s a v : α} {xs ys : List α}
    (hn : (s :: xs ++ v :: ys).Nodup) :
    (a, v) ∈ (s :: xs ++ v :: ys).consecutivePairs ↔ a = xs.getLastD s := by
  induction xs generalizing s with
  | nil =>
    have hv : v ∉ ys := (List.nodup_cons.mp (List.nodup_cons.mp hn).2).1
    have hrest : (a, v) ∉ (v :: ys).consecutivePairs := fun h => hv (List.of_mem_zip h).2
    change (a, v) ∈ (s, v) :: (v :: ys).consecutivePairs ↔ a = s
    rw [List.mem_cons, or_iff_left hrest, Prod.mk.injEq, and_iff_left rfl]
  | cons x xs ih =>
    have hne : v ≠ x := by
      rintro rfl
      exact (List.nodup_cons.mp (List.nodup_cons.mp hn).2).1
        (List.mem_append_right _ List.mem_cons_self)
    change (a, v) ∈ (s, x) :: (x :: xs ++ v :: ys).consecutivePairs ↔ a = (x :: xs).getLastD s
    rw [List.mem_cons, or_iff_right fun he => hne (Prod.mk.inj he).2, List.getLastD_cons]
    exact ih (List.nodup_cons.mp hn).2

namespace Dag

variable {d : Dag} {p : Policy} {c : VertexCircuit} {g : Grid} {v s e : Nat} {o : Operation}
  {q : Qubit} {pre post : List (Nat × Operation)}

theorem visits_split (pre post : List (Nat × Operation)) (v : Nat) (o : Operation) (w : Wire) :
    visits (pre ++ (v, o) :: post) w =
      visits pre w ++ (List.replicate (o.wires.count w) v ++ visits post w) := by
  simp [visits]

theorem mem_qubits_of_mem_qargs (hd : d.Sound) (hv : d.node? v = some (.op o)) (hq : q ∈ o.qargs) :
    q ∈ d.qubits := by
  have hw := hd.mem_wires_of_op hv (List.mem_append_left _ (List.mem_map_of_mem hq))
  simpa [wires] using hw

theorem mem_qargs_of_mem_segments {a : Nat} (hd : d.Sound) (hv : d.node? v = some (.op o))
    (ha : (a, v) ∈ d.graph.segments (.qubit q)) : q ∈ o.qargs := by
  obtain ⟨arc, harc, -⟩ := List.mem_map.mp ha
  obtain ⟨harc, hlabel⟩ := List.mem_filter.mp harc
  have hw : Wire.qubit q ∈ d.wires := of_decide_eq_true hlabel ▸ hd.threaded.labels arc harc
  obtain ⟨s, e, hs⟩ := hd.threaded.exists_strand hw
  have hmem : v ∈ visits d.operations (.qubit q) ++ [e] :=
    (List.of_mem_zip (hs.segments.mem_iff.mp ha)).2
  rcases List.mem_append.mp hmem with hm | hm
  · obtain ⟨o', ho', hq⟩ := mem_visits.mp hm
    obtain rfl := Node.op.inj (Option.some.inj (hv.symm.trans ho'))
    simpa [Operation.wires] using hq
  · obtain rfl := List.mem_singleton.mp hm
    cases hv.symm.trans hs.finish

namespace Carries

variable (h : d.Carries p c) (hd : d.Sound) (hg : Grid.Layered c g)

include h hd hg

theorem nodup_strand (hs : d.graph.Strand (.qubit q) s (visits d.operations (.qubit q)) e) :
    (s :: visits d.operations (.qubit q) ++ [e]).Nodup := by
  obtain ⟨j, hj⟩ := List.mem_iff_getElem?.mp
    (hd.mem_qubits_iff.mpr (hasQubit_of_input hd hs.start))
  obtain ⟨l, hl⟩ := h.exists_line hd hg hj
  have hcells := hg.filter_reading hl fun v => Grid.passes_iff
  rw [h.line_eq hd hg hj hs hl, List.map_map] at hcells
  exact List.Nodup.of_map (Cell.vertex ∘ d.cellAt q) (hcells ▸ hg.reading_nodup.filter _)

theorem mem_segments_iff {a : Nat} (hops : d.operations = pre ++ (v, o) :: post)
    (hs : d.graph.Strand (.qubit q) s (visits d.operations (.qubit q)) e) (hq : q ∈ o.qargs) :
    (a, v) ∈ d.graph.segments (.qubit q) ↔ a = (visits pre (.qubit q)).getLastD s := by
  have hpos : 0 < o.wires.count (.qubit q) :=
    List.count_pos_iff.mpr (List.mem_append_left _ (List.mem_map_of_mem hq))
  obtain ⟨n, hn⟩ := Nat.exists_eq_succ_of_ne_zero hpos.ne'
  have hpath : s :: visits d.operations (.qubit q) ++ [e] = s :: visits pre (.qubit q) ++
      v :: (List.replicate n v ++ visits post (.qubit q) ++ [e]) := by
    rw [hops, visits_split, hn, List.replicate_succ]
    simp
  have hnodup := h.nodup_strand hd hg hs
  rw [hs.segments.mem_iff, hpath]
  rw [hpath] at hnodup
  exact mem_consecutivePairs_of_nodup hnodup

/-- The vertices that lead to that of an operation are those of the last nodes on its qubits. -/
theorem previous?_iff {n : Nat} (hops : d.operations = pre ++ (v, o) :: post)
    (hlast : ∀ q s e, d.graph.Strand (.qubit q) s (visits d.operations (.qubit q)) e →
      g.Meets (d.rank ((visits pre (.qubit q)).getLastD s)) (heights pre q)) :
    (∃ i x m, c.previous? ⟨d.rank v, i⟩ = some x ∧ g.Meets x.vertex m ∧ n = m + 1) ↔
      ∃ q ∈ o.qargs, n = heights pre q + 1 := by
  have hv := node?_of_split hops
  constructor
  · rintro ⟨i, x, m, hx, hm, rfl⟩
    obtain ⟨q, a, b, hab, rfl, hb, hcarried⟩ :=
      h.exists_segment_of_next? (h.wired.previous?_eq_some_iff.mp hx)
    obtain ⟨node, hn, hc⟩ := (Option.any_eq_true _ _).mp hcarried
    obtain rfl := rank_inj hn hc hv rfl (congrArg Cell.vertex hb).symm
    have hq := mem_qargs_of_mem_segments hd hv hab
    obtain ⟨s, e, hs⟩ := hd.exists_strand (mem_qubits_of_mem_qargs hd hv hq)
    obtain rfl := (h.mem_segments_iff hd hg hops hs hq).mp hab
    have hm' := hlast q s e hs
    have hlt := (hg.meets_lt _ _ hm).1
    exact ⟨q, hq, congrArg Nat.succ ((hg.meets _ hlt).unique hm hm')⟩
  · rintro ⟨q, hq, rfl⟩
    obtain ⟨s, e, hs⟩ := hd.exists_strand (mem_qubits_of_mem_qargs hd hv hq)
    have hseg := (h.mem_segments_iff hd hg hops hs hq).mpr rfl
    refine ⟨_, _, _, h.wired.previous?_eq_some_iff.mpr (h.next?_of_mem_segments hseg), ?_, rfl⟩
    exact hlast q s e hs

theorem meets_layerOver (hops : d.operations = pre ++ (v, o) :: post)
    (hlast : ∀ q s e, d.graph.Strand (.qubit q) s (visits d.operations (.qubit q)) e →
      g.Meets (d.rank ((visits pre (.qubit q)).getLastD s)) (heights pre q)) :
    g.Meets (d.rank v) (o.layerOver (heights pre)) := by
  have hv := node?_of_split hops
  obtain ⟨x, hx, hdesc⟩ := h.vertex_op hv
  have hinner : c.isInner (d.rank v) := h.isInner_iff.mpr ⟨v, o, hv, rfl⟩
  obtain ⟨k, hk, -⟩ := hg.meets _ (VertexCircuit.mem_of_isInner hinner)
  have hstep := hg.step _ _ (VertexCircuit.not_input_of_isInner hinner) hk
  simp only [h.previous?_iff hd hg hops hlast] at hstep
  rwa [(Operation.isGreatest_layerOver hdesc.qargs _).unique hstep]

theorem meets_last {ops : List (Nat × Operation)} (hops : d.operations = ops ++ post)
    (hs : d.graph.Strand (.qubit q) s (visits d.operations (.qubit q)) e) :
    g.Meets (d.rank ((visits ops (.qubit q)).getLastD s)) (heights ops q) := by
  -- From the right: an operation is met one step above all it waits for.
  induction ops using List.reverseRecOn generalizing q s e post with
  | nil =>
    have hi : c.hasKind .input (d.rank s) := VertexCircuit.hasKind_iff.mpr
      ⟨_, h.vertex_input hs.start (hasQubit_of_input hd hs.start), rfl⟩
    obtain ⟨j, hj⟩ := List.mem_iff_getElem?.mp (VertexCircuit.mem_inputs.mpr hi)
    exact ⟨j, 0, (hg.input j _ hj j 0 0).mpr ⟨rfl, rfl, rfl⟩⟩
  | append_singleton ops x ih =>
    obtain ⟨v, o⟩ := x
    have hops' : d.operations = ops ++ (v, o) :: post := by
      rw [hops, List.append_assoc, List.singleton_append]
    rw [visits_concat, heights_concat]
    by_cases hq : q ∈ o.qargs
    · have hcount : 0 < o.wires.count (.qubit q) := by
        rw [Operation.count_qubit, List.count_pos_iff]
        exact hq
      obtain ⟨n, hn⟩ := Nat.exists_eq_succ_of_ne_zero hcount.ne'
      rw [hn, List.replicate_succ', ← List.append_assoc, List.getLastD_concat, if_pos hq]
      exact h.meets_layerOver hd hg hops' fun q s e => ih hops'
    · have hcount : o.wires.count (.qubit q) = 0 := by
        rw [Operation.count_qubit, List.count_eq_zero]
        exact hq
      rw [hcount, List.replicate_zero, List.append_nil, if_neg hq]
      exact ih hops' hs

theorem meets_layer (hv : d.node? v = some (.op o)) : g.Meets (d.rank v) (d.layer v) := by
  obtain ⟨pre, post, hops⟩ := List.append_of_mem (mem_operations_iff.mpr hv)
  rw [layer_eq hops]
  exact h.meets_layerOver hd hg hops fun q s e hs => h.meets_last hd hg hops hs

theorem eq_layer_of_meets {k : Nat} (hv : d.node? v = some (.op o)) (hk : g.Meets (d.rank v) k) :
    k = d.layer v :=
  (hg.meets _ (hg.meets_lt _ _ hk).1).unique hk (h.meets_layer hd hg hv)

theorem mem_qargs_iff {j : Nat} (hv : d.node? v = some (.op o)) (hq : d.qubits[j]? = some q) :
    q ∈ o.qargs ↔ ∃ k i, g.cell? j k = some ⟨d.rank v, i⟩ := by
  constructor
  · intro hm
    obtain ⟨l, hl⟩ := h.exists_line hd hg hq
    obtain ⟨s, e, hs⟩ := hd.exists_strand (List.mem_of_getElem? hq)
    have hvisit : v ∈ visits d.operations (.qubit q) :=
      mem_visits.mpr ⟨o, hv, List.mem_append_left _ (List.mem_map_of_mem hm)⟩
    have hcell : d.cellAt q v ∈ l.reduceOption := by
      rw [h.line_eq hd hg hq hs hl]
      exact List.mem_map_of_mem (List.mem_append_left _ (List.mem_cons_of_mem _ hvisit))
    obtain ⟨k, hk⟩ := List.mem_iff_getElem?.mp (List.reduceOption_mem_iff.mp hcell)
    exact ⟨k, _, Grid.cell?_eq_some.mpr ⟨l, hl, hk⟩⟩
  · rintro ⟨k, i, hk⟩
    obtain ⟨q', hq', hi⟩ := h.getElem?_of_lineThrough hd hg hv ((hg.lineThrough _ _).mpr ⟨k, hk⟩)
    obtain rfl := Option.some.inj (hq.symm.trans hq')
    exact List.mem_of_getElem? hi

theorem precedes_of_before {u : Nat} {o' : Operation} (hv : d.node? v = some (.op o))
    (hu : d.node? u = some (.op o')) (hb : g.Before (d.rank v) (d.rank u)) : d.Precedes v u := by
  obtain ⟨k, m, hk, hm, hkm⟩ := hb
  obtain rfl := h.eq_layer_of_meets hd hg hv hk
  obtain rfl := h.eq_layer_of_meets hd hg hu hm
  refine hkm.imp_right fun ⟨he, hline⟩ => ⟨he, ?_⟩
  obtain ⟨x, -, hx⟩ := h.vertex_op hu
  obtain ⟨q, hq⟩ := List.exists_mem_of_ne_nil _ hx.qargs
  obtain ⟨q', hj, hq'⟩ := exists_firstLine hu hq (mem_qubits_of_mem_qargs hd hu hq)
  obtain ⟨n, i, hcell⟩ := (h.mem_qargs_iff hd hg hu hj).mp hq'
  obtain rfl := h.eq_layer_of_meets hd hg hu ⟨_, _, hcell⟩
  obtain ⟨j, i', hlt, hcell'⟩ := hline _ _ hcell
  obtain ⟨l, hl, -⟩ := Grid.cell?_eq_some.mp hcell'
  obtain ⟨q'', hq''⟩ := h.exists_qubit hd hg hl
  exact (firstLine_le hv hq'' ((h.mem_qargs_iff hd hg hv hq'').mpr ⟨_, _, hcell'⟩)).trans_lt hlt

/-- The restored circuit has the operations in the order of their layers. -/
theorem exists_reordering {register : String} {ds : List (Nat × Destination)}
    {op : Nat → Nat × Operation} {d' : Dag} (r : c.ReadOff register g ds op d') :
    ∃ ops : List (Nat × Operation), ops.Perm d.operations ∧
      ops.Pairwise (fun x y => d.Precedes x.1 y.1) ∧
      d'.operations = ops.map fun x => op (d.rank x.1) := by
  have hperm : (g.reading.filter c.isInner).Perm (d.operations.map fun x => d.rank x.1) := by
    have hnodup : (d.operations.map fun x => d.rank x.1).Nodup := by
      refine List.pairwise_map.mpr ((operations_pairwise d).imp_of_mem fun {x y} hx hy hlt he => ?_)
      exact hlt.ne (rank_inj (mem_operations_iff.mp hx) rfl (mem_operations_iff.mp hy) rfl he)
    refine (List.perm_ext_iff_of_nodup (hg.reading_nodup.filter _) hnodup).mpr fun u => ?_
    rw [List.mem_filter, hg.mem_reading, List.mem_map, Prod.exists]
    simp only [mem_operations_iff]
    constructor
    · rintro ⟨-, hu⟩
      exact h.isInner_iff.mp hu
    · intro hu
      have hinner := h.isInner_iff.mpr hu
      exact ⟨VertexCircuit.mem_of_isInner hinner, hinner⟩
  -- A permutation of an image is the image of a permutation.
  obtain ⟨ops, hmap, hops⟩ : Relation.Comp (· = List.map (fun x => d.rank x.1) ·) List.Perm
      (g.reading.filter c.isInner) d.operations := by
    rw [List.eq_map_comp_perm]
    exact hperm
  refine ⟨ops, hops, ?_, ?_⟩
  · have hread := g.reading_pairwise.filter c.isInner
    rw [hmap, List.pairwise_map] at hread
    refine hread.imp_of_mem fun {x y} hx hy hb => ?_
    exact h.precedes_of_before hd hg (mem_operations_iff.mp (hops.mem_iff.mp hx))
      (mem_operations_iff.mp (hops.mem_iff.mp hy)) hb
  · rw [r.operations, hmap, List.map_map]
    rfl

end Carries

end Dag

end CircuitForms
