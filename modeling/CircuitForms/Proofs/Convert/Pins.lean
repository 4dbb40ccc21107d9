import CircuitForms.Proofs.Convert.Lines
import CircuitForms.Proofs.Dag.Admitted
import CircuitForms.Proofs.Dag.Ordered

/-! # Pins of the qubit wires

A qubit's wire leaves and enters an operation by the pin that is the qubit's place in
it, and the ends of the wire by the first pin. As no operation names a qubit twice, no
pin is left or entered by two segments, and every segment of a qubit wire has its link.
-/

namespace CircuitForms.Dag

variable {d : Dag} {q q' : Qubit} {v v' i k : Nat} {o : Operation}

/-- The wire of a qubit leaves a node by a pin. -/
inductive Leaves (d : Dag) (q : Qubit) (v : Nat) : Nat → Prop
  | input (hv : d.node? v = some (.input (.qubit q))) : Leaves d q v 0
  | op {o : Operation} {i : Nat} (hv : d.node? v = some (.op o)) (hi : o.qargs[i]? = some q) :
    Leaves d q v i

inductive Enters (d : Dag) (q : Qubit) (v : Nat) : Nat → Prop
  | output (hv : d.node? v = some (.output (.qubit q))) : Enters d q v 0
  | op {o : Operation} {i : Nat} (hv : d.node? v = some (.op o)) (hi : o.qargs[i]? = some q) :
    Enters d q v i

/-- The wire of a qubit meets a node at a pin. -/
inductive Passes (d : Dag) (q : Qubit) (v : Nat) : Nat → Prop
  | stop {node : Node} (hv : d.node? v = some node) (hw : node.wire? = some (.qubit q)) :
    Passes d q v 0
  | op {o : Operation} {i : Nat} (hv : d.node? v = some (.op o)) (hi : o.qargs[i]? = some q) :
    Passes d q v i

def Follows (d : Dag) (q : Qubit) (v v' : Nat) : Prop :=
  ∃ s e, d.node? s = some (.input (.qubit q)) ∧ d.node? e = some (.output (.qubit q)) ∧
    (v, v') ∈ (s :: visits d.operations (.qubit q) ++ [e]).consecutivePairs

theorem Leaves.passes (h : d.Leaves q v i) : d.Passes q v i := by
  cases h with
  | input hv => exact .stop hv rfl
  | op hv hi => exact .op hv hi

theorem Enters.passes (h : d.Enters q v i) : d.Passes q v i := by
  cases h with
  | output hv => exact .stop hv rfl
  | op hv hi => exact .op hv hi

theorem mem_wires_of_getElem? (hi : o.qargs[i]? = some q) : .qubit q ∈ o.wires :=
  List.mem_append_left _ (List.mem_map_of_mem (List.mem_of_getElem? hi))

theorem exists_place (ho : (v, o) ∈ on (.qubit q) d.operations) :
    ∃ i : Nat, o.qargs[i]? = some q := by
  refine List.mem_iff_getElem?.mp ?_
  simpa [Operation.wires] using (mem_on.mp ho).2

section Sound

variable (hd : d.Sound)

include hd

theorem Follows.exists_strand (h : d.Follows q v v') :
    ∃ s e, d.graph.Strand (.qubit q) s (visits d.operations (.qubit q)) e ∧
      (v, v') ∈ (s :: visits d.operations (.qubit q) ++ [e]).consecutivePairs := by
  obtain ⟨s, e, hs, he, hm⟩ := h
  obtain ⟨s', e', hst⟩ := hd.threaded.exists_strand (hd.mem_wires_of_input hs)
  obtain rfl := hd.start_unique hs hst.start
  obtain rfl := hd.finish_unique he hst.finish
  exact ⟨s, e, hst, hm⟩

/-- The segments of a qubit's wire lead from each node on it to the next. -/
theorem mem_segments_iff_follows : (v, v') ∈ d.graph.segments (.qubit q) ↔ d.Follows q v v' := by
  constructor
  · intro h
    obtain ⟨a, ha, -⟩ := List.mem_map.mp h
    obtain ⟨ha, hl⟩ := List.mem_filter.mp ha
    obtain ⟨s, e, hs⟩ := hd.threaded.exists_strand (w := .qubit q)
      (of_decide_eq_true hl ▸ hd.threaded.labels a ha)
    exact ⟨s, e, hs.start, hs.finish, hs.segments.mem_iff.mp h⟩
  · intro h
    obtain ⟨s, e, hs, hm⟩ := h.exists_strand hd
    exact hs.segments.mem_iff.mpr hm

theorem exists_leaves {a : Arc Wire} (ha : a ∈ d.graph.arcs.toList) (hq : a.label = .qubit q) :
    ∃ i, d.Leaves q a.source i := by
  rcases hd.source_cases ha with hv | ⟨o, ho⟩
  · exact ⟨0, .input (hq ▸ hv)⟩
  · obtain ⟨i, hi⟩ := exists_place (hq ▸ ho)
    exact ⟨i, .op (mem_operations_iff.mp (mem_on.mp ho).1) hi⟩

theorem exists_enters {a : Arc Wire} (ha : a ∈ d.graph.arcs.toList) (hq : a.label = .qubit q) :
    ∃ i, d.Enters q a.target i := by
  rcases hd.target_cases ha with hv | ⟨o, ho⟩
  · exact ⟨0, .output (hq ▸ hv)⟩
  · obtain ⟨i, hi⟩ := exists_place (hq ▸ ho)
    exact ⟨i, .op (mem_operations_iff.mp (mem_on.mp ho).1) hi⟩

theorem Follows.exists_pins (h : d.Follows q v v') :
    ∃ i k, d.Leaves q v i ∧ d.Enters q v' k := by
  obtain ⟨a, ha, he⟩ := List.mem_map.mp ((mem_segments_iff_follows hd).mpr h)
  obtain ⟨ha, hq⟩ := List.mem_filter.mp ha
  obtain ⟨rfl, rfl⟩ := Prod.mk.inj he
  obtain ⟨i, hi⟩ := exists_leaves hd ha (of_decide_eq_true hq)
  obtain ⟨k, hk⟩ := exists_enters hd ha (of_decide_eq_true hq)
  exact ⟨i, k, hi, hk⟩

theorem Passes.mem_wires (h : d.Passes q v i) : .qubit q ∈ d.wires := by
  cases h with
  | @stop node hv hw =>
    cases node with
    | input w => exact Option.some.inj hw ▸ hd.mem_wires_of_input hv
    | output w => exact Option.some.inj hw ▸ hd.mem_wires_of_output hv
    | op o => cases hw
  | op hv hi => exact hd.mem_wires_of_op hv (mem_wires_of_getElem? hi)

/-- A node that a qubit's wire leaves is followed by another. -/
theorem Leaves.exists_follows (h : d.Leaves q v i) : ∃ v', d.Follows q v v' := by
  obtain ⟨s, e, hs⟩ := hd.threaded.exists_strand (h.passes.mem_wires hd)
  have hmem : v ∈ s :: visits d.operations (.qubit q) := by
    cases h with
    | input hv => exact hd.start_unique hs.start hv ▸ List.mem_cons_self
    | op hv hi =>
      exact List.mem_cons_of_mem _ (mem_visits.mpr ⟨_, hv, mem_wires_of_getElem? hi⟩)
  rw [← map_fst_consecutivePairs (s :: visits d.operations (.qubit q)) e] at hmem
  obtain ⟨⟨_, v'⟩, hvv', rfl⟩ := List.mem_map.mp hmem
  exact ⟨v', s, e, hs.start, hs.finish, hvv'⟩

/-- A node that a qubit's wire enters follows another. -/
theorem Enters.exists_follows (h : d.Enters q v' k) : ∃ v, d.Follows q v v' := by
  obtain ⟨s, e, hs⟩ := hd.threaded.exists_strand (h.passes.mem_wires hd)
  have hmem : v' ∈ visits d.operations (.qubit q) ++ [e] := by
    cases h with
    | output hv => exact hd.finish_unique hs.finish hv ▸ List.mem_append_right _ List.mem_cons_self
    | op hv hi =>
      exact List.mem_append_left _ (mem_visits.mpr ⟨_, hv, mem_wires_of_getElem? hi⟩)
  rw [← map_snd_consecutivePairs s (visits d.operations (.qubit q) ++ [e])] at hmem
  obtain ⟨⟨v, _⟩, hvv', rfl⟩ := List.mem_map.mp hmem
  exact ⟨v, s, e, hs.start, hs.finish, hvv'⟩

end Sound

theorem Passes.qubit_eq (h : d.Passes q v i) (h' : d.Passes q' v i) : q = q' := by
  cases h with
  | stop hv hw =>
    cases h' with
    | stop hv' hw' =>
      obtain rfl := Option.some.inj (hv.symm.trans hv')
      exact Wire.qubit.inj (Option.some.inj (hw.symm.trans hw'))
    | op hv' _ =>
      obtain rfl := Option.some.inj (hv.symm.trans hv')
      cases hw
  | op hv hi =>
    cases h' with
    | stop hv' hw' =>
      obtain rfl := Option.some.inj (hv.symm.trans hv')
      cases hw'
    | op hv' hi' =>
      obtain rfl := Node.op.inj (Option.some.inj (hv.symm.trans hv'))
      exact Option.some.inj (hi.symm.trans hi')

theorem pinAt_of_getElem? (hn : o.qargs.Nodup) (hi : o.qargs[i]? = some q) :
    pinAt v (.op o) q = .ok i := by
  obtain ⟨hlt, hq⟩ := List.getElem?_eq_some_iff.mp hi
  rw [pinAt]
  split
  · exact congrArg Except.ok (by omega)
  · have hidx : o.qargs.idxOf? q = some i := by
      refine List.idxOf?_eq_some_iff.mpr ⟨hlt, hq, fun j hj he => hj.ne ?_⟩
      exact hn.getElem_inj_iff.mp (he.trans hq.symm)
    rw [hidx]

theorem Consistent.nodup_qargs (hc : d.Consistent) (hv : d.node? v = some (.op o)) :
    o.qargs.Nodup :=
  (hc _ (mem_operations_iff.mpr hv)).nodup

section Consistent

variable (hd : d.Sound) (hc : d.Consistent)

include hd hc

theorem Passes.node (h : d.Passes q v i) :
    ∃ node, d.node? v = some node ∧ d.isCarried node ∧ pinAt v node q = .ok i := by
  have hq : d.hasQubit q := hd.mem_wires_iff.mp (h.mem_wires hd)
  cases h with
  | @stop node hv hw =>
    refine ⟨node, hv, ?_⟩
    cases node with
    | input w | output w =>
      obtain rfl := Option.some.inj hw
      exact ⟨hq, rfl⟩
    | op o => cases hw
  | op hv hi => exact ⟨_, hv, rfl, pinAt_of_getElem? (hc.nodup_qargs hv) hi⟩

theorem Passes.carried (h : d.Passes q v i) : (d.node? v).any d.isCarried := by
  obtain ⟨node, hn, hcarried, -⟩ := h.node hd hc
  rw [hn]
  exact hcarried

theorem Passes.cellAt (h : d.Passes q v i) : d.cellAt q v = ⟨d.rank v, i⟩ := by
  obtain ⟨node, hn, -, hp⟩ := h.node hd hc
  exact cellAt_of_pinAt hn hp

theorem Passes.eq_of_rank_eq (h : d.Passes q v i) (h' : d.Passes q' v' i)
    (hr : d.rank v = d.rank v') : v = v' ∧ q = q' := by
  obtain ⟨node, hn, hcarried, -⟩ := h.node hd hc
  obtain ⟨node', hn', hcarried', -⟩ := h'.node hd hc
  obtain rfl := rank_inj hn hcarried hn' hcarried' hr
  exact ⟨rfl, h.qubit_eq h'⟩

theorem toLink?_eq {a : Arc Wire} (hq : a.label = .qubit q) (hl : d.Leaves q a.source i)
    (he : d.Enters q a.target k) :
    d.toLink? a = .ok (some ⟨d.rank a.source, i, d.rank a.target, k⟩) := by
  obtain ⟨source, hs, hsc, hsp⟩ := hl.passes.node hd hc
  obtain ⟨target, ht, htc, htp⟩ := he.passes.node hd hc
  have hsv : d.vertexOf a.source = .ok (d.rank a.source) :=
    vertexOf_eq_ok.mpr ⟨by rw [hs]; exact hsc, rfl⟩
  have htv : d.vertexOf a.target = .ok (d.rank a.target) :=
    vertexOf_eq_ok.mpr ⟨by rw [ht]; exact htc, rfl⟩
  rw [toLink?, hq]
  exact bind_eq_ok.mpr ⟨_, getNode_eq_ok.mpr hs, bind_eq_ok.mpr ⟨_, getNode_eq_ok.mpr ht,
    bind_eq_ok.mpr ⟨_, hsp, bind_eq_ok.mpr ⟨_, htp, bind_eq_ok.mpr ⟨_, hsv,
      bind_eq_ok.mpr ⟨_, htv, rfl⟩⟩⟩⟩⟩⟩

theorem toLink?_cases {a : Arc Wire} (ha : a ∈ d.graph.arcs.toList) :
    (a.label.qubit? = none ∧ d.toLink? a = .ok none) ∨
      ∃ q i k, a.label = .qubit q ∧ d.Leaves q a.source i ∧ d.Enters q a.target k ∧
        d.toLink? a = .ok (some ⟨d.rank a.source, i, d.rank a.target, k⟩) := by
  cases hl : a.label with
  | clbit b => exact .inl ⟨rfl, by rw [toLink?, hl]⟩
  | qubit q =>
    obtain ⟨i, hi⟩ := exists_leaves hd ha hl
    obtain ⟨k, hk⟩ := exists_enters hd ha hl
    exact .inr ⟨q, i, k, rfl, hi, hk, toLink?_eq hd hc hl hi hk⟩

theorem exists_of_toLink? {a : Arc Wire} {l : Link} (ha : a ∈ d.graph.arcs.toList)
    (ho : d.toLink? a = .ok (some l)) : ∃ q i k, a.label = .qubit q ∧ d.Leaves q a.source i ∧
      d.Enters q a.target k ∧ l = ⟨d.rank a.source, i, d.rank a.target, k⟩ := by
  rcases toLink?_cases hd hc ha with ⟨-, ho'⟩ | ⟨q, i, k, hq, hi, hk, ho'⟩
  · cases ho.symm.trans ho'
  · exact ⟨q, i, k, hq, hi, hk, Option.some.inj (Except.ok.inj (ho.symm.trans ho'))⟩

theorem exists_links : ∃ ls, d.graph.arcs.toList.mapM d.toLink? = .ok ls := by
  cases hls : d.graph.arcs.toList.mapM d.toLink? with
  | ok ls => exact ⟨ls, rfl⟩
  | error f =>
    obtain ⟨a, ha, hf⟩ := exists_of_mapM_eq_error hls
    rcases toLink?_cases hd hc ha with ⟨-, ho⟩ | ⟨_, _, _, -, -, -, ho⟩
    · cases hf.symm.trans ho
    · cases hf.symm.trans ho

omit hd in
theorem count_qubit_le (q : Qubit) : ∀ x ∈ d.operations, x.2.wires.count (.qubit q) ≤ 1 := by
  intro x hx
  rw [Operation.count_qubit]
  exact List.nodup_iff_count_le_one.mp (hc x hx).nodup q

omit hd in
theorem nodup_visits (q : Qubit) : (visits d.operations (.qubit q)).Nodup := by
  rw [visits_eq_of_count_le (count_qubit_le hc q), on, List.Nodup, List.pairwise_map]
  exact ((operations_pairwise d).filter _).imp Nat.ne_of_lt

theorem ends_ne {a b : Arc Wire} (hab : [a, b].Sublist d.graph.arcs.toList)
    (ha : a.label = .qubit q) (hb : b.label = .qubit q) :
    a.source ≠ b.source ∧ a.target ≠ b.target := by
  have hmem : a ∈ d.graph.arcs.toList := hab.subset List.mem_cons_self
  obtain ⟨s, e, hs⟩ := hd.threaded.exists_strand (w := .qubit q) (ha ▸ hd.threaded.labels a hmem)
  have hsub : [a.ends, b.ends].Sublist (d.graph.segments (.qubit q)) := by
    have hf := (hab.filter (·.label = Wire.qubit q)).map Arc.ends
    rwa [List.filter_eq_self.mpr (by simp [ha, hb])] at hf
  have hvisits := nodup_visits hc q
  constructor
  · have hsources : ((d.graph.segments (.qubit q)).map Prod.fst).Nodup := by
      have hp := hs.segments.map Prod.fst
      rw [map_fst_consecutivePairs] at hp
      refine hp.nodup_iff.mpr (List.nodup_cons.mpr ⟨fun hm => ?_, hvisits⟩)
      obtain ⟨o, ho⟩ := hs.inner s hm
      cases hs.start.symm.trans ho
    exact (List.pairwise_pair.mp (hsources.sublist (hsub.map Prod.fst)))
  · have htargets : ((d.graph.segments (.qubit q)).map Prod.snd).Nodup := by
      have hp := hs.segments.map Prod.snd
      rw [List.cons_append, map_snd_consecutivePairs] at hp
      refine hp.nodup_iff.mpr (hvisits.append (List.nodup_singleton e) ?_)
      exact List.disjoint_singleton.mpr fun hm => hs.finish_notMem (List.mem_cons_of_mem s hm)
    exact (List.pairwise_pair.mp (htargets.sublist (hsub.map Prod.snd)))

/-- No two links share a pin. -/
theorem nodup_links {ls : List (Option Link)}
    (hls : d.graph.arcs.toList.mapM d.toLink? = .ok ls) :
    (ls.reduceOption.map Link.out).Nodup ∧ (ls.reduceOption.map Link.into).Nodup := by
  have hne : ls.reduceOption.Pairwise fun l l' => l.out ≠ l'.out ∧ l.into ≠ l'.into := by
    rw [reduceOption_of_mapM hls, List.pairwise_filterMap, List.pairwise_iff_forall_sublist]
    intro a b hab l hl l' hl'
    have ha : a ∈ d.graph.arcs.toList := hab.subset List.mem_cons_self
    have hb : b ∈ d.graph.arcs.toList := hab.subset (List.mem_cons_of_mem a List.mem_cons_self)
    rw [join_toOption_eq_some] at hl hl'
    obtain ⟨q, i, k, hq, hi, hk, rfl⟩ := exists_of_toLink? hd hc ha hl
    obtain ⟨q', i', k', hq', hi', hk', rfl⟩ := exists_of_toLink? hd hc hb hl'
    constructor
    · intro he
      obtain rfl : i = i' := congrArg Cell.pin he
      obtain ⟨hs, rfl⟩ := hi.passes.eq_of_rank_eq hd hc hi'.passes (congrArg Cell.vertex he)
      exact (ends_ne hd hc hab hq hq').1 hs
    · intro he
      obtain rfl : k = k' := congrArg Cell.pin he
      obtain ⟨ht, rfl⟩ := hk.passes.eq_of_rank_eq hd hc hk'.passes (congrArg Cell.vertex he)
      exact (ends_ne hd hc hab hq hq').2 ht
  constructor
  · exact List.pairwise_map.mpr (hne.imp And.left)
  · exact List.pairwise_map.mpr (hne.imp And.right)

end Consistent

end CircuitForms.Dag
