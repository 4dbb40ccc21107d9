import CircuitForms.Proofs.Dag.Admitted
import CircuitForms.Proofs.Dag.Relisted

/-! # Integrity of circuits of wires

Whether a circuit stands up to the check of its integrity, has an order, a depth and a
listing, is one question: none of them is there exactly if some operation names a
classical bit twice. Otherwise the check meets every node of a wire once and comes to
the end of the wire before its steps run out.
-/

namespace CircuitForms

theorem mem_consecutivePairs_append {α : Type} (l r : List α) (a b : α) :
    (a, b) ∈ (l ++ a :: b :: r).consecutivePairs := by
  induction l with
  | nil => exact List.mem_cons_self
  | cons c l ih =>
    cases l with
    | nil => exact List.mem_cons_of_mem _ ih
    | cons c' l => exact List.mem_cons_of_mem _ ih

theorem eq_of_mem_consecutivePairs {α : Type} {l : List α} {a b b' e : α} (hn : (l ++ [e]).Nodup)
    (h : (a, b) ∈ (l ++ [e]).consecutivePairs) (h' : (a, b') ∈ (l ++ [e]).consecutivePairs) :
    b = b' := by
  have hfst : ((l ++ [e]).consecutivePairs.map Prod.fst).Nodup := by
    rw [map_fst_consecutivePairs]
    exact (List.nodup_append.mp hn).1
  exact congrArg Prod.snd (List.inj_on_of_nodup_map hfst h h' rfl)

namespace Dag

variable {d : Dag} {w : Wire} {s e : Nat} {vs : List Nat}

theorem follow_finish (d : Dag) (w : Wire) (e n : Nat) : d.follow w e n e = .ok () := by
  unfold follow
  exact if_pos rfl

/-- If the newest segment from each node of a row leads to the next, the row is followed. -/
theorem follow_eq_ok (h : ∀ x ∈ (s :: vs ++ [e]).consecutivePairs, ∃ a,
    (d.graph.outgoing x.1).reverse.find? (·.label == w) = some a ∧ a.target = x.2) {n : Nat}
    (hn : vs.length < n) : d.follow w e n s = .ok () := by
  induction vs generalizing s n with
  | nil =>
    obtain ⟨a, ha, rfl⟩ := h (s, e) List.mem_cons_self
    obtain ⟨n, rfl⟩ := Nat.exists_eq_add_of_lt hn
    unfold follow
    split
    · rfl
    · rw [ha, List.length_nil, Nat.zero_add]
      exact follow_finish d w a.target n
  | cons v vs ih =>
    obtain ⟨a, ha, rfl⟩ := h (s, v) List.mem_cons_self
    obtain ⟨n, rfl⟩ : ∃ m, n = m + 1 := ⟨n - 1, by omega⟩
    unfold follow
    split
    · rfl
    · rw [ha]
      apply ih
      · exact fun x hx => h x (List.mem_cons_of_mem _ hx)
      · simpa using hn

theorem exists_onward (hs : d.graph.Strand w s vs e) (hn : (s :: vs ++ [e]).Nodup) {x : Nat × Nat}
    (hx : x ∈ (s :: vs ++ [e]).consecutivePairs) : ∃ a,
    (d.graph.outgoing x.1).reverse.find? (·.label == w) = some a ∧ a.target = x.2 := by
  obtain ⟨a, ha, rfl⟩ := List.mem_map.mp (hs.segments.mem_iff.mpr hx)
  obtain ⟨ham, hlabel⟩ := List.mem_filter.mp ha
  have hsome : ((d.graph.outgoing a.source).reverse.find? (·.label == w)).isSome := by
    refine List.find?_isSome.mpr ⟨a, ?_, by simpa using hlabel⟩
    exact List.mem_reverse.mpr (Digraph.mem_outgoing.mpr ⟨ham, rfl⟩)
  obtain ⟨b, hb⟩ := Option.isSome_iff_exists.mp hsome
  have hbm := List.mem_reverse.mp (List.mem_of_find?_eq_some hb)
  obtain ⟨hba, hsource⟩ := Digraph.mem_outgoing.mp hbm
  have hbl : b.label = w := by simpa using List.find?_some hb
  have hpair : b.ends ∈ (s :: vs ++ [e]).consecutivePairs := by
    refine hs.segments.mem_iff.mp (List.mem_map.mpr ⟨b, ?_, rfl⟩)
    exact List.mem_filter.mpr ⟨hba, decide_eq_true hbl⟩
  refine ⟨b, hb, eq_of_mem_consecutivePairs (a := a.source) hn ?_ hx⟩
  rw [← hsource]
  exact hpair

theorem nodup_strand (hn : ∀ x ∈ d.operations, x.2.wires.Nodup)
    (hs : d.graph.Strand w s (visits d.operations w) e) :
    (s :: visits d.operations w ++ [e]).Nodup :=
  (pairwise_height (fun x hx => List.nodup_iff_count_le_one.mp (hn x hx) w) hs).imp fun huv =>
    ne_of_apply_ne d.height huv.ne

theorem follow_visits (hn : ∀ x ∈ d.operations, x.2.wires.Nodup)
    (hs : d.graph.Strand w s (visits d.operations w) e) {n : Nat}
    (hlt : (visits d.operations w).length < n) : d.follow w e n s = .ok () :=
  follow_eq_ok (fun _ => exists_onward hs (nodup_strand hn hs)) hlt

theorem Sound.length_visits_lt (h : d.Sound) (hn : ∀ x ∈ d.operations, x.2.wires.Nodup)
    (hw : w ∈ d.wires) : (visits d.operations w).length < d.nodeCount := by
  have hvisits : (visits d.operations w).length ≤ d.operations.length := by
    rw [visits_eq hn, List.length_map]
    exact List.length_filter_le _ _
  have hpos := List.length_pos_of_mem hw
  have hcount := h.node_count
  omega

theorem Sound.checkWire_eq_ok (h : d.Sound) (hn : ∀ x ∈ d.operations, x.2.wires.Nodup)
    (hs : d.inputs.get? w = some s) : d.checkWire w s = .ok () := by
  have hkey := Table.isSome_get?_iff.mp (Option.isSome_of_eq_some hs)
  have hw := h.threaded.inputs_keys.mem_iff.mp hkey
  obtain ⟨s', e, hstrand, hr⟩ := h.threaded.wire w hw
  obtain rfl : s = s' := Option.some.inj (hs.symm.trans hr.input)
  rw [checkWire, hr.output]
  exact follow_visits hn hstrand (h.length_visits_lt hn hw)

theorem eq_cycle_of_order_eq_error {fault : CircuitFault} (ho : d.order = .error fault) :
    fault = .invalidWires .cycle := by
  unfold order at ho
  cases ht : d.graph.topologicalOrder? with
  | none =>
    rw [ht] at ho
    exact (Except.error.inj ho).symm
  | some order =>
    rw [ht] at ho
    cases ho

theorem isCyclic_eq_true_iff (d : Dag) :
    d.graph.isCyclic = true ↔ ∃ fault, d.order = .error fault := by
  rw [Digraph.isCyclic, order]
  cases d.graph.topologicalOrder? <;> simp

theorem isCyclic_eq_false {order : List Nat} (ho : d.order = .ok order) :
    d.graph.isCyclic = false := by
  refine Bool.eq_false_iff.mpr fun hc => ?_
  obtain ⟨fault, he⟩ := d.isCyclic_eq_true_iff.mp hc
  cases ho.symm.trans he

/-- Everything that needs an order of a circuit succeeds. -/
structure Readable (d : Dag) : Prop where
  verify : d.verify = .ok ()
  operations : ∃ ops, d.topologicalOps = .ok ops
  depth : ∃ k, d.depth = .ok k
  listing : ∃ l, d.toListing = .ok l

structure Unreadable (d : Dag) (fault : CircuitFault) : Prop where
  verify : d.verify = .error fault
  operations : d.topologicalOps = .error fault
  depth : d.depth = .error fault
  listing : d.toListing = .error fault

theorem Sound.readable (h : d.Sound) (hn : ∀ x ∈ d.operations, x.2.wires.Nodup) :
    d.Readable := by
  obtain ⟨order, ho⟩ := h.exists_order_iff.mpr hn
  have hops : d.topologicalOps = .ok (order.filterMap d.numbered?) := by
    rw [topologicalOps, ho]
    rfl
  constructor
  case verify =>
    have hkeys := h.threaded.outputs_keys.trans h.threaded.inputs_keys.symm
    have hends : ∀ w ∈ d.outputs.keys, (d.inputs.get? w).isSome := fun w hw =>
      Table.isSome_get?_iff.mpr (hkeys.mem_iff.mp hw)
    have houtputs : (d.outputs.keys.forM fun w =>
        if (d.inputs.get? w).isSome then .ok () else .error (.invalidWires (.noInput w))) =
        (.ok () : Except CircuitFault Unit) :=
      forM_eq_ok fun w hw => if_pos (hends w hw)
    have hinputs : d.inputs.entries.forM (fun entry => d.checkWire entry.1 entry.2) = .ok () :=
      forM_eq_ok fun entry he => h.checkWire_eq_ok hn (Table.get?_eq_some_iff.mpr he)
    rw [Dag.verify, isCyclic_eq_false ho]
    exact bind_eq_ok.mpr ⟨(), houtputs, hinputs⟩
  case operations => exact ⟨_, hops⟩
  case depth => exact ⟨_, depth_eq_ok ho⟩
  case listing =>
    rw [toListing, hops]
    exact ⟨_, rfl⟩

theorem unreadable_of_order {fault : CircuitFault} (ho : d.order = .error fault) :
    d.Unreadable fault := by
  have hops : d.topologicalOps = .error fault := map_eq_error.mpr ho
  constructor
  case verify =>
    rw [Dag.verify, (isCyclic_eq_true_iff d).mpr ⟨fault, ho⟩, eq_cycle_of_order_eq_error ho]
    rfl
  case operations => exact hops
  case depth => exact map_eq_error.mpr ho
  case listing => exact map_eq_error.mpr hops

theorem Sound.steps_self (h : d.Sound) {x : Nat × Operation} (hx : x ∈ d.operations)
    (hc : 1 < x.2.wires.count w) : d.graph.Steps x.1 x.1 := by
  have hw : w ∈ d.wires := h.mem_wires_of_op (mem_operations_iff.mp hx)
    (List.count_pos_iff.mp (Nat.zero_lt_of_lt hc))
  obtain ⟨s, e, hs⟩ := h.threaded.exists_strand hw
  obtain ⟨pre, post, hops⟩ := List.append_of_mem hx
  obtain ⟨n, hcount⟩ := Nat.exists_eq_add_of_lt hc
  have hrow : s :: visits d.operations w ++ [e] = (s :: visits pre w) ++
      x.1 :: x.1 :: (List.replicate n x.1 ++ visits post w ++ [e]) := by
    rw [hops, visits, List.flatMap_append, ← visits, ← visits, visits_cons, hcount,
      Nat.add_comm 1 n, List.replicate_succ, List.replicate_succ]
    simp
  have hpair : (x.1, x.1) ∈ (s :: visits d.operations w ++ [e]).consecutivePairs :=
    hrow ▸ mem_consecutivePairs_append _ _ _ _
  obtain ⟨a, ha, hends⟩ := List.mem_map.mp (hs.segments.mem_iff.mpr hpair)
  obtain ⟨hsource, htarget⟩ := Prod.mk.inj hends
  exact ⟨a, (List.mem_filter.mp ha).1, hsource, htarget⟩

theorem Sound.exists_cycle_iff (h : d.Sound) :
    (∃ v, Relation.TransGen d.graph.Steps v v) ↔ ∃ x ∈ d.operations, ¬ x.2.wires.Nodup := by
  constructor
  · rintro ⟨v, hv⟩
    by_contra hn
    push Not at hn
    have hclimb : ∀ u, Relation.TransGen d.graph.Steps v u → d.height v < d.height u := by
      intro u hu
      refine Relation.TransGen.trans_induction_on hu ?_ fun _ _ => Nat.lt_trans
      rintro a b ⟨arc, harc, rfl, rfl⟩
      exact (h.climbs hn).height_lt arc harc
    exact (hclimb v hv).false
  · rintro ⟨x, hx, hn⟩
    rw [List.nodup_iff_count_le_one] at hn
    push Not at hn
    obtain ⟨w, hw⟩ := hn
    exact ⟨x.1, .single (h.steps_self hx hw)⟩

/-- What the operations of a history decide about its circuit. -/
structure Decided (h : History) : Prop where
  /-- There is a cycle exactly if an operation was applied that names a classical bit twice. -/
  cycle : (∃ v, Relation.TransGen h.dag.graph.Steps v v) ↔ ∃ x ∈ h.applied, ¬ x.2.cargs.Nodup
  /-- The check for cycles finds one exactly if there is one. -/
  cyclic : h.dag.graph.isCyclic ↔ ∃ v, Relation.TransGen h.dag.graph.Steps v v
  readable : (∀ x ∈ h.applied, x.2.cargs.Nodup) → h.dag.Readable
  unreadable : (∃ x ∈ h.applied, ¬ x.2.cargs.Nodup) → ∃ fault, h.dag.Unreadable fault ∧
    fault = .invalidWires .cycle ∧
    fault.message = "Invalid DAG structure: Graph contains a cycle"
  /-- The tables have a start and an end for each declared wire and for no other. -/
  ends : ∀ w, (h.dag.inputs.get? w).isSome = h.dag.hasWire w ∧
    (h.dag.outputs.get? w).isSome = h.dag.hasWire w
  /-- Each wire is followed from its recorded start to its recorded end, one step for each operation
  on it and one more. -/
  walk : (∀ x ∈ h.applied, x.2.cargs.Nodup) → ∀ w s, h.dag.inputs.get? w = some s → ∃ e,
    h.dag.outputs.get? w = some e ∧
    h.dag.node? s = some (.input w) ∧ h.dag.node? e = some (.output w) ∧
    h.dag.follow w e ((on w h.applied).length + 1) s = .ok () ∧
    (on w h.applied).length + 1 ≤ h.dag.nodeCount ∧ h.dag.checkWire w s = .ok ()

/-- Whatever calls a circuit is built by, it has no order only because of an operation that names a
classical bit twice. -/
theorem decided_of (calls : List Call) : Decided (History.of calls) := by
  obtain ⟨hd, happlied⟩ := History.sound_of calls
  have hwires : ∀ x ∈ (History.of calls).dag.operations, (x.2.wires.Nodup ↔ x.2.cargs.Nodup) :=
    fun x hx => nodup_wires_iff.trans (and_iff_right (consistent_of calls x hx).nodup)
  -- Only bits can be named twice, so a wire held twice is a bit in `cargs` twice.
  have hiff : (∃ v, Relation.TransGen (History.of calls).dag.graph.Steps v v) ↔
      ∃ x ∈ (History.of calls).applied, ¬ x.2.cargs.Nodup := by
    rw [hd.exists_cycle_iff, happlied]
    refine exists_congr fun x => and_congr_right fun hx => not_congr (hwires x ?_)
    exact happlied ▸ hx
  have hnodup : (∀ x ∈ (History.of calls).applied, x.2.cargs.Nodup) →
      ∀ x ∈ (History.of calls).dag.operations, x.2.wires.Nodup :=
    fun hn x hx => (hwires x hx).mpr (hn x (happlied ▸ hx))
  have herror : (∃ x ∈ (History.of calls).applied, ¬ x.2.cargs.Nodup) →
      ∃ fault, (History.of calls).dag.order = .error fault := by
    rintro ⟨x, hx, hrepeat⟩
    rw [← happlied] at hx
    cases ho : (History.of calls).dag.order with
    | ok order =>
      exact absurd ((hwires x hx).mp (hd.exists_order_iff.mp ⟨order, ho⟩ x hx)) hrepeat
    | error fault => exact ⟨fault, rfl⟩
  constructor
  case cycle => exact hiff
  case cyclic =>
    rw [isCyclic_eq_true_iff, hiff]
    refine ⟨fun ⟨fault, ho⟩ => ?_, herror⟩
    by_contra hn
    push Not at hn
    obtain ⟨order, hok⟩ := hd.exists_order_iff.mpr (hnodup hn)
    cases hok.symm.trans ho
  case readable => exact fun hn => hd.readable (hnodup hn)
  case unreadable =>
    intro hrepeat
    obtain ⟨fault, ho⟩ := herror hrepeat
    obtain rfl := eq_cycle_of_order_eq_error ho
    exact ⟨_, unreadable_of_order ho, rfl, by decide⟩
  case ends =>
    exact fun w => ⟨hd.isSome_get? hd.threaded.inputs_keys w,
      hd.isSome_get? hd.threaded.outputs_keys w⟩
  case walk =>
    intro hn w s hs
    have hkey := Table.isSome_get?_iff.mp (Option.isSome_of_eq_some hs)
    have hmem := hd.threaded.inputs_keys.mem_iff.mp hkey
    obtain ⟨s', e, hstrand, hr⟩ := hd.threaded.wire w hmem
    obtain rfl : s = s' := Option.some.inj (hs.symm.trans hr.input)
    -- Every visit is one operation, so a walk is no longer than the history.
    have hlen : (on w (History.of calls).applied).length =
        (visits (History.of calls).dag.operations w).length := by
      rw [visits_eq (hnodup hn), List.length_map, happlied]
    refine ⟨e, hr.output, hstrand.start, hstrand.finish, ?_, ?_, ?_⟩
    · exact follow_visits (hnodup hn) hstrand (by omega)
    · rw [hlen]
      exact hd.length_visits_lt (hnodup hn) hmem
    · exact hd.checkWire_eq_ok (hnodup hn) hs

end Dag

end CircuitForms
