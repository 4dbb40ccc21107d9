import CircuitForms.Proofs.Dag.Entered
import CircuitForms.Proofs.Dag.Relisted

/-! # Exchanged operations

Two operations that follow each other in a listing and have no wire in common can change
places. The listing is still accepted. In the circuit read from it the nodes of the two
have changed places, and each wire leads through the same operations.
-/

namespace CircuitForms

def Operation.Apart (a b : Operation) : Prop :=
  ∀ w ∈ a.wires, w ∉ b.wires

/-- Two operations that follow each other and have no wire in common change places. -/
inductive Exchange : List Operation → List Operation → Prop
  | swap {a b : Operation} (pre post : List Operation) : a.Apart b →
    Exchange (pre ++ a :: b :: post) (pre ++ b :: a :: post)

/-- A listing becomes another by any number of such exchanges. -/
structure DagListing.Exchanges (l l' : DagListing) : Prop where
  qregs : l'.qregs = l.qregs
  cregs : l'.cregs = l.cregs
  operations : Relation.ReflTransGen Exchange l.operations l'.operations

theorem Exchange.perm {ops ops' : List Operation} (h : Exchange ops ops') : ops.Perm ops' := by
  cases h with
  | swap pre post _ => exact (List.Perm.swap _ _ post).append_left pre

theorem getElem?_exchange {α : Type} (pre : List α) (x y : α) (post : List α) (i : Nat) :
    (pre ++ y :: x :: post)[Equiv.swap pre.length (pre.length + 1) i]? =
      (pre ++ x :: y :: post)[i]? := by
  by_cases hx : i = pre.length
  · subst hx
    simp
  by_cases hy : i = pre.length + 1
  · subst hy
    simp
  rw [Equiv.swap_apply_of_ne_of_ne hx hy, List.getElem?_append, List.getElem?_append]
  split
  · rfl
  · obtain ⟨k, rfl⟩ : ∃ k, i = pre.length + 2 + k := Nat.exists_eq_add_of_le (by omega)
    have hk : pre.length + 2 + k - pre.length = k + 2 := by omega
    rw [hk]
    rfl

namespace Dag

variable {d d' : Dag} {l l' : DagListing} {e : Equiv.Perm Nat} {n : Nat} {a b : Operation}
  {ops : List (Nat × Operation)}

theorem of_concat (calls : List Call) (k : Call) :
    History.of (calls ++ [k]) = (History.of calls).call k := by
  simp [History.of]

/-- A loop each of whose rounds is a row of calls is the row of all of them. -/
theorem of_flatMap {α : Type} {f : α → Edit Unit} (g : α → List Call) (calls : List Call)
    (hstep : ∀ calls a d', edit (f a) (History.of calls).dag = (.ok (), d') →
      (History.of (calls ++ g a)).dag = d') {as : List α}
    (h : edit (as.forM f) (History.of calls).dag = (.ok (), d)) :
    (History.of (calls ++ as.flatMap g)).dag = d := by
  induction as generalizing calls with
  | nil =>
    rw [List.flatMap_nil, List.append_nil]
    exact (Prod.mk.inj h).2
  | cons a as ih =>
    obtain ⟨_, d₁, h₁, h⟩ := edit_bind_eq_ok h
    obtain rfl := hstep calls a d₁ h₁
    rw [List.flatMap_cons, ← List.append_assoc]
    exact ih (calls ++ g a) h

/-- A circuit that is read from a listing is one that calls build. -/
theorem exists_calls_of_ofListing (h : ofListing l = .ok d) :
    ∃ calls, (History.of calls).dag = d := by
  obtain ⟨d₁, d₂, h₁, h₂, h₃⟩ := exists_entered h
  obtain rfl := of_flatMap (fun r => [.addQreg r]) []
    (fun calls r d' he => by rw [of_concat, History.call, he]) h₁
  obtain rfl := of_flatMap (fun r => [.addCreg r]) _
    (fun calls r d' he => by rw [of_concat, History.call, he]) h₂
  refine ⟨_, of_flatMap (fun op => [.declare op.signature, .append op]) _
    (fun calls op d' he => ?_) h₃⟩
  obtain ⟨v, he⟩ := edit_discard_eq_ok he
  obtain ⟨_, d₃, hdeclare, happend⟩ := edit_bind_eq_ok he
  rw [← List.singleton_append, ← List.append_assoc, of_concat, of_concat, History.call,
    History.call, hdeclare, happend]

theorem consistent_of_ofListing (h : ofListing l = .ok d) : d.Consistent := by
  obtain ⟨calls, rfl⟩ := exists_calls_of_ofListing h
  exact consistent_of calls

/-- Two circuits that differ in the numbers of their nodes alone. -/
structure Renumbers (e : Equiv.Perm Nat) (d d' : Dag) : Prop where
  qregs : d'.qregs = d.qregs
  cregs : d'.cregs = d.cregs
  node? : ∀ v, d'.node? (e v) = d.node? v
  visits : ∀ w, visits d'.operations w = (visits d.operations w).map e

theorem Renumbers.symm (h : Renumbers e d d') : Renumbers e.symm d' d where
  qregs := h.qregs.symm
  cregs := h.cregs.symm
  node? v := by rw [← h.node?, e.apply_symm_apply]
  visits w := by rw [h.visits, List.map_map, e.symm_comp_self, List.map_id]

theorem visits_append (ops ops' : List (Nat × Operation)) (w : Wire) :
    visits (ops ++ ops') w = visits ops w ++ visits ops' w :=
  List.flatMap_append

theorem map_visits_of_fixed (h : ∀ x ∈ ops, e x.1 = x.1) (w : Wire) :
    (visits ops w).map e = visits ops w := by
  have hfixed : ∀ v ∈ visits ops w, e v = v := by
    intro v hv
    obtain ⟨x, hx, hv⟩ := List.mem_flatMap.mp hv
    rw [List.eq_of_mem_replicate hv, h x hx]
  rw [List.map_congr_left hfixed, List.map_id']

theorem filterMap_numbered?_of_fixed (hn : ∀ v, d'.node? (e v) = d.node? v) (vs : List Nat)
    (hvs : ∀ v ∈ vs, e v = v) : vs.filterMap d'.numbered? = vs.filterMap d.numbered? ∧
      ∀ x ∈ vs.filterMap d.numbered?, e x.1 = x.1 := by
  constructor
  · apply List.filterMap_congr
    intro v hv
    have hv' := hn v
    rw [hvs v hv] at hv'
    rw [numbered?, numbered?, hv']
  · rintro ⟨u, op⟩ hx
    obtain ⟨v, hv, hu⟩ := List.mem_filterMap.mp hx
    obtain ⟨rfl, -⟩ := numbered?_eq_some_iff.mp hu
    exact hvs _ hv

theorem operations_eq (ha : d.node? n = some (.op a)) (hb : d.node? (n + 1) = some (.op b)) :
    d.operations = (List.range n).filterMap d.numbered? ++ (n, a) :: (n + 1, b) ::
      (List.range' (n + 2) (d.nodeCount - (n + 2))).filterMap d.numbered? := by
  have hlt : n + 1 < d.nodeCount := (Array.getElem?_eq_some_iff.mp hb).1
  have hcount : d.nodeCount = n + (d.nodeCount - (n + 2) + 2) := by omega
  have hrange : ∀ m, List.range (n + (m + 2)) =
      List.range n ++ n :: (n + 1) :: List.range' (n + 2) m := by
    intro m
    rw [List.range_eq_range', ← List.range'_append_1, List.range_eq_range', Nat.zero_add]
    rfl
  have hops := congrArg (List.filterMap d.numbered?) (hrange (d.nodeCount - (n + 2)))
  rw [← hcount, List.filterMap_append,
    List.filterMap_cons_some (numbered?_eq_some_iff.mpr ⟨rfl, ha⟩),
    List.filterMap_cons_some (numbered?_eq_some_iff.mpr ⟨rfl, hb⟩)] at hops
  exact hops

theorem renumbers_swap {pre post : List Node} (hq : d'.qregs = d.qregs) (hc : d'.cregs = d.cregs)
    (hd : d.graph.nodes.toList = pre ++ .op a :: .op b :: post)
    (hd' : d'.graph.nodes.toList = pre ++ .op b :: .op a :: post) (hab : a.Apart b) :
    Renumbers (Equiv.swap pre.length (pre.length + 1)) d d' := by
  have hnode : ∀ (d : Dag) (v : Nat), d.node? v = d.graph.nodes.toList[v]? := fun d v =>
    Array.getElem?_toList.symm
  have hn : ∀ v, d'.node? (Equiv.swap pre.length (pre.length + 1) v) = d.node? v := fun v => by
    rw [hnode, hnode, hd, hd', getElem?_exchange]
  have hcount : d'.nodeCount = d.nodeCount := by
    have hlen := congrArg List.length hd
    have hlen' := congrArg List.length hd'
    simp only [Array.length_toList, List.length_append, List.length_cons] at hlen hlen'
    exact hlen'.trans hlen.symm
  have ha : d.node? pre.length = some (.op a) := by simp [hnode, hd]
  have hb : d.node? (pre.length + 1) = some (.op b) := by simp [hnode, hd]
  have ha' : d'.node? (pre.length + 1) = some (.op a) := by simp [hnode, hd']
  have hb' : d'.node? pre.length = some (.op b) := by simp [hnode, hd']
  have hfixed : ∀ v, v ≠ pre.length → v ≠ pre.length + 1 →
      Equiv.swap pre.length (pre.length + 1) v = v := fun v => Equiv.swap_apply_of_ne_of_ne
  obtain ⟨hpre, hpreFixed⟩ := filterMap_numbered?_of_fixed hn (List.range pre.length) fun v hv => by
    have hlt := List.mem_range.mp hv
    exact hfixed v (by omega) (by omega)
  obtain ⟨hpost, hpostFixed⟩ := filterMap_numbered?_of_fixed hn
    (List.range' (pre.length + 2) (d.nodeCount - (pre.length + 2))) fun v hv => by
      have hle := (List.mem_range'_1.mp hv).1
      exact hfixed v (by omega) (by omega)
  refine ⟨hq, hc, hn, fun w => ?_⟩
  rw [operations_eq hb' ha', operations_eq ha hb, hcount, hpre, hpost, visits_append, visits_append,
    List.map_append, map_visits_of_fixed hpreFixed, visits_cons, visits_cons, visits_cons,
    visits_cons, List.map_append, List.map_append, map_visits_of_fixed hpostFixed,
    List.map_replicate, List.map_replicate, Equiv.swap_apply_left, Equiv.swap_apply_right]
  -- Only one of the two is on the wire, so it does not matter which comes first.
  by_cases hw : w ∈ a.wires
  · rw [List.count_eq_zero.mpr (hab w hw)]
    rfl
  · rw [List.count_eq_zero.mpr hw]
    rfl

/-- If two operations without a common wire change places in a listing that is accepted, then it is
still accepted, and their nodes change places. -/
theorem exists_of_exchange (hd : ofListing l = .ok d) (hq : l'.qregs = l.qregs)
    (hc : l'.cregs = l.cregs) (h : Exchange l.operations l'.operations) :
    ∃ d' e, ofListing l' = .ok d' ∧ Renumbers e d d' := by
  have hl := holds_of_ofListing hd
  have hconsistent := consistent_of_ofListing hd
  have hadmits : ∀ op ∈ l'.operations, d.Admits op := by
    intro op hop
    have hm := h.perm.mem_iff.mpr hop
    rw [← hl.map_snd_operations] at hm
    obtain ⟨x, hx, rfl⟩ := List.mem_map.mp hm
    exact hconsistent x hx
  obtain ⟨d', hd', -, -⟩ := exists_ofListing hl.sound (hq.trans hl.qregs.symm)
    (hc.trans hl.cregs.symm) hadmits
  have hl' := holds_of_ofListing hd'
  have hqregs : d'.qregs = d.qregs := hl'.qregs.trans (hq.trans hl.qregs.symm)
  have hcregs : d'.cregs = d.cregs := hl'.cregs.trans (hc.trans hl.cregs.symm)
  have hwires : d'.wires = d.wires := by simp [wires, qubits, clbits, hqregs, hcregs]
  have hnodes := hl.nodes
  have hnodes' := hl'.nodes
  rw [hwires] at hnodes'
  generalize l.operations = ops at h hnodes
  generalize l'.operations = ops' at h hnodes'
  cases h with
  | @swap a b pre post hab =>
    rw [List.map_append, List.map_cons, List.map_cons, ← List.append_assoc] at hnodes hnodes'
    exact ⟨d', _, hd', renumbers_swap hqregs hcregs hnodes hnodes' hab⟩

end Dag

end CircuitForms
