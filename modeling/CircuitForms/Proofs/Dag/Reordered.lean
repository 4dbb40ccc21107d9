import CircuitForms.Proofs.Dag.Depth
import CircuitForms.Proofs.Dag.History
import CircuitForms.Proofs.Dag.Unguarded

/-! # How a listing is reordered

Reading a listing into a circuit and listing the circuit keeps the order of operations
that common wires join, and of no others: what only later wires lead to is put before
what the earlier ones lead to. Conditions have no wires. So an operation under a
condition can move to the other side of a measurement into its register.
-/

namespace CircuitForms

namespace Digraph

variable {g : Digraph Node Wire} {w : Wire} {s e : Nat} {vs : List Nat}

theorem Strand.reaches (h : g.Strand w s vs e) : (s :: vs ++ [e]).Pairwise g.Reaches := by
  have htrans : IsTrans Nat g.Reaches := ⟨fun _ _ _ => Relation.ReflTransGen.trans⟩
  refine (isChain_iff_consecutivePairs.mpr fun x hx => ?_).pairwise
  obtain ⟨a, ha, rfl⟩ := List.mem_map.mp (h.segments.mem_iff.mpr hx)
  exact .single ⟨a, (List.mem_filter.mp ha).1, rfl, rfl⟩

end Digraph

namespace Dag

variable {d : Dag} {w : Wire} {s v : Nat} {x y : Nat × Operation} {l l' : DagListing}
  {order : List Nat}

/-- Some operations joined by common wires lead from a wire to an operation. -/
def LeadsTo (ops : List (Nat × Operation)) (w : Wire) (x : Nat × Operation) : Prop :=
  ∃ c, Chain ops (c ++ [x]) ∧ ∃ y, (c ++ [x]).head? = some y ∧ w ∈ y.2.wires

section Sound

variable (h : d.Sound) (hn : ∀ x ∈ d.operations, x.2.wires.Nodup)

include h hn

theorem reaches_of_chain {c : List (Nat × Operation)} (hc : Chain d.operations (c ++ [x]))
    (hy : (c ++ [x]).head? = some y) : d.graph.Reaches y.1 x.1 := by
  have htrans : IsTrans (Nat × Operation) fun x y => d.graph.Reaches x.1 y.1 :=
    ⟨fun _ _ _ => Relation.ReflTransGen.trans⟩
  have hpair : (c ++ [x]).Pairwise fun x y => d.graph.Reaches x.1 y.1 := by
    refine (hc.isChain fun w => ?_).pairwise
    rw [← List.pairwise_map (f := Prod.fst) (R := d.graph.Reaches), ← visits_eq hn]
    by_cases hw : w ∈ d.wires
    · obtain ⟨s, e, hs⟩ := h.threaded.exists_strand hw
      exact hs.reaches.sublist
        ((List.sublist_cons_self _ _).trans (List.sublist_append_left _ _))
    · rw [h.threaded.idle w hw]
      exact .nil
  cases c with
  | nil =>
    obtain rfl := Option.some.inj hy
    exact .refl
  | cons z c =>
    obtain rfl := Option.some.inj hy
    exact (List.pairwise_cons.mp hpair).1 x (List.mem_append_right _ List.mem_cons_self)

theorem leadsTo_of_reaches {op : Operation} (hs : d.node? s = some (.input w))
    (hr : d.graph.Reaches s v) (hx : (v, op) ∈ d.operations) :
    LeadsTo d.operations w (v, op) := by
  induction hr generalizing op with
  | refl => cases hs.symm.trans (mem_operations_iff.mp hx)
  | tail hr hstep ih =>
    obtain ⟨a, ha, rfl, rfl⟩ := hstep
    rcases h.step_cases hn ha hx with ⟨hi, hw⟩ | ⟨op', ho, hlt, hshare⟩
    · obtain rfl : w = a.label := by
        rcases hr.cases_tail with he | ⟨u, -, b, hb, -, htarget⟩
        · rw [he] at hi
          exact Node.input.inj (Option.some.inj (hs.symm.trans hi))
        · rw [← htarget] at hi
          exact absurd hi (h.target_ne_input hb)
      exact ⟨[], ⟨List.singleton_sublist.mpr hx, .singleton _⟩, _, rfl, hw⟩
    · obtain ⟨c, hc, y, hy, hw⟩ := ih ho
      refine ⟨_, hc.concat (operations_pairwise d) hx hlt hshare, y, ?_, hw⟩
      rw [List.head?_append, hy]
      rfl

theorem reaches_iff_leadsTo (hs : d.node? s = some (.input w)) (hx : x ∈ d.operations) :
    d.graph.Reaches s x.1 ↔ LeadsTo d.operations w x := by
  constructor
  · exact fun hr => leadsTo_of_reaches h hn hs hr hx
  · rintro ⟨c, hc, y, hy, hw⟩
    have hym : y ∈ d.operations := hc.sublist.subset (List.mem_of_head? hy)
    have hvisit := mem_visits.mpr ⟨y.2, mem_operations_iff.mp hym, hw⟩
    have hwire : w ∈ d.wires := by
      by_contra hnot
      rw [h.threaded.idle w hnot] at hvisit
      cases hvisit
    obtain ⟨s', e, hstrand⟩ := h.threaded.exists_strand hwire
    obtain rfl := h.start_unique hs hstrand.start
    have hfirst : d.graph.Reaches s y.1 :=
      (List.pairwise_cons.mp hstrand.reaches).1 _ (List.mem_append_left _ hvisit)
    exact hfirst.trans (reaches_of_chain h hn hc hy)

omit hn in
theorem not_reaches_of_output (hs : d.node? s = some (.output w)) (hx : x ∈ d.operations) :
    ¬ d.graph.Reaches s x.1 := by
  intro hr
  rcases hr.cases_head with he | ⟨u, ⟨a, ha, rfl, -⟩, -⟩
  · rw [he] at hs
    cases hs.symm.trans (mem_operations_iff.mp hx)
  · rcases h.source_cases ha with hi | ⟨op, hop⟩
    · cases hs.symm.trans hi
    · cases hs.symm.trans (mem_operations_iff.mp (mem_on.mp hop).1)

end Sound

section Holds

variable (h : d.Holds l) (ho : d.order = .ok order)

include h ho

/-- What one of the first wires leads to stands after what none of them leads to. -/
theorem idxOf_lt_of_leadsTo (hx : x ∈ d.operations) (hy : y ∈ d.operations) {j : Nat}
    (hlead : ∃ w ∈ d.wires.take j, LeadsTo d.operations w x)
    (hnone : ∀ w ∈ d.wires.take j, ¬ LeadsTo d.operations w y) :
    order.idxOf y.1 < order.idxOf x.1 := by
  obtain ⟨rfl, -⟩ := order_eq_ok.mp ho
  have hn := h.sound.exists_order_iff.mp ⟨_, ho⟩
  have hcount := h.sound.node_count
  have hylt : y.1 < d.nodeCount :=
    (Array.getElem?_eq_some_iff.mp (mem_operations_iff.mp hy)).1
  have hwires : ∀ {i : Nat} {w : Wire}, (d.wires.take j)[i]? = some w →
      d.node? (2 * i) = some (.input w) ∧ d.node? (2 * i + 1) = some (.output w) := by
    intro i w hi
    rw [List.getElem?_take] at hi
    split at hi
    · exact h.node?_ends hi
    · cases hi
  obtain ⟨w, hw, hlead⟩ := hlead
  obtain ⟨i, hi⟩ := List.mem_iff_getElem?.mp hw
  have hilt := (List.getElem?_eq_some_iff.mp hi).1
  have hlen : (d.wires.take j).length ≤ d.wires.length := List.length_take_le' _ _
  refine (h.sound.climbs hn).idxOf_lt_of_reaches (n := 2 * (d.wires.take j).length)
    (s := 2 * i) ?_ ?_ ((reaches_iff_leadsTo h.sound hn (hwires hi).1 hx).mpr hlead) ?_ hylt
  · have hsize : d.graph.size = d.nodeCount := rfl
    omega
  · omega
  · intro s hs hr
    -- The nodes before this one are the ends of the wires declared before it.
    obtain ⟨i', hi'⟩ : ∃ i', s = 2 * i' ∨ s = 2 * i' + 1 := ⟨s / 2, by omega⟩
    have hw' := List.getElem?_eq_getElem (l := d.wires.take j) (i := i') (by omega)
    obtain ⟨hinput, houtput⟩ := hwires hw'
    rcases hi' with rfl | rfl
    · exact hnone _ (List.mem_of_getElem? hw')
        ((reaches_iff_leadsTo h.sound hn hinput hy).mp hr)
    · exact not_reaches_of_output h.sound houtput hy hr

end Holds

/-- How the operations of a listing stand in the listing of the circuit read from it. -/
structure Reorders (l : DagListing) (d : Dag) (l' : DagListing) (ops : List (Nat × Operation)) :
    Prop where
  qregs : l'.qregs = l.qregs
  cregs : l'.cregs = l.cregs
  /-- The circuit numbers the operations in the order in which they are listed. -/
  given : d.operations.map Prod.snd = l.operations
  listed : ops.map Prod.snd = l'.operations
  /-- They are listed in the order in which a search with a stack finds them. -/
  sorted : ∃ order, d.graph.Sorts order ∧ order.filterMap d.numbered? = ops
  perm : ops.Perm d.operations
  /-- Operations joined by common wires keep their order. -/
  kept : ∀ c, Chain d.operations c → c.Sublist ops
  /-- What none of the first wires leads to is put before what one of them leads to. -/
  turned : ∀ x ∈ d.operations, ∀ y ∈ d.operations, ∀ j,
    (∃ w ∈ d.wires.take j, LeadsTo d.operations w x) →
    (∀ w ∈ d.wires.take j, ¬ LeadsTo d.operations w y) → [y, x].Sublist ops
  /-- Without conditions all is put in the same order. -/
  unguarded : ofListing l.unguarded = .ok d.unguarded ∧
    d.unguarded.toListing = .ok l'.unguarded

/-- The listing of a circuit read from a listing keeps the order of what common wires join, and puts
what earlier wires do not lead to before what they lead to, whatever the conditions are. -/
theorem reorders_of_toListing (hd : ofListing l = .ok d) (hl : d.toListing = .ok l') :
    ∃ ops, Reorders l d l' ops := by
  have h := holds_of_ofListing hd
  obtain ⟨ops, hops, rfl⟩ := map_eq_ok.mp hl
  obtain ⟨order, ho, rfl⟩ := map_eq_ok.mp hops
  have ht := h.sound.topological ho
  have hr := ht.rearranges h.sound
  have hnodup : d.operations.Nodup :=
    (operations_pairwise d).imp fun hlt he => hlt.ne (congrArg Prod.fst he)
  refine ⟨_, h.qregs, h.cregs, h.map_snd_operations, rfl,
    ⟨order, h.sound.order_eq_ok_iff_sorts.mp ho, rfl⟩, hr.perm, fun c hc => ?_, ?_,
    ofListing_unguarded hd, toListing_unguarded hl⟩
  · exact (hc.rearrange hr.symm hnodup).sublist
  · intro x hx y hy j hlead hnone
    have hlt := idxOf_lt_of_leadsTo h ho hx hy hlead hnone
    have hpair : [y, x].Pairwise fun x y => order.idxOf x.1 < order.idxOf y.1 :=
      List.pairwise_pair.mpr hlt
    have hsub : [y, x] ⊆ order.filterMap d.numbered? := by
      intro z hz
      rcases List.mem_pair.mp hz with rfl | rfl
      · exact hr.perm.mem_iff.mpr hy
      · exact hr.perm.mem_iff.mpr hx
    exact sublist_of_pairwise_lt hpair ht.pairwise_numbered? hsub

/-- A qubit is measured and then another one turned if the bit is set. -/
def correcting : DagListing :=
  ⟨[⟨"q", 2⟩], [⟨"c", 1⟩], [.measurement [⟨"q", 0⟩] [⟨"c", 0⟩],
    ⟨"x", [⟨"q", 1⟩], [], [], some ⟨"c", 1⟩⟩]⟩

def correctingListed : DagListing :=
  ⟨[⟨"q", 2⟩], [⟨"c", 1⟩], [⟨"x", [⟨"q", 1⟩], [], [], some ⟨"c", 1⟩⟩,
    .measurement [⟨"q", 0⟩] [⟨"c", 0⟩]]⟩

theorem reorders_correcting : ∃ d ops, ofListing correcting = .ok d ∧
    d.toListing = .ok correctingListed ∧ Reorders correcting d correctingListed ops := by
  obtain ⟨d, hd, hl⟩ : ∃ d, ofListing correcting = .ok d ∧ d.toListing = .ok correctingListed := by
    refine ⟨(History.of [.addQreg ⟨"q", 2⟩, .addCreg ⟨"c", 1⟩, .declare ⟨"measure", 1, 1, 0⟩,
      .append (.measurement [⟨"q", 0⟩] [⟨"c", 0⟩]), .declare ⟨"x", 1, 0, 0⟩,
      .append ⟨"x", [⟨"q", 1⟩], [], [], some ⟨"c", 1⟩⟩]).dag, ?_, ?_⟩
    · decide +kernel
    · decide +kernel
  obtain ⟨ops, h⟩ := reorders_of_toListing hd hl
  exact ⟨d, ops, hd, hl, h⟩

end Dag

end CircuitForms
