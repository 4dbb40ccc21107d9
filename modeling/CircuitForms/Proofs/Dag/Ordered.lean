import CircuitForms.Dag.Listing
import CircuitForms.Proofs.Dag.Sound
import CircuitForms.Proofs.Digraph.Search

/-! # Ordered circuits of wires

The graph of a sound circuit has a topological order exactly if no operation names a
wire twice. In such an order the operations on every wire stand as they were appended.
-/

namespace CircuitForms

theorem sublist_of_pairwise_lt {α : Type} {f : α → Nat} {xs ys : List α}
    (hx : xs.Pairwise fun a b => f a < f b) (hy : ys.Pairwise fun a b => f a < f b)
    (hsub : xs ⊆ ys) : xs.Sublist ys := by
  have hantisymm : Std.Antisymm fun a b : α => f a < f b :=
    ⟨fun _ _ hab hba => absurd hab hba.asymm⟩
  have hnodup : xs.Nodup := hx.imp fun hab he => hab.ne (congrArg f he)
  exact List.sublist_of_subperm_of_pairwise (hnodup.subperm hsub) hx hy

namespace Digraph

variable {g : Digraph Node Wire} {w : Wire} {s e v : Nat} {vs : List Nat}

theorem Strand.lt_size (h : g.Strand w s vs e) (hv : v ∈ s :: vs ++ [e]) : v < g.size := by
  have hlt : ∀ {n : Node}, g.nodes[v]? = some n → v < g.size := fun hn =>
    (Array.getElem?_eq_some_iff.mp hn).1
  rw [List.mem_append, List.mem_cons, List.mem_singleton] at hv
  rcases hv with (rfl | hv) | rfl
  · exact hlt h.start
  · obtain ⟨op, ho⟩ := h.inner v hv
    exact hlt ho
  · exact hlt h.finish

theorem Strand.pairwise (h : g.Strand w s vs e) {height : Nat → Nat}
    (ha : ∀ a ∈ g.arcs.toList, a.target ∈ vs → height a.source < height a.target) :
    (s :: vs).Pairwise fun u v => height u < height v := by
  have hchain : (s :: vs ++ [e]).IsChain fun u v => v ∈ vs → height u < height v := by
    refine isChain_iff_consecutivePairs.mpr fun x hx => ?_
    obtain ⟨a, ham, rfl⟩ := List.mem_map.mp (h.segments.mem_iff.mpr hx)
    exact ha a (List.mem_filter.mp ham).1
  have hleft := isChain_iff_consecutivePairs.mp (List.isChain_append.mp hchain).1
  have htrans : IsTrans Nat fun u v => height u < height v := ⟨fun _ _ _ => Nat.lt_trans⟩
  refine (isChain_iff_consecutivePairs.mpr fun x hx => ?_).pairwise
  exact hleft x hx (List.of_mem_zip hx).2

end Digraph

namespace Dag

variable {d : Dag} {v : Nat} {op : Operation} {w : Wire} {order : List Nat}
  {ops ops' : List (Nat × Operation)}

def on (w : Wire) (ops : List (Nat × Operation)) : List (Nat × Operation) :=
  ops.filter (w ∈ ·.2.wires)

theorem mem_on {x : Nat × Operation} : x ∈ on w ops ↔ x ∈ ops ∧ w ∈ x.2.wires := by
  rw [on, List.mem_filter, decide_eq_true_eq]

theorem visits_cons (x : Nat × Operation) (ops : List (Nat × Operation)) (w : Wire) :
    visits (x :: ops) w = List.replicate (x.2.wires.count w) x.1 ++ visits ops w := rfl

theorem visits_eq_of_count_le (h : ∀ x ∈ ops, x.2.wires.count w ≤ 1) :
    visits ops w = (on w ops).map Prod.fst := by
  induction ops with
  | nil => rfl
  | cons x ops ih =>
    rw [visits_cons, ih fun y hy => h y (List.mem_cons_of_mem x hy), on, on, List.filter_cons]
    by_cases hw : w ∈ x.2.wires
    · have hone : x.2.wires.count w = 1 :=
        Nat.le_antisymm (h x List.mem_cons_self) (List.count_pos_iff.mpr hw)
      simp [hw, hone]
    · simp [hw, List.count_eq_zero.mpr hw]

theorem visits_eq (h : ∀ x ∈ ops, x.2.wires.Nodup) (w : Wire) :
    visits ops w = (on w ops).map Prod.fst :=
  visits_eq_of_count_le fun x hx => List.nodup_iff_count_le_one.mp (h x hx) w

theorem sublist_visits {x : Nat × Operation} (hx : x ∈ ops) (w : Wire) :
    (List.replicate (x.2.wires.count w) x.1).Sublist (visits ops w) := by
  obtain ⟨pre, post, rfl⟩ := List.append_of_mem hx
  rw [visits, List.flatMap_append, List.flatMap_cons]
  exact (List.sublist_append_left _ _).trans (List.sublist_append_right _ _)

theorem Sound.exists_strand_of_mem (h : d.Sound) {a : Arc Wire} (ha : a ∈ d.graph.arcs.toList) :
    ∃ s e, d.graph.Strand a.label s (visits d.operations a.label) e ∧
      a.ends ∈ (s :: visits d.operations a.label ++ [e]).consecutivePairs := by
  obtain ⟨s, e, hs⟩ := h.threaded.exists_strand (h.threaded.labels a ha)
  refine ⟨s, e, hs, hs.segments.mem_iff.mp (List.mem_map.mpr ⟨a, ?_, rfl⟩)⟩
  exact List.mem_filter.mpr ⟨ha, decide_eq_true rfl⟩

theorem Sound.source_cases (h : d.Sound) {a : Arc Wire} (ha : a ∈ d.graph.arcs.toList) :
    d.node? a.source = some (.input a.label) ∨
      ∃ op, (a.source, op) ∈ on a.label d.operations := by
  obtain ⟨s, e, hs, hm⟩ := h.exists_strand_of_mem ha
  have hsource : a.source ∈ s :: visits d.operations a.label := fst_mem_of_mem_consecutivePairs hm
  rcases List.mem_cons.mp hsource with he | hv
  · exact .inl (he ▸ hs.start)
  · obtain ⟨op, ho, hw⟩ := mem_visits.mp hv
    exact .inr ⟨op, mem_on.mpr ⟨mem_operations_iff.mpr ho, hw⟩⟩

/-- A segment leads to the end of its wire or to an operation on it. -/
theorem Sound.target_cases (h : d.Sound) {a : Arc Wire} (ha : a ∈ d.graph.arcs.toList) :
    d.node? a.target = some (.output a.label) ∨
      ∃ op, (a.target, op) ∈ on a.label d.operations := by
  obtain ⟨s, e, hs, hm⟩ := h.exists_strand_of_mem ha
  have htarget : a.target ∈ visits d.operations a.label ++ [e] := (List.of_mem_zip hm).2
  rcases List.mem_append.mp htarget with hv | he
  · obtain ⟨op, ho, hw⟩ := mem_visits.mp hv
    exact .inr ⟨op, mem_on.mpr ⟨mem_operations_iff.mpr ho, hw⟩⟩
  · exact .inl (List.mem_singleton.mp he ▸ hs.finish)

theorem Sound.target_ne_input (h : d.Sound) {a : Arc Wire} (ha : a ∈ d.graph.arcs.toList) :
    d.node? a.target ≠ some (.input w) := by
  intro hi
  rcases h.target_cases ha with ht | ⟨op, ho⟩
  · cases hi.symm.trans ht
  · cases hi.symm.trans (mem_operations_iff.mp (mem_on.mp ho).1)

theorem Sound.source_lt (h : d.Sound) {a : Arc Wire} (ha : a ∈ d.graph.arcs.toList) :
    a.source < d.graph.size := by
  obtain ⟨s, e, hs, hm⟩ := h.exists_strand_of_mem ha
  exact hs.lt_size (List.of_mem_zip hm).1

theorem Sound.target_lt (h : d.Sound) {a : Arc Wire} (ha : a ∈ d.graph.arcs.toList) :
    a.target < d.graph.size := by
  obtain ⟨s, e, hs, hm⟩ := h.exists_strand_of_mem ha
  exact hs.lt_size (List.mem_of_mem_tail (List.of_mem_zip hm).2)

/-- The starts of wires lie below the operations and these below the ends. -/
def height (d : Dag) (v : Nat) : Nat :=
  match d.node? v with
  | some (.input _) => 0
  | some (.op _) => v + 1
  | _ => d.nodeCount + 1

theorem height_of_op (h : d.node? v = some (.op op)) : d.height v = v + 1 := by
  rw [height, h]

/-- A wire that no operation names twice leads uphill. -/
theorem pairwise_height {s e : Nat} (hn : ∀ x ∈ d.operations, x.2.wires.count w ≤ 1)
    (hs : d.graph.Strand w s (visits d.operations w) e) :
    (s :: visits d.operations w ++ [e]).Pairwise fun u v => d.height u < d.height v := by
  have hstart : d.height s = 0 := by rw [height, node?, hs.start]
  have hfinish : d.height e = d.nodeCount + 1 := by rw [height, node?, hs.finish]
  have hinner : ∀ v ∈ visits d.operations w, d.height v = v + 1 ∧ v < d.nodeCount := by
    intro v hv
    obtain ⟨op, ho⟩ := hs.inner v hv
    exact ⟨height_of_op ho, (Array.getElem?_eq_some_iff.mp ho).1⟩
  rw [List.cons_append, List.pairwise_cons, List.pairwise_append]
  refine ⟨fun v hv => ?_, ?_, List.pairwise_singleton _ _, fun u hu v hv => ?_⟩
  · rcases List.mem_append.mp hv with hv | hv
    · have := hinner v hv
      omega
    · obtain rfl := List.mem_singleton.mp hv
      omega
  · have hsorted : (visits d.operations w).Pairwise (· < ·) := by
      rw [visits_eq_of_count_le hn, List.pairwise_map]
      exact (operations_pairwise d).filter _
    refine hsorted.imp_of_mem fun hu hv huv => ?_
    have hu := hinner _ hu
    have hv := hinner _ hv
    omega
  · obtain rfl := List.mem_singleton.mp hv
    have := hinner u hu
    omega

theorem Sound.climbs (h : d.Sound) (hn : ∀ x ∈ d.operations, x.2.wires.Nodup) :
    d.graph.Climbs d.height := by
  constructor
  case source_lt => exact fun a => h.source_lt
  case target_lt => exact fun a => h.target_lt
  case height_lt =>
    intro a ha
    obtain ⟨s, e, hs, hm⟩ := h.exists_strand_of_mem ha
    have hcount := fun x hx => List.nodup_iff_count_le_one.mp (hn x hx) a.label
    exact isChain_iff_consecutivePairs.mp (pairwise_height hcount hs).isChain _ hm

/-- Every node stands in an order once, after those its segments come from. -/
structure Topological (d : Dag) (order : List Nat) : Prop where
  perm : order.Perm (List.range d.nodeCount)
  idxOf_lt : ∀ a ∈ d.graph.arcs.toList, order.idxOf a.source < order.idxOf a.target

theorem order_eq_ok_iff : d.order = .ok order ↔ d.graph.topologicalOrder? = some order := by
  rw [Dag.order]
  cases d.graph.topologicalOrder? with
  | none => simp
  | some order' => simp

theorem order_eq_ok : d.order = .ok order ↔ order = d.graph.leavingOrder ∧
    ∀ a ∈ d.graph.arcs.toList, order.idxOf a.source < order.idxOf a.target :=
  order_eq_ok_iff.trans Digraph.topologicalOrder?_eq_some

theorem Sound.topological (h : d.Sound) (ho : d.order = .ok order) : d.Topological order := by
  obtain ⟨rfl, ha⟩ := order_eq_ok.mp ho
  exact ⟨Digraph.leavingOrder_perm fun a => h.target_lt, ha⟩

/-- The order of a circuit is the one that a search with a stack finds. -/
theorem Sound.order_eq_ok_iff_sorts (h : d.Sound) : d.order = .ok order ↔ d.graph.Sorts order :=
  order_eq_ok_iff.trans (Digraph.topologicalOrder?_eq_some_iff_sorts fun _ => h.target_lt)

theorem Topological.pairwise_visits (h : d.Sound) (ht : d.Topological order) (w : Wire) :
    (visits d.operations w).Pairwise fun u v => order.idxOf u < order.idxOf v := by
  by_cases hw : w ∈ d.wires
  · obtain ⟨s, e, hs⟩ := h.threaded.exists_strand hw
    exact (hs.pairwise fun a ha _ => ht.idxOf_lt a ha).sublist (List.sublist_cons_self _ _)
  · rw [h.threaded.idle w hw]
    exact .nil

theorem Topological.nodup_wires (h : d.Sound) (ht : d.Topological order) {x : Nat × Operation}
    (hx : x ∈ d.operations) : x.2.wires.Nodup := by
  refine List.nodup_iff_count_le_one.mpr fun w => ?_
  have hn := (ht.pairwise_visits h w).imp fun {u v} (huv : order.idxOf u < order.idxOf v) =>
    ne_of_apply_ne order.idxOf huv.ne
  exact List.nodup_replicate.mp (List.Nodup.sublist (sublist_visits hx w) hn)

theorem Sound.exists_order_iff (h : d.Sound) :
    (∃ order, d.order = .ok order) ↔ ∀ x ∈ d.operations, x.2.wires.Nodup := by
  constructor
  · rintro ⟨order, ho⟩ x hx
    exact (h.topological ho).nodup_wires h hx
  · intro hn
    refine ⟨d.graph.leavingOrder, ?_⟩
    rw [Dag.order, (h.climbs hn).topologicalOrder?_eq]

/-- Two rows are the same up to the order of operations that share no wire. -/
structure Rearranges (ops ops' : List (Nat × Operation)) : Prop where
  perm : ops.Perm ops'
  on_eq : ∀ w, on w ops = on w ops'

theorem Rearranges.symm (h : Rearranges ops ops') : Rearranges ops' ops :=
  ⟨h.perm.symm, fun w => (h.on_eq w).symm⟩

theorem pairwise_idxOf {α : Type} [BEq α] [LawfulBEq α] {l : List α} (h : l.Nodup) :
    l.Pairwise fun a b => l.idxOf a < l.idxOf b := by
  refine List.pairwise_iff_getElem.mpr fun i j hi hj hij => ?_
  rwa [h.idxOf_getElem, h.idxOf_getElem]

theorem Topological.pairwise_numbered? (ht : d.Topological order) :
    (order.filterMap d.numbered?).Pairwise fun x y => order.idxOf x.1 < order.idxOf y.1 := by
  have hnodup := ht.perm.nodup_iff.mpr List.nodup_range
  refine (pairwise_idxOf hnodup).filterMap _ fun u v huv x hx y hy => ?_
  obtain ⟨rfl, -⟩ := numbered?_eq_some_iff.mp (show d.numbered? u = some (x.1, x.2) from hx)
  obtain ⟨rfl, -⟩ := numbered?_eq_some_iff.mp (show d.numbered? v = some (y.1, y.2) from hy)
  exact huv

/-- An order lists the operations, those on every wire as they were appended. -/
theorem Topological.rearranges (h : d.Sound) (ht : d.Topological order) :
    Rearranges (order.filterMap d.numbered?) d.operations := by
  have hperm : (order.filterMap d.numbered?).Perm d.operations := ht.perm.filterMap _
  refine ⟨hperm, fun w => ?_⟩
  have hold : (on w d.operations).Pairwise fun x y => order.idxOf x.1 < order.idxOf y.1 := by
    have hp := ht.pairwise_visits h w
    rwa [visits_eq fun x hx => ht.nodup_wires h hx, List.pairwise_map] at hp
  refine (hperm.filter _).eq_of_pairwise (fun x y _ _ hxy hyx => ?_)
    (ht.pairwise_numbered?.filter _) hold
  exact absurd hxy hyx.asymm

end Dag

end CircuitForms
