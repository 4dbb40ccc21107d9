import CircuitForms.Proofs.Dag.History
import CircuitForms.Proofs.Dag.Ordered
import CircuitForms.Proofs.Stacking

/-! # Depth

The level of an operation is the greatest length of a chain of operations that ends at
it, each appended after the one before and on a common wire with it. The depth of a
circuit is the greatest length of all chains. It can also be told without the graph, from
the operations stacked over their wires in the order of their appending.
-/

namespace CircuitForms

theorem Digraph.mem_incoming {α β : Type} {g : Digraph α β} {a : Arc β} {v : Nat} :
    a ∈ g.incoming v ↔ a ∈ g.arcs.toList ∧ a.target = v := by
  rw [incoming, List.mem_filter, beq_iff_eq]

namespace Dag

open CircuitForms.Digraph

variable {d : Dag} {order : List Nat} {v : Nat} {op : Operation} {w : Wire}
  {ops ops' c : List (Nat × Operation)}

def Shares (x y : Nat × Operation) : Prop :=
  ∃ w ∈ x.2.wires, w ∈ y.2.wires

/-- A row of operations in which each shares a wire with the next. -/
structure Chain (ops c : List (Nat × Operation)) : Prop where
  sublist : c.Sublist ops
  linked : c.IsChain Shares

theorem pairwise_of_on {R : Nat × Operation → Nat × Operation → Prop}
    (h : ∀ w, (on w ops).Pairwise R) : ops.Pairwise fun x y => Shares x y → R x y := by
  refine List.pairwise_iff_forall_sublist.mpr fun {x y} hxy ⟨w, hx, hy⟩ => ?_
  refine List.pairwise_iff_forall_sublist.mp (h w) ?_
  have hon : on w [x, y] = [x, y] := by simp [on, hx, hy]
  rw [← hon]
  exact hxy.filter _

/-- Of two neighbours in a chain, the first stands before the second on a wire. -/
theorem Chain.isChain {R : Nat × Operation → Nat × Operation → Prop} (hc : Chain ops c)
    (h : ∀ w, (on w ops).Pairwise R) : c.IsChain R := by
  have hpair := ((pairwise_of_on h).sublist hc.sublist).isChain
  rw [isChain_iff_consecutivePairs] at hpair ⊢
  exact fun x hx => hpair x hx (isChain_iff_consecutivePairs.mp hc.linked x hx)

theorem Chain.rearrange (hr : Rearranges ops ops') (hn : ops.Nodup) (hc : Chain ops c) :
    Chain ops' c := by
  have hn' : ops'.Nodup := hr.perm.nodup_iff.mp hn
  have htrans : IsTrans (Nat × Operation) fun x y => ops'.idxOf x < ops'.idxOf y :=
    ⟨fun _ _ _ => Nat.lt_trans⟩
  have hsorted : c.Pairwise fun x y => ops'.idxOf x < ops'.idxOf y := by
    refine (hc.isChain fun w => ?_).pairwise
    rw [hr.on_eq w]
    exact (pairwise_idxOf hn').filter _
  have hsub : c ⊆ ops' := fun x hx => hr.perm.mem_iff.mp (hc.sublist.subset hx)
  exact ⟨sublist_of_pairwise_lt hsorted (pairwise_idxOf hn') hsub, hc.linked⟩

def chainLengths (ops : List (Nat × Operation)) : Set Nat :=
  {n | ∃ c, Chain ops c ∧ c.length = n}

theorem chainLengths_subset (hr : Rearranges ops ops') (hn : ops.Nodup) :
    chainLengths ops ⊆ chainLengths ops' := by
  rintro n ⟨c, hc, rfl⟩
  exact ⟨c, hc.rearrange hr hn, rfl⟩

theorem chainLengths_subset_of_map_eq (hmap : ops.map Prod.snd = ops'.map Prod.snd) :
    chainLengths ops ⊆ chainLengths ops' := by
  rintro n ⟨c, hc, rfl⟩
  have hsub := hc.sublist.map Prod.snd
  rw [hmap] at hsub
  obtain ⟨c', hc', he⟩ := List.sublist_map_iff.mp hsub
  have hlinked : (c.map Prod.snd).IsChain fun x y => ∃ w ∈ x.wires, w ∈ y.wires :=
    List.isChain_map Prod.snd |>.mpr hc.linked
  rw [he, List.isChain_map] at hlinked
  exact ⟨c', ⟨hc', hlinked⟩, by simpa using (congrArg List.length he).symm⟩

/-- A chain goes on with any later operation that shares a wire with its last. -/
theorem Chain.concat {x y : Nat × Operation} (hp : ops.Pairwise fun x y => x.1 < y.1)
    (hc : Chain ops (c ++ [x])) (hy : y ∈ ops) (hlt : x.1 < y.1) (hs : Shares x y) :
    Chain ops (c ++ [x] ++ [y]) := by
  have hold := hp.sublist hc.sublist
  have hbefore : ∀ z ∈ c ++ [x], z.1 < y.1 := by
    intro z hz
    rcases List.mem_append.mp hz with hz | hz
    · exact ((List.pairwise_append.mp hold).2.2 z hz x List.mem_cons_self).trans hlt
    · exact List.mem_singleton.mp hz ▸ hlt
  have hnew : (c ++ [x] ++ [y]).Pairwise fun x y => x.1 < y.1 := by
    refine List.pairwise_append.mpr ⟨hold, List.pairwise_singleton _ _, fun z hz u hu => ?_⟩
    exact List.mem_singleton.mp hu ▸ hbefore z hz
  have hsub : c ++ [x] ++ [y] ⊆ ops :=
    List.append_subset.mpr ⟨hc.sublist.subset, List.cons_subset.mpr ⟨hy, List.nil_subset _⟩⟩
  refine ⟨sublist_of_pairwise_lt hnew hp hsub, ?_⟩
  refine List.isChain_append.mpr ⟨hc.linked, .singleton _, fun z hz u hu => ?_⟩
  rw [List.getLast?_concat, Option.mem_some_iff] at hz
  rw [List.head?_cons, Option.mem_some_iff] at hu
  exact hz ▸ hu ▸ hs

theorem foldl_max_le_iff {l : List Nat} {a n : Nat} :
    l.foldl max a ≤ n ↔ a ≤ n ∧ ∀ m ∈ l, m ≤ n := by
  induction l generalizing a with
  | nil => simp
  | cons b l ih => simp [ih, and_assoc]

theorem le_foldl_max {l : List Nat} {m : Nat} (h : m ∈ l) (a : Nat) : m ≤ l.foldl max a :=
  (foldl_max_le_iff.mp le_rfl).2 m h

theorem foldl_max_eq_or_mem (l : List Nat) (a : Nat) : l.foldl max a = a ∨ l.foldl max a ∈ l := by
  induction l generalizing a with
  | nil => exact .inl rfl
  | cons b l ih =>
    rw [List.foldl_cons]
    rcases ih (max a b) with h | h
    · rw [h]
      rcases max_choice a b with h | h
      · exact .inl h
      · exact .inr (h.symm ▸ List.mem_cons_self)
    · exact .inr (List.mem_cons_of_mem b h)

def level (d : Dag) (order : List Nat) (v : Nat) : Nat :=
  (d.levels order).getD v 0

/-- Some levels after those of more nodes are worked out. -/
def raise (d : Dag) (l : List Nat) (levels : Array Nat) : Array Nat :=
  l.foldl (fun levels v => levels.setIfInBounds v (d.levelAt levels v)) levels

theorem levelAt_congr {levels levels' : Array Nat}
    (h : ∀ a ∈ d.graph.incoming v, levels.getD a.source 0 = levels'.getD a.source 0) :
    d.levelAt levels v = d.levelAt levels' v := by
  rw [levelAt, levelAt, List.map_congr_left h]

theorem getD_setIfInBounds (levels : Array Nat) (u v n : Nat) :
    (levels.setIfInBounds u n).getD v 0 =
      if u = v ∧ v < levels.size then n else levels.getD v 0 := by
  simp only [Array.getD_eq_getD_getElem?, Array.getElem?_setIfInBounds]
  split_ifs <;> simp_all

theorem getD_raise {l : List Nat} (hv : v ∉ l) (levels : Array Nat) :
    (d.raise l levels).getD v 0 = levels.getD v 0 := by
  induction l generalizing levels with
  | nil => rfl
  | cons u l ih =>
    rw [List.mem_cons, not_or] at hv
    rw [raise, List.foldl_cons, ← raise, ih hv.2, getD_setIfInBounds, if_neg fun h => hv.1 h.1.symm]

@[simp] theorem size_raise (l : List Nat) (levels : Array Nat) :
    (d.raise l levels).size = levels.size := by
  induction l generalizing levels with
  | nil => rfl
  | cons u l ih => rw [raise, List.foldl_cons, ← raise, ih, Array.size_setIfInBounds]

namespace Topological

variable (ht : d.Topological order)

include ht

theorem level_eq (hv : v < d.nodeCount) :
    d.level order v = d.levelAt (d.levels order) v := by
  have hmem : v ∈ order := ht.perm.mem_iff.mpr (List.mem_range.mpr hv)
  have hnodup := ht.perm.nodup_iff.mpr List.nodup_range
  obtain ⟨pre, post, rfl⟩ := List.append_of_mem hmem
  have hvpre : v ∉ pre := fun hv =>
    List.disjoint_of_nodup_append hnodup hv List.mem_cons_self
  have hvpost : v ∉ post := (List.nodup_cons.mp (List.Nodup.of_append_right hnodup)).1
  -- A level is raised when its node comes up, and its sources have come up before.
  let before := d.raise pre (Array.replicate d.nodeCount 0)
  have hlevels : d.levels (pre ++ v :: post) =
      d.raise post (before.setIfInBounds v (d.levelAt before v)) := by
    rw [levels, List.foldl_append]
    rfl
  have hsize : before.size = d.nodeCount := by simp [before]
  rw [level, hlevels, getD_raise hvpost, getD_setIfInBounds, if_pos ⟨rfl, hsize ▸ hv⟩]
  refine levelAt_congr fun a ha => ?_
  obtain ⟨harc, rfl⟩ := mem_incoming.mp ha
  have hlt := ht.idxOf_lt a harc
  have hsource : a.source ∈ pre := by
    by_contra hn
    rw [List.idxOf_append_of_notMem hvpre, List.idxOf_append_of_notMem hn,
      List.idxOf_cons_self] at hlt
    omega
  have hne : a.target ≠ a.source := fun he => hvpre (he ▸ hsource)
  have hpost : a.source ∉ post := fun hp =>
    List.disjoint_of_nodup_append hnodup hsource (List.mem_cons_of_mem _ hp)
  rw [getD_raise hpost, getD_setIfInBounds, if_neg fun h => hne h.1]

theorem level_le {a : Arc Wire} (ha : a ∈ d.graph.arcs.toList) (hlt : a.target < d.nodeCount) :
    d.level order a.source + (if (d.node? a.target).any Node.isOp then 1 else 0) ≤
      d.level order a.target := by
  have hmem : d.level order a.source ∈
      (d.graph.incoming a.target).map fun a => (d.levels order).getD a.source 0 :=
    List.mem_map.mpr ⟨a, mem_incoming.mpr ⟨ha, rfl⟩, rfl⟩
  have hle := le_foldl_max hmem 0
  rw [ht.level_eq hlt, levelAt]
  split_ifs <;> omega

theorem exists_level_eq (hv : v < d.nodeCount) : ∃ before,
    (before = 0 ∨ ∃ a ∈ d.graph.arcs.toList, a.target = v ∧ before = d.level order a.source) ∧
      d.level order v = before + if (d.node? v).any Node.isOp then 1 else 0 := by
  refine ⟨((d.graph.incoming v).map fun a => (d.levels order).getD a.source 0).foldl max 0, ?_, ?_⟩
  · rcases foldl_max_eq_or_mem
      ((d.graph.incoming v).map fun a => (d.levels order).getD a.source 0) 0 with h | h
    · exact .inl h
    · obtain ⟨a, ha, he⟩ := List.mem_map.mp h
      obtain ⟨harc, htarget⟩ := mem_incoming.mp ha
      exact .inr ⟨a, harc, htarget, he.symm⟩
  · rw [ht.level_eq hv, levelAt]
    split_ifs <;> rfl

end Topological

theorem Sound.step_cases (h : d.Sound) (hn : ∀ x ∈ d.operations, x.2.wires.Nodup) {a : Arc Wire}
    (ha : a ∈ d.graph.arcs.toList) (hv : (a.target, op) ∈ d.operations) :
    d.node? a.source = some (.input a.label) ∧ a.label ∈ op.wires ∨
      ∃ op', (a.source, op') ∈ d.operations ∧ a.source < a.target ∧
        Shares (a.source, op') (a.target, op) := by
  have hnode := mem_operations_iff.mp hv
  have hw : a.label ∈ op.wires := by
    rcases h.target_cases ha with he | ⟨op', ho⟩
    · cases hnode.symm.trans he
    · obtain ⟨ho, hw⟩ := mem_on.mp ho
      have he := hnode.symm.trans (mem_operations_iff.mp ho)
      exact Node.op.inj (Option.some.inj he) ▸ hw
  rcases h.source_cases ha with hs | ⟨op', ho⟩
  · exact .inl ⟨hs, hw⟩
  · obtain ⟨ho, hw'⟩ := mem_on.mp ho
    have hclimb := (h.climbs hn).height_lt a ha
    rw [height_of_op (mem_operations_iff.mp ho), height_of_op hnode] at hclimb
    exact .inr ⟨op', ho, Nat.lt_of_succ_lt_succ hclimb, a.label, hw', hw⟩

section Sound

variable (h : d.Sound) (ht : d.Topological order)

include h ht

theorem level_input (hv : d.node? v = some (.input w)) : d.level order v = 0 := by
  obtain ⟨n, hn, hlevel⟩ := ht.exists_level_eq (Array.getElem?_eq_some_iff.mp hv).1
  rcases hn with rfl | ⟨a, ha, rfl, -⟩
  · rw [hlevel, hv]
    rfl
  · exact absurd hv (h.target_ne_input ha)

theorem pairwise_level (w : Wire) :
    (on w d.operations).Pairwise fun x y => d.level order x.1 < d.level order y.1 := by
  by_cases hw : w ∈ d.wires
  · obtain ⟨s, e, hs⟩ := h.threaded.exists_strand hw
    have hrise : (s :: visits d.operations w).Pairwise fun u v =>
        d.level order u < d.level order v := by
      refine hs.pairwise fun a ha hv => ?_
      obtain ⟨op, ho⟩ := hs.inner _ hv
      have hle := ht.level_le ha (Array.getElem?_eq_some_iff.mp ho).1
      rw [node?, ho] at hle
      exact hle
    have hmap := (List.pairwise_cons.mp hrise).2
    rwa [visits_eq fun x hx => ht.nodup_wires h hx, List.pairwise_map] at hmap
  · have hnil := h.threaded.idle w hw
    rw [visits_eq fun x hx => ht.nodup_wires h hx, List.map_eq_nil_iff] at hnil
    rw [hnil]
    exact .nil

theorem exists_chain {x : Nat × Operation} (hx : x ∈ d.operations) :
    ∃ c, Chain d.operations (c ++ [x]) ∧ c.length + 1 = d.level order x.1 := by
  obtain ⟨v, op⟩ := x
  induction v using Nat.strong_induction_on generalizing op with
  | _ v ih =>
    have hv := mem_operations_iff.mp hx
    obtain ⟨n, hn, hlevel⟩ := ht.exists_level_eq (Array.getElem?_eq_some_iff.mp hv).1
    rw [hv] at hlevel
    rcases hn with rfl | ⟨a, ha, rfl, rfl⟩
    · exact ⟨[], ⟨List.singleton_sublist.mpr hx, .singleton _⟩, hlevel.symm⟩
    · rcases h.step_cases (fun x hx => ht.nodup_wires h hx) ha hx with
        ⟨hs, -⟩ | ⟨op', ho, hlt, hshare⟩
      · rw [level_input h ht hs] at hlevel
        exact ⟨[], ⟨List.singleton_sublist.mpr hx, .singleton _⟩, hlevel.symm⟩
      · obtain ⟨c, hc, hlen⟩ := ih _ hlt op' ho
        refine ⟨_, hc.concat (operations_pairwise d) hx hlt hshare, ?_⟩
        rw [List.length_append, List.length_singleton, hlen, hlevel]
        rfl

theorem level_eq_zero_or (hv : v < d.nodeCount) :
    d.level order v = 0 ∨ ∃ x ∈ d.operations, d.level order v = d.level order x.1 := by
  obtain ⟨n, hn, hlevel⟩ := ht.exists_level_eq hv
  by_cases hop : (d.node? v).any Node.isOp
  · obtain ⟨op, ho⟩ : ∃ op, d.node? v = some (.op op) := by
      obtain ⟨node, hnode, hisop⟩ := Option.any_eq_true _ _ |>.mp hop
      cases node with
      | op op => exact ⟨op, hnode⟩
      | input w | output w => cases hisop
    exact .inr ⟨(v, op), mem_operations_iff.mpr ho, rfl⟩
  · rw [if_neg hop, Nat.add_zero] at hlevel
    rcases hn with rfl | ⟨a, ha, -, rfl⟩
    · exact .inl hlevel
    · rcases h.source_cases ha with hs | ⟨op, ho⟩
      · exact .inl (hlevel.trans (level_input h ht hs))
      · exact .inr ⟨_, (mem_on.mp ho).1, hlevel⟩

theorem length_le_of_chain {k : Nat} (hk : ∀ v < d.nodeCount, d.level order v ≤ k)
    (hc : Chain d.operations c) : c.length ≤ k := by
  have htrans : IsTrans (Nat × Operation) fun x y => d.level order x.1 < d.level order y.1 :=
    ⟨fun _ _ _ => Nat.lt_trans⟩
  have hrise := (hc.isChain (pairwise_level h ht)).pairwise
  have hnodup : (c.map fun x => d.level order x.1).Nodup :=
    List.pairwise_map.mpr (hrise.imp fun h => h.ne)
  have hsub : (c.map fun x => d.level order x.1) ⊆ List.range' 1 k := by
    intro n hn
    obtain ⟨x, hx, rfl⟩ := List.mem_map.mp hn
    have hxops := hc.sublist.subset hx
    obtain ⟨c', -, hlen⟩ := exists_chain h ht hxops
    have hle := hk x.1 (Array.getElem?_eq_some_iff.mp (mem_operations_iff.mp hxops)).1
    rw [List.mem_range'_1]
    omega
  have hle := (hnodup.subperm hsub).length_le
  rwa [List.length_map, List.length_range'] at hle

end Sound

/-- In any topological order, the greatest level is the greatest length of a chain of operations. -/
theorem Sound.isGreatest_levels (h : d.Sound) (ht : d.Topological order) :
    IsGreatest (chainLengths d.operations) ((d.levels order).toList.foldl max 0) := by
  have hsize : (d.levels order).size = d.nodeCount :=
    (size_raise order _).trans Array.size_replicate
  have hmem : ∀ n, n ∈ (d.levels order).toList ↔ ∃ v < d.nodeCount, d.level order v = n := by
    intro n
    rw [List.mem_iff_getElem?]
    refine exists_congr fun v => ?_
    rw [Array.getElem?_toList, level, Array.getD_eq_getD_getElem?, ← hsize,
      Array.getElem?_eq_some_iff]
    constructor
    · rintro ⟨hv, rfl⟩
      exact ⟨hv, by rw [Array.getElem?_eq_getElem hv]; rfl⟩
    · rintro ⟨hv, rfl⟩
      exact ⟨hv, by rw [Array.getElem?_eq_getElem hv]; rfl⟩
  constructor
  · rcases foldl_max_eq_or_mem (d.levels order).toList 0 with hz | hm
    · exact ⟨[], ⟨List.nil_sublist _, .nil⟩, hz.symm⟩
    · obtain ⟨v, hv, hlevel⟩ := (hmem _).mp hm
      rcases level_eq_zero_or h ht hv with hz | ⟨x, hx, hx'⟩
      · exact ⟨[], ⟨List.nil_sublist _, .nil⟩, by rw [← hlevel, hz, List.length_nil]⟩
      · obtain ⟨c, hc, hlen⟩ := exists_chain h ht hx
        exact ⟨_, hc, by rw [← hlevel, hx', ← hlen, List.length_append, List.length_singleton]⟩
  · rintro n ⟨c, hc, rfl⟩
    refine length_le_of_chain h ht (fun v hv => ?_) hc
    exact le_foldl_max ((hmem _).mpr ⟨v, hv, rfl⟩) 0

theorem Sound.isGreatest_depth (h : d.Sound) {k : Nat} (hk : d.depth = .ok k) :
    IsGreatest (chainLengths d.operations) k := by
  obtain ⟨order, ho, rfl⟩ := map_eq_ok.mp hk
  exact h.isGreatest_levels (h.topological ho)

theorem Sound.depth_eq {d' : Dag} (h : d.Sound) (h' : d'.Sound) {k k' : Nat}
    (hr : Rearranges ops d.operations) (hmap : ops.map Prod.snd = d'.operations.map Prod.snd)
    (hk : d.depth = .ok k) (hk' : d'.depth = .ok k') : k = k' := by
  have hnodup : d.operations.Nodup :=
    (operations_pairwise d).imp fun hlt he => hlt.ne (congrArg Prod.fst he)
  have hlengths : chainLengths d.operations = chainLengths d'.operations := by
    apply Set.Subset.antisymm
    · exact (chainLengths_subset hr.symm hnodup).trans (chainLengths_subset_of_map_eq hmap)
    · exact (chainLengths_subset_of_map_eq hmap.symm).trans
        (chainLengths_subset hr (hr.perm.nodup_iff.mpr hnodup))
  exact (h.isGreatest_depth hk).unique (hlengths ▸ h'.isGreatest_depth hk')

theorem chainLengths_eq (ops : List (Nat × Operation)) :
    chainLengths ops = {n | ∃ c, Stack.Tower (·.2.wires) ops c ∧ c.length = n} := by
  ext n
  exact exists_congr fun c => and_congr_left fun _ =>
    ⟨fun hc => ⟨hc.sublist, hc.linked⟩, fun hc => ⟨hc.sublist, hc.linked⟩⟩

/-- How the depth of a circuit comes from its operations in the order of their appending. -/
structure DepthIs (h : History) (k : Nat) : Prop where
  /-- It is the greatest length of a chain of operations. -/
  chain : IsGreatest (chainLengths h.applied) k
  /-- It is the greatest level of the operations, each put one over the greatest level so far on any
  of its wires. -/
  level : (Stack.levels (fun x : Nat × Operation => x.2.wires) h.applied).foldl max 0 = k
  /-- It is worked out in any topological order of the nodes. -/
  order : ∀ order, h.dag.Topological order → (h.dag.levels order).toList.foldl max 0 = k

/-- Whatever calls a circuit is built by, if it has a depth then this is the greatest length of a
chain of its operations. -/
theorem depthIs_of {calls : List Call} {k : Nat} (hk : (History.of calls).dag.depth = .ok k) :
    DepthIs (History.of calls) k := by
  obtain ⟨hd, hops⟩ := History.sound_of calls
  have hchain := hd.isGreatest_depth hk
  constructor
  case chain => rwa [← hops]
  case level =>
    rw [← hops]
    rw [chainLengths_eq] at hchain
    exact (Stack.isGreatest_levels _).unique hchain
  case order => exact fun order ht => (hd.isGreatest_levels ht).unique hchain

def converging : List Call :=
  [.addQreg ⟨"q", 3⟩, .addCreg ⟨"m", 1⟩, .declare ⟨"h", 1, 0, 0⟩, .declare ⟨"measure", 1, 1, 0⟩,
    .append ⟨"h", [⟨"q", 0⟩], [], [], none⟩, .append (.measurement [⟨"q", 0⟩] [⟨"m", 0⟩]),
    .append (.measurement [⟨"q", 1⟩] [⟨"m", 0⟩]), .append ⟨"h", [⟨"q", 2⟩], [], [], none⟩]

theorem depthIs_converging :
    (History.of converging).dag.depth = .ok 3 ∧ DepthIs (History.of converging) 3 := by
  have hk : (History.of converging).dag.depth = .ok 3 := by
    decide +kernel
  exact ⟨hk, depthIs_of hk⟩

end Dag

end CircuitForms
