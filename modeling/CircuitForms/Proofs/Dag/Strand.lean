import CircuitForms.Dag.Basic
import CircuitForms.Proofs.Digraph.Walk

/-! # Strands

The segments of a wire form a strand: they are exactly the steps from the start
of the wire through the operations on it to its end. Strands survive every
change a circuit undergoes: new wires, new operation nodes, and the detour of the
last segment of one wire through a node.
-/

namespace CircuitForms

open List in
theorem swapRemove_perm {α : Type} {as : Array α} {k : Nat} (hk : k < as.size) :
    as.toList.Perm (as[k] :: (swapRemove as k).toList) := by
  obtain ⟨l, last, hl⟩ : ∃ l last, as.toList = l ++ [last] := by
    have hne : as.toList ≠ [] := by
      intro h
      have : as.size = 0 := by simpa using congrArg length h
      omega
    exact ⟨_, _, (dropLast_append_getLast hne).symm⟩
  obtain rfl : as = (l ++ [last]).toArray := by rw [← hl]
  have hback : (l ++ [last]).toArray.back? = some last := by simp
  simp only [size_toArray, length_append, length_singleton] at hk
  simp only [swapRemove, hback, Array.toList_pop, Array.toList_setIfInBounds, getElem_toArray]
  -- The last place is the one removed, or moves into the gap.
  rcases Nat.lt_or_ge k l.length with h | h
  · rw [set_append_left _ _ h, dropLast_concat, getElem_append_left h,
      set_eq_take_append_cons_drop, if_pos h]
    have hs : l = l.take k ++ l[k] :: l.drop (k + 1) := by simp
    calc l ++ [last]
      _ = l.take k ++ l[k] :: (l.drop (k + 1) ++ [last]) := by
        conv_lhs => rw [hs]
        rw [append_assoc, cons_append]
      _ ~ l[k] :: (l.take k ++ (l.drop (k + 1) ++ [last])) := perm_middle
      _ ~ l[k] :: (l.take k ++ last :: l.drop (k + 1)) :=
        ((perm_append_singleton _ _).append_left _).cons _
  · obtain rfl : k = l.length := by omega
    simp

theorem consecutivePairs_concat {α : Type} (l : List α) (a b : α) :
    (l ++ [a] ++ [b]).consecutivePairs = (l ++ [a]).consecutivePairs ++ [(a, b)] := by
  induction l with
  | nil => rfl
  | cons c l ih =>
    cases l with
    | nil => rfl
    | cons d l => simpa [List.consecutivePairs] using ih

theorem isChain_iff_consecutivePairs {α : Type} {R : α → α → Prop} {l : List α} :
    l.IsChain R ↔ ∀ x ∈ l.consecutivePairs, R x.1 x.2 := by
  induction l with
  | nil => simp
  | cons a l ih =>
    cases l with
    | nil => simp [List.consecutivePairs]
    | cons b l => simp [List.isChain_cons_cons, ih, List.consecutivePairs]

theorem map_fst_consecutivePairs {α : Type} (l : List α) (b : α) :
    (l ++ [b]).consecutivePairs.map Prod.fst = l := by
  induction l with
  | nil => rfl
  | cons a l ih =>
    cases l with
    | nil => rfl
    | cons c l => exact congrArg (a :: ·) ih

theorem map_snd_consecutivePairs {α : Type} (a : α) (l : List α) :
    (a :: l).consecutivePairs.map Prod.snd = l :=
  List.map_snd_zip (Nat.le_succ _)

theorem fst_mem_of_mem_consecutivePairs {α : Type} {l : List α} {b : α} {x : α × α}
    (h : x ∈ (l ++ [b]).consecutivePairs) : x.1 ∈ l :=
  map_fst_consecutivePairs l b ▸ List.mem_map_of_mem h

namespace Digraph

variable {g : Digraph Node Wire} {w : Wire} {s e v : Nat} {vs : List Nat}

def segments (g : Digraph Node Wire) (w : Wire) : List (Nat × Nat) :=
  (g.arcs.toList.filter (·.label = w)).map Arc.ends

/-- A wire leads from its start through the operations at some nodes to its end. -/
structure Strand (g : Digraph Node Wire) (w : Wire) (s : Nat) (vs : List Nat) (e : Nat) : Prop where
  start : g.nodes[s]? = some (.input w)
  finish : g.nodes[e]? = some (.output w)
  inner : ∀ v ∈ vs, ∃ op, g.nodes[v]? = some (.op op)
  segments : (g.segments w).Perm (s :: vs ++ [e]).consecutivePairs

@[simp] theorem segments_addNode (a : Node) : (g.addNode a).segments w = g.segments w := rfl

theorem segments_addArc (x y : Nat) (l : Wire) :
    (g.addArc x y l).segments w = g.segments w ++ if l = w then [(x, y)] else [] := by
  by_cases h : l = w <;> simp [segments, addArc, h, Arc.ends]

@[simp] theorem nodes_removeArc (g : Digraph Node Wire) (a : Arc Wire) :
    (g.removeArc a).nodes = g.nodes := by
  unfold removeArc
  split <;> rfl

theorem removeArc_perm {a : Arc Wire} (ha : a ∈ g.arcs) :
    g.arcs.toList.Perm (a :: (g.removeArc a).arcs.toList) := by
  unfold removeArc
  split
  case h_1 slot hslot =>
    obtain ⟨hlt, he, -⟩ := Array.findIdx?_eq_some_iff_getElem.mp hslot
    obtain rfl : g.arcs[slot] = a := by simpa using he
    exact swapRemove_perm hlt
  case h_2 hnone =>
    simpa using Array.findIdx?_eq_none_iff.mp hnone a ha

theorem segments_removeArc {a : Arc Wire} (ha : a ∈ g.arcs) : (g.segments w).Perm
    ((if a.label = w then [a.ends] else []) ++ (g.removeArc a).segments w) := by
  have hp := ((removeArc_perm ha).filter (·.label = w)).map Arc.ends
  by_cases h : a.label = w <;> simpa [segments, h] using hp

theorem nodes_push_of_eq_some {a b : Node} (h : g.nodes[v]? = some b) :
    (g.nodes.push a)[v]? = some b := by
  obtain ⟨hv, rfl⟩ := Array.getElem?_eq_some_iff.mp h
  rw [Array.getElem?_push_lt hv]

theorem Strand.addNode (h : g.Strand w s vs e) (a : Node) : (g.addNode a).Strand w s vs e where
  start := nodes_push_of_eq_some h.start
  finish := nodes_push_of_eq_some h.finish
  inner v hv := (h.inner v hv).imp fun _ => nodes_push_of_eq_some
  segments := h.segments

theorem Strand.addArc (h : g.Strand w s vs e) {x y : Nat} {l : Wire} (hl : l ≠ w) :
    (g.addArc x y l).Strand w s vs e :=
  { h with segments := by simpa [segments_addArc, hl] using h.segments }

theorem Strand.removeArc (h : g.Strand w s vs e) {a : Arc Wire} (ha : a ∈ g.arcs)
    (hl : a.label ≠ w) : (g.removeArc a).Strand w s vs e := by
  have hp := segments_removeArc (w := w) ha
  rw [if_neg hl, List.nil_append] at hp
  constructor
  case start => simpa using h.start
  case finish => simpa using h.finish
  case inner => simpa using h.inner
  case segments => exact hp.symm.trans h.segments

theorem Strand.finish_notMem (h : g.Strand w s vs e) : e ∉ s :: vs := by
  intro he
  rcases List.mem_cons.mp he with rfl | he
  · simpa [h.start] using h.finish
  · obtain ⟨op, ho⟩ := h.inner e he
    simpa [ho] using h.finish

theorem Strand.last_mem (h : g.Strand w s vs e) {front : Nat}
    (hf : (s :: vs).getLast? = some front) : (front, e) ∈ g.segments w := by
  obtain ⟨l, hl⟩ := List.getLast?_eq_some_iff.mp hf
  rw [h.segments.mem_iff, hl, consecutivePairs_concat]
  simp

/-- The last segment of a strand gives way to one into a node and one out of it. -/
theorem Strand.detour (h : g.Strand w s vs e) {a : Arc Wire} (ha : a ∈ g.arcs) (hl : a.label = w)
    (hf : (s :: vs).getLast? = some a.source) (ht : a.target = e) {op : Operation}
    (hv : g.nodes[v]? = some (.op op)) :
    (((g.removeArc a).addArc a.source v w).addArc v e w).Strand w s (vs ++ [v]) e where
  start := by simpa [Digraph.addArc] using h.start
  finish := by simpa [Digraph.addArc] using h.finish
  inner x hx := by
    rcases List.mem_append.mp hx with hx | hx
    · simpa [Digraph.addArc] using h.inner x hx
    · obtain rfl : x = v := by simpa using hx
      exact ⟨op, by simpa [Digraph.addArc] using hv⟩
  segments := by
    obtain ⟨l, hlx⟩ := List.getLast?_eq_some_iff.mp hf
    have hrest : ((g.removeArc a).segments w).Perm (l ++ [a.source]).consecutivePairs := by
      have hp := (segments_removeArc ha).symm.trans h.segments
      rw [if_pos hl, hlx, consecutivePairs_concat, Arc.ends, ht, List.singleton_append] at hp
      exact (hp.trans (List.perm_append_singleton _ _)).cons_inv
    have hgoal : (s :: (vs ++ [v]) ++ [e]).consecutivePairs =
        (l ++ [a.source]).consecutivePairs ++ [(a.source, v)] ++ [(v, e)] := by
      rw [← List.cons_append, hlx, consecutivePairs_concat, consecutivePairs_concat]
    rw [segments_addArc, segments_addArc, if_pos rfl, if_pos rfl, hgoal]
    exact (hrest.append_right _).append_right _

end Digraph

namespace Dag

variable {d : Dag} {ws : List Wire} {trail : Wire → List Nat} {w : Wire} {v : Nat}

/-- The tables have the start of a wire, its end, and the last node met before the end. -/
structure Records (d : Dag) (w : Wire) (s : Nat) (vs : List Nat) (e : Nat) : Prop where
  input : d.inputs.get? w = some s
  output : d.outputs.get? w = some e
  front : d.fronts.get? w = (s :: vs).getLast?

/-- The wires of a circuit are those listed, the operations on each are those at the nodes of its
trail, and the tables agree. -/
structure Threaded (d : Dag) (ws : List Wire) (trail : Wire → List Nat) : Prop where
  nodup : ws.Nodup
  inputs : ∀ w, d.graph.nodes.toList.count (.input w) = ws.count w
  outputs : ∀ w, d.graph.nodes.toList.count (.output w) = ws.count w
  labels : ∀ a ∈ d.graph.arcs.toList, a.label ∈ ws
  idle : ∀ w, w ∉ ws → trail w = []
  inputs_keys : d.inputs.keys.Perm ws
  outputs_keys : d.outputs.keys.Perm ws
  fronts_keys : d.fronts.keys.Perm ws
  wire : ∀ w ∈ ws, ∃ s e, d.graph.Strand w s (trail w) e ∧ d.Records w s (trail w) e

structure SameWiring (d d' : Dag) : Prop where
  graph : d'.graph = d.graph
  inputs : d'.inputs = d.inputs
  outputs : d'.outputs = d.outputs
  fronts : d'.fronts = d.fronts

theorem eq_of_count_eq_one {α : Type} [DecidableEq α] {a : α} {l : List α} {i j : Nat}
    (hc : l.count a = 1) (hi : l[i]? = some a) (hj : l[j]? = some a) : i = j := by
  induction l generalizing i j with
  | nil => simp at hi
  | cons b l ih =>
    have hpos : ∀ k : Nat, l[k]? = some a → 0 < l.count a :=
      fun k hk => List.count_pos_iff.mpr (List.mem_of_getElem? hk)
    rw [List.count_cons] at hc
    cases i with
    | zero =>
      cases j with
      | zero => rfl
      | succ j =>
        have hb : b = a := by simpa using hi
        have := hpos j (by simpa using hj)
        simp only [hb, beq_self_eq_true, if_true] at hc
        omega
    | succ i =>
      have hi' := hpos i (by simpa using hi)
      cases j with
      | zero =>
        have hb : b = a := by simpa using hj
        simp only [hb, beq_self_eq_true, if_true] at hc
        omega
      | succ j =>
        have hc' : l.count a = 1 := by omega
        exact congrArg _ (ih hc' (by simpa using hi) (by simpa using hj))

namespace Threaded

theorem empty : Threaded {} [] fun _ => [] where
  nodup := List.nodup_nil
  inputs w := by simp
  outputs w := by simp
  labels a ha := by simp at ha
  idle w _ := rfl
  inputs_keys := .nil
  outputs_keys := .nil
  fronts_keys := .nil
  wire w hw := by simp at hw

variable (h : d.Threaded ws trail)

include h

theorem exists_strand (hw : w ∈ ws) : ∃ s e, d.graph.Strand w s (trail w) e := by
  obtain ⟨s, e, hs, -⟩ := h.wire w hw
  exact ⟨s, e, hs⟩

theorem of_sameWiring {d' : Dag} (hd : d.SameWiring d') : d'.Threaded ws trail where
  nodup := h.nodup
  inputs := hd.graph ▸ h.inputs
  outputs := hd.graph ▸ h.outputs
  labels := hd.graph ▸ h.labels
  idle := h.idle
  inputs_keys := hd.inputs ▸ h.inputs_keys
  outputs_keys := hd.outputs ▸ h.outputs_keys
  fronts_keys := hd.fronts ▸ h.fronts_keys
  wire w hw := by
    obtain ⟨s, e, hs, hr⟩ := h.wire w hw
    exact ⟨s, e, hd.graph ▸ hs, hd.inputs ▸ hr.input, hd.outputs ▸ hr.output,
      hd.fronts ▸ hr.front⟩

theorem perm {ws' : List Wire} (hp : ws.Perm ws') : d.Threaded ws' trail where
  nodup := hp.nodup_iff.mp h.nodup
  inputs w := (h.inputs w).trans (hp.count_eq w)
  outputs w := (h.outputs w).trans (hp.count_eq w)
  labels a ha := hp.mem_iff.mp (h.labels a ha)
  idle w hw := h.idle w fun hm => hw (hp.mem_iff.mp hm)
  inputs_keys := h.inputs_keys.trans hp
  outputs_keys := h.outputs_keys.trans hp
  fronts_keys := h.fronts_keys.trans hp
  wire w hw := h.wire w (hp.mem_iff.mpr hw)

theorem segments_eq_nil (hw : w ∉ ws) : d.graph.segments w = [] := by
  have hf : d.graph.arcs.toList.filter (·.label = w) = [] := by
    refine List.filter_eq_nil_iff.mpr fun a ha hl => hw ?_
    have hm := h.labels a ha
    rwa [of_decide_eq_true hl] at hm
  rw [Digraph.segments, hf, List.map_nil]

/-- A new wire has its two ends and one segment between them. -/
theorem addWire (hw : w ∉ ws) : (d.addWire w).Threaded (ws ++ [w]) trail where
  nodup := h.nodup.append (List.nodup_singleton w) (List.disjoint_singleton.mpr hw)
  inputs x := by
    simpa [Dag.addWire, Digraph.addNode, Digraph.addArc, List.count_cons, List.count_append] using
      h.inputs x
  outputs x := by
    simpa [Dag.addWire, Digraph.addNode, Digraph.addArc, List.count_cons, List.count_append] using
      h.outputs x
  labels a ha := by
    simp only [Dag.addWire, Digraph.addArc, Digraph.addNode, Array.toList_push, List.mem_append,
      List.mem_singleton] at ha
    rcases ha with ha | rfl
    · exact List.mem_append_left _ (h.labels a ha)
    · simp
  idle x hx := h.idle x fun hm => hx (List.mem_append_left _ hm)
  inputs_keys := by
    rw [Dag.addWire, Table.keys_insert, if_neg fun hm => hw (h.inputs_keys.mem_iff.mp hm)]
    exact h.inputs_keys.append_right [w]
  outputs_keys := by
    rw [Dag.addWire, Table.keys_insert, if_neg fun hm => hw (h.outputs_keys.mem_iff.mp hm)]
    exact h.outputs_keys.append_right [w]
  fronts_keys := by
    rw [Dag.addWire, Table.keys_insert, if_neg fun hm => hw (h.fronts_keys.mem_iff.mp hm)]
    exact h.fronts_keys.append_right [w]
  wire x hx := by
    rcases List.mem_append.mp hx with hx | hx
    -- An older wire keeps its strand, since the new arc has another label.
    · obtain ⟨s, e, hs, hr⟩ := h.wire x hx
      have hne : x ≠ w := fun he => hw (he ▸ hx)
      refine ⟨s, e, ((hs.addNode _).addNode _).addArc hne.symm, ?_, ?_, ?_⟩
      · simpa [Dag.addWire, Table.get?_insert, hne] using hr.input
      · simpa [Dag.addWire, Table.get?_insert, hne] using hr.output
      · simpa [Dag.addWire, Table.get?_insert, hne] using hr.front
    -- The new wire is one arc between the two nodes just added.
    · obtain rfl : x = w := by simpa using hx
      refine ⟨d.graph.size, d.graph.size + 1, ⟨?_, ?_, ?_, ?_⟩, ?_, ?_, ?_⟩
      · exact Digraph.nodes_push_of_eq_some Array.getElem?_push_size
      · have hsize : d.graph.size + 1 = (d.graph.nodes.push (.input x)).size := by
          simp [Digraph.size]
        rw [hsize]
        exact Array.getElem?_push_size
      · simp [h.idle x hw]
      · rw [Dag.addWire, Digraph.segments_addArc, Digraph.segments_addNode,
          Digraph.segments_addNode, h.segments_eq_nil hw, h.idle x hw]
        simp [List.consecutivePairs]
      · simp [Dag.addWire, Table.get?_insert]
      · simp [Dag.addWire, Table.get?_insert]
      · simp [Dag.addWire, Table.get?_insert, h.idle x hw]

theorem addOp (op : Operation) :
    { d with graph := d.graph.addNode (.op op) : Dag }.Threaded ws trail where
  nodup := h.nodup
  inputs w := by simpa [Digraph.addNode] using h.inputs w
  outputs w := by simpa [Digraph.addNode] using h.outputs w
  labels := h.labels
  idle := h.idle
  inputs_keys := h.inputs_keys
  outputs_keys := h.outputs_keys
  fronts_keys := h.fronts_keys
  wire w hw := by
    obtain ⟨s, e, hs, hr⟩ := h.wire w hw
    exact ⟨s, e, hs.addNode _, hr.input, hr.output, hr.front⟩

/-- Leading the end of a wire through a node puts the node at the end of the wire's trail. -/
theorem detour {s e : Nat} (hs : d.graph.Strand w s (trail w) e) (hr : d.Records w s (trail w) e)
    {a : Arc Wire} (ha : a ∈ d.graph.arcs) (hl : a.label = w)
    (hsource : d.fronts.get? w = some a.source) (htarget : a.target = e) {op : Operation}
    (hv : d.graph.nodes[v]? = some (.op op)) :
    { d with
      graph := ((d.graph.removeArc a).addArc a.source v w).addArc v e w
      fronts := d.fronts.insert w v : Dag }.Threaded ws
        (Function.update trail w (trail w ++ [v])) := by
  have hm : w ∈ ws := hl ▸ h.labels a (Array.mem_toList_iff.mpr ha)
  constructor
  case nodup => exact h.nodup
  case inputs => simpa [Digraph.addArc] using h.inputs
  case outputs => simpa [Digraph.addArc] using h.outputs
  case labels =>
    intro b hb
    simp only [Digraph.addArc, Array.toList_push, List.mem_append, List.mem_singleton] at hb
    rcases hb with (hb | rfl) | rfl
    · exact h.labels b ((Digraph.removeArc_perm ha).mem_iff.mpr (List.mem_cons_of_mem _ hb))
    · exact hm
    · exact hm
  case idle =>
    intro x hx
    rw [Function.update_of_ne fun he : x = w => hx (he ▸ hm)]
    exact h.idle x hx
  case inputs_keys => exact h.inputs_keys
  case outputs_keys => exact h.outputs_keys
  case fronts_keys =>
    rw [Table.keys_insert, if_pos (h.fronts_keys.mem_iff.mpr hm)]
    exact h.fronts_keys
  case wire =>
    intro x hx
    -- Only the strand of `w` is taken apart; the arcs of the others have other labels.
    by_cases hxw : x = w
    · subst hxw
      rw [Function.update_self]
      refine ⟨s, e, hs.detour ha hl (hr.front.symm.trans hsource) htarget hv,
        hr.input, hr.output, ?_⟩
      rw [Table.get?_insert, if_pos rfl, ← List.cons_append, List.getLast?_concat]
    · obtain ⟨s', e', hs', hr'⟩ := h.wire x hx
      have hne : a.label ≠ x := fun he => hxw (he.symm.trans hl)
      rw [Function.update_of_ne hxw]
      refine ⟨s', e', ((hs'.removeArc ha hne).addArc (Ne.symm hxw)).addArc (Ne.symm hxw),
        hr'.input, hr'.output, ?_⟩
      rw [Table.get?_insert, if_neg hxw]
      exact hr'.front

end Threaded

end Dag

end CircuitForms
