import CircuitForms.Proofs.Convert.Described
import CircuitForms.Proofs.Dag.Sound
import CircuitForms.Proofs.Vertex.Wiring

/-! # The circuit of vertices of a circuit of wires

The nodes that are carried become the vertices, in order, and the segments of the
qubit wires become the links. The vertex of a node is the one with as many vertices
before it as there are carried nodes before the node.
-/

namespace CircuitForms

section Rows

variable {α : Type} {r : List (Option α)} {i j : Nat} {a : α}

theorem getElem?_reduceOption (h : r[i]? = some (some a)) :
    r.reduceOption[(r.take i).countP Option.isSome]? = some a := by
  induction r generalizing i with
  | nil => cases h
  | cons b r ih =>
    cases i with
    | zero =>
      obtain rfl := Option.some.inj h
      rfl
    | succ i =>
      have hi := ih h
      cases b with
      | none => simpa using hi
      | some b => simpa using hi

theorem exists_of_getElem?_reduceOption {u : Nat} (h : r.reduceOption[u]? = some a) :
    ∃ i, r[i]? = some (some a) ∧ (r.take i).countP Option.isSome = u := by
  induction r generalizing u with
  | nil => cases h
  | cons b r ih =>
    cases b with
    | none =>
      obtain ⟨i, hi, hu⟩ := ih h
      exact ⟨i + 1, hi, by simpa using hu⟩
    | some b =>
      cases u with
      | zero => exact ⟨0, congrArg some h, rfl⟩
      | succ u =>
        obtain ⟨i, hi, hu⟩ := ih h
        exact ⟨i + 1, hi, by simpa using hu⟩

theorem countP_take_lt {p : α → Bool} {l : List α} (hi : l[i]? = some a) (ha : p a) (hij : i < j) :
    (l.take i).countP p < (l.take j).countP p := by
  have hsucc : (l.take (i + 1)).countP p = (l.take i).countP p + 1 := by
    rw [List.take_add_one, hi, List.countP_append]
    simp [ha]
  have hle : (l.take (i + 1)).countP p ≤ (l.take j).countP p :=
    (List.take_sublist_take_left hij).countP_le
  omega

end Rows

namespace VertexCircuit

variable {c c' : VertexCircuit}

theorem forM_addVertex (xs : List Descriptor) (c : VertexCircuit) (hc : c.Wired) :
    ∃ c', (xs.forM fun x => discard (addVertex x) : Edit Unit).run.run c = (.ok (), c') ∧
      c'.vertices.toList = c.vertices.toList ++ xs ∧ c'.links = c.links ∧ c'.Wired := by
  induction xs generalizing c with
  | nil => exact ⟨c, rfl, by simp, rfl, hc⟩
  | cons x xs ih =>
    obtain ⟨c', hrun, hv, hl, hw⟩ := ih _ (hc.addVertex x)
    have hpush : (edit (addVertex x) c).2.vertices.toList = c.vertices.toList ++ [x] :=
      Array.toList_push
    exact ⟨c', hrun, by rw [hv, hpush, List.append_assoc]; rfl, hl, hw⟩

theorem forM_addLink {ls : List Link} (hc : c.Wired)
    (h : (ls.forM addLink).run.run c = (.ok (), c')) :
    c'.vertices = c.vertices ∧ c'.links.toList = c.links.toList ++ ls ∧ c'.Wired := by
  induction ls generalizing c with
  | nil =>
    cases h
    exact ⟨rfl, by simp, hc⟩
  | cons l ls ih =>
    obtain ⟨_, c₁, h₁, h⟩ := run_bind_eq_ok h
    have hw := hc.addLink l
    rw [show edit (addLink l) c = _ from h₁] at hw
    obtain ⟨hv, hl, hw'⟩ := ih hw h
    have h₁ : edit (addLink l) c = _ := h₁
    rw [edit_addLink] at h₁
    split at h₁
    · cases h₁
    · obtain ⟨-, rfl⟩ := Prod.mk.inj h₁
      exact ⟨hv, by rw [hl]; simp, hw'⟩

/-- What an assembly that succeeds is made of. -/
theorem assemble_ok {xs : List Descriptor} {ls : List Link}
    (h : after (Dag.assemble xs ls) {} = .ok c) :
    c.vertices.toList = xs ∧ c.links.toList = ls ∧ c.Wired := by
  rcases hrun : edit (Dag.assemble xs ls) {} with ⟨o, c'⟩
  have hout : (o.map fun _ => c') = .ok c := by
    rw [after, hrun] at h
    exact h
  obtain ⟨_, rfl, rfl⟩ := map_eq_ok.mp hout
  obtain ⟨c₁, h₁, hv₁, hl₁, hw₁⟩ := forM_addVertex xs {} wired_empty
  obtain ⟨hv, hl, hw⟩ := forM_addLink hw₁ ((run_bind_ok h₁).symm.trans hrun)
  exact ⟨by rw [hv, hv₁]; rfl, by rw [hl, hl₁]; rfl, hw⟩

end VertexCircuit

namespace Dag

variable {d : Dag} {p : Policy} {c : VertexCircuit}

/-- The number of carried nodes before a node. -/
def rank (d : Dag) (v : Nat) : Nat :=
  (d.graph.nodes.toList.take v).countP d.isCarried

theorem vertexOf_eq_ok {v u : Nat} :
    d.vertexOf v = .ok u ↔ (d.node? v).any d.isCarried ∧ d.rank v = u := by
  rw [vertexOf]
  split
  · rename_i h
    rw [Except.ok.injEq, h]
    exact (and_iff_right rfl).symm
  · rename_i h
    exact ⟨(fun he => nomatch he), fun he => absurd he.1 h⟩

theorem rank_inj {v u : Nat} {node node' : Node} (hv : d.node? v = some node)
    (hc : d.isCarried node) (hu : d.node? u = some node') (hc' : d.isCarried node')
    (h : d.rank v = d.rank u) : v = u := by
  have hv' : d.graph.nodes.toList[v]? = some node := by simpa [node?] using hv
  have hu' : d.graph.nodes.toList[u]? = some node' := by simpa [node?] using hu
  rcases Nat.lt_trichotomy v u with hlt | rfl | hlt
  · exact absurd h (countP_take_lt hv' hc hlt).ne
  · rfl
  · exact absurd h (countP_take_lt hu' hc' hlt).ne'

theorem isSome_of_toVertex? {v : Nat} {node : Node} {o : Option (Descriptor × List Loss)}
    (h : d.toVertex? p v node = .ok o) : o.isSome = d.isCarried node := by
  unfold toVertex? at h
  split at h
  · rename_i hc
    cases node with
    | input w => obtain rfl := Except.ok.inj h; exact hc.symm
    | output w => obtain rfl := Except.ok.inj h; exact hc.symm
    | op o => obtain ⟨_, -, rfl⟩ := map_eq_ok.mp h; exact hc.symm
  · rename_i hc
    obtain rfl := Except.ok.inj h
    exact (Bool.eq_false_iff.mpr hc).symm

section Vertices

variable {r : List (Option (Descriptor × List Loss))}
  (hr : (d.graph.nodes.toList.zipIdx.mapM fun (node, v) => d.toVertex? p v node) = .ok r)

include hr

theorem length_of_toVertex? : d.graph.nodes.toList.length = r.length := by
  rw [← (mapM_eq_ok.mp hr).length_eq, List.length_zipIdx]

theorem toVertex?_of_getElem? {v : Nat} {node : Node} {b : Option (Descriptor × List Loss)}
    (hn : d.node? v = some node) (hb : r[v]? = some b) : d.toVertex? p v node = .ok b := by
  have hall := mapM_eq_ok.mp hr
  obtain ⟨hv, rfl⟩ := List.getElem?_eq_some_iff.mp hb
  have hv' : v < d.graph.nodes.toList.zipIdx.length := hall.length_eq ▸ hv
  have hnode : d.graph.nodes.toList[v]? = some node := by simpa [node?] using hn
  have hz : d.graph.nodes.toList.zipIdx[v] = (node, v) := by
    rw [List.getElem_zipIdx, Prod.mk.injEq]
    exact ⟨(List.getElem?_eq_some_iff.mp hnode).2, Nat.zero_add v⟩
  have hget := hall.get hv' hv
  rwa [List.get_eq_getElem, List.get_eq_getElem, hz] at hget

/-- As many vertices come before that of a node as there are carried nodes before the node. -/
theorem countP_isSome_eq_rank (v : Nat) : (r.take v).countP Option.isSome = d.rank v := by
  have hsome : r.map Option.isSome = d.graph.nodes.toList.map d.isCarried := by
    refine List.ext_getElem (by simpa using (length_of_toVertex? hr).symm) fun i hi hi' => ?_
    rw [List.length_map] at hi hi'
    rw [List.getElem_map, List.getElem_map]
    refine isSome_of_toVertex? (toVertex?_of_getElem? hr ?_ (List.getElem?_eq_getElem hi))
    rw [node?, ← Array.getElem?_toList]
    exact List.getElem?_eq_getElem hi'
  have hcount := congrArg (fun l => (l.take v).countP id) hsome
  simpa [← List.map_take, List.countP_map, rank] using hcount

theorem exists_vertex {v : Nat} {node : Node} (hn : d.node? v = some node)
    (hcarried : d.isCarried node) : ∃ x losses, d.toVertex? p v node = .ok (some (x, losses)) ∧
      r.reduceOption[d.rank v]? = some (x, losses) := by
  have hi : v < r.length := by
    rw [← length_of_toVertex? hr, Array.length_toList]
    exact (Array.getElem?_eq_some_iff.mp hn).1
  have hx := toVertex?_of_getElem? hr hn (List.getElem?_eq_getElem hi)
  obtain ⟨⟨x, losses⟩, ho⟩ := Option.isSome_iff_exists.mp ((isSome_of_toVertex? hx).trans hcarried)
  rw [ho] at hx
  refine ⟨x, losses, hx, ?_⟩
  rw [← countP_isSome_eq_rank hr]
  exact getElem?_reduceOption (ho ▸ List.getElem?_eq_getElem hi)

end Vertices

/-- The vertices of a circuit are those of the carried nodes, its links those of the segments of
the qubit wires. -/
structure Carries (d : Dag) (p : Policy) (c : VertexCircuit) : Prop where
  wired : c.Wired
  vertex : ∀ v node, d.node? v = some node → d.isCarried node →
    ∃ x losses, d.toVertex? p v node = .ok (some (x, losses)) ∧ c.vertex? (d.rank v) = some x
  node : ∀ u x, c.vertex? u = some x → ∃ v node losses, d.node? v = some node ∧
    d.isCarried node ∧ d.rank v = u ∧ d.toVertex? p v node = .ok (some (x, losses))
  link : ∀ a ∈ d.graph.arcs.toList, ∃ o, d.toLink? a = .ok o
  mem_links : ∀ l, l ∈ c.links.toList ↔ ∃ a ∈ d.graph.arcs.toList, d.toLink? a = .ok (some l)

theorem carries_of_toVertices {losses : List Loss} (h : d.toVertices p = .ok (c, losses)) :
    d.Carries p c := by
  obtain ⟨r, hr, h⟩ := bind_eq_ok.mp h
  obtain ⟨ls, hls, h⟩ := bind_eq_ok.mp h
  obtain ⟨c', hc, h⟩ := bind_eq_ok.mp h
  obtain ⟨rfl, -⟩ := Prod.mk.inj (Except.ok.inj h)
  obtain ⟨hv, hl, hw⟩ := VertexCircuit.assemble_ok (mapError_eq_ok.mp hc)
  -- Vertex `u` is the `u`-th of the nodes that are carried over.
  have hvertex : ∀ {u x}, c'.vertex? u = some x ↔
      ∃ losses, r.reduceOption[u]? = some (x, losses) := by
    intro u x
    have hu : c'.vertex? u = (r.reduceOption.map Prod.fst)[u]? := by
      rw [← hv, VertexCircuit.vertex?, Array.getElem?_toList]
    rw [hu, List.getElem?_map, Option.map_eq_some_iff]
    constructor
    · rintro ⟨⟨_, losses⟩, hx, rfl⟩
      exact ⟨losses, hx⟩
    · rintro ⟨losses, hx⟩
      exact ⟨_, hx, rfl⟩
  constructor
  case wired => exact hw
  case vertex =>
    intro v node hn hcarried
    obtain ⟨x, losses, hx, hv⟩ := exists_vertex hr hn hcarried
    exact ⟨x, losses, hx, hvertex.mpr ⟨losses, hv⟩⟩
  case node =>
    intro u x hx
    obtain ⟨losses, hx⟩ := hvertex.mp hx
    obtain ⟨v, hv, hu⟩ := exists_of_getElem?_reduceOption hx
    have hlt : v < d.graph.nodes.size := by
      rw [← Array.length_toList, length_of_toVertex? hr]
      exact (List.getElem?_eq_some_iff.mp hv).1
    have hn : d.node? v = some d.graph.nodes[v] := Array.getElem?_eq_getElem hlt
    have ht := toVertex?_of_getElem? hr hn hv
    have hrank := (countP_isSome_eq_rank hr v).symm.trans hu
    exact ⟨v, _, losses, hn, (isSome_of_toVertex? ht).symm, hrank, ht⟩
  case link =>
    intro a ha
    obtain ⟨o, -, ho⟩ := exists_of_mapM_eq_ok hls ha
    exact ⟨o, ho⟩
  case mem_links =>
    intro l
    rw [hl, List.reduceOption_mem_iff, mem_of_mapM_eq_ok hls]

end Dag

end CircuitForms
