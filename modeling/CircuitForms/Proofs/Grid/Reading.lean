import CircuitForms.Proofs.Grid.Layering

/-! # Reading a layout step by step

Step by step and from the first line to the last, the vertices that one line meets
come in the order in which the line meets them. Of two vertices of one step, the one
that is on the earlier line comes first.
-/

namespace CircuitForms.Grid

variable {c : VertexCircuit} {g : Grid}

def reading (g : Grid) : List Nat :=
  g.slices.flatMap Slice.vertices

/-- Whether a vertex is met at an earlier step than another, or at the same step on a line before
all of the other's. -/
def Before (g : Grid) (v u : Nat) : Prop :=
  ∃ k m, g.Meets v k ∧ g.Meets u m ∧
    (k < m ∨ k = m ∧ ∀ j p, g.cell? j m = some ⟨u, p⟩ → ∃ i q, i < j ∧ g.cell? i k = some ⟨v, q⟩)

theorem eq_toList_of_mem_iff {α : Type} {l : List α} {o : Option α} (hl : l.Nodup)
    (h : ∀ a, a ∈ l ↔ o = some a) : l = o.toList := by
  cases o with
  | none => exact List.eq_nil_iff_forall_not_mem.mpr fun a ha => nomatch (h a).mp ha
  | some b =>
    refine List.perm_singleton.mp ((List.perm_ext_iff_of_nodup hl (List.nodup_singleton b)).mpr ?_)
    intro a
    rw [h, Option.some.injEq, List.mem_singleton, eq_comm]

theorem flatMap_range_cell (l : List (Option Cell)) :
    ((List.range l.length).flatMap fun k => (l[k]?.join.map Cell.vertex).toList) =
      l.reduceOption.map Cell.vertex := by
  induction l using List.reverseRecOn with
  | nil => rfl
  | append_singleton l o ih =>
    have hold : ∀ k ∈ List.range l.length, ((l ++ [o])[k]?.join.map Cell.vertex).toList =
        (l[k]?.join.map Cell.vertex).toList := by
      intro k hk
      rw [List.getElem?_append_left (List.mem_range.mp hk)]
    rw [List.length_append, List.length_singleton, List.range_succ, List.flatMap_append,
      List.flatMap_singleton, List.getElem?_concat_length, List.flatMap_congr hold, ih,
      List.reduceOption_append, List.map_append]
    cases o <;> rfl

namespace Layered

variable (h : Layered c g)

include h

theorem step_unique {i j k m v p q : Nat} (hp : g.cell? i k = some ⟨v, p⟩)
    (hq : g.cell? j m = some ⟨v, q⟩) : k = m := by
  have hlt := (h.meets_lt v k ⟨i, p, hp⟩).1
  exact (h.meets v hlt).unique ⟨i, p, hp⟩ ⟨j, q, hq⟩

/-- Of the vertices read step by step, those on a line come in the order of the line. -/
theorem filter_reading {j : Nat} {l : List (Option Cell)} (hl : g.lines[j]? = some l)
    {on : Nat → Bool} (hon : ∀ v, on v ↔ ∃ k p, g.cell? j k = some ⟨v, p⟩) :
    g.reading.filter on = l.reduceOption.map Cell.vertex := by
  have hcell : ∀ k, g.cell? j k = l[k]?.join := by
    intro k
    rw [cell?, hl, Option.bind_some]
  have hslice : ∀ k ∈ List.range g.steps, (g.slice k).vertices.filter on =
      (l[k]?.join.map Cell.vertex).toList := by
    intro k _
    refine eq_toList_of_mem_iff ((nodup_eraseDups _).filter _) fun v => ?_
    rw [List.mem_filter, mem_slice, ← hcell, Option.map_eq_some_iff, hon]
    constructor
    · rintro ⟨⟨i, q, hq⟩, m, p, hp⟩
      obtain rfl := h.step_unique hq hp
      exact ⟨_, hp, rfl⟩
    · rintro ⟨⟨_, p⟩, hp, rfl⟩
      exact ⟨⟨j, p, hp⟩, k, p, hp⟩
  rw [reading, slices, List.flatMap_map, List.filter_flatMap, List.flatMap_congr hslice,
    ← h.length_cells l (List.mem_of_getElem? hl), flatMap_range_cell]

end Layered

theorem exists_filterMap_range {α : Type} {f : Nat → Option α} {n j : Nat} {a : α} (hj : j < n)
    (ha : f j = some a) :
    ∃ post, (List.range n).filterMap f = (List.range j).filterMap f ++ a :: post := by
  obtain ⟨m, rfl⟩ := Nat.exists_eq_add_of_lt hj
  have hrange : List.range (j + m + 1) = List.range j ++ j :: (List.range m).map (j + 1 + ·) := by
    rw [Nat.add_assoc, List.range_add, List.range_succ_eq_map, List.map_cons, List.map_map]
    congr 3
    funext i
    exact (Nat.succ_add_eq_add_succ j i).symm
  rw [hrange, List.filterMap_append, List.filterMap_cons_some ha]
  exact ⟨_, rfl⟩

theorem slice_pairwise (g : Grid) (k : Nat) : (g.slice k).vertices.Pairwise fun v u =>
    ∀ j p, g.cell? j k = some ⟨u, p⟩ → ∃ i q, i < j ∧ g.cell? i k = some ⟨v, q⟩ := by
  refine (pairwise_eraseDups _).imp fun {v u} h j p hj => ?_
  obtain ⟨l, hl, -⟩ := cell?_eq_some.mp hj
  have hlt : j < g.lineCount := (List.getElem?_eq_some_iff.mp hl).1
  obtain ⟨post, hpost⟩ := exists_filterMap_range (f := fun i => g.cell? i k) hlt hj
  have hcolumn : (g.column k).map Cell.vertex =
      ((List.range j).filterMap fun i => g.cell? i k).map Cell.vertex ++
        u :: post.map Cell.vertex := by
    rw [column, hpost, List.map_append, List.map_cons]
  obtain ⟨⟨_, q⟩, hx, rfl⟩ := List.mem_map.mp (h _ _ hcolumn)
  obtain ⟨i, hi, hx⟩ := List.mem_filterMap.mp hx
  exact ⟨i, q, List.mem_range.mp hi, hx⟩

theorem reading_pairwise (g : Grid) : g.reading.Pairwise g.Before := by
  rw [reading, slices, List.flatMap_map, List.flatMap, List.pairwise_flatten]
  constructor
  · intro vs hvs
    obtain ⟨k, -, rfl⟩ := List.mem_map.mp hvs
    refine (g.slice_pairwise k).imp_of_mem fun hv hu h => ?_
    exact ⟨k, k, mem_slice.mp hv, mem_slice.mp hu, .inr ⟨rfl, h⟩⟩
  · rw [List.pairwise_map]
    refine List.pairwise_lt_range.imp fun {k m} hkm v hv u hu => ?_
    exact ⟨k, m, mem_slice.mp hv, mem_slice.mp hu, .inl hkm⟩

end CircuitForms.Grid
