import CircuitForms.Proofs.Grid.Laid

/-! # The layers of a layout

A layout puts every vertex one step after the latest of the vertices it is led to
from. The step of a vertex is therefore the length of the longest path that leads to
it from the start of a line.
-/

namespace CircuitForms

/-- A number of links that lead from the start of a line to a vertex. -/
inductive VertexCircuit.Path (c : VertexCircuit) : Nat → Nat → Prop
  | start {v : Nat} : c.hasKind .input v → Path c v 0
  | link {v n p : Nat} {y : Cell} : Path c v n → c.next? ⟨v, p⟩ = some y → Path c y.vertex (n + 1)

namespace Grid

variable {c : VertexCircuit} {g : Grid} {s : State} {order : Nat → List Group → List Group}

def Meets (g : Grid) (v k : Nat) : Prop :=
  ∃ j p, g.cell? j k = some ⟨v, p⟩

structure Layered (c : VertexCircuit) (g : Grid) : Prop where
  length_lines : g.lines.length = c.lineCount
  length_cells : ∀ l ∈ g.lines, l.length = g.steps
  /-- Every vertex is met at one step. -/
  meets : ∀ v < c.vertexCount, ∃! k, g.Meets v k
  /-- Nothing else is met. -/
  meets_lt : ∀ v k, g.Meets v k → v < c.vertexCount ∧ k < g.steps
  /-- An input is met where its line starts and nowhere else. -/
  input : ∀ (j v : Nat), c.inputs[j]? = some v →
    ∀ i k p, g.cell? i k = some ⟨v, p⟩ ↔ i = j ∧ k = 0 ∧ p = 0
  /-- Any other vertex is met on each of its pins by one line, and on no other pin. -/
  pins : ∀ v k, ¬ c.hasKind .input v → g.Meets v k → ∀ p < c.pins v, ∃! j, g.cell? j k = some ⟨v, p⟩
  pin_lt : ∀ j k v p, ¬ c.hasKind .input v → g.cell? j k = some ⟨v, p⟩ → p < c.pins v
  /-- It is met one step after the latest of the vertices that lead to it. -/
  step : ∀ v k, ¬ c.hasKind .input v → g.Meets v k →
    IsGreatest {n | ∃ p x m, c.previous? ⟨v, p⟩ = some x ∧ g.Meets x.vertex m ∧ n = m + 1} k
  path : ∀ v k, g.Meets v k → IsGreatest {n | c.Path v n} k
  /-- A line follows the links from its start to an output. -/
  line : ∀ (j : Nat) (l : List (Option Cell)), g.lines[j]? = some l →
    (∃ v, c.inputs[j]? = some v ∧ l.head? = some (some ⟨v, 0⟩)) ∧
      l.reduceOption.IsChain (fun x y => c.next? x = some y) ∧
      ∃ pre x n, l = pre ++ some x :: List.replicate n none ∧ c.hasKind .output x.vertex
  lineThrough : ∀ x j, g.lineThrough? x = some j ↔ ∃ k, g.cell? j k = some x
  lineThrough_isSome : ∀ x, (g.lineThrough? x).isSome ↔
    (c.hasKind .input x.vertex ∧ x.pin = 0) ∨ x.pin < c.pins x.vertex
  slices_steps : g.slices.map Slice.step = List.range g.steps
  slice : ∀ t ∈ g.slices, ∀ v, v ∈ t.vertices ↔ g.Meets v t.step
  slices_perm : (g.slices.flatMap Slice.vertices).Perm (List.range c.vertexCount)

theorem cell?_eq_some {j k : Nat} {x : Cell} :
    g.cell? j k = some x ↔ ∃ l, g.lines[j]? = some l ∧ l[k]? = some (some x) := by
  simp [cell?, Option.bind_eq_some_iff, Option.join_eq_some_iff]

theorem mem_routes {x : Cell} {j : Nat} : (x, j) ∈ g.routes ↔ ∃ k, g.cell? j k = some x := by
  simp only [routes, List.mem_flatMap, List.mem_map, Prod.exists, List.mem_zipIdx_iff_getElem?,
    List.reduceOption_mem_iff, Prod.mk.injEq, cell?_eq_some]
  constructor
  · rintro ⟨l, j, hl, x, hx, rfl, rfl⟩
    obtain ⟨k, hk⟩ := List.mem_iff_getElem?.mp hx
    exact ⟨k, l, hl, hk⟩
  · rintro ⟨k, l, hl, hk⟩
    exact ⟨l, j, hl, x, List.mem_of_getElem? hk, rfl, rfl⟩

theorem mem_slice {v k : Nat} : v ∈ (g.slice k).vertices ↔ g.Meets v k := by
  simp only [slice, List.mem_eraseDups, List.mem_map, column, List.mem_filterMap, List.mem_range,
    Meets]
  constructor
  · rintro ⟨⟨_, p⟩, ⟨j, -, hj⟩, rfl⟩
    exact ⟨j, p, hj⟩
  · rintro ⟨j, p, hj⟩
    obtain ⟨l, hl, -⟩ := cell?_eq_some.mp hj
    exact ⟨⟨v, p⟩, ⟨j, (List.getElem?_eq_some_iff.mp hl).1, hj⟩, rfl⟩

theorem lineThrough?_eq_some (hu : ∀ x i j k m, g.cell? i k = some x → g.cell? j m = some x → i = j)
    {x : Cell} {j : Nat} : g.lineThrough? x = some j ↔ ∃ k, g.cell? j k = some x := by
  rw [lineThrough?, Option.map_eq_some_iff]
  constructor
  · rintro ⟨⟨y, i⟩, hf, rfl⟩
    obtain rfl : y = x := by simpa using List.find?_some hf
    exact mem_routes.mp (List.mem_reverse.mp (List.mem_of_find?_eq_some hf))
  · rintro ⟨k, hk⟩
    have hmem : (x, j) ∈ g.routes.reverse := List.mem_reverse.mpr (mem_routes.mpr ⟨k, hk⟩)
    obtain ⟨⟨y, i⟩, hf⟩ := Option.isSome_iff_exists.mp
      (@List.find?_isSome _ g.routes.reverse (·.1 == x) |>.mpr ⟨_, hmem, beq_self_eq_true x⟩)
    obtain rfl : y = x := by simpa using List.find?_some hf
    obtain ⟨m, hm⟩ := mem_routes.mp (List.mem_reverse.mp (List.mem_of_find?_eq_some hf))
    exact ⟨_, hf, hu y i j m k hm hk⟩

theorem slices_perm_range (hm : ∀ v < c.vertexCount, ∃! k, g.Meets v k)
    (hlt : ∀ v k, g.Meets v k → v < c.vertexCount ∧ k < g.steps) :
    (g.slices.flatMap Slice.vertices).Perm (List.range c.vertexCount) := by
  rw [List.perm_ext_iff_of_nodup _ List.nodup_range]
  · intro v
    rw [List.mem_range, slices, List.mem_flatMap]
    simp only [List.mem_map, List.mem_range]
    constructor
    · rintro ⟨_, ⟨k, -, rfl⟩, hv⟩
      exact (hlt v k (mem_slice.mp hv)).1
    · intro hv
      obtain ⟨k, hk, -⟩ := hm v hv
      exact ⟨_, ⟨k, (hlt v k hk).2, rfl⟩, mem_slice.mpr hk⟩
  · rw [slices, List.flatMap_map, List.nodup_flatMap]
    refine ⟨fun k _ => nodup_eraseDups _, ?_⟩
    refine List.nodup_range.imp fun {k k'} hne v hv hv' => hne ?_
    have hk := mem_slice.mp hv
    have hk' := mem_slice.mp hv'
    exact (hm v (hlt v k hk).1).unique hk hk'

theorem eq_append_replicate {l : List (Option Cell)} {m : Nat} {x : Cell}
    (hx : l[m]? = some (some x)) (hlast : ∀ n z, m < n → l[n]? ≠ some (some z)) :
    ∃ n, l = l.take m ++ some x :: List.replicate n none := by
  obtain ⟨hm, he⟩ := List.getElem?_eq_some_iff.mp hx
  refine ⟨(l.drop (m + 1)).length, ?_⟩
  have hnone : l.drop (m + 1) = List.replicate (l.drop (m + 1)).length none := by
    refine List.eq_replicate_of_mem fun o ho => ?_
    obtain ⟨i, hi⟩ := List.mem_iff_getElem?.mp ho
    rw [List.getElem?_drop] at hi
    cases o with
    | none => rfl
    | some z => exact absurd hi (hlast _ z (by omega))
  rw [← hnone, ← he, List.getElem_cons_drop, List.take_append_drop]

theorem getLast?_reduceOption {l : List (Option Cell)} {m : Nat} {x : Cell}
    (hx : l[m]? = some (some x)) (hlast : ∀ n z, m < n → l[n]? ≠ some (some z)) :
    l.reduceOption.getLast? = some x := by
  obtain ⟨n, hn⟩ := eq_append_replicate hx hlast
  rw [hn, List.reduceOption_append, List.reduceOption_cons_of_some,
    List.reduceOption_replicate_none, List.getLast?_concat]

theorem isChain_reduceOption {R : Cell → Cell → Prop} {l : List (Option Cell)}
    (h : ∀ k y, l[k + 1]? = some (some y) → ∃ m x, m ≤ k ∧ l[m]? = some (some x) ∧ R x y ∧
      ∀ n z, m < n → n ≤ k → l[n]? ≠ some (some z)) : l.reduceOption.IsChain R := by
  -- From the right: the last cell was put there from the last one before it.
  induction l using List.reverseRecOn with
  | nil => exact .nil
  | append_singleton l o ih =>
    have hleft : ∀ n, n < l.length → (l ++ [o])[n]? = l[n]? := fun n hn =>
      List.getElem?_append_left hn
    have hl : l.reduceOption.IsChain R := by
      refine ih fun k y hy => ?_
      have hlt := (List.getElem?_eq_some_iff.mp hy).1
      obtain ⟨m, x, hm, hx, hr, hgap⟩ := h k y (hleft _ hlt ▸ hy)
      refine ⟨m, x, hm, hleft m (by omega) ▸ hx, hr, fun n z hmn hnk => ?_⟩
      exact hleft n (by omega) ▸ hgap n z hmn hnk
    cases o with
    | none => simpa [List.reduceOption_append] using hl
    | some y =>
      rw [List.reduceOption_append, List.reduceOption_singleton, List.isChain_append]
      refine ⟨hl, List.isChain_singleton y, fun x hx z hz => ?_⟩
      obtain rfl : y = z := by simpa using hz
      cases hlen : l.length with
      | zero => simp [List.length_eq_zero_iff.mp hlen] at hx
      | succ k =>
        obtain ⟨m, x', hm, hx', hr, hgap⟩ := h k y (hlen ▸ List.getElem?_concat_length)
        have hlast : l.reduceOption.getLast? = some x' := by
          refine getLast?_reduceOption (hleft m (by omega) ▸ hx') fun n z hmn hz => ?_
          have hlt := (List.getElem?_eq_some_iff.mp hz).1
          exact hgap n z hmn (by omega) (hleft n hlt ▸ hz)
        obtain rfl : x' = x := by simpa [hlast] using hx
        exact hr

namespace State.Laid

variable (h : s.Laid c)

include h

theorem input_of_zero {j : Nat} {x : Cell} (hx : s.At j 0 x) :
    c.hasKind .input x.vertex ∧ x.pin = 0 := by
  obtain ⟨v, hv, rfl⟩ := (h.start _ _).mp hx
  exact ⟨VertexCircuit.mem_inputs.mp (List.mem_of_getElem? hv), rfl⟩

theorem exists_succ {j k : Nat} {x : Cell} (hi : ¬ c.hasKind .input x.vertex) (hx : s.At j k x) :
    ∃ m, k = m + 1 := by
  cases k with
  | zero => exact absurd (h.input_of_zero hx).1 hi
  | succ m => exact ⟨m, rfl⟩

theorem exists_link {j k v p : Nat} (hp : s.At j (k + 1) ⟨v, p⟩) :
    ∃ i q x, c.next? x = some ⟨v, q⟩ ∧ s.At i k x := by
  obtain ⟨i, q, z, hq, hz⟩ := h.prompt j k v p hp
  obtain ⟨m, x, hm, hx, hn, hgap⟩ := h.arrive i k _ hq
  rcases Nat.lt_or_eq_of_le hm with hlt | rfl
  · exact absurd hz (hgap k z hlt (Nat.le_refl k))
  · exact ⟨i, q, x, hn, hx⟩

theorem path {j k v p : Nat} (hp : s.At j k ⟨v, p⟩) : c.Path v k := by
  induction k generalizing j v p with
  | zero => exact .start (h.input_of_zero hp).1
  | succ k ih =>
    obtain ⟨i, q, x, hn, hx⟩ := h.exists_link hp
    exact .link (ih hx) hn

variable (hc : c.Wired)

include hc

theorem pin_lt {j k : Nat} {x : Cell} (hx : s.At j (k + 1) x) : x.pin < c.pins x.vertex := by
  obtain ⟨m, y, -, -, hn, -⟩ := h.arrive j k x hx
  exact hc.pin_lt hn

theorem vertex_lt {j k : Nat} {x : Cell} (hx : s.At j k x) : x.vertex < c.vertexCount := by
  cases k with
  | zero =>
    obtain ⟨y, hy, -⟩ := VertexCircuit.hasKind_iff.mp (h.input_of_zero hx).1
    exact VertexCircuit.lt_of_vertex? hy
  | succ k => exact VertexCircuit.lt_of_pin_lt (h.pin_lt hc hx)

/-- When as many vertices are placed as there are, all are met. -/
theorem exists_at (hp : s.placed = c.vertexCount) {v : Nat} (hv : v < c.vertexCount) :
    ∃ j k p, s.At j k ⟨v, p⟩ := by
  obtain ⟨vs, hvs, hlen, hmem⟩ := h.placed
  have hlt : ∀ u ∈ vs, u < c.vertexCount := by
    intro u hu
    obtain ⟨j, k, p, ha⟩ := (hmem u).mp hu
    exact h.vertex_lt hc ha
  exact (hmem v).mp ((length_ge_iff_forall_mem hvs hlt).mp (hlen.trans hp).ge v hv)

variable (hin : ∀ v, c.hasKind .input v → c.pins v = 0)

include hin

theorem eq_zero_of_input {j k : Nat} {x : Cell} (hi : c.hasKind .input x.vertex) (hx : s.At j k x) :
    k = 0 := by
  cases k with
  | zero => rfl
  | succ k =>
    have hlt := h.pin_lt hc hx
    rw [hin _ hi] at hlt
    exact absurd hlt (Nat.not_lt_zero _)

theorem step_unique {i j k m v p q : Nat} (hp : s.At i k ⟨v, p⟩) (hq : s.At j m ⟨v, q⟩) :
    k = m := by
  by_cases hi : c.hasKind .input v
  · rw [h.eq_zero_of_input hc hin hi hp, h.eq_zero_of_input hc hin hi hq]
  · obtain ⟨k, rfl⟩ := h.exists_succ hi hp
    obtain ⟨m, rfl⟩ := h.exists_succ hi hq
    obtain ⟨j', hj'⟩ := h.whole i k v p hp q (h.pin_lt hc hq)
    exact (h.at_inj hc hin hj' hq).2

/-- A vertex that is met is met on every pin that a link leads to. -/
theorem exists_at_of_link {j k q : Nat} {x y : Cell} (hn : c.next? x = some y)
    (hy : s.At j k ⟨y.vertex, q⟩) : ∃ i m, k = m + 1 ∧ s.At i k y ∧ ∃ n ≤ m, s.At i n x := by
  have hlt := hc.pin_lt hn
  cases k with
  | zero =>
    rw [hin _ (h.input_of_zero hy).1] at hlt
    exact absurd hlt (Nat.not_lt_zero _)
  | succ k =>
    obtain ⟨i, hi⟩ := h.whole j k _ q hy _ hlt
    obtain ⟨n, z, hnk, hz, hnz, -⟩ := h.arrive i k y hi
    obtain rfl := hc.next?_inj hn hnz
    exact ⟨i, k, rfl, hi, n, hnk, hz⟩

theorem path_le {v n : Nat} (hpath : c.Path v n) : ∀ {j k p}, s.At j k ⟨v, p⟩ → n ≤ k := by
  induction hpath with
  | start _ => exact fun _ => Nat.zero_le _
  | @link v n p y _ hn ih =>
    intro j k q hq
    obtain ⟨i, m, rfl, -, l, hl, hx⟩ := h.exists_at_of_link hc hin hn hq
    exact Nat.succ_le_succ ((ih hx).trans hl)

theorem isGreatest {j k v p : Nat} (hi : ¬ c.hasKind .input v) (hp : s.At j k ⟨v, p⟩) :
    IsGreatest {n | ∃ q x m, c.previous? ⟨v, q⟩ = some x ∧ (∃ i r, s.At i m ⟨x.vertex, r⟩) ∧
      n = m + 1} k := by
  constructor
  · obtain ⟨k, rfl⟩ := h.exists_succ hi hp
    obtain ⟨i, q, x, hn, hx⟩ := h.exists_link hp
    exact ⟨q, x, k, hc.previous?_eq_some_iff.mpr hn, ⟨i, x.pin, hx⟩, rfl⟩
  · rintro _ ⟨q, x, m, hn, ⟨i, r, hm⟩, rfl⟩
    rw [hc.previous?_eq_some_iff] at hn
    obtain ⟨i', k, rfl, -, n, hnk, hx⟩ := h.exists_at_of_link hc hin hn hp
    rw [h.step_unique hc hin hm hx]
    exact Nat.succ_le_succ hnk

theorem at_input_iff {j v i k p : Nat} (hv : c.inputs[j]? = some v) :
    s.At i k ⟨v, p⟩ ↔ i = j ∧ k = 0 ∧ p = 0 := by
  have hstart : s.At j 0 ⟨v, 0⟩ := (h.start _ _).mpr ⟨v, hv, rfl⟩
  constructor
  · intro ha
    have hi := VertexCircuit.mem_inputs.mp (List.mem_of_getElem? hv)
    obtain rfl := h.eq_zero_of_input hc hin hi ha
    obtain rfl : p = 0 := (h.input_of_zero ha).2
    exact ⟨(h.at_inj hc hin ha hstart).1, rfl, rfl⟩
  · rintro ⟨rfl, rfl, rfl⟩
    exact hstart

theorem existsUnique_line {j k v p q : Nat} (hi : ¬ c.hasKind .input v) (hq : s.At j k ⟨v, q⟩)
    (hp : p < c.pins v) : ∃! i, s.At i k ⟨v, p⟩ := by
  obtain ⟨k, rfl⟩ := h.exists_succ hi hq
  obtain ⟨i, hi⟩ := h.whole j k v q hq p hp
  exact ⟨i, hi, fun i' hi' => (h.at_inj hc hin hi' hi).1⟩

theorem exists_line_iff (hp : s.placed = c.vertexCount) {x : Cell} : (∃ j k, s.At j k x) ↔
    (c.hasKind .input x.vertex ∧ x.pin = 0) ∨ x.pin < c.pins x.vertex := by
  constructor
  · rintro ⟨j, k, ha⟩
    cases k with
    | zero => exact .inl (h.input_of_zero ha)
    | succ k => exact .inr (h.pin_lt hc ha)
  · rintro (⟨hi, hx⟩ | hx)
    · obtain ⟨j, hj⟩ := List.mem_iff_getElem?.mp (VertexCircuit.mem_inputs.mpr hi)
      exact ⟨j, 0, (h.start _ _).mpr ⟨x.vertex, hj, by rw [← hx]⟩⟩
    · have hi : ¬ c.hasKind .input x.vertex := fun hi => by
        rw [hin _ hi] at hx
        exact Nat.not_lt_zero _ hx
      obtain ⟨j, k, q, ha⟩ := h.exists_at hc hp (VertexCircuit.lt_of_pin_lt hx)
      obtain ⟨i, hi, -⟩ := h.existsUnique_line hc hin hi ha hx
      exact ⟨i, k, hi⟩

end State.Laid

def State.grid (s : State) : Grid :=
  ⟨s.lines.map Line.cells, s.steps⟩

theorem State.line_grid {j : Nat} {l : List (Option Cell)} :
    s.grid.lines[j]? = some l ↔ ∃ m, s.lines[j]? = some m ∧ m.cells = l := by
  rw [grid, List.getElem?_map, Option.map_eq_some_iff]

theorem State.cell?_grid {j k : Nat} {x : Cell} : s.grid.cell? j k = some x ↔ s.At j k x := by
  rw [cell?_eq_some]
  constructor
  · rintro ⟨_, hl, hx⟩
    obtain ⟨l, hm, rfl⟩ := State.line_grid.mp hl
    exact ⟨l, hm, hx⟩
  · rintro ⟨l, hl, hx⟩
    exact ⟨l.cells, State.line_grid.mpr ⟨l, hl, rfl⟩, hx⟩

theorem State.meets_grid {v k : Nat} : s.grid.Meets v k ↔ ∃ j p, s.At j k ⟨v, p⟩ := by
  simp only [Meets, State.cell?_grid]

/-- A finished line follows the links from its start to an output. -/
theorem State.Laid.line (h : s.Laid c) (hf : s.isFinished) {j : Nat} {l : Line}
    (hl : s.lines[j]? = some l) :
    (∃ v, c.inputs[j]? = some v ∧ l.cells.head? = some (some ⟨v, 0⟩)) ∧
      l.cells.reduceOption.IsChain (fun x y => c.next? x = some y) ∧
      ∃ pre x n, l.cells = pre ++ some x :: List.replicate n none ∧ c.hasKind .output x.vertex := by
  have hcell : ∀ k x, l.cells[k]? = some (some x) ↔ s.At j k x := by
    intro k x
    refine ⟨fun hx => ⟨l, hl, hx⟩, ?_⟩
    rintro ⟨m, hm, hx⟩
    rwa [Option.some.inj (hl.symm.trans hm)]
  refine ⟨?_, isChain_reduceOption fun k y hy => ?_, ?_⟩
  · have hlt : j < c.inputs.length :=
      Nat.lt_of_lt_of_eq (List.getElem?_eq_some_iff.mp hl).1 h.length_lines
    have hv := List.getElem?_eq_getElem hlt
    refine ⟨_, hv, ?_⟩
    rw [List.head?_eq_getElem?, hcell]
    exact (h.start _ _).mpr ⟨_, hv, rfl⟩
  · obtain ⟨m, x, hm, hx, hn, hgap⟩ := h.arrive j k y ((hcell _ _).mp hy)
    refine ⟨m, x, hm, (hcell _ _).mpr hx, hn, fun n z hmn hnk hz => ?_⟩
    exact hgap n z hmn hnk ((hcell _ _).mp hz)
  · have hfin : l.finished = true := List.all_eq_true.mp hf l (List.mem_of_getElem? hl)
    obtain ⟨k, x, hx, ho⟩ := (h.finished j l hl).mp hfin
    obtain ⟨n, hn⟩ := eq_append_replicate ((hcell k x).mpr hx) fun n z hkn hz =>
      h.ends j k x hx ho n z hkn ((hcell n z).mp hz)
    exact ⟨_, x, n, hn, ho⟩

theorem State.Laid.layered (h : s.Laid c) (hc : c.Wired)
    (hin : ∀ v, c.hasKind .input v → c.pins v = 0) (hf : s.isFinished)
    (hp : s.placed = c.vertexCount) : Layered c s.grid := by
  have hmeets : ∀ v < c.vertexCount, ∃! k, s.grid.Meets v k := by
    intro v hv
    obtain ⟨j, k, p, ha⟩ := h.exists_at hc hp hv
    refine ⟨k, State.meets_grid.mpr ⟨j, p, ha⟩, fun m hm => ?_⟩
    obtain ⟨i, q, hq⟩ := State.meets_grid.mp hm
    exact h.step_unique hc hin hq ha
  have hlt : ∀ v k, s.grid.Meets v k → v < c.vertexCount ∧ k < s.grid.steps := by
    intro v k hk
    obtain ⟨j, p, ha⟩ := State.meets_grid.mp hk
    exact ⟨h.vertex_lt hc ha, h.step_lt ha⟩
  -- A cell is met only once, so a search for it finds the line it is on.
  have hthrough : ∀ x j, s.grid.lineThrough? x = some j ↔ ∃ k, s.grid.cell? j k = some x :=
    fun x j => lineThrough?_eq_some fun y i i' k m hy hy' =>
      (h.at_inj hc hin (State.cell?_grid.mp hy) (State.cell?_grid.mp hy')).1
  constructor
  case length_lines => exact List.length_map _ |>.trans h.length_lines
  case length_cells =>
    intro l hl
    obtain ⟨m, hm, rfl⟩ := List.mem_map.mp hl
    exact h.length_cells m hm
  case meets => exact hmeets
  case meets_lt => exact hlt
  case input =>
    intro j v hv i k p
    rw [State.cell?_grid, h.at_input_iff hc hin hv]
  case pins =>
    intro v k hi hk p hlt
    obtain ⟨j, q, ha⟩ := State.meets_grid.mp hk
    simpa only [State.cell?_grid] using h.existsUnique_line hc hin hi ha hlt
  case pin_lt =>
    intro j k v p hi hx
    have ha := State.cell?_grid.mp hx
    obtain ⟨k, rfl⟩ := h.exists_succ hi ha
    exact h.pin_lt hc ha
  case step =>
    intro v k hi hk
    obtain ⟨j, p, ha⟩ := State.meets_grid.mp hk
    simpa only [State.meets_grid] using h.isGreatest hc hin hi ha
  case path =>
    intro v k hk
    obtain ⟨j, p, ha⟩ := State.meets_grid.mp hk
    exact ⟨h.path ha, fun n hn => h.path_le hc hin hn ha⟩
  case line =>
    intro j l hl
    obtain ⟨m, hm, rfl⟩ := State.line_grid.mp hl
    exact h.line hf hm
  case lineThrough => exact hthrough
  case lineThrough_isSome =>
    intro x
    simp only [Option.isSome_iff_exists, hthrough, State.cell?_grid]
    exact h.exists_line_iff hc hin hp
  case slices_steps => simp [slices, slice, Function.comp_def]
  case slice =>
    intro t ht v
    obtain ⟨k, -, rfl⟩ := List.mem_map.mp ht
    exact mem_slice
  case slices_perm => exact slices_perm_range hmeets hlt

theorem layered_of_wired (hc : c.Wired) (hin : ∀ v, c.hasKind .input v → c.pins v = 0)
    (ho : ∀ k gs, (order k gs).Perm gs) (h : layOutBy order c = .ok g) : Layered c g := by
  obtain ⟨s, hs, h⟩ := bind_eq_ok.mp h
  split_ifs at h with hp
  obtain rfl := Except.ok.inj h
  obtain ⟨hl, hf⟩ := State.laid_of_run hc hin ho (State.laid_start c) hs
  exact hl.layered hc hin hf hp

/-- Whatever order the vertices of each round are looked at in, a layout of a circuit in which no
input has input pins is the layering of its vertices by the longest paths to them. -/
theorem layered_of_layOutBy {calls : List VertexCircuit.Call}
    (hin : ∀ v, (VertexCircuit.of calls).hasKind .input v → (VertexCircuit.of calls).pins v = 0)
    (ho : ∀ k gs, (order k gs).Perm gs) (h : layOutBy order (VertexCircuit.of calls) = .ok g) :
    Layered (VertexCircuit.of calls) g :=
  layered_of_wired (VertexCircuit.wired_of calls) hin ho h

/-- Two lines with a vertex on the first and then one on both that crosses them. -/
def crossing : VertexCircuit :=
  .of [.addVertex .lineStart, .addVertex .lineStart, .addVertex (.onLines .h 1),
    .addVertex (.onLines .swap 2), .addVertex .lineEnd, .addVertex .lineEnd,
    .addLink ⟨0, 0, 2, 0⟩, .addLink ⟨2, 0, 3, 1⟩, .addLink ⟨1, 0, 3, 0⟩,
    .addLink ⟨3, 0, 4, 0⟩, .addLink ⟨3, 1, 5, 0⟩]

theorem layered_crossing : ∃ g, layOutBy (fun _ => List.reverse) crossing = .ok g ∧
    g.lines = [[some ⟨0, 0⟩, some ⟨2, 0⟩, some ⟨3, 1⟩, some ⟨5, 0⟩],
      [some ⟨1, 0⟩, none, some ⟨3, 0⟩, some ⟨4, 0⟩]] ∧ Layered crossing g := by
  have hin : ∀ v, crossing.hasKind .input v → crossing.pins v = 0 := by
    intro v hv
    have hi : crossing.inputs = [0, 1] := by decide +kernel
    have hm : v ∈ [0, 1] := hi ▸ VertexCircuit.mem_inputs.mpr hv
    rcases List.mem_pair.mp hm with rfl | rfl
    · rfl
    · rfl
  have hg : layOutBy (fun _ => List.reverse) crossing =
      .ok ⟨[[some ⟨0, 0⟩, some ⟨2, 0⟩, some ⟨3, 1⟩, some ⟨5, 0⟩],
        [some ⟨1, 0⟩, none, some ⟨3, 0⟩, some ⟨4, 0⟩]], 4⟩ := by
    decide +kernel
  exact ⟨_, hg, rfl, layered_of_layOutBy hin (fun _ gs => List.reverse_perm gs) hg⟩

end Grid

end CircuitForms
