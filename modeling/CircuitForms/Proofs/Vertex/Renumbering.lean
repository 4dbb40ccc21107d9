import CircuitForms.Proofs.Grid.Progress

/-! # Renumbered vertices

Two circuits of vertices that differ only in the numbers of their vertices and in the
order of their links lead everywhere alike. Numbers beyond the vertices matter to
neither, so the renumbering may be taken to be a permutation of all numbers.
-/

namespace CircuitForms

def Cell.renumber (f : Nat → Nat) (x : Cell) : Cell :=
  ⟨f x.vertex, x.pin⟩

def Link.renumber (f : Nat → Nat) (l : Link) : Link :=
  ⟨f l.source, l.sourcePin, f l.target, l.targetPin⟩

theorem Cell.renumber_injective (e : Equiv.Perm Nat) : Function.Injective (Cell.renumber e) := by
  rintro ⟨v, p⟩ ⟨u, q⟩ h
  obtain ⟨hv, rfl⟩ := Cell.mk.inj h
  obtain rfl := e.injective hv
  rfl

theorem Cell.exists_renumber (e : Equiv.Perm Nat) (y : Cell) : ∃ x : Cell, y = x.renumber e :=
  ⟨⟨e.symm y.vertex, y.pin⟩, by rw [renumber, e.apply_symm_apply]⟩

theorem Cell.isSome_renumber_iff {e : Equiv.Perm Nat} {f g : Cell → Option Cell} {x : Cell}
    (h : ∀ y, g (x.renumber e) = some (y.renumber e) ↔ f x = some y) :
    (g (x.renumber e)).isSome ↔ (f x).isSome := by
  rw [Option.isSome_iff_exists, Option.isSome_iff_exists]
  constructor
  · rintro ⟨y, hy⟩
    obtain ⟨y, rfl⟩ := Cell.exists_renumber e y
    exact ⟨y, (h y).mp hy⟩
  · exact fun ⟨y, hy⟩ => ⟨y.renumber e, (h y).mpr hy⟩

theorem Link.renumber_injective (e : Equiv.Perm Nat) : Function.Injective (Link.renumber e) := by
  rintro ⟨s, p, t, q⟩ ⟨s', p', t', q'⟩ h
  obtain ⟨hs, rfl, ht, rfl⟩ := Link.mk.inj h
  obtain rfl := e.injective hs
  obtain rfl := e.injective ht
  rfl

namespace VertexCircuit

variable {c c' : VertexCircuit} {f : Nat → Nat} {e : Equiv.Perm Nat}

/-- A one-to-one map of vertices that keeps the links with their pins and the order of the lines. -/
structure Maps (f : Nat → Nat) (c c' : VertexCircuit) : Prop where
  vertices : Set.BijOn f (Set.Iio c.vertexCount) (Set.Iio c'.vertexCount)
  inputs : c'.inputs = c.inputs.map f
  link : ∀ l, l ∈ c'.links.toList ↔ ∃ k ∈ c.links.toList, k.renumber f = l

/-- Such a map that also keeps the vertices, so that only their numbers differ. -/
structure Renumbers (f : Nat → Nat) (c c' : VertexCircuit) : Prop extends Maps f c c' where
  vertex : ∀ v < c.vertexCount, c'.vertex? (f v) = c.vertex? v

theorem Maps.vertexCount (h : Maps f c c') : c'.vertexCount = c.vertexCount := by
  simpa using h.vertices.ncard_eq.symm

theorem Maps.lineCount (h : Maps f c c') : c'.lineCount = c.lineCount := by
  rw [VertexCircuit.lineCount, h.inputs, List.length_map, VertexCircuit.lineCount]

/-- A renumbering is the same as one that agrees with it on the vertices. -/
theorem Renumbers.congr (h : Renumbers f c c') (hc : c.Wired) {f' : Nat → Nat}
    (hf : ∀ v < c.vertexCount, f v = f' v) : Renumbers f' c c' where
  vertices := h.vertices.congr hf
  inputs := by
    rw [h.inputs]
    refine List.map_congr_left fun v hv => hf v ?_
    obtain ⟨x, hx, -⟩ := hasKind_iff.mp (mem_inputs.mp hv)
    exact lt_of_vertex? hx
  link l := by
    rw [h.link]
    refine exists_congr fun k => and_congr_right fun hk => ?_
    obtain ⟨x, hx, -⟩ := hc.out_lt k hk
    obtain ⟨y, hy, -⟩ := hc.into_lt k hk
    rw [Link.renumber, Link.renumber, hf _ (lt_of_vertex? hx), hf _ (lt_of_vertex? hy)]
  vertex v hv := hf v hv ▸ h.vertex v hv

/-- A renumbering of the vertices is a permutation of all numbers as far as the vertices go. -/
theorem Renumbers.exists_perm (h : Renumbers f c c') (hc : c.Wired) :
    ∃ e : Equiv.Perm Nat, (∀ v < c.vertexCount, f v = e v) ∧ Renumbers e c c' := by
  have hfinite : Finite {v | v ∈ Set.Iio c.vertexCount} := Set.finite_Iio c.vertexCount
  let e := (h.vertices.equiv f).extendSubtype
  have he : ∀ v < c.vertexCount, f v = e v := fun v hv =>
    ((h.vertices.equiv f).extendSubtype_apply_of_mem v hv).symm
  exact ⟨e, he, h.congr hc he⟩

namespace Renumbers

variable (h : Renumbers e c c')

include h

theorem lt_iff {v : Nat} : e v < c'.vertexCount ↔ v < c.vertexCount := by
  constructor
  · intro hv
    obtain ⟨u, hu, he⟩ := h.vertices.surjOn hv
    rwa [← e.injective he]
  · exact fun hv => h.vertices.mapsTo hv

theorem vertex?_apply (v : Nat) : c'.vertex? (e v) = c.vertex? v := by
  rcases Nat.lt_or_ge v c.vertexCount with hv | hv
  · exact h.vertex v hv
  · have hv' : c'.vertexCount ≤ e v := Nat.le_of_not_lt fun hlt => hv.not_gt (h.lt_iff.mp hlt)
    rw [vertex?, vertex?, Array.getElem?_eq_none hv, Array.getElem?_eq_none hv']

theorem hasKind_apply (k : Kind) (v : Nat) : c'.hasKind k (e v) = c.hasKind k v := by
  rw [hasKind, hasKind, h.vertex?_apply]

theorem pins_apply (v : Nat) : c'.pins (e v) = c.pins v := by
  rw [pins, pins, h.vertex?_apply]

theorem pins_input (hin : ∀ v, c.hasKind .input v → c.pins v = 0) (v : Nat)
    (hv : c'.hasKind .input v) : c'.pins v = 0 := by
  obtain ⟨v, rfl⟩ := e.surjective v
  rw [h.hasKind_apply] at hv
  rw [h.pins_apply, hin v hv]

theorem mem_links {l : Link} : l.renumber e ∈ c'.links.toList ↔ l ∈ c.links.toList := by
  rw [h.link]
  constructor
  · rintro ⟨k, hk, he⟩
    rwa [← Link.renumber_injective e he]
  · exact fun hl => ⟨l, hl, rfl⟩

theorem next?_eq_some (hc : c.Wired) (hc' : c'.Wired) {x y : Cell} :
    c'.next? (x.renumber e) = some (y.renumber e) ↔ c.next? x = some y := by
  rw [hc.next?_iff, hc'.next?_iff]
  constructor
  · rintro ⟨l, hl, ho, hi⟩
    obtain ⟨k, hk, rfl⟩ := (h.link l).mp hl
    exact ⟨k, hk, Cell.renumber_injective e ho, Cell.renumber_injective e hi⟩
  · rintro ⟨k, hk, rfl, rfl⟩
    exact ⟨k.renumber e, h.mem_links.mpr hk, rfl, rfl⟩

theorem next?_isSome_apply (hc : c.Wired) (hc' : c'.Wired) (x : Cell) :
    (c'.next? (x.renumber e)).isSome ↔ (c.next? x).isSome :=
  Cell.isSome_renumber_iff fun _ => h.next?_eq_some hc hc'

theorem previous?_isSome_apply (hc : c.Wired) (hc' : c'.Wired) (x : Cell) :
    (c'.previous? (x.renumber e)).isSome ↔ (c.previous? x).isSome := by
  refine Cell.isSome_renumber_iff fun y => ?_
  rw [hc.previous?_eq_some_iff, hc'.previous?_eq_some_iff, h.next?_eq_some hc hc']

theorem symm : Renumbers e.symm c' c where
  vertices := by
    refine ⟨fun v hv => ?_, e.symm.injective.injOn, fun v hv => ?_⟩
    · rwa [Set.mem_Iio, ← h.lt_iff, e.apply_symm_apply]
    · exact ⟨e v, h.lt_iff.mpr hv, e.symm_apply_apply v⟩
  inputs := by
    rw [h.inputs, List.map_map, e.symm_comp_self, List.map_id]
  link l := by
    rw [← h.mem_links]
    constructor
    · exact fun hl => ⟨_, hl, by simp [Link.renumber]⟩
    · rintro ⟨k, hk, rfl⟩
      simpa [Link.renumber] using hk
  vertex v _ := by
    rw [← h.vertex?_apply, e.apply_symm_apply]

theorem leads_iff {v u : Nat} : c'.Leads (e v) (e u) ↔ c.Leads v u := by
  constructor
  · rintro ⟨l, hl, hs, ht⟩
    obtain ⟨k, hk, rfl⟩ := (h.link l).mp hl
    exact ⟨k, hk, e.injective hs, e.injective ht⟩
  · rintro ⟨k, hk, rfl, rfl⟩
    exact ⟨k.renumber e, h.mem_links.mpr hk, rfl, rfl⟩

/-- Whether a circuit can be laid out does not depend on the numbers of its vertices. -/
theorem layable (hc : c.Wired) (hc' : c'.Wired) (hl : c.Layable) : c'.Layable where
  input v hv := by
    obtain ⟨v, rfl⟩ := e.surjective v
    rw [h.hasKind_apply] at hv
    exact (h.next?_isSome_apply hc hc' ⟨v, 0⟩).mpr (hl.input v hv)
  inner v x hx hi ho := by
    obtain ⟨v, rfl⟩ := e.surjective v
    rw [h.vertex?_apply] at hx
    rw [h.hasKind_apply] at hi ho
    obtain ⟨heq, hpos, hprevious, hnext⟩ := hl.inner v x hx hi ho
    refine ⟨heq, hpos, fun p hp => ?_, fun p hp => ?_⟩
    · exact (h.previous?_isSome_apply hc hc' ⟨v, p⟩).mpr (hprevious p hp)
    · exact (h.next?_isSome_apply hc hc' ⟨v, p⟩).mpr (hnext p hp)
  output v x hx ho := by
    obtain ⟨v, rfl⟩ := e.surjective v
    rw [h.vertex?_apply] at hx
    rw [h.hasKind_apply] at ho
    obtain ⟨hpos, hprevious⟩ := hl.output v x hx ho
    exact ⟨hpos, fun p hp => (h.previous?_isSome_apply hc hc' ⟨v, p⟩).mpr (hprevious p hp)⟩
  link l hmem := by
    obtain ⟨k, hk, rfl⟩ := (h.link l).mp hmem
    rw [Link.renumber, h.hasKind_apply, h.hasKind_apply]
    exact hl.link k hk
  acyclic v hv := hl.acyclic _ (hv.lift e.symm fun _ _ => h.symm.leads_iff.mpr)

theorem layable_iff (hc : c.Wired) (hc' : c'.Wired) : c'.Layable ↔ c.Layable :=
  ⟨h.symm.layable hc' hc, h.layable hc hc'⟩

end Renumbers

end VertexCircuit

end CircuitForms
