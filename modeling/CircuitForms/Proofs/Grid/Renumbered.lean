import CircuitForms.Proofs.Grid.Layable
import CircuitForms.Proofs.Grid.Reading
import CircuitForms.Proofs.Vertex.Renumbering

/-! # Laying out renumbered vertices

When the vertices of a circuit are renumbered, every round places the same vertices
under their new numbers. A layout is therefore the layout of the other circuit with
its cells renumbered, whatever orders the vertices are looked at in.
-/

namespace CircuitForms.Grid

open VertexCircuit

variable {c c' : VertexCircuit} {f : Nat → Nat} {e : Equiv.Perm Nat} {s s' t : State}
  {order order' : Nat → List Group → List Group} {g : Grid}

def Line.renumber (f : Nat → Nat) (l : Line) : Line :=
  ⟨l.cells.map (Option.map (Cell.renumber f)), l.front.renumber f, l.finished⟩

def State.renumber (f : Nat → Nat) (s : State) : State :=
  ⟨s.lines.map (Line.renumber f), s.steps, s.placed⟩

def renumber (f : Nat → Nat) (g : Grid) : Grid :=
  ⟨g.lines.map (List.map (Option.map (Cell.renumber f))), g.steps⟩

namespace State

theorem line_renumber {j : Nat} {m : Line} :
    (s.renumber f).lines[j]? = some m ↔ ∃ l, s.lines[j]? = some l ∧ l.renumber f = m := by
  rw [renumber, List.getElem?_map, Option.map_eq_some_iff]

theorem isFinished_renumber (f : Nat → Nat) (s : State) :
    (s.renumber f).isFinished = s.isFinished := by
  simp [isFinished, renumber, Line.renumber, Function.comp_def]

theorem start_renumber (h : Maps f c c') : start c' = (start c).renumber f := by
  simp [start, renumber, Line.renumber, Cell.renumber, h.inputs, h.lineCount]

theorem stayed_renumber (f : Nat → Nat) (l : Line) :
    stayed (l.renumber f) = (stayed l).renumber f := by
  simp [stayed, Line.renumber]

section Renumbers

variable (h : Renumbers e c c')

include h

theorem moved_renumber (l : Line) (x : Cell) :
    moved c' (l.renumber e) (x.renumber e) = (moved c l x).renumber e := by
  have ho : c'.hasKind .output (x.renumber e).vertex = c.hasKind .output x.vertex :=
    h.hasKind_apply _ _
  rw [moved, moved, ho]
  split <;> simp [Line.renumber]

variable (hc : c.Wired) (hc' : c'.Wired)

include hc hc'

theorem waits_renumber {j : Nat} {x : Cell} :
    (s.renumber e).Waits c' j (x.renumber e) ↔ s.Waits c j x := by
  constructor
  · rintro ⟨m, hm, hf, hn⟩
    obtain ⟨l, hl, rfl⟩ := line_renumber.mp hm
    exact ⟨l, hl, hf, (h.next?_eq_some hc hc').mp hn⟩
  · rintro ⟨l, hl, hf, hn⟩
    exact ⟨l.renumber e, line_renumber.mpr ⟨l, hl, rfl⟩, hf, (h.next?_eq_some hc hc').mpr hn⟩

theorem ready_renumber {v : Nat} : (s.renumber e).Ready c' (e v) ↔ s.Ready c v := by
  have hw : ∀ j p, (s.renumber e).Waits c' j ⟨e v, p⟩ ↔ s.Waits c j ⟨v, p⟩ := fun j p =>
    waits_renumber h hc hc' (x := ⟨v, p⟩)
  simp only [Ready, hw, h.pins_apply]

theorem Step.line_eq_renumber (hs : Step c s s') (ht : Step c' (s.renumber e) t) {j : Nat}
    {l : Line} (hl : s.lines[j]? = some l) : t.lines[j]? = (s'.renumber e).lines[j]? := by
  have hl' : (s.renumber e).lines[j]? = some (l.renumber e) := line_renumber.mpr ⟨l, hl, rfl⟩
  by_cases hm : ∃ x, s.Waits c j x ∧ s.Ready c x.vertex
  · obtain ⟨x, hx, hr⟩ := hm
    have hmove := ht.move j _ (x.renumber e) hl' ((waits_renumber h hc hc').mpr hx)
      ((ready_renumber h hc hc').mpr hr)
    rw [hmove, moved_renumber h, eq_comm, line_renumber]
    exact ⟨_, hs.move j l x hl hx hr, rfl⟩
  · have hn : ∀ y, (s.renumber e).Waits c' j y → ¬ (s.renumber e).Ready c' y.vertex := by
      intro y hy hr
      obtain ⟨x, rfl⟩ := Cell.exists_renumber e y
      exact hm ⟨x, (waits_renumber h hc hc').mp hy, (ready_renumber h hc hc').mp hr⟩
    rw [ht.stay j _ hl' hn, stayed_renumber, eq_comm, line_renumber]
    exact ⟨_, hs.stay j l hl fun x hx hr => hm ⟨x, hx, hr⟩, rfl⟩

theorem Step.placed_eq (hs : Step c s s') (ht : Step c' (s.renumber e) t) :
    t.placed = s'.placed := by
  obtain ⟨vs, hvs, -, hplaced, hready⟩ := hs.placed
  obtain ⟨us, hus, -, hplaced', hready'⟩ := ht.placed
  have hperm : us.Perm (vs.map e) := by
    refine (List.perm_ext_iff_of_nodup hus (hvs.map e.injective)).mpr fun u => ?_
    obtain ⟨v, rfl⟩ := e.surjective u
    rw [hready', ready_renumber h hc hc', List.mem_map_of_injective e.injective, hready]
  have hlength : us.length = vs.length := by simpa using hperm.length_eq
  rw [hplaced', hplaced, hlength]
  rfl

theorem Step.eq_renumber (hs : Step c s s') (ht : Step c' (s.renumber e) t) :
    t = s'.renumber e := by
  have hlines : t.lines = (s'.renumber e).lines := by
    refine List.ext_getElem? fun j => ?_
    cases hl : s.lines[j]? with
    | some l => exact hs.line_eq_renumber h hc hc' ht hl
    | none =>
      have hle := List.getElem?_eq_none_iff.mp hl
      rw [List.getElem?_eq_none (by simpa [ht.length, renumber] using hle),
        List.getElem?_eq_none (by simpa [hs.length, renumber] using hle)]
  have hsteps : t.steps = s'.steps := by rw [ht.steps, hs.steps]; rfl
  have hplaced := hs.placed_eq h hc hc' ht
  cases t
  obtain rfl := hlines
  obtain rfl := hsteps
  obtain rfl := hplaced
  rfl

variable (hin : ∀ v, c.hasKind .input v → c.pins v = 0) (ho : ∀ k gs, (order k gs).Perm gs)
  (ho' : ∀ k gs, (order' k gs).Perm gs)

include hin ho ho'

theorem run_renumber {n : Nat} (hl : Laid c s) (hl' : Laid c' (s.renumber e))
    (hs : run order c n s = .ok s') (ht : run order' c' n (s.renumber e) = .ok t) :
    t = s'.renumber e := by
  have hin' := h.pins_input hin
  -- A round on either side takes renumbered states to renumbered states.
  induction n generalizing s with
  | zero =>
    rw [run, isFinished_renumber] at ht
    rw [run] at hs
    split_ifs at hs ht
    obtain rfl := Except.ok.inj hs
    exact (Except.ok.inj ht).symm
  | succ n ih =>
    rw [run, isFinished_renumber] at ht
    rw [run] at hs
    split_ifs at hs ht
    · obtain rfl := Except.ok.inj hs
      exact (Except.ok.inj ht).symm
    · obtain ⟨s₁, hs₁, hs⟩ := bind_eq_ok.mp hs
      obtain ⟨t₁, ht₁, ht⟩ := bind_eq_ok.mp ht
      have hstep := round_ok hc (ho _) (fun j j' x => hl.waits_inj hc hin) hs₁
      have hstep' := round_ok hc' (ho' _) (fun j j' x => hl'.waits_inj hc' hin') ht₁
      have hl₁' := hl'.step hstep' hc' hin'
      obtain rfl := hstep.eq_renumber h hc hc' hstep'
      exact ih (hl.step hstep hc hin) hl₁' hs ht

end Renumbers

end State

section Layouts

variable (h : Renumbers e c c') (hc : c.Wired) (hc' : c'.Wired)
  (hin : ∀ v, c.hasKind .input v → c.pins v = 0) (ho : ∀ k gs, (order k gs).Perm gs)
  (ho' : ∀ k gs, (order' k gs).Perm gs)

include h hc hc' hin ho ho'

theorem eq_renumber_of_layOutBy {g' : Grid} (hg : layOutBy order c = .ok g)
    (hg' : layOutBy order' c' = .ok g') : g' = g.renumber e := by
  obtain ⟨s, hs, hg⟩ := bind_eq_ok.mp hg
  obtain ⟨t, ht, hg'⟩ := bind_eq_ok.mp hg'
  split_ifs at hg hg'
  obtain rfl := Except.ok.inj hg
  obtain rfl := Except.ok.inj hg'
  have hstart : (State.start c').Laid c' := State.laid_start c'
  rw [State.start_renumber h.toMaps] at ht hstart
  rw [h.vertexCount] at ht
  obtain rfl := State.run_renumber h hc hc' hin ho ho' (State.laid_start c) hstart hs ht
  simp [renumber, State.renumber, Line.renumber]

/-- The layout of a circuit under other numbers is its layout with the cells renumbered. -/
theorem layOutBy_renumber {g' : Grid} :
    layOutBy order' c' = .ok g' ↔ ∃ g, layOutBy order c = .ok g ∧ g.renumber e = g' := by
  have hiff : (∃ g', layOutBy order' c' = .ok g') ↔ ∃ g, layOutBy order c = .ok g := by
    rw [exists_layOutBy_iff hc hin ho, exists_layOutBy_iff hc' (h.pins_input hin) ho',
      h.layable_iff hc hc']
  constructor
  · intro hg'
    obtain ⟨g, hg⟩ := hiff.mp ⟨g', hg'⟩
    exact ⟨g, hg, (eq_renumber_of_layOutBy h hc hc' hin ho ho' hg hg').symm⟩
  · rintro ⟨g, hg, rfl⟩
    obtain ⟨g', hg'⟩ := hiff.mpr ⟨g, hg⟩
    rw [hg', eq_renumber_of_layOutBy h hc hc' hin ho ho' hg hg']

end Layouts

/-- Numbers beyond the vertices are not on a layout. -/
theorem renumber_congr (hg : Layered c g) {f' : Nat → Nat}
    (hf : ∀ v < c.vertexCount, f v = f' v) : g.renumber f = g.renumber f' := by
  have hcell : ∀ l ∈ g.lines, ∀ x, some x ∈ l → x.renumber f = x.renumber f' := by
    intro l hl x hx
    obtain ⟨j, hj⟩ := List.mem_iff_getElem?.mp hl
    obtain ⟨k, hk⟩ := List.mem_iff_getElem?.mp hx
    have hmeets : g.Meets x.vertex k := ⟨j, x.pin, cell?_eq_some.mpr ⟨l, hj, hk⟩⟩
    rw [Cell.renumber, Cell.renumber, hf _ (hg.meets_lt _ _ hmeets).1]
  have hlines : g.lines.map (List.map (Option.map (Cell.renumber f))) =
      g.lines.map (List.map (Option.map (Cell.renumber f'))) := by
    refine List.map_congr_left fun l hl => List.map_congr_left fun o ho => ?_
    cases o with
    | none => rfl
    | some x => exact congrArg some (hcell l hl x ho)
  rw [renumber, hlines, renumber]

theorem cell?_renumber (f : Nat → Nat) (g : Grid) (j k : Nat) :
    (g.renumber f).cell? j k = (g.cell? j k).map (Cell.renumber f) := by
  refine Option.ext fun y => ?_
  simp only [cell?_eq_some, Option.map_eq_some_iff, renumber, List.getElem?_map]
  constructor
  · rintro ⟨_, ⟨l, hl, rfl⟩, hy⟩
    rw [List.getElem?_map, Option.map_eq_some_iff] at hy
    obtain ⟨o, ho, hy⟩ := hy
    obtain ⟨x, rfl, rfl⟩ := Option.map_eq_some_iff.mp hy
    exact ⟨x, ⟨l, hl, ho⟩, rfl⟩
  · rintro ⟨x, ⟨l, hl, hx⟩, rfl⟩
    exact ⟨_, ⟨l, hl, rfl⟩, by rw [List.getElem?_map, hx]; rfl⟩

theorem reading_renumber (e : Equiv.Perm Nat) (g : Grid) :
    (g.renumber e).reading = g.reading.map e := by
  have hcount : (g.renumber e).lineCount = g.lineCount := List.length_map _
  have hcolumn : ∀ k, (g.renumber e).column k = (g.column k).map (Cell.renumber e) := by
    intro k
    simp only [column, hcount, cell?_renumber, List.map_filterMap]
  have hslice : ∀ k, ((g.renumber e).slice k).vertices = (g.slice k).vertices.map e := by
    intro k
    rw [slice, slice, ← eraseDups_map e.injective, hcolumn, List.map_map, List.map_map]
    rfl
  simp only [reading, slices, List.flatMap_map, hslice, List.map_flatMap]
  rfl

theorem routes_renumber (f : Nat → Nat) (g : Grid) :
    (g.renumber f).routes = g.routes.map (Prod.map (Cell.renumber f) id) := by
  have hcells : ∀ l : List (Option Cell),
      (l.map (Option.map (Cell.renumber f))).reduceOption = l.reduceOption.map (Cell.renumber f) :=
    fun l => by simp [List.reduceOption, List.filterMap_map, List.map_filterMap]
  simp [routes, renumber, List.zipIdx_map, List.flatMap_map, List.map_flatMap, hcells,
    Function.comp_def]

theorem lineThrough?_renumber (e : Equiv.Perm Nat) (g : Grid) (x : Cell) :
    (g.renumber e).lineThrough? (x.renumber e) = g.lineThrough? x := by
  have hcell : ((·.1 == x.renumber e) ∘ Prod.map (Cell.renumber e) id : Cell × Nat → Bool) =
      (·.1 == x) := by
    funext y
    exact Bool.eq_iff_iff.mpr (by simp [(Cell.renumber_injective e).eq_iff])
  rw [lineThrough?, routes_renumber, ← List.map_reverse, List.find?_map, hcell, Option.map_map,
    lineThrough?]
  rfl

end CircuitForms.Grid
