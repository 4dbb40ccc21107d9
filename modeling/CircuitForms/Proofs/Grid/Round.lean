import CircuitForms.Grid.Layout
import CircuitForms.Proofs.Vertex.Wiring

/-! # What a round does

In a round exactly those vertices are placed on each of whose input pins a line
waits. The lines that wait there move on, all others stay where they are. In what
order the vertices are looked at makes no difference.
-/

namespace CircuitForms.Grid

/-- Distinct numbers below a bound are all of them when there are enough. -/
theorem length_ge_iff_forall_mem {l : List Nat} {n : Nat} (hl : l.Nodup) (hlt : ∀ i ∈ l, i < n) :
    n ≤ l.length ↔ ∀ i < n, i ∈ l := by
  have hsub : l.toFinset ⊆ Finset.range n := fun i hi =>
    Finset.mem_range.mpr (hlt i (List.mem_toFinset.mp hi))
  have hcard : l.toFinset.card = l.length := List.toFinset_card_of_nodup hl
  constructor
  · intro hle i hi
    have he : l.toFinset = Finset.range n := by
      refine Finset.eq_of_subset_of_card_le hsub ?_
      rw [Finset.card_range, hcard]
      exact hle
    exact List.mem_toFinset.mp (he ▸ Finset.mem_range.mpr hi)
  · intro hall
    have hsup : Finset.range n ⊆ l.toFinset := fun i hi =>
      List.mem_toFinset.mpr (hall i (Finset.mem_range.mp hi))
    have hle := Finset.card_le_card hsup
    rwa [Finset.card_range, hcard] at hle

namespace State

variable {c : VertexCircuit} {s s' : State} {order : List Group → List Group}

def Waits (c : VertexCircuit) (s : State) (j : Nat) (x : Cell) : Prop :=
  ∃ l, s.lines[j]? = some l ∧ l.finished = false ∧ c.next? l.front = some x

/-- Lines wait at a vertex, one on each of its input pins. -/
def Ready (c : VertexCircuit) (s : State) (v : Nat) : Prop :=
  (∃ j p, s.Waits c j ⟨v, p⟩) ∧ ∀ p < c.pins v, ∃ j, s.Waits c j ⟨v, p⟩

theorem Waits.unique {j : Nat} {x y : Cell} (hx : s.Waits c j x) (hy : s.Waits c j y) : x = y := by
  obtain ⟨l, hl, -, hx⟩ := hx
  obtain ⟨l', hl', -, hy⟩ := hy
  obtain rfl := Option.some.inj (hl.symm.trans hl')
  exact Option.some.inj (hx.symm.trans hy)

theorem arrival?_eq_some {l : Line} {j : Nat} {a : Arrival} :
    arrival? c l j = .ok (some a) ↔
      l.finished = false ∧ c.next? l.front = some a.cell ∧ a.line = j := by
  rw [arrival?]
  split
  · simp_all
  · cases hn : c.next? l.front with
    | none => simp
    | some x =>
      simp only [Except.ok.injEq, Option.some.injEq]
      constructor
      · rintro rfl
        exact ⟨Bool.eq_false_iff.mpr ‹_›, rfl, rfl⟩
      · rintro ⟨-, rfl, rfl⟩
        rfl

theorem mem_arrivals {as : List Arrival} (h : s.arrivals c = .ok as) {a : Arrival} :
    a ∈ as ↔ s.Waits c a.line a.cell := by
  obtain ⟨r, hr, rfl⟩ := map_eq_ok.mp h
  rw [List.reduceOption_mem_iff, mem_of_mapM_eq_ok hr]
  constructor
  · rintro ⟨⟨l, j⟩, hl, ha⟩
    obtain ⟨hf, hn, rfl⟩ := arrival?_eq_some.mp ha
    exact ⟨l, List.mem_zipIdx_iff_getElem?.mp hl, hf, hn⟩
  · rintro ⟨l, hl, hf, hn⟩
    exact ⟨(l, a.line), List.mem_zipIdx_iff_getElem?.mpr hl, arrival?_eq_some.mpr ⟨hf, hn, rfl⟩⟩

theorem exists_waits {as : List Arrival} (h : s.arrivals c = .ok as) {j : Nat} {l : Line}
    (hl : s.lines[j]? = some l) (hf : l.finished = false) : ∃ x, s.Waits c j x := by
  obtain ⟨r, hr, -⟩ := map_eq_ok.mp h
  obtain ⟨b, -, ha⟩ := exists_of_mapM_eq_ok hr (@List.mem_zipIdx_iff_getElem? _ (l, j) _ |>.mpr hl)
  cases hn : c.next? l.front with
  | some x => exact ⟨x, l, hl, hf, hn⟩
  | none => simp [arrival?, hf, hn] at ha

theorem arrivals_nodup {as : List Arrival} (h : s.arrivals c = .ok as) :
    (as.map Arrival.line).Nodup := by
  obtain ⟨r, hr, rfl⟩ := map_eq_ok.mp h
  have hsub : ∀ {ls : List (Line × Nat)} {r : List (Option Arrival)},
      List.Forall₂ (fun x b => arrival? c x.1 x.2 = .ok b) ls r →
      (r.reduceOption.map Arrival.line).Sublist (ls.map Prod.snd) := by
    intro ls r hf
    induction hf with
    | nil => simp
    | @cons x b ls r hx _ ih =>
      cases b with
      | none =>
        rw [List.reduceOption_cons_of_none]
        exact ih.cons _
      | some a =>
        rw [List.reduceOption_cons_of_some, List.map_cons, List.map_cons,
          (arrival?_eq_some.mp hx).2.2]
        exact ih.cons_cons _
  refine (hsub (mapM_eq_ok.mp hr)).nodup ?_
  rw [List.zipIdx_map_snd]
  exact List.nodup_range'

theorem mem_groups {as : List Arrival} {g : Group} :
    g ∈ groups as ↔ (∃ a ∈ as, a.cell.vertex = g.vertex) ∧
      g.arrivals = as.filter (·.cell.vertex == g.vertex) := by
  simp only [groups, List.mem_map, List.mem_eraseDups]
  constructor
  · rintro ⟨v, ⟨a, ha, rfl⟩, rfl⟩
    exact ⟨⟨a, ha, rfl⟩, rfl⟩
  · rintro ⟨⟨a, ha, hv⟩, hg⟩
    exact ⟨g.vertex, ⟨a, ha, hv⟩, by rw [← hg]⟩

theorem groups_nodup (as : List Arrival) : ((groups as).map Group.vertex).Nodup := by
  simpa [groups, Function.comp_def] using nodup_eraseDups (as.map (·.cell.vertex))

def IsFull (c : VertexCircuit) (g : Group) : Prop :=
  c.pins g.vertex ≤ g.arrivals.length

instance (c : VertexCircuit) : DecidablePred (IsFull c) := fun g =>
  inferInstanceAs (Decidable (c.pins g.vertex ≤ g.arrivals.length))

theorem isReady_eq_ok {g : Group} {b : Bool} (h : isReady c g = .ok b) :
    b = decide (IsFull c g) := by
  rw [isReady] at h
  cases hv : c.vertex? g.vertex with
  | none => simp [hv] at h
  | some x =>
    have hp : c.pins g.vertex = x.inputs := by simp [VertexCircuit.pins, hv]
    simp only [hv] at h
    split_ifs at h with hlt hne
    · have hn : ¬ IsFull c g := by simpa [IsFull, hp] using hlt
      rw [← Except.ok.inj h, decide_eq_false hn]
    · have hf : IsFull c g := by simpa [IsFull, hp] using hlt
      rw [← Except.ok.inj h, decide_eq_true hf]

theorem readyGroups_ok {gs rs : List Group} (h : readyGroups c gs = .ok rs) :
    rs = gs.filter (IsFull c ·) := by
  induction gs generalizing rs with
  | nil => exact (Except.ok.inj h).symm
  | cons g gs ih =>
    obtain ⟨b, hb, h⟩ := bind_eq_ok.mp h
    obtain ⟨rest, hrest, h⟩ := bind_eq_ok.mp h
    have hrs := (Except.ok.inj h).symm
    rw [hrs, ih hrest, List.filter_cons, isReady_eq_ok hb]

/-- Where lines wait at different pins, the full groups are those of ready vertices. -/
theorem isFull_iff {as : List Arrival} (h : s.arrivals c = .ok as) (hc : c.Wired)
    (hd : ∀ j j' x, s.Waits c j x → s.Waits c j' x → j = j') {g : Group} (hg : g ∈ groups as) :
    IsFull c g ↔ s.Ready c g.vertex := by
  obtain ⟨⟨a, ha, hav⟩, hga⟩ := mem_groups.mp hg
  have hmem : ∀ p, p ∈ g.arrivals.map (·.cell.pin) ↔ ∃ j, s.Waits c j ⟨g.vertex, p⟩ := by
    intro p
    simp only [hga, List.mem_map, List.mem_filter, mem_arrivals h, beq_iff_eq]
    constructor
    · rintro ⟨a, ⟨ha, hv⟩, rfl⟩
      exact ⟨a.line, hv ▸ ha⟩
    · rintro ⟨j, hj⟩
      exact ⟨⟨j, g.vertex, p⟩, ⟨hj, rfl⟩, rfl⟩
  have hnodup : (g.arrivals.map (·.cell.pin)).Nodup := by
    rw [hga]
    refine (List.Nodup.of_map _ (arrivals_nodup h)).filter _ |>.map_on fun a ha b hb hab => ?_
    simp only [List.mem_filter, mem_arrivals h, beq_iff_eq] at ha hb
    obtain ⟨ja, va, pa⟩ := a
    obtain ⟨jb, vb, pb⟩ := b
    obtain ⟨ha, rfl⟩ := ha
    obtain ⟨hb, rfl⟩ := hb
    obtain rfl : pa = pb := hab
    obtain rfl : ja = jb := hd _ _ _ ha hb
    rfl
  have hlt : ∀ p ∈ g.arrivals.map (·.cell.pin), p < c.pins g.vertex := by
    intro p hp
    obtain ⟨j, l, -, -, hn⟩ := (hmem p).mp hp
    exact hc.pin_lt hn
  -- Distinct pins below a bound are as many as the bound exactly if all are there.
  have hcount := length_ge_iff_forall_mem hnodup hlt
  rw [List.length_map] at hcount
  rw [IsFull, hcount, Ready]
  simp only [hmem]
  exact ⟨fun hall => ⟨⟨a.line, a.cell.pin, hav ▸ (mem_arrivals h).mp ha⟩, hall⟩, And.right⟩

def moved (c : VertexCircuit) (l : Line) (x : Cell) : Line :=
  if c.hasKind .output x.vertex then { l with cells := l.cells ++ [some x], finished := true }
  else ⟨l.cells ++ [some x], x, false⟩

def stayed (l : Line) : Line :=
  { l with cells := l.cells ++ [none] }

/-- What a round does: the lines that wait at ready vertices move on, the others stay. -/
structure Step (c : VertexCircuit) (s s' : State) : Prop where
  steps : s'.steps = s.steps + 1
  length : s'.lines.length = s.lines.length
  wait : ∀ j l, s.lines[j]? = some l → l.finished = false → ∃ x, s.Waits c j x
  move : ∀ j l x, s.lines[j]? = some l → s.Waits c j x → s.Ready c x.vertex →
    s'.lines[j]? = some (moved c l x)
  stay : ∀ j l, s.lines[j]? = some l → (∀ x, s.Waits c j x → ¬ s.Ready c x.vertex) →
    s'.lines[j]? = some (stayed l)
  placed : ∃ vs : List Nat, vs.Nodup ∧ vs ≠ [] ∧ s'.placed = s.placed + vs.length ∧
    ∀ v, v ∈ vs ↔ s.Ready c v

theorem advance_of_mem {ready : List Group} {l : Line} {j : Nat} {x : Cell}
    (hx : ⟨j, x⟩ ∈ ready.flatMap Group.arrivals)
    (hu : ∀ a ∈ ready.flatMap Group.arrivals, a.line = j → a.cell = x) :
    advance c ready l j = moved c l x := by
  obtain ⟨a, ha⟩ : ∃ a, (ready.flatMap Group.arrivals).find? (·.line == j) = some a :=
    Option.isSome_iff_exists.mp (List.find?_isSome.mpr ⟨_, hx, by simp⟩)
  have hax := hu a (List.mem_of_find?_eq_some ha) (by simpa using List.find?_some ha)
  rw [advance, ha, moved, ← hax]

theorem advance_of_notMem {ready : List Group} {l : Line} {j : Nat}
    (hn : ∀ a ∈ ready.flatMap Group.arrivals, a.line ≠ j) :
    advance c ready l j = stayed l := by
  have hf : (ready.flatMap Group.arrivals).find? (·.line == j) = none :=
    List.find?_eq_none.mpr fun a ha => by simpa using hn a ha
  rw [advance, hf, stayed]

theorem getElem?_advance (ready : List Group) {j : Nat} {l : Line} (hl : s.lines[j]? = some l) :
    (s.lines.zipIdx.map fun (l, line) => advance c ready l line)[j]? =
      some (advance c ready l j) := by
  rw [List.getElem?_map, List.getElem?_zipIdx, hl]
  simp

section Ready

variable {as : List Arrival} {ready : List Group} (h : s.arrivals c = .ok as)
  (hr : ∀ g, g ∈ ready ↔ g ∈ groups as ∧ s.Ready c g.vertex)

include h hr

theorem mem_flatMap_arrivals {a : Arrival} :
    a ∈ ready.flatMap Group.arrivals ↔ s.Waits c a.line a.cell ∧ s.Ready c a.cell.vertex := by
  simp only [List.mem_flatMap, hr]
  constructor
  · rintro ⟨g, ⟨hg, hready⟩, ha⟩
    rw [(mem_groups.mp hg).2, List.mem_filter, beq_iff_eq] at ha
    exact ⟨(mem_arrivals h).mp ha.1, ha.2 ▸ hready⟩
  · rintro ⟨ha, hready⟩
    have ha' := (mem_arrivals h).mpr ha
    refine ⟨⟨a.cell.vertex, as.filter (·.cell.vertex == a.cell.vertex)⟩, ⟨?_, hready⟩, ?_⟩
    · exact mem_groups.mpr ⟨⟨a, ha', rfl⟩, rfl⟩
    · exact List.mem_filter.mpr ⟨ha', beq_self_eq_true _⟩

theorem mem_map_vertex {v : Nat} : v ∈ ready.map Group.vertex ↔ s.Ready c v := by
  simp only [List.mem_map, hr]
  constructor
  · rintro ⟨g, ⟨-, hready⟩, rfl⟩
    exact hready
  · intro hready
    obtain ⟨j, p, hj⟩ := hready.1
    have hg : ⟨v, as.filter (·.cell.vertex == v)⟩ ∈ groups as :=
      mem_groups.mpr ⟨⟨⟨j, v, p⟩, (mem_arrivals h).mpr hj, rfl⟩, rfl⟩
    exact ⟨_, ⟨hg, hready⟩, rfl⟩

end Ready

theorem round_ok (hc : c.Wired) (ho : ∀ gs, (order gs).Perm gs)
    (hd : ∀ j j' x, s.Waits c j x → s.Waits c j' x → j = j') (h : s.round order c = .ok s') :
    Step c s s' := by
  obtain ⟨as, has, h⟩ := bind_eq_ok.mp h
  obtain ⟨rs, hrs, h⟩ := bind_eq_ok.mp h
  obtain rfl := readyGroups_ok hrs
  -- The order of the groups does not matter: the full ones are those that are ready.
  have hfull : ∀ g, g ∈ (order (groups as)).filter (IsFull c ·) ↔
      g ∈ groups as ∧ s.Ready c g.vertex := by
    intro g
    rw [List.mem_filter, (ho _).mem_iff, decide_eq_true_iff]
    exact and_congr_right fun hg => isFull_iff has hc hd hg
  split_ifs at h with hne
  obtain rfl := Except.ok.inj h
  constructor
  case steps => rfl
  case length => simp
  case wait => exact fun j l hl hf => exists_waits has hl hf
  case move =>
    intro j l x hl hx hr
    rw [getElem?_advance _ hl, advance_of_mem ((mem_flatMap_arrivals has hfull).mpr ⟨hx, hr⟩)]
    rintro ⟨_, y⟩ ha rfl
    exact ((mem_flatMap_arrivals has hfull).mp ha).1.unique hx
  case stay =>
    intro j l hl hn
    rw [getElem?_advance _ hl, advance_of_notMem]
    rintro ⟨_, y⟩ ha rfl
    obtain ⟨hy, hr⟩ := (mem_flatMap_arrivals has hfull).mp ha
    exact hn y hy hr
  case placed =>
    refine ⟨((order (groups as)).filter (IsFull c ·)).map Group.vertex, ?_, ?_, ?_,
      fun v => mem_map_vertex has hfull⟩
    · refine (((ho _).map _).nodup_iff.mpr (groups_nodup as)).sublist ?_
      exact List.filter_sublist.map _
    · simpa using hne
    · simp

end State

end CircuitForms.Grid
