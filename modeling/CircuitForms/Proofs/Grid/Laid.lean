import CircuitForms.Proofs.Grid.Round

/-! # What every round preserves

Between rounds the cells met so far lie on chains of links from the starts of the
lines, each vertex met so far is met on all its pins at one step, and some line has
just come to each vertex that is ready. The invariant says this of the cells alone,
without the order in which vertices are looked at.
-/

namespace CircuitForms.Grid.State

variable {c : VertexCircuit} {s s' : State} {order : Nat → List Group → List Group}

/-- A line meets a cell at a step. -/
def At (s : State) (j k : Nat) (x : Cell) : Prop :=
  ∃ l, s.lines[j]? = some l ∧ l.cells[k]? = some (some x)

structure Laid (c : VertexCircuit) (s : State) : Prop where
  length_lines : s.lines.length = c.lineCount
  length_cells : ∀ l ∈ s.lines, l.cells.length = s.steps
  start : ∀ j x, s.At j 0 x ↔ ∃ v, c.inputs[j]? = some v ∧ x = ⟨v, 0⟩
  /-- A cell after the start is where the cell before it on its line leads. -/
  arrive : ∀ j k y, s.At j (k + 1) y →
    ∃ m x, m ≤ k ∧ s.At j m x ∧ c.next? x = some y ∧ ∀ n z, m < n → n ≤ k → ¬ s.At j n z
  front : ∀ j l, s.lines[j]? = some l → l.finished = false →
    ∃ k, s.At j k l.front ∧ ∀ n z, k < n → ¬ s.At j n z
  /-- Nothing follows an output. -/
  ends : ∀ j k x, s.At j k x → c.hasKind .output x.vertex → ∀ n z, k < n → ¬ s.At j n z
  finished : ∀ j l, s.lines[j]? = some l →
    (l.finished = true ↔ ∃ k x, s.At j k x ∧ c.hasKind .output x.vertex)
  /-- A vertex is met on all its pins at once. -/
  whole : ∀ j k v p, s.At j (k + 1) ⟨v, p⟩ → ∀ q < c.pins v, ∃ j', s.At j' (k + 1) ⟨v, q⟩
  /-- A vertex is met as soon as some line that it needs has come to it. -/
  prompt : ∀ j k v p, s.At j (k + 1) ⟨v, p⟩ → ∃ j' q x, s.At j' (k + 1) ⟨v, q⟩ ∧ s.At j' k x
  fresh : ∀ v, s.Ready c v → ∃ j p k x, s.Waits c j ⟨v, p⟩ ∧ k + 1 = s.steps ∧ s.At j k x
  placed : ∃ vs : List Nat, vs.Nodup ∧ vs.length = s.placed ∧
    ∀ v, v ∈ vs ↔ ∃ j k p, s.At j k ⟨v, p⟩

theorem At.unique {j k : Nat} {x y : Cell} (hx : s.At j k x) (hy : s.At j k y) : x = y := by
  obtain ⟨l, hl, hx⟩ := hx
  obtain ⟨l', hl', hy⟩ := hy
  obtain rfl := Option.some.inj (hl.symm.trans hl')
  exact Option.some.inj (Option.some.inj (hx.symm.trans hy))

/-- A line has one last cell. -/
theorem At.last_unique {j k m : Nat} {x y : Cell} (hx : s.At j k x)
    (hxlast : ∀ n z, k < n → ¬ s.At j n z) (hy : s.At j m y)
    (hylast : ∀ n z, m < n → ¬ s.At j n z) : x = y := by
  rcases Nat.lt_trichotomy k m with hlt | rfl | hlt
  · exact absurd hy (hxlast m y hlt)
  · exact hx.unique hy
  · exact absurd hx (hylast k x hlt)

namespace Laid

variable (h : Laid c s)

include h

theorem step_lt {j k : Nat} {x : Cell} (hx : s.At j k x) : k < s.steps := by
  obtain ⟨l, hl, hx⟩ := hx
  rw [← h.length_cells l (List.mem_of_getElem? hl)]
  exact (List.getElem?_eq_some_iff.mp hx).1

theorem not_at_zero (hc : c.Wired) (hin : ∀ v, c.hasKind .input v → c.pins v = 0) {j : Nat}
    {x y : Cell} (hn : c.next? x = some y) : ¬ s.At j 0 y := by
  intro hy
  obtain ⟨v, hv, rfl⟩ := (h.start _ _).mp hy
  have hlt := hc.pin_lt hn
  rw [hin v (VertexCircuit.mem_inputs.mp (List.mem_of_getElem? hv))] at hlt
  exact Nat.not_lt_zero _ hlt

/-- No line comes back to a cell, and no other line comes to it. -/
theorem at_inj (hc : c.Wired) (hin : ∀ v, c.hasKind .input v → c.pins v = 0) {j j' k k' : Nat}
    {x : Cell} (hx : s.At j k x) (hx' : s.At j' k' x) : j = j' ∧ k = k' := by
  -- Two places of a cell come from one cell before it, which has one place by induction.
  induction k using Nat.strongRecOn generalizing j j' k' x with
  | ind k ih =>
    cases k with
    | zero =>
      cases k' with
      | zero =>
        obtain ⟨v, hv, rfl⟩ := (h.start _ _).mp hx
        obtain ⟨v', hv', he⟩ := (h.start _ _).mp hx'
        obtain rfl : v = v' := congrArg Cell.vertex he
        have hlt := (List.getElem?_eq_some_iff.mp hv).1
        exact ⟨(List.getElem?_inj hlt c.inputs_nodup).mp (hv.trans hv'.symm), rfl⟩
      | succ k' =>
        obtain ⟨m, y, -, -, hn, -⟩ := h.arrive _ _ _ hx'
        exact absurd hx (h.not_at_zero hc hin hn)
    | succ k =>
      obtain ⟨m, y, hm, hy, hn, hgap⟩ := h.arrive _ _ _ hx
      cases k' with
      | zero => exact absurd hx' (h.not_at_zero hc hin hn)
      | succ k' =>
        obtain ⟨m', y', hm', hy', hn', hgap'⟩ := h.arrive _ _ _ hx'
        obtain rfl := hc.next?_inj hn hn'
        obtain ⟨rfl, rfl⟩ := ih m (by omega) hy hy'
        refine ⟨rfl, ?_⟩
        rcases Nat.lt_trichotomy k k' with hlt | rfl | hlt
        · exact absurd hx (hgap' _ _ (by omega) hlt)
        · rfl
        · exact absurd hx' (hgap _ _ (by omega) hlt)

/-- Two lines never wait at one pin. -/
theorem waits_inj (hc : c.Wired) (hin : ∀ v, c.hasKind .input v → c.pins v = 0) {j j' : Nat}
    {x : Cell} (hx : s.Waits c j x) (hx' : s.Waits c j' x) : j = j' := by
  obtain ⟨l, hl, hf, hn⟩ := hx
  obtain ⟨l', hl', hf', hn'⟩ := hx'
  obtain ⟨k, hk, -⟩ := h.front j l hl hf
  obtain ⟨k', hk', -⟩ := h.front j' l' hl' hf'
  rw [hc.next?_inj hn hn'] at hk
  exact (h.at_inj hc hin hk hk').1

/-- A vertex at which a line waits has not been met. -/
theorem not_at_of_waits (hc : c.Wired) (hin : ∀ v, c.hasKind .input v → c.pins v = 0)
    {j j' k v p q : Nat} (hw : s.Waits c j ⟨v, p⟩) : ¬ s.At j' k ⟨v, q⟩ := by
  intro ha
  obtain ⟨l, hl, hf, hn⟩ := hw
  have hp := hc.pin_lt hn
  cases k with
  | zero =>
    obtain ⟨u, hu, he⟩ := (h.start _ _).mp ha
    obtain rfl : v = u := congrArg Cell.vertex he
    rw [hin v (VertexCircuit.mem_inputs.mp (List.mem_of_getElem? hu))] at hp
    exact absurd hp (Nat.not_lt_zero _)
  | succ k =>
    obtain ⟨i, hi⟩ := h.whole _ _ _ _ ha p hp
    obtain ⟨m, y, hm, hy, hny, -⟩ := h.arrive _ _ _ hi
    obtain ⟨n, hfront, hlast⟩ := h.front j l hl hf
    obtain rfl := hc.next?_inj hn hny
    obtain ⟨rfl, rfl⟩ := h.at_inj hc hin hfront hy
    exact hlast _ _ (Nat.lt_succ_of_le hm) hi

end Laid

namespace Step

variable (h : Laid c s) (hs : Step c s s')

include hs

theorem line {j : Nat} {l' : Line} (hl' : s'.lines[j]? = some l') :
    ∃ l, s.lines[j]? = some l ∧
      ((∃ x, s.Waits c j x ∧ s.Ready c x.vertex ∧ l' = moved c l x) ∨
        ((∀ x, s.Waits c j x → ¬ s.Ready c x.vertex) ∧ l' = stayed l)) := by
  have hj : j < s.lines.length := hs.length ▸ (List.getElem?_eq_some_iff.mp hl').1
  have hl := List.getElem?_eq_getElem hj
  refine ⟨_, hl, ?_⟩
  by_cases hm : ∃ x, s.Waits c j x ∧ s.Ready c x.vertex
  · obtain ⟨x, hx, hr⟩ := hm
    have he := hs.move j _ x hl hx hr
    exact .inl ⟨x, hx, hr, Option.some.inj (hl'.symm.trans he)⟩
  · have hn : ∀ x, s.Waits c j x → ¬ s.Ready c x.vertex := fun x hx hr => hm ⟨x, hx, hr⟩
    exact .inr ⟨hn, Option.some.inj (hl'.symm.trans (hs.stay j _ hl hn))⟩

theorem cells {j : Nat} {l l' : Line} (hl : s.lines[j]? = some l) (hl' : s'.lines[j]? = some l') :
    ∃ o, l'.cells = l.cells ++ [o] ∧ ∀ x, o = some x ↔ s.Waits c j x ∧ s.Ready c x.vertex := by
  obtain ⟨l₁, hl₁, ⟨x, hx, hr, rfl⟩ | ⟨hn, rfl⟩⟩ := hs.line hl'
  · obtain rfl := Option.some.inj (hl.symm.trans hl₁)
    refine ⟨some x, by unfold moved; split <;> rfl, fun y => ?_⟩
    constructor
    · intro he
      obtain rfl := Option.some.inj he
      exact ⟨hx, hr⟩
    · rintro ⟨hy, -⟩
      rw [hx.unique hy]
  · obtain rfl := Option.some.inj (hl.symm.trans hl₁)
    exact ⟨none, rfl, fun y => ⟨(fun he => nomatch he), fun hy => absurd hy.2 (hn y hy.1)⟩⟩

include h

theorem at_iff {j k : Nat} {x : Cell} :
    s'.At j k x ↔ s.At j k x ∨ (k = s.steps ∧ s.Waits c j x ∧ s.Ready c x.vertex) := by
  constructor
  · rintro ⟨l', hl', hx⟩
    obtain ⟨l, hl, -⟩ := hs.line hl'
    obtain ⟨o, ho, hox⟩ := hs.cells hl hl'
    have hlen := h.length_cells l (List.mem_of_getElem? hl)
    rw [ho, List.getElem?_append] at hx
    split at hx
    · exact .inl ⟨l, hl, hx⟩
    · rw [List.getElem?_singleton] at hx
      split_ifs at hx with hk
      exact .inr ⟨by omega, (hox x).mp (Option.some.inj hx)⟩
  · have hsome : ∀ {l}, s.lines[j]? = some l → ∃ l', s'.lines[j]? = some l' := by
      intro l hl
      have hj : j < s'.lines.length := hs.length ▸ (List.getElem?_eq_some_iff.mp hl).1
      exact ⟨_, List.getElem?_eq_getElem hj⟩
    rintro (⟨l, hl, hx⟩ | ⟨rfl, hw, hr⟩)
    · obtain ⟨l', hl'⟩ := hsome hl
      obtain ⟨o, ho, -⟩ := hs.cells hl hl'
      refine ⟨l', hl', ?_⟩
      rw [ho, List.getElem?_append_left (List.getElem?_eq_some_iff.mp hx).1, hx]
    · obtain ⟨l, hl, -⟩ := id hw
      obtain ⟨l', hl'⟩ := hsome hl
      obtain ⟨o, ho, hox⟩ := hs.cells hl hl'
      refine ⟨l', hl', ?_⟩
      rw [ho, ← h.length_cells l (List.mem_of_getElem? hl), List.getElem?_concat_length,
        (hox x).mpr ⟨hw, hr⟩]

theorem at_old {j k : Nat} {x : Cell} (hk : k < s.steps) : s'.At j k x ↔ s.At j k x := by
  rw [at_iff h hs]
  exact ⟨fun ha => ha.resolve_right fun he => by omega, .inl⟩

theorem at_new {j : Nat} {x : Cell} :
    s'.At j s.steps x ↔ s.Waits c j x ∧ s.Ready c x.vertex := by
  rw [at_iff h hs]
  constructor
  · rintro (hx | hx)
    · exact absurd (h.step_lt hx) (Nat.lt_irrefl _)
    · exact hx.2
  · exact fun hx => .inr ⟨rfl, hx⟩

theorem waits_new {j : Nat} {x : Cell} (hw : s'.Waits c j x) :
    (∃ y, s'.At j s.steps y) ∨ (s.Waits c j x ∧ ¬ s.Ready c x.vertex) := by
  obtain ⟨l', hl', hf, hn⟩ := hw
  obtain ⟨l, hl, ⟨y, hy, hr, rfl⟩ | ⟨hstay, rfl⟩⟩ := hs.line hl'
  · exact .inl ⟨y, (at_new h hs).mpr ⟨hy, hr⟩⟩
  · have hx : s.Waits c j x := ⟨l, hl, hf, hn⟩
    exact .inr ⟨hx, hstay x hx⟩

end Step

namespace Laid

variable (h : Laid c s) (hs : Step c s s')

include h hs

theorem step_start (j : Nat) (x : Cell) :
    s'.At j 0 x ↔ ∃ v, c.inputs[j]? = some v ∧ x = ⟨v, 0⟩ := by
  rw [Step.at_iff h hs, h.start]
  constructor
  · rintro (hx | ⟨hz, ⟨l, hl, hf, -⟩, -⟩)
    · exact hx
    · obtain ⟨k, hk, -⟩ := h.front j l hl hf
      exact absurd (h.step_lt hk) (by omega)
  · exact .inl

theorem step_arrive (j k : Nat) (y : Cell) (hy : s'.At j (k + 1) y) :
    ∃ m x, m ≤ k ∧ s'.At j m x ∧ c.next? x = some y ∧ ∀ n z, m < n → n ≤ k → ¬ s'.At j n z := by
  rcases (Step.at_iff h hs).mp hy with hy | ⟨hk, ⟨l, hl, hf, hn⟩, -⟩
  · have hlt := h.step_lt hy
    obtain ⟨m, x, hm, hx, hn, hgap⟩ := h.arrive j k y hy
    refine ⟨m, x, hm, (Step.at_old h hs (by omega)).mpr hx, hn, fun n z hmn hnk hz => ?_⟩
    exact hgap n z hmn hnk ((Step.at_old h hs (by omega)).mp hz)
  · obtain ⟨m, hm, hlast⟩ := h.front j l hl hf
    have hlt := h.step_lt hm
    refine ⟨m, l.front, by omega, (Step.at_old h hs hlt).mpr hm, hn, fun n z hmn hnk hz => ?_⟩
    exact hlast n z hmn ((Step.at_old h hs (by omega)).mp hz)

theorem step_front (j : Nat) (l' : Line) (hl' : s'.lines[j]? = some l') (hf : l'.finished = false) :
    ∃ k, s'.At j k l'.front ∧ ∀ n z, k < n → ¬ s'.At j n z := by
  obtain ⟨l, hl, ⟨x, hx, hr, rfl⟩ | ⟨hstay, rfl⟩⟩ := hs.line hl'
  · unfold moved at hf ⊢
    split_ifs at hf ⊢
    refine ⟨s.steps, (Step.at_new h hs).mpr ⟨hx, hr⟩, fun n z hn hz => ?_⟩
    rcases (Step.at_iff h hs).mp hz with hz | ⟨rfl, -⟩
    · exact absurd (h.step_lt hz) (by omega)
    · exact Nat.lt_irrefl _ hn
  · obtain ⟨k, hk, hlast⟩ := h.front j l hl hf
    refine ⟨k, (Step.at_iff h hs).mpr (.inl hk), fun n z hn hz => ?_⟩
    rcases (Step.at_iff h hs).mp hz with hz | ⟨-, hw, hr⟩
    · exact hlast n z hn hz
    · exact hstay z hw hr

theorem step_ends (j k : Nat) (x : Cell) (hx : s'.At j k x) (ho : c.hasKind .output x.vertex)
    (n : Nat) (z : Cell) (hn : k < n) : ¬ s'.At j n z := by
  intro hz
  rcases (Step.at_iff h hs).mp hx with hx | ⟨rfl, -⟩
  · rcases (Step.at_iff h hs).mp hz with hz | ⟨-, ⟨l, hl, hf, -⟩, -⟩
    · exact h.ends j k x hx ho n z hn hz
    · rw [(h.finished j l hl).mpr ⟨k, x, hx, ho⟩] at hf
      exact Bool.noConfusion hf
  · rcases (Step.at_iff h hs).mp hz with hz | ⟨rfl, -⟩
    · exact absurd (h.step_lt hz) (by omega)
    · exact Nat.lt_irrefl _ hn

theorem step_finished (j : Nat) (l' : Line) (hl' : s'.lines[j]? = some l') :
    l'.finished = true ↔ ∃ k x, s'.At j k x ∧ c.hasKind .output x.vertex := by
  obtain ⟨l, hl, ⟨x, hx, hr, rfl⟩ | ⟨hstay, rfl⟩⟩ := hs.line hl'
  · by_cases ho : c.hasKind .output x.vertex
    · rw [moved, if_pos ho]
      exact ⟨fun _ => ⟨_, x, (Step.at_new h hs).mpr ⟨hx, hr⟩, ho⟩, fun _ => rfl⟩
    · rw [moved, if_neg ho]
      refine ⟨Bool.noConfusion, ?_⟩
      rintro ⟨k, y, hy, hyo⟩
      rcases (Step.at_iff h hs).mp hy with hy | ⟨-, hy, -⟩
      · obtain ⟨l₁, hl₁, hf, -⟩ := hx
        rw [(h.finished j l₁ hl₁).mpr ⟨k, y, hy, hyo⟩] at hf
        exact Bool.noConfusion hf
      · exact absurd (hx.unique hy ▸ hyo) ho
  · refine (h.finished j l hl).trans ?_
    constructor
    · rintro ⟨k, y, hy, ho⟩
      exact ⟨k, y, (Step.at_iff h hs).mpr (.inl hy), ho⟩
    · rintro ⟨k, y, hy, ho⟩
      rcases (Step.at_iff h hs).mp hy with hy | ⟨-, hw, hr⟩
      · exact ⟨k, y, hy, ho⟩
      · exact absurd hr (hstay y hw)

theorem step_whole (j k v p : Nat) (hp : s'.At j (k + 1) ⟨v, p⟩) (q : Nat) (hq : q < c.pins v) :
    ∃ j', s'.At j' (k + 1) ⟨v, q⟩ := by
  rcases (Step.at_iff h hs).mp hp with hp | ⟨hk, -, hr⟩
  · obtain ⟨j', hj'⟩ := h.whole j k v p hp q hq
    exact ⟨j', (Step.at_iff h hs).mpr (.inl hj')⟩
  · obtain ⟨j', hj'⟩ := hr.2 q hq
    exact ⟨j', (Step.at_iff h hs).mpr (.inr ⟨hk, hj', hr⟩)⟩

theorem step_prompt (j k v p : Nat) (hp : s'.At j (k + 1) ⟨v, p⟩) :
    ∃ j' q x, s'.At j' (k + 1) ⟨v, q⟩ ∧ s'.At j' k x := by
  rcases (Step.at_iff h hs).mp hp with hp | ⟨hk, -, hr⟩
  · obtain ⟨j', q, x, hq, hx⟩ := h.prompt j k v p hp
    exact ⟨j', q, x, (Step.at_iff h hs).mpr (.inl hq), (Step.at_iff h hs).mpr (.inl hx)⟩
  · obtain ⟨j', q, m, x, hw, hm, hx⟩ := h.fresh v hr
    obtain rfl : m = k := by omega
    exact ⟨j', q, x, (Step.at_iff h hs).mpr (.inr ⟨hk, hw, hr⟩),
      (Step.at_iff h hs).mpr (.inl hx)⟩

theorem step_fresh (v : Nat) (hr : s'.Ready c v) :
    ∃ j p k x, s'.Waits c j ⟨v, p⟩ ∧ k + 1 = s'.steps ∧ s'.At j k x := by
  by_contra hno
  have hold : ∀ j p, s'.Waits c j ⟨v, p⟩ → s.Waits c j ⟨v, p⟩ ∧ ¬ s.Ready c v := by
    intro j p hw
    rcases Step.waits_new h hs hw with ⟨y, hy⟩ | hx
    · exact absurd ⟨j, p, s.steps, y, hw, hs.steps.symm, hy⟩ hno
    · exact hx
  obtain ⟨⟨j, p, hw⟩, hall⟩ := hr
  refine (hold j p hw).2 ⟨⟨j, p, (hold j p hw).1⟩, fun q hq => ?_⟩
  obtain ⟨i, hi⟩ := hall q hq
  exact ⟨i, (hold i q hi).1⟩

theorem step_at_iff {v : Nat} :
    (∃ j k p, s'.At j k ⟨v, p⟩) ↔ (∃ j k p, s.At j k ⟨v, p⟩) ∨ s.Ready c v := by
  constructor
  · rintro ⟨j, k, p, ha⟩
    rcases (Step.at_iff h hs).mp ha with ha | ⟨-, -, hr⟩
    · exact .inl ⟨j, k, p, ha⟩
    · exact .inr hr
  · rintro (⟨j, k, p, ha⟩ | hr)
    · exact ⟨j, k, p, (Step.at_iff h hs).mpr (.inl ha)⟩
    · obtain ⟨j, p, hw⟩ := hr.1
      exact ⟨j, s.steps, p, (Step.at_new h hs).mpr ⟨hw, hr⟩⟩

theorem step_placed (hc : c.Wired) (hin : ∀ v, c.hasKind .input v → c.pins v = 0) :
    ∃ vs : List Nat, vs.Nodup ∧ vs.length = s'.placed ∧
      ∀ v, v ∈ vs ↔ ∃ j k p, s'.At j k ⟨v, p⟩ := by
  obtain ⟨vs, hvs, hlen, hmem⟩ := h.placed
  obtain ⟨ws, hws, -, hplaced, hready⟩ := hs.placed
  refine ⟨vs ++ ws, List.nodup_append'.mpr ⟨hvs, hws, ?_⟩, ?_, fun v => ?_⟩
  · intro v hv hw
    obtain ⟨j, k, p, ha⟩ := (hmem v).mp hv
    obtain ⟨⟨i, q, hq⟩, -⟩ := (hready v).mp hw
    exact h.not_at_of_waits hc hin hq ha
  · rw [List.length_append, hlen, hplaced]
  · rw [List.mem_append, hmem, hready, h.step_at_iff hs]

theorem step (hc : c.Wired) (hin : ∀ v, c.hasKind .input v → c.pins v = 0) : Laid c s' where
  length_lines := hs.length.trans h.length_lines
  length_cells := by
    intro l' hl'
    obtain ⟨j, hj⟩ := List.mem_iff_getElem?.mp hl'
    obtain ⟨l, hl, -⟩ := hs.line hj
    obtain ⟨o, ho, -⟩ := hs.cells hl hj
    rw [ho, List.length_append, h.length_cells l (List.mem_of_getElem? hl), hs.steps]
    rfl
  start := h.step_start hs
  arrive := h.step_arrive hs
  front := h.step_front hs
  ends := h.step_ends hs
  finished := h.step_finished hs
  whole := h.step_whole hs
  prompt := h.step_prompt hs
  fresh := h.step_fresh hs
  placed := h.step_placed hs hc hin

end Laid

theorem start_line {j : Nat} {l : Line} (hl : (start c).lines[j]? = some l) :
    ∃ v, c.inputs[j]? = some v ∧ l = ⟨[some ⟨v, 0⟩], ⟨v, 0⟩, false⟩ := by
  rw [start, List.getElem?_map, Option.map_eq_some_iff] at hl
  obtain ⟨v, hv, rfl⟩ := hl
  exact ⟨v, hv, rfl⟩

theorem at_start {j k : Nat} {x : Cell} :
    (start c).At j k x ↔ k = 0 ∧ ∃ v, c.inputs[j]? = some v ∧ x = ⟨v, 0⟩ := by
  constructor
  · rintro ⟨l, hl, hx⟩
    obtain ⟨v, hv, rfl⟩ := start_line hl
    obtain ⟨hk, he⟩ := List.getElem?_eq_some_iff.mp hx
    obtain rfl : k = 0 := by simpa using hk
    exact ⟨rfl, v, hv, (Option.some.inj he).symm⟩
  · rintro ⟨rfl, v, hv, rfl⟩
    exact ⟨⟨[some ⟨v, 0⟩], ⟨v, 0⟩, false⟩, by simp [start, hv], rfl⟩

theorem laid_start (c : VertexCircuit) : Laid c (start c) := by
  have hsteps : ∀ {j v : Nat}, c.inputs[j]? = some v → (start c).steps = 1 := by
    intro j v hv
    have hpos : 0 < c.inputs.length := List.length_pos_of_mem (List.mem_of_getElem? hv)
    exact if_neg hpos.ne'
  constructor
  case length_lines => simp [start, VertexCircuit.lineCount]
  case length_cells =>
    intro l hl
    obtain ⟨j, hj⟩ := List.mem_iff_getElem?.mp hl
    obtain ⟨v, hv, rfl⟩ := start_line hj
    exact (hsteps hv).symm
  case start => exact fun j x => at_start.trans (and_iff_right rfl)
  -- Nothing has arrived yet: every cell stands at step 0.
  case arrive => exact fun j k y hy => absurd (at_start.mp hy).1 (Nat.succ_ne_zero k)
  case front =>
    intro j l hl hf
    obtain ⟨v, hv, rfl⟩ := start_line hl
    refine ⟨0, at_start.mpr ⟨rfl, v, hv, rfl⟩, fun n z hn hz => ?_⟩
    exact absurd (at_start.mp hz).1 hn.ne'
  case ends =>
    intro j k x hx ho n z hn hz
    exact absurd (at_start.mp hz).1 (Nat.ne_zero_of_lt hn)
  case finished =>
    intro j l hl
    obtain ⟨v, hv, rfl⟩ := start_line hl
    refine ⟨Bool.noConfusion, ?_⟩
    rintro ⟨k, x, hx, ho⟩
    obtain ⟨-, u, hu, rfl⟩ := at_start.mp hx
    have hi := VertexCircuit.mem_inputs.mp (List.mem_of_getElem? hu)
    exact absurd ho (VertexCircuit.not_output_of_input hi)
  case whole => exact fun j k v p hp => absurd (at_start.mp hp).1 (Nat.succ_ne_zero k)
  case prompt => exact fun j k v p hp => absurd (at_start.mp hp).1 (Nat.succ_ne_zero k)
  case fresh =>
    intro v hr
    obtain ⟨⟨j, p, hw⟩, -⟩ := hr
    obtain ⟨l, hl, -, -⟩ := id hw
    obtain ⟨u, hu, rfl⟩ := start_line hl
    exact ⟨j, p, 0, ⟨u, 0⟩, hw, (hsteps hu).symm, at_start.mpr ⟨rfl, u, hu, rfl⟩⟩
  case placed =>
    refine ⟨c.inputs, c.inputs_nodup, rfl, fun v => ?_⟩
    rw [List.mem_iff_getElem?]
    constructor
    · rintro ⟨j, hj⟩
      exact ⟨j, 0, 0, at_start.mpr ⟨rfl, v, hj, rfl⟩⟩
    · rintro ⟨j, k, p, ha⟩
      obtain ⟨-, u, hu, he⟩ := at_start.mp ha
      obtain rfl : v = u := congrArg Cell.vertex he
      exact ⟨j, hu⟩

theorem laid_of_run (hc : c.Wired) (hin : ∀ v, c.hasKind .input v → c.pins v = 0)
    (ho : ∀ k gs, (order k gs).Perm gs) {n : Nat} (h : Laid c s) (hrun : run order c n s = .ok s') :
    Laid c s' ∧ s'.isFinished := by
  induction n generalizing s with
  | zero =>
    rw [run] at hrun
    split_ifs at hrun with hf
    obtain rfl := Except.ok.inj hrun
    exact ⟨h, hf⟩
  | succ n ih =>
    rw [run] at hrun
    split_ifs at hrun with hf
    · obtain rfl := Except.ok.inj hrun
      exact ⟨h, hf⟩
    · obtain ⟨s₁, hs₁, hrun⟩ := bind_eq_ok.mp hrun
      have hstep := round_ok hc (ho _) (fun j j' x => h.waits_inj hc hin) hs₁
      exact ih (h.step hstep hc hin) hrun

end CircuitForms.Grid.State
