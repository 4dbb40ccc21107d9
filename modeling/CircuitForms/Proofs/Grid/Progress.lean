import CircuitForms.Proofs.Grid.Layering

/-! # Why a round fails

A round fails where an unfinished line leads nowhere, where a vertex that is ready lets
out more or fewer lines than it takes in, and where no vertex is ready. In a layable
circuit it never does. Of the vertices that are not placed yet take one to which only
placed ones lead: all its lines have come to it and wait there.
-/

namespace CircuitForms

namespace VertexCircuit

def Leads (c : VertexCircuit) (v u : Nat) : Prop :=
  ∃ l ∈ c.links.toList, l.source = v ∧ l.target = u

/-- What it takes to lay a circuit out on its lines. -/
structure Layable (c : VertexCircuit) : Prop where
  /-- Every line has somewhere to go from its start. -/
  input : ∀ v, c.hasKind .input v → (c.next? ⟨v, 0⟩).isSome
  /-- Within the lines a vertex lets out the lines it takes in, one at least, and no pin is free. -/
  inner : ∀ v x, c.vertex? v = some x → ¬ c.hasKind .input v → ¬ c.hasKind .output v →
    x.inputs = x.outputs ∧ 0 < x.inputs ∧ (∀ p < x.inputs, (c.previous? ⟨v, p⟩).isSome) ∧
      ∀ p < x.outputs, (c.next? ⟨v, p⟩).isSome
  /-- An output ends some lines, and none of its input pins is free. -/
  output : ∀ v x, c.vertex? v = some x → c.hasKind .output v →
    0 < x.inputs ∧ ∀ p < x.inputs, (c.previous? ⟨v, p⟩).isSome
  /-- No link leaves an output, or an input by another pin than the first. -/
  link : ∀ l ∈ c.links.toList,
    ¬ c.hasKind .output l.source ∧ (c.hasKind .input l.source → l.sourcePin = 0)
  acyclic : ∀ v, ¬ Relation.TransGen c.Leads v v

variable {c : VertexCircuit} {v : Nat}

theorem hasKind_of_vertex? {x : Descriptor} (hx : c.vertex? v = some x) {k : Kind} :
    c.hasKind k v ↔ x.kind = k := by
  simp [hasKind, hx]

theorem exists_first (hc : ∀ v, ¬ Relation.TransGen c.Leads v v) {P : Nat → Prop}
    (hP : ∃ v < c.vertexCount, P v) :
    ∃ v < c.vertexCount, P v ∧ ∀ u < c.vertexCount, c.Leads u v → ¬ P u := by
  have : IsStrictOrder Nat (Relation.TransGen c.Leads) :=
    { irrefl := hc, trans := fun _ _ _ => Relation.TransGen.trans }
  have hwf : {v | v < c.vertexCount}.WellFoundedOn (Relation.TransGen c.Leads) :=
    (Set.finite_lt_nat c.vertexCount).wellFoundedOn
  obtain ⟨v, hv, hvP⟩ := hP
  obtain ⟨⟨m, hm⟩, hmP, hmin⟩ := hwf.has_min {v | P v} ⟨⟨v, hv⟩, hvP⟩
  exact ⟨m, hm, hmP, fun u hu hum huP => hmin ⟨u, hu⟩ huP (.single hum)⟩

end VertexCircuit

namespace Grid.State

variable {c : VertexCircuit} {s s' : State} {order : List Group → List Group}
  {f : CircuitFault}

inductive Blocked (c : VertexCircuit) (s : State) : LayoutFault → Prop
  | unwired {j : Nat} {l : Line} : s.lines[j]? = some l → l.finished = false →
    c.next? l.front = none → Blocked c s (.unwired l.front.pin l.front.vertex j)
  | unequalPins {v : Nat} {x : Descriptor} : s.Ready c v → c.vertex? v = some x →
    x.kind ≠ .output → x.inputs ≠ x.outputs →
    Blocked c s (.unequalPins v x.kind x.inputs x.outputs)
  | noneReady : (∀ v, ¬ s.Ready c v) → Blocked c s (.noneReady s.steps)

theorem arrivals_eq_error (h : s.arrivals c = .error f) :
    ∃ j l, s.lines[j]? = some l ∧ l.finished = false ∧ c.next? l.front = none ∧
      f = .notLayable (.unwired l.front.pin l.front.vertex j) := by
  obtain ⟨⟨l, j⟩, hl, ha⟩ := exists_of_mapM_eq_error (map_eq_error.mp h)
  refine ⟨j, l, List.mem_zipIdx_iff_getElem?.mp hl, ?_⟩
  dsimp only at ha
  unfold arrival? at ha
  split_ifs at ha with hf
  cases hn : c.next? l.front with
  | some x =>
    rw [hn] at ha
    cases ha
  | none =>
    rw [hn] at ha
    exact ⟨Bool.eq_false_iff.mpr hf, rfl, (Except.error.inj ha).symm⟩

theorem isReady_eq_error {g : Group} {x : Descriptor} (hx : c.vertex? g.vertex = some x)
    (h : isReady c g = .error f) : IsFull c g ∧ x.kind ≠ .output ∧ x.inputs ≠ x.outputs ∧
      f = .notLayable (.unequalPins g.vertex x.kind x.inputs x.outputs) := by
  simp only [isReady, hx] at h
  split_ifs at h with hlt hne
  refine ⟨?_, hne.1, hne.2, (Except.error.inj h).symm⟩
  simpa [IsFull, VertexCircuit.pins, hx] using hlt

theorem readyGroups_eq_error {gs : List Group} (h : readyGroups c gs = .error f) :
    ∃ g ∈ gs, isReady c g = .error f := by
  induction gs with
  | nil => cases h
  | cons g gs ih =>
    rcases bind_eq_error.mp h with hg | ⟨b, -, h⟩
    · exact ⟨g, List.mem_cons_self, hg⟩
    · rcases bind_eq_error.mp h with hgs | ⟨rest, -, h⟩
      · obtain ⟨g', hg', he⟩ := ih hgs
        exact ⟨g', List.mem_cons_of_mem g hg', he⟩
      · cases h

theorem isReady_of_readyGroups {gs rs : List Group} (h : readyGroups c gs = .ok rs) {g : Group}
    (hg : g ∈ gs) : ∃ b, isReady c g = .ok b := by
  induction gs generalizing rs with
  | nil => cases hg
  | cons g' gs ih =>
    obtain ⟨b, hb, h⟩ := bind_eq_ok.mp h
    obtain ⟨rest, hrest, -⟩ := bind_eq_ok.mp h
    rcases List.mem_cons.mp hg with rfl | hg
    · exact ⟨b, hb⟩
    · exact ih hrest hg

theorem equal_of_isReady {g : Group} {x : Descriptor} {b : Bool}
    (hx : c.vertex? g.vertex = some x) (hk : x.kind ≠ .output) (hf : IsFull c g)
    (h : isReady c g = .ok b) : x.inputs = x.outputs := by
  have hle : x.inputs ≤ g.arrivals.length := by simpa [IsFull, VertexCircuit.pins, hx] using hf
  simp only [isReady, hx, if_neg hle.not_gt] at h
  by_contra hne
  rw [if_pos ⟨hk, hne⟩] at h
  cases h

theorem vertex?_of_mem_groups {as : List Arrival} (h : s.arrivals c = .ok as) (hc : c.Wired)
    {g : Group} (hg : g ∈ groups as) : ∃ x, c.vertex? g.vertex = some x := by
  obtain ⟨⟨a, ha, hv⟩, -⟩ := mem_groups.mp hg
  obtain ⟨l, -, -, hn⟩ := (mem_arrivals h).mp ha
  have hlt := VertexCircuit.lt_of_pin_lt (hc.pin_lt hn)
  rw [hv] at hlt
  exact ⟨_, Array.getElem?_eq_getElem hlt⟩

theorem exists_full_group {as : List Arrival} (h : s.arrivals c = .ok as) (hc : c.Wired)
    (hd : ∀ j j' x, s.Waits c j x → s.Waits c j' x → j = j') {v : Nat} (hv : s.Ready c v) :
    ∃ g ∈ groups as, g.vertex = v ∧ IsFull c g := by
  obtain ⟨j, p, hj⟩ := hv.1
  have hg : ⟨v, as.filter (·.cell.vertex == v)⟩ ∈ groups as :=
    mem_groups.mpr ⟨⟨⟨j, v, p⟩, (mem_arrivals h).mpr hj, rfl⟩, rfl⟩
  exact ⟨_, hg, rfl, (isFull_iff h hc hd hg).mpr hv⟩

section Round

variable (hc : c.Wired) (ho : ∀ gs, (order gs).Perm gs)
  (hd : ∀ j j' x, s.Waits c j x → s.Waits c j' x → j = j')

include hc ho hd

theorem blocked_of_round (h : s.round order c = .error f) :
    ∃ l, f = .notLayable l ∧ Blocked c s l := by
  rcases bind_eq_error.mp h with has | ⟨as, has, h⟩
  · obtain ⟨j, l, hl, hf, hn, rfl⟩ := arrivals_eq_error has
    exact ⟨_, rfl, .unwired hl hf hn⟩
  rcases bind_eq_error.mp h with hrs | ⟨rs, hrs, h⟩
  · obtain ⟨g, hg, he⟩ := readyGroups_eq_error hrs
    have hg := (ho _).mem_iff.mp hg
    obtain ⟨x, hx⟩ := vertex?_of_mem_groups has hc hg
    obtain ⟨hfull, hk, hne, rfl⟩ := isReady_eq_error hx he
    exact ⟨_, rfl, .unequalPins ((isFull_iff has hc hd hg).mp hfull) hx hk hne⟩
  · obtain rfl := readyGroups_ok hrs
    split_ifs at h with hempty
    swap
    · cases h
    obtain rfl := Except.error.inj h
    refine ⟨_, rfl, .noneReady fun v hv => ?_⟩
    obtain ⟨g, hg, -, hfull⟩ := exists_full_group has hc hd hv
    have hmem : g ∈ (order (groups as)).filter (IsFull c ·) :=
      List.mem_filter.mpr ⟨(ho _).mem_iff.mpr hg, decide_eq_true hfull⟩
    rw [List.isEmpty_iff.mp hempty] at hmem
    cases hmem

theorem equal_of_round (h : s.round order c = .ok s') {v : Nat} {x : Descriptor}
    (hv : s.Ready c v) (hx : c.vertex? v = some x) (hk : x.kind ≠ .output) :
    x.inputs = x.outputs := by
  obtain ⟨as, has, h⟩ := bind_eq_ok.mp h
  obtain ⟨rs, hrs, -⟩ := bind_eq_ok.mp h
  obtain ⟨g, hg, rfl, hfull⟩ := exists_full_group has hc hd hv
  obtain ⟨b, hb⟩ := isReady_of_readyGroups hrs ((ho _).mem_iff.mpr hg)
  exact equal_of_isReady hx hk hfull hb

end Round

def Placed (s : State) (v : Nat) : Prop :=
  ∃ j k p, s.At j k ⟨v, p⟩

namespace Laid

variable (h : Laid c s)

include h

/-- A line that has met a cell that is no output waits there or has gone on from it. -/
theorem front_or_next {j k : Nat} {x : Cell} (hx : s.At j k x)
    (ho : ¬ c.hasKind .output x.vertex) :
    (∃ l, s.lines[j]? = some l ∧ l.finished = false ∧ l.front = x) ∨
      ∃ n y, k < n ∧ s.At j n y ∧ c.next? x = some y := by
  -- Where the line goes on, its next cell is the one at the least later step.
  by_cases hlater : ∃ n, k < n ∧ ∃ y, s.At j n y
  · right
    obtain ⟨n, ⟨hkn, y, hy⟩, hmin⟩ := wellFounded_lt.has_min {n | k < n ∧ ∃ y, s.At j n y} hlater
    obtain ⟨n, rfl⟩ := Nat.exists_eq_succ_of_ne_zero (Nat.ne_zero_of_lt hkn)
    obtain ⟨m, z, hmn, hz, hnext, hgap⟩ := h.arrive j n y hy
    have hkm : k = m := by
      rcases Nat.lt_trichotomy k m with hlt | rfl | hlt
      · exact absurd (Nat.lt_succ_of_le hmn) (hmin m ⟨hlt, z, hz⟩)
      · rfl
      · exact absurd hx (hgap k x hlt (Nat.le_of_lt_succ hkn))
    subst hkm
    obtain rfl := hx.unique hz
    exact ⟨_, y, hkn, hy, hnext⟩
  · left
    have hlast : ∀ n y, k < n → ¬ s.At j n y := fun n y hkn hy => hlater ⟨n, hkn, y, hy⟩
    obtain ⟨l, hl, -⟩ := id hx
    have hf : l.finished = false := by
      refine Bool.eq_false_iff.mpr fun hf => ?_
      obtain ⟨m, y, hy, hyo⟩ := (h.finished j l hl).mp hf
      exact ho (hx.last_unique hlast hy (h.ends j m y hy hyo) ▸ hyo)
    obtain ⟨m, hm, hmlast⟩ := h.front j l hl hf
    exact ⟨l, hl, hf, hm.last_unique hmlast hx hlast⟩

variable (hc : c.Wired) (hin : ∀ v, c.hasKind .input v → c.pins v = 0)

include hc hin

theorem pin_eq_zero {j k : Nat} {x : Cell} (hi : c.hasKind .input x.vertex) (hx : s.At j k x) :
    x.pin = 0 := by
  obtain rfl := h.eq_zero_of_input hc hin hi hx
  exact (h.input_of_zero hx).2

variable (hl : c.Layable)

include hl

theorem at_of_link {l : Link} (hmem : l ∈ c.links.toList) (hp : s.Placed l.source) :
    ∃ j k, s.At j k l.out := by
  obtain ⟨x, hx, hlt⟩ := hc.out_lt l hmem
  obtain ⟨ho, hzero⟩ := hl.link l hmem
  obtain ⟨j, k, p, hp⟩ := hp
  by_cases hi : c.hasKind .input l.source
  · have hpin : p = 0 := h.pin_eq_zero hc hin hi hp
    rw [hpin, ← hzero hi] at hp
    exact ⟨j, k, hp⟩
  · obtain ⟨m, rfl⟩ := h.exists_succ hi hp
    have hpin : l.sourcePin < c.pins l.source := by
      simpa [VertexCircuit.pins, hx, (hl.inner _ x hx hi ho).1] using hlt
    obtain ⟨j', hj'⟩ := h.whole j m _ p hp _ hpin
    exact ⟨j', m + 1, hj'⟩

theorem exists_waits_of_placed {l : Link} (hmem : l ∈ c.links.toList) (hp : s.Placed l.source)
    (hn : ¬ s.Placed l.target) : ∃ j, s.Waits c j l.into := by
  have hnext : c.next? l.out = some l.into := hc.next?_iff.mpr ⟨l, hmem, rfl, rfl⟩
  obtain ⟨j, k, hjk⟩ := h.at_of_link hc hin hl hmem hp
  rcases h.front_or_next hjk (hl.link l hmem).1 with ⟨m, hm, hf, hfront⟩ | ⟨n, z, -, hz, hz'⟩
  · exact ⟨j, m, hm, hf, hfront ▸ hnext⟩
  · obtain rfl := Option.some.inj (hnext.symm.trans hz')
    exact absurd ⟨j, n, _, hz⟩ hn

theorem ready_of_first {v : Nat} (hv : v < c.vertexCount) (hn : ¬ s.Placed v)
    (hfirst : ∀ u < c.vertexCount, c.Leads u v → s.Placed u) : s.Ready c v := by
  obtain ⟨x, hx⟩ : ∃ x, c.vertex? v = some x := ⟨_, Array.getElem?_eq_getElem hv⟩
  have hpins : c.pins v = x.inputs := by simp [VertexCircuit.pins, hx]
  have hi : ¬ c.hasKind .input v := by
    intro hi
    obtain ⟨j, hj⟩ := List.mem_iff_getElem?.mp (VertexCircuit.mem_inputs.mpr hi)
    exact hn ⟨j, 0, 0, (h.start _ _).mpr ⟨v, hj, rfl⟩⟩
  have htaken : 0 < x.inputs ∧ ∀ p < x.inputs, (c.previous? ⟨v, p⟩).isSome := by
    by_cases ho : c.hasKind .output v
    · exact hl.output v x hx ho
    · obtain ⟨-, hpos, hprevious, -⟩ := hl.inner v x hx hi ho
      exact ⟨hpos, hprevious⟩
  have hwaits : ∀ p < x.inputs, ∃ j, s.Waits c j ⟨v, p⟩ := by
    intro p hp
    obtain ⟨a, ha⟩ := Option.isSome_iff_exists.mp (htaken.2 p hp)
    obtain ⟨l, hmem, -, hinto⟩ := hc.previous?_iff.mp ha
    obtain ⟨y, hy, -⟩ := hc.out_lt l hmem
    have htarget : l.target = v := congrArg Cell.vertex hinto
    rw [← hinto]
    apply h.exists_waits_of_placed hc hin hl hmem
    · exact hfirst _ (VertexCircuit.lt_of_vertex? hy) ⟨l, hmem, rfl, htarget⟩
    · rwa [htarget]
  obtain ⟨j, hj⟩ := hwaits 0 htaken.1
  exact ⟨⟨j, 0, hj⟩, fun p hp => hwaits p (hpins ▸ hp)⟩

theorem exists_ready (hn : ∃ v < c.vertexCount, ¬ s.Placed v) : ∃ v, s.Ready c v := by
  obtain ⟨v, hv, hnv, hfirst⟩ := VertexCircuit.exists_first hl.acyclic hn
  exact ⟨v, h.ready_of_first hc hin hl hv hnv fun u hu huv => not_not.mp (hfirst u hu huv)⟩

/-- A line that is not finished leads on. -/
theorem next?_isSome {j : Nat} {l : Line} (hj : s.lines[j]? = some l)
    (hf : l.finished = false) : (c.next? l.front).isSome := by
  obtain ⟨k, hk, -⟩ := h.front j l hj hf
  by_cases hi : c.hasKind .input l.front.vertex
  · have hsome := hl.input _ hi
    rwa [← h.pin_eq_zero hc hin hi hk] at hsome
  · obtain ⟨m, rfl⟩ := h.exists_succ hi hk
    have hlt := h.pin_lt hc hk
    obtain ⟨x, hx⟩ : ∃ x, c.vertex? l.front.vertex = some x :=
      ⟨_, Array.getElem?_eq_getElem (VertexCircuit.lt_of_pin_lt hlt)⟩
    have ho : ¬ c.hasKind .output l.front.vertex := by
      intro ho
      rw [(h.finished j l hj).mpr ⟨m + 1, _, hk, ho⟩] at hf
      cases hf
    obtain ⟨heq, -, -, hled⟩ := hl.inner _ x hx hi ho
    apply hled
    simpa [VertexCircuit.pins, hx, heq] using hlt

theorem not_blocked (hf : s.isFinished = false) {b : LayoutFault} : ¬ Blocked c s b := by
  intro hb
  cases hb with
  | unwired hj hfin hnone =>
    have hsome := h.next?_isSome hc hin hl hj hfin
    rw [hnone] at hsome
    cases hsome
  | unequalPins hr hx hko hne =>
    obtain ⟨⟨j, p, l, -, -, hn⟩, -⟩ := hr
    have hlt := hc.pin_lt hn
    refine hne (hl.inner _ _ hx ?_ ?_).1
    · intro hi
      rw [hin _ hi] at hlt
      exact Nat.not_lt_zero p hlt
    · rwa [VertexCircuit.hasKind_of_vertex? hx]
  | noneReady hnone =>
    obtain ⟨l, hmem, hfin⟩ := List.all_eq_false.mp hf
    obtain ⟨j, hj⟩ := List.mem_iff_getElem?.mp hmem
    have hfin := Bool.eq_false_iff.mpr hfin
    obtain ⟨x, hx⟩ := Option.isSome_iff_exists.mp (h.next?_isSome hc hin hl hj hfin)
    obtain ⟨v, hv⟩ := h.exists_ready hc hin hl
      ⟨x.vertex, VertexCircuit.lt_of_pin_lt (hc.pin_lt hx), fun ⟨i, k, q, ha⟩ =>
        h.not_at_of_waits hc hin ⟨l, hj, hfin, hx⟩ ha⟩
    exact hnone v hv

end Laid

end Grid.State

end CircuitForms
