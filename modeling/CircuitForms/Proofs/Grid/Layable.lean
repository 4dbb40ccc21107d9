import CircuitForms.Proofs.Grid.Progress

/-! # Which circuits can be laid out

Every round that does not fail places some vertices for the first time, so there are no
more rounds than vertices: the rounds end with all lines finished or with a fault. They
end in a layout exactly if the circuit is layable, whatever the order is in which the
vertices of a round are looked at.
-/

namespace CircuitForms.Grid

variable {c : VertexCircuit} {s s' : State} {order : Nat → List Group → List Group}

namespace State

/-- The states after some rounds, none of which failed. -/
inductive Rounds (order : Nat → List Group → List Group) (c : VertexCircuit) :
    Nat → State → Prop
  | start : Rounds order c 0 (start c)
  | round {n : Nat} {s s' : State} : Rounds order c n s → s.isFinished = false →
    s.round (order s.steps) c = .ok s' → Rounds order c (n + 1) s'

/-- What a round adds to the placed vertices. -/
structure Places (s s' : State) (vs : List Nat) : Prop where
  ne_nil : vs ≠ []
  nodup : vs.Nodup
  fresh : ∀ v ∈ vs, ¬ s.Placed v
  placed_iff : ∀ v, s'.Placed v ↔ s.Placed v ∨ v ∈ vs
  count : s'.placed = s.placed + vs.length

theorem not_isFinished_of_waits {j : Nat} {x : Cell} (h : s.Waits c j x) :
    s.isFinished = false := by
  obtain ⟨l, hl, hf, -⟩ := h
  exact List.all_eq_false.mpr ⟨l, List.mem_of_getElem? hl, by simp [hf]⟩

namespace Laid

variable (h : Laid c s) (hc : c.Wired)

include h hc

theorem placed_lt {v : Nat} (hv : s.Placed v) : v < c.vertexCount := by
  obtain ⟨j, k, p, ha⟩ := hv
  exact h.vertex_lt hc ha

theorem placed_le : s.placed ≤ c.vertexCount := by
  obtain ⟨vs, hvs, hlen, hmem⟩ := h.placed
  have hsub : vs ⊆ List.range c.vertexCount := fun v hv =>
    List.mem_range.mpr (h.placed_lt hc ((hmem v).mp hv))
  have hle := (hvs.subperm hsub).length_le
  rwa [List.length_range, hlen] at hle

theorem placed_eq (hall : ∀ v < c.vertexCount, s.Placed v) : s.placed = c.vertexCount := by
  obtain ⟨vs, hvs, hlen, hmem⟩ := h.placed
  have hge := (length_ge_iff_forall_mem hvs fun v hv => h.placed_lt hc ((hmem v).mp hv)).mpr
    fun v hv => (hmem v).mpr (hall v hv)
  exact le_antisymm (h.placed_le hc) (hlen ▸ hge)

variable (hin : ∀ v, c.hasKind .input v → c.pins v = 0)

include hin

theorem places_of_step (hs : Step c s s') : ∃ vs, Places s s' vs ∧ ∀ v, v ∈ vs ↔ s.Ready c v := by
  obtain ⟨vs, hvs, hne, hcount, hready⟩ := hs.placed
  refine ⟨vs, ⟨hne, hvs, fun v hv => ?_, fun v => ?_, hcount⟩, hready⟩
  · rintro ⟨j, k, p, ha⟩
    obtain ⟨⟨i, q, hw⟩, -⟩ := (hready v).mp hv
    exact h.not_at_of_waits hc hin hw ha
  · rw [hready]
    exact h.step_at_iff hs

theorem placed_of_isFinished (hl : c.Layable) (hf : s.isFinished = true) {v : Nat}
    (hv : v < c.vertexCount) : s.Placed v := by
  by_contra hn
  obtain ⟨u, ⟨j, p, hw⟩, -⟩ := h.exists_ready hc hin hl ⟨v, hv, hn⟩
  rw [not_isFinished_of_waits hw] at hf
  cases hf

omit hc hin in
theorem next?_isSome_of_at (hf : s.isFinished = true) {j k : Nat} {x : Cell} (hx : s.At j k x)
    (ho : ¬ c.hasKind .output x.vertex) : (c.next? x).isSome := by
  rcases h.front_or_next hx ho with ⟨l, hl, hfin, -⟩ | ⟨n, y, -, -, hn⟩
  · rw [List.all_eq_true.mp hf l (List.mem_of_getElem? hl)] at hfin
    cases hfin
  · rw [hn]
    rfl

omit hin in
theorem taken_of_placed {v : Nat} {x : Descriptor} (hx : c.vertex? v = some x)
    (hi : ¬ c.hasKind .input v) (hv : s.Placed v) :
    0 < x.inputs ∧ (∀ p < x.inputs, (c.previous? ⟨v, p⟩).isSome) ∧
      ∀ p < x.inputs, ∃ j k, s.At j k ⟨v, p⟩ := by
  have hpins : c.pins v = x.inputs := by simp [VertexCircuit.pins, hx]
  obtain ⟨j, k, q, ha⟩ := hv
  obtain ⟨k, rfl⟩ := h.exists_succ hi ha
  have hat : ∀ p < x.inputs, ∃ j', s.At j' (k + 1) ⟨v, p⟩ := fun p hp =>
    h.whole j k v q ha p (hpins ▸ hp)
  refine ⟨?_, fun p hp => ?_, fun p hp => ?_⟩
  · exact Nat.zero_lt_of_lt (hpins ▸ h.pin_lt hc ha)
  · obtain ⟨j', hj'⟩ := hat p hp
    obtain ⟨m, y, -, -, hn, -⟩ := h.arrive j' k _ hj'
    rw [hc.previous?_eq_some_iff.mpr hn]
    rfl
  · obtain ⟨j', hj'⟩ := hat p hp
    exact ⟨j', k + 1, hj'⟩

theorem step_lt_of_leads {u v i j k m p q : Nat} (hl : c.Leads u v) (hu : s.At i k ⟨u, p⟩)
    (hv : s.At j m ⟨v, q⟩) : k < m := by
  obtain ⟨l, hmem, rfl, rfl⟩ := hl
  have hn : c.next? l.out = some l.into := hc.next?_iff.mpr ⟨l, hmem, rfl, rfl⟩
  obtain ⟨i', m', rfl, -, n, hnm, hx⟩ := h.exists_at_of_link hc hin hn hv
  rw [h.step_unique hc hin hu hx]
  exact Nat.lt_succ_of_le hnm

theorem step_lt_of_transGen (hall : ∀ v < c.vertexCount, s.Placed v) {u v : Nat}
    (hl : Relation.TransGen c.Leads u v) :
    ∀ {i j k m p q}, s.At i k ⟨u, p⟩ → s.At j m ⟨v, q⟩ → k < m := by
  induction hl with
  | single huv => exact fun hu hv => h.step_lt_of_leads hc hin huv hu hv
  | tail _ hwv ih =>
    intro i j k m p q hu hv
    obtain ⟨l, hmem, rfl, -⟩ := id hwv
    obtain ⟨x, hx, -⟩ := hc.out_lt l hmem
    obtain ⟨i', n, r, hw⟩ := hall _ (VertexCircuit.lt_of_vertex? hx)
    exact (ih hu hw).trans (h.step_lt_of_leads hc hin hwv hw hv)

theorem link_of_placed {l : Link} (hmem : l ∈ c.links.toList) (hv : s.Placed l.target) :
    ¬ c.hasKind .output l.source ∧ (c.hasKind .input l.source → l.sourcePin = 0) := by
  have hn : c.next? l.out = some l.into := hc.next?_iff.mpr ⟨l, hmem, rfl, rfl⟩
  obtain ⟨j, k, q, hq⟩ := hv
  obtain ⟨i, m, rfl, hy, n, hnm, hx⟩ := h.exists_at_of_link hc hin hn hq
  exact ⟨fun ho => h.ends i n _ hx ho _ _ (Nat.lt_succ_of_le hnm) hy,
    fun hi => h.pin_eq_zero hc hin hi hx⟩

/-- A circuit that is laid out completely is layable. -/
theorem layable (hf : s.isFinished = true) (hall : ∀ v < c.vertexCount, s.Placed v)
    (heq : ∀ v x, s.Placed v → c.vertex? v = some x → ¬ c.hasKind .input v →
      ¬ c.hasKind .output v → x.inputs = x.outputs) : c.Layable where
  input v hi := by
    obtain ⟨j, hj⟩ := List.mem_iff_getElem?.mp (VertexCircuit.mem_inputs.mpr hi)
    have hat : s.At j 0 ⟨v, 0⟩ := (h.start _ _).mpr ⟨v, hj, rfl⟩
    exact h.next?_isSome_of_at hf hat (VertexCircuit.not_output_of_input hi)
  inner v x hx hi ho := by
    have hv := hall v (VertexCircuit.lt_of_vertex? hx)
    obtain ⟨hpos, hprevious, hat⟩ := h.taken_of_placed hc hx hi hv
    have hxx := heq v x hv hx hi ho
    refine ⟨hxx, hpos, hprevious, fun p hp => ?_⟩
    obtain ⟨j, k, hjk⟩ := hat p (hxx ▸ hp)
    exact h.next?_isSome_of_at hf hjk ho
  output v x hx ho := by
    have hi : ¬ c.hasKind .input v := fun hi => VertexCircuit.not_output_of_input hi ho
    obtain ⟨hpos, hprevious, -⟩ :=
      h.taken_of_placed hc hx hi (hall v (VertexCircuit.lt_of_vertex? hx))
    exact ⟨hpos, hprevious⟩
  link l hmem := by
    obtain ⟨x, hx, -⟩ := hc.into_lt l hmem
    exact h.link_of_placed hc hin hmem (hall _ (VertexCircuit.lt_of_vertex? hx))
  acyclic v hv := by
    have hlt : v < c.vertexCount := by
      obtain ⟨u, ⟨l, hmem, rfl, -⟩, -⟩ := Relation.TransGen.head'_iff.mp hv
      obtain ⟨x, hx, -⟩ := hc.out_lt l hmem
      exact VertexCircuit.lt_of_vertex? hx
    obtain ⟨j, k, p, ha⟩ := hall v hlt
    exact Nat.lt_irrefl k (h.step_lt_of_transGen hc hin hall hv ha ha)

end Laid

namespace Rounds

variable (hc : c.Wired) (hin : ∀ v, c.hasKind .input v → c.pins v = 0)
  (ho : ∀ k gs, (order k gs).Perm gs) {n : Nat}

include hc hin ho

theorem laid (h : Rounds order c n s) : Laid c s := by
  induction h with
  | start => exact laid_start c
  | round _ _ hr ih =>
    exact ih.step (round_ok hc (ho _) (fun j j' x => ih.waits_inj hc hin) hr) hc hin

theorem places (h : Rounds order c n s) (hr : s.round (order s.steps) c = .ok s') :
    ∃ vs, Places s s' vs ∧ ∀ v, v ∈ vs ↔ s.Ready c v := by
  have hl := h.laid hc hin ho
  exact hl.places_of_step hc hin (round_ok hc (ho _) (fun j j' x => hl.waits_inj hc hin) hr)

theorem le_placed (h : Rounds order c n s) : n + c.lineCount ≤ s.placed := by
  induction h with
  | start => exact (Nat.zero_add _).le
  | round h _ hr ih =>
    obtain ⟨vs, hvs, -⟩ := h.places hc hin ho hr
    have hpos := List.length_pos_of_ne_nil hvs.ne_nil
    rw [hvs.count]
    omega

theorem equal (h : Rounds order c n s) : ∀ v x, s.Placed v → c.vertex? v = some x →
    ¬ c.hasKind .input v → ¬ c.hasKind .output v → x.inputs = x.outputs := by
  induction h with
  | start =>
    rintro v x ⟨j, k, p, ha⟩ - hi -
    obtain ⟨-, u, hu, he⟩ := at_start.mp ha
    obtain rfl : v = u := congrArg Cell.vertex he
    exact absurd (VertexCircuit.mem_inputs.mp (List.mem_of_getElem? hu)) hi
  | round h _ hr ih =>
    intro v x hv hx hi hno
    have hl := h.laid hc hin ho
    obtain ⟨vs, hvs, hready⟩ := h.places hc hin ho hr
    rcases (hvs.placed_iff v).mp hv with hv | hv
    · exact ih v x hv hx hi hno
    · rw [VertexCircuit.hasKind_of_vertex? hx] at hno
      exact equal_of_round hc (ho _) (fun j j' x => hl.waits_inj hc hin) hr ((hready v).mp hv) hx
        hno

/-- Where the rounds end: all lines are finished, or a round fails. -/
theorem exists_end (h : Rounds order c n s) {rounds : Nat} (hle : c.vertexCount ≤ n + rounds) :
    ∃ m s', Rounds order c m s' ∧
      (s'.isFinished = true ∧ run order c rounds s = .ok s' ∨
        s'.isFinished = false ∧ ∃ f, s'.round (order s'.steps) c = .error f ∧
          run order c rounds s = .error f) := by
  induction rounds generalizing n s with
  | zero =>
    refine ⟨n, s, h, .inl ?_⟩
    -- Every round places a vertex, so with no rounds left all of them are placed.
    have hfin : s.isFinished = true := by
      refine Bool.eq_true_of_not_eq_false fun hf => ?_
      obtain ⟨l, hmem, -⟩ := List.all_eq_false.mp hf
      have hpos := List.length_pos_of_mem hmem
      have hl := h.laid hc hin ho
      rw [hl.length_lines] at hpos
      have hplaced := h.le_placed hc hin ho
      have hle' := hl.placed_le hc
      omega
    exact ⟨hfin, by rw [run, if_pos hfin]⟩
  | succ rounds ih =>
    cases hfin : s.isFinished with
    | true => exact ⟨n, s, h, .inl ⟨hfin, by rw [run, if_pos hfin]⟩⟩
    | false =>
      cases hr : s.round (order s.steps) c with
      | error f =>
        refine ⟨n, s, h, .inr ⟨hfin, f, hr, ?_⟩⟩
        rw [run, hfin, hr]
        rfl
      | ok s₁ =>
        obtain ⟨m, s', hm, hend⟩ := ih (h.round hfin hr) (by omega)
        refine ⟨m, s', hm, ?_⟩
        rw [run, hfin, hr]
        exact hend

end Rounds

end State

open State in
/-- Laying a circuit out comes to an end and decides whether the circuit is layable. -/
structure Decides (order : Nat → List Group → List Group) (c : VertexCircuit) : Prop where
  /-- A round that does not fail places some vertices, none of which was placed before. -/
  places : ∀ n s s', Rounds order c n s → s.isFinished = false →
    s.round (order s.steps) c = .ok s' → ∃ vs, Places s s' vs
  /-- As many vertices are counted as are placed, and no more than there are. -/
  placed : ∀ n s, Rounds order c n s →
    (∃ vs : List Nat, vs.Nodup ∧ vs.length = s.placed ∧ ∀ v, v ∈ vs ↔ s.Placed v) ∧
      n + c.lineCount ≤ s.placed ∧ s.placed ≤ c.vertexCount
  /-- The rounds end, and how they end is the outcome of the run. -/
  ends : ∃ n s, n ≤ c.vertexCount ∧ Rounds order c n s ∧
    (s.isFinished = true ∧ run order c c.vertexCount (start c) = .ok s ∨
      s.isFinished = false ∧ ∃ f, s.round (order s.steps) c = .error f ∧
        run order c c.vertexCount (start c) = .error f)
  fault : ∀ f, layOutBy order c = .error f → ∃ l, f = .notLayable l
  isOk_iff : (∃ g, layOutBy order c = .ok g) ↔ c.Layable

section Wired

variable (hc : c.Wired) (hin : ∀ v, c.hasKind .input v → c.pins v = 0)
  (ho : ∀ k gs, (order k gs).Perm gs)

include hc hin ho

theorem exists_notLayable {f : CircuitFault} (h : layOutBy order c = .error f) :
    ∃ l, f = .notLayable l := by
  obtain ⟨n, s, hs, hend⟩ :=
    State.Rounds.start.exists_end hc hin ho (Nat.zero_add c.vertexCount).ge
  rcases bind_eq_error.mp h with hrun | ⟨s₁, hrun, h⟩
  · rcases hend with ⟨-, hok⟩ | ⟨-, f', hr, herror⟩
    · cases hrun.symm.trans hok
    · obtain rfl := Except.error.inj (hrun.symm.trans herror)
      have hl := hs.laid hc hin ho
      obtain ⟨l, hf, -⟩ :=
        State.blocked_of_round hc (ho _) (fun j j' x => hl.waits_inj hc hin) hr
      exact ⟨l, hf⟩
  · split_ifs at h
    · cases h
    · exact ⟨_, (Except.error.inj h).symm⟩

theorem exists_layOutBy_iff : (∃ g, layOutBy order c = .ok g) ↔ c.Layable := by
  obtain ⟨n, s, hs, hend⟩ :=
    State.Rounds.start.exists_end hc hin ho (Nat.zero_add c.vertexCount).ge
  have hl := hs.laid hc hin ho
  constructor
  · rintro ⟨g, h⟩
    obtain ⟨s₁, hrun, h⟩ := bind_eq_ok.mp h
    split_ifs at h with hp
    rcases hend with ⟨hf, hok⟩ | ⟨-, f, -, herror⟩
    · obtain rfl := Except.ok.inj (hrun.symm.trans hok)
      exact hl.layable hc hin hf (fun v hv => hl.exists_at hc hp hv) (hs.equal hc hin ho)
    · cases hrun.symm.trans herror
  · intro hlay
    rcases hend with ⟨hf, hok⟩ | ⟨hf, f, hr, -⟩
    · have hp := hl.placed_eq hc fun v hv => hl.placed_of_isFinished hc hin hlay hf hv
      refine ⟨⟨s.lines.map Line.cells, s.steps⟩, ?_⟩
      rw [layOutBy, hok]
      exact if_pos hp
    · obtain ⟨l, -, hb⟩ :=
        State.blocked_of_round hc (ho _) (fun j j' x => hl.waits_inj hc hin) hr
      exact absurd hb (hl.not_blocked hc hin hlay hf)

end Wired

/-- Whatever calls a circuit is built by, if no input has input pins, then laying it out in any
order of looking at its vertices ends after at most as many rounds as it has vertices, fails only
for what the layout lacks, and succeeds exactly if the circuit is layable. -/
theorem decides_layOutBy {calls : List VertexCircuit.Call}
    (hin : ∀ v, (VertexCircuit.of calls).hasKind .input v → (VertexCircuit.of calls).pins v = 0)
    (ho : ∀ k gs, (order k gs).Perm gs) : Decides order (VertexCircuit.of calls) := by
  have hc := VertexCircuit.wired_of calls
  constructor
  case places =>
    intro n s s' hs _ hr
    obtain ⟨vs, hvs, -⟩ := hs.places hc hin ho hr
    exact ⟨vs, hvs⟩
  case placed =>
    intro n s hs
    have hl := hs.laid hc hin ho
    exact ⟨hl.placed, hs.le_placed hc hin ho, hl.placed_le hc⟩
  case ends =>
    obtain ⟨n, s, hs, hend⟩ :=
      State.Rounds.start.exists_end hc hin ho (Nat.zero_add (VertexCircuit.of calls).vertexCount).ge
    have hle := hs.le_placed hc hin ho
    have hle' := (hs.laid hc hin ho).placed_le hc
    exact ⟨n, s, by omega, hs, hend⟩
  case fault => exact fun f => exists_notLayable hc hin ho
  case isOk_iff => exact exists_layOutBy_iff hc hin ho

/-- A line into a vertex with two pins, whose other output leads back into it. -/
def looped : VertexCircuit :=
  .of [.addVertex .lineStart, .addVertex (.onLines .swap 2), .addVertex .lineEnd,
    .addLink ⟨0, 0, 1, 0⟩, .addLink ⟨1, 0, 2, 0⟩, .addLink ⟨1, 1, 1, 1⟩]

theorem decides_looped : Decides (fun _ => List.reverse) looped ∧ ¬ looped.Layable := by
  have hin : ∀ v, looped.hasKind .input v → looped.pins v = 0 := by
    intro v hv
    have hi : looped.inputs = [0] := by decide +kernel
    have hm : v ∈ [0] := hi ▸ VertexCircuit.mem_inputs.mpr hv
    obtain rfl := List.mem_singleton.mp hm
    rfl
  have h := decides_layOutBy hin fun _ gs => List.reverse_perm gs
  refine ⟨h, fun hl => ?_⟩
  obtain ⟨g, hg⟩ := h.isOk_iff.mpr hl
  have hf : layOutBy (fun _ => List.reverse) looped = .error (.notLayable (.noneReady 1)) := by
    decide +kernel
  cases hf.symm.trans hg

end CircuitForms.Grid
