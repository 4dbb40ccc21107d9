import CircuitForms.Proofs.Convert.BroughtBack
import CircuitForms.Proofs.Convert.ClassicalWires
import CircuitForms.Proofs.Dag.Depth

/-! # How long a layout is

Whatever is carried over can be laid out. Besides the step at which the lines start and
the one at which the last of them ends, the layout has as many steps as the longest chain
of operations over the qubits has operations. The depth also counts chains over classical
bits, which no longer matter to the vertices, so the layout can be shorter than the depth
tells.
-/

namespace CircuitForms

namespace Grid

variable {c : VertexCircuit} {g : Grid} {order : Nat → List Group → List Group}

section Wired

variable (hc : c.Wired) (hin : ∀ v, c.hasKind .input v → c.pins v = 0)
  (ho : ∀ k gs, (order k gs).Perm gs)

include hc hin ho

/-- Something is met at every step that has passed. -/
theorem State.Rounds.exists_at {n : Nat} {s : State} (h : Rounds order c n s) :
    ∀ k < s.steps, ∃ j x, s.At j k x := by
  induction h with
  | start =>
    intro k hk
    rw [State.start] at hk
    dsimp only at hk
    split_ifs at hk with hlines
    · exact absurd hk (Nat.not_lt_zero k)
    · obtain rfl := Nat.lt_one_iff.mp hk
      have hlt : 0 < c.inputs.length := Nat.pos_of_ne_zero hlines
      exact ⟨0, _, ((laid_start c).start _ _).mpr ⟨_, List.getElem?_eq_getElem hlt, rfl⟩⟩
  | @round n s s' h _ hr ih =>
    have hl := h.laid hc hin ho
    have hs := round_ok hc (ho _) (fun j j' x => hl.waits_inj hc hin) hr
    intro k hk
    rw [hs.steps, Nat.lt_succ_iff_lt_or_eq] at hk
    rcases hk with hk | rfl
    · obtain ⟨j, x, hx⟩ := ih k hk
      exact ⟨j, x, (Step.at_old hl hs hk).mpr hx⟩
    · obtain ⟨vs, -, hne, -, hready⟩ := hs.placed
      obtain ⟨v, hv⟩ := List.exists_mem_of_ne_nil vs hne
      have hv := (hready v).mp hv
      obtain ⟨j, p, hw⟩ := hv.1
      exact ⟨j, ⟨v, p⟩, (Step.at_new hl hs).mpr ⟨hw, hv⟩⟩

theorem exists_meets (h : layOutBy order c = .ok g) {k : Nat} (hk : k < g.steps) :
    ∃ v, g.Meets v k := by
  obtain ⟨n, s, hs, hend⟩ :=
    State.Rounds.start.exists_end hc hin ho (Nat.zero_add c.vertexCount).ge
  obtain ⟨s₁, hrun, h⟩ := bind_eq_ok.mp h
  split_ifs at h with hp
  obtain rfl := Except.ok.inj h
  rcases hend with ⟨-, hok⟩ | ⟨-, f, -, herror⟩
  · obtain rfl := Except.ok.inj (hrun.symm.trans hok)
    obtain ⟨j, ⟨v, p⟩, hx⟩ := hs.exists_at hc hin ho k hk
    exact ⟨v, j, p, State.cell?_grid.mpr hx⟩
  · cases hrun.symm.trans herror

end Wired

theorem Layered.steps_eq_zero (hg : Layered c g) (hmet : ∀ k < g.steps, ∃ v, g.Meets v k)
    (hlines : c.lineCount = 0) : g.steps = 0 := by
  by_contra hne
  obtain ⟨v, j, p, hx⟩ := hmet 0 (Nat.pos_of_ne_zero hne)
  obtain ⟨l, hl, -⟩ := cell?_eq_some.mp hx
  have hlt := (List.getElem?_eq_some_iff.mp hl).1
  rw [hg.length_lines, hlines] at hlt
  exact Nat.not_lt_zero j hlt

end Grid

namespace Dag

variable {d : Dag} {p : Policy} {c : VertexCircuit} {g : Grid} {v s e k n : Nat} {o : Operation}
  {q : Qubit} {ops row : List (Nat × Operation)}

abbrev QubitTower (ops row : List (Nat × Operation)) : Prop :=
  Stack.Tower (·.2.qargs) ops row

theorem chain_of_qubitTower (h : QubitTower ops row) : Chain ops row := by
  refine ⟨h.sublist, h.linked.imp fun x y hxy => ?_⟩
  obtain ⟨q, hx, hy⟩ := hxy
  exact ⟨.qubit q, List.mem_append_left _ (List.mem_map_of_mem hx),
    List.mem_append_left _ (List.mem_map_of_mem hy)⟩

theorem qubitTower_of_chain (hp : ops.Pairwise fun x y => x.1 < y.1)
    (hfree : ∀ x ∈ ops, ∀ y ∈ ops, ∀ b ∈ x.2.cargs, b ∈ y.2.cargs → x = y) (h : Chain ops row) :
    QubitTower ops row := by
  refine ⟨h.sublist, isChain_iff_consecutivePairs.mpr fun x hx => ?_⟩
  obtain ⟨w, hw, hw'⟩ := isChain_iff_consecutivePairs.mp h.linked x hx
  have hlt := isChain_iff_consecutivePairs.mp (hp.sublist h.sublist).isChain x hx
  obtain ⟨hmem, hmem'⟩ := List.of_mem_zip hx
  cases w with
  | qubit q => exact ⟨q, by simpa [Operation.wires] using hw, by simpa [Operation.wires] using hw'⟩
  | clbit b =>
    have he := hfree _ (h.sublist.subset hmem) _ (h.sublist.subset (List.mem_of_mem_tail hmem')) b
      (by simpa [Operation.wires] using hw) (by simpa [Operation.wires] using hw')
    exact absurd (congrArg Prod.fst he) hlt.ne

theorem layer_le_heights (hv : d.node? v = some (.op o)) (hq : q ∈ o.qargs) :
    d.layer v ≤ heights d.operations q := by
  obtain ⟨pre, post, hops⟩ := List.append_of_mem (mem_operations_iff.mpr hv)
  calc d.layer v
    _ = heights (pre ++ [(v, o)]) q := by rw [heights_concat, if_pos hq, layer_eq hops]
    _ ≤ heights (pre ++ [(v, o)] ++ post) q := heights_le _ _ _
    _ = heights d.operations q := by rw [hops, List.append_assoc, List.singleton_append]

namespace Carries

variable (h : d.Carries p c) (hd : d.Sound) (hg : Grid.Layered c g)

include h hd hg

theorem step_of_start (hv : d.node? v = some (.input (.qubit q))) (hk : g.Meets (d.rank v) k) :
    k = 0 := by
  have hi : c.hasKind .input (d.rank v) := VertexCircuit.hasKind_iff.mpr
    ⟨_, h.vertex_input hv (hasQubit_of_input hd hv), rfl⟩
  obtain ⟨j, hj⟩ := List.mem_iff_getElem?.mp (VertexCircuit.mem_inputs.mpr hi)
  obtain ⟨i, pin, hcell⟩ := hk
  exact ((hg.input j _ hj i k pin).mp hcell).2.1

theorem eq_last_of_mem_segments {a : Nat} {q' : Qubit}
    (hs : d.graph.Strand (.qubit q) s (visits d.operations (.qubit q)) e)
    (ha : (a, e) ∈ d.graph.segments (.qubit q')) :
    a = (visits d.operations (.qubit q)).getLastD s := by
  obtain ⟨arc, harc, he⟩ := List.mem_map.mp ha
  obtain ⟨harc, hlabel⟩ := List.mem_filter.mp harc
  obtain ⟨rfl, rfl⟩ := Prod.mk.inj he
  obtain rfl : q' = q := by
    rcases hd.target_cases harc with ht | ⟨o, ho⟩
    · rw [of_decide_eq_true hlabel] at ht
      exact Wire.qubit.inj (Node.output.inj (Option.some.inj (ht.symm.trans hs.finish)))
    · cases hs.finish.symm.trans (mem_operations_iff.mp (mem_on.mp ho).1)
  exact (mem_consecutivePairs_of_nodup (h.nodup_strand hd hg hs)).mp (hs.segments.mem_iff.mp ha)

theorem step_of_finish (hs : d.graph.Strand (.qubit q) s (visits d.operations (.qubit q)) e)
    (hk : g.Meets (d.rank e) k) : k = heights d.operations q + 1 := by
  have hqubit : d.hasQubit q := hasQubit_of_input hd hs.start
  have hinput : ¬ c.hasKind .input (d.rank e) := by
    rw [VertexCircuit.hasKind_of_vertex? (h.vertex_output hs.finish hqubit)]
    exact Kind.noConfusion
  obtain ⟨i, x, m, hx, hm, rfl⟩ := (hg.step _ k hinput hk).1
  obtain ⟨q', a, b, hab, rfl, hb, hcarried⟩ :=
    h.exists_segment_of_next? (h.wired.previous?_eq_some_iff.mp hx)
  obtain ⟨node, hn, hc⟩ := (Option.any_eq_true _ _).mp hcarried
  have hce : d.isCarried (.output (.qubit q)) := by simpa [isCarried, Wire.qubit?] using hqubit
  obtain rfl := rank_inj hn hc hs.finish hce (congrArg Cell.vertex hb).symm
  obtain rfl := h.eq_last_of_mem_segments hd hg hs hab
  have hm' := h.meets_last hd hg (List.append_nil d.operations).symm hs
  rw [(hg.meets _ (hg.meets_lt _ _ hm).1).unique hm hm']

theorem heights_add_two_le_steps (hq : q ∈ d.qubits) : heights d.operations q + 2 ≤ g.steps := by
  obtain ⟨s, e, hs⟩ := hd.exists_strand hq
  have hx := h.vertex_output hs.finish (hd.mem_qubits_iff.mp hq)
  obtain ⟨k, hk, -⟩ := hg.meets _ (VertexCircuit.lt_of_vertex? hx)
  have hlt := (hg.meets_lt _ k hk).2
  rw [h.step_of_finish hd hg hs hk] at hlt
  omega

theorem steps_le (hmet : ∀ k < g.steps, ∃ v, g.Meets v k)
    (hn : ∀ q ∈ d.qubits, heights d.operations q ≤ n) : g.steps ≤ n + 2 := by
  by_contra hlt
  obtain ⟨u, hu⟩ := hmet (n + 2) (Nat.lt_of_not_le hlt)
  have hx : c.vertex? u = some _ := Array.getElem?_eq_getElem (hg.meets_lt u _ hu).1
  obtain ⟨v, rfl, ⟨q, hv, -, -⟩ | ⟨q, hv, hq, -⟩ | ⟨o, hv, hdesc⟩⟩ := h.node_cases hx
  · cases h.step_of_start hd hg hv hu
  · obtain ⟨s, e, hs⟩ := hd.exists_strand (hd.mem_qubits_iff.mpr hq)
    obtain rfl := hd.finish_unique hs.finish hv
    have hk := h.step_of_finish hd hg hs hu
    have := hn q (hd.mem_qubits_iff.mpr hq)
    omega
  · obtain ⟨q, hq⟩ := List.exists_mem_of_ne_nil _ hdesc.qargs
    have hk := h.eq_layer_of_meets hd hg hv hu
    have hle := (layer_le_heights hv hq).trans (hn q (mem_qubits_of_mem_qargs hd hv hq))
    omega

omit hg in
theorem exists_length_le_heights (hpos : 0 < d.qubitCount) (hrow : QubitTower d.operations row) :
    ∃ q ∈ d.qubits, row.length ≤ heights d.operations q := by
  cases hlast : row.getLast? with
  | none =>
    obtain ⟨q, hq⟩ := List.exists_mem_of_length_pos (length_qubits d ▸ hpos)
    refine ⟨q, hq, ?_⟩
    rw [List.getLast?_eq_none_iff.mp hlast]
    exact Nat.zero_le _
  | some x =>
    have hv := mem_operations_iff.mp (hrow.sublist.subset (List.mem_of_getLast? hlast))
    obtain ⟨y, -, hdesc⟩ := h.vertex_op hv
    obtain ⟨q, hq⟩ := List.exists_mem_of_ne_nil _ hdesc.qargs
    refine ⟨q, mem_qubits_of_mem_qargs hd hv hq, ?_⟩
    refine (isGreatest_heights d.operations q).2 ⟨row, hrow, fun x' hx' => ?_, rfl⟩
    obtain rfl := Option.some.inj (hlast.symm.trans hx')
    exact hq

/-- Between the starts and the last end of the lines there is a step for each operation of a
longest tower. -/
theorem exists_steps_eq (hmet : ∀ k < g.steps, ∃ v, g.Meets v k) (hpos : 0 < d.qubitCount) :
    ∃ n, g.steps = n + 2 ∧
      IsGreatest {n | ∃ row, QubitTower d.operations row ∧ row.length = n} n := by
  have hgreatest : IsGreatest {n | ∃ row, QubitTower d.operations row ∧ row.length = n} _ :=
    Stack.isGreatest_levels d.operations
  refine ⟨_, le_antisymm (h.steps_le hd hg hmet fun q _ => ?_) ?_, hgreatest⟩
  · obtain ⟨row, hrow, -, hlen⟩ := (isGreatest_heights d.operations q).1
    exact hgreatest.2 ⟨row, hrow, hlen⟩
  · obtain ⟨row, hrow, hlen⟩ := hgreatest.1
    obtain ⟨q, hq, hle⟩ := h.exists_length_le_heights hd hpos hrow
    rw [← hlen]
    exact (Nat.add_le_add_right hle 2).trans (h.heights_add_two_le_steps hd hg hq)

end Carries

/-- How the layout of a circuit that is carried over agrees with the depth of the circuit. -/
structure LaidOut (h : History) (g : Grid) : Prop where
  lines : g.lineCount = h.dag.qubitCount
  steps_eq_zero : h.dag.qubitCount = 0 → g.steps = 0
  /-- There is one step for each operation of a longest tower, and two for the ends of the lines. -/
  steps : 0 < h.dag.qubitCount → ∃ n, g.steps = n + 2 ∧
    IsGreatest {n | ∃ row, QubitTower h.applied row ∧ row.length = n} n
  steps_le : 0 < h.dag.qubitCount → ∀ k, h.dag.depth = .ok k → g.steps ≤ k + 2
  steps_eq : 0 < h.dag.qubitCount →
    (∀ x ∈ h.applied, ∀ y ∈ h.applied, ∀ b ∈ x.2.cargs, b ∈ y.2.cargs → x = y) →
      ∀ k, h.dag.depth = .ok k → g.steps = k + 2

/-- Whatever calls a circuit is built by, if it can be carried over then its vertices can be laid
out, in whatever order they are looked at, and what is laid out is no longer than the depth of the
circuit asks for. -/
theorem exists_laidOut_of {calls : List Call} {losses : List Loss}
    {order : Nat → List Grid.Group → List Grid.Group}
    (hc : (History.of calls).dag.toVertices p = .ok (c, losses))
    (ho : ∀ k gs, (order k gs).Perm gs) :
    ∃ g, Grid.layOutBy order c = .ok g ∧ LaidOut (History.of calls) g := by
  obtain ⟨hd, hops⟩ := History.sound_of calls
  have h := carries_of_toVertices hc
  have hin : ∀ v, c.hasKind .input v → c.pins v = 0 := fun v => h.pins_of_input
  obtain ⟨g, hlay⟩ :=
    (Grid.exists_layOutBy_iff h.wired hin ho).mpr (h.layable hd (consistent_of calls))
  have hg := Grid.layered_of_wired h.wired hin ho hlay
  have hmet : ∀ k < g.steps, ∃ v, g.Meets v k := fun k => Grid.exists_meets h.wired hin ho hlay
  have hsteps := h.exists_steps_eq hd hg hmet
  refine ⟨g, hlay, ?_⟩
  constructor
  case lines => exact hg.length_lines.trans (h.lineCount_eq hd)
  case steps_eq_zero =>
    exact fun hz => hg.steps_eq_zero hmet ((h.lineCount_eq hd).trans hz)
  case steps => rwa [← hops]
  case steps_le =>
    intro hpos k hk
    obtain ⟨n, hn, ⟨row, hrow, hlen⟩, -⟩ := hsteps hpos
    have hle := (hd.isGreatest_depth hk).2 ⟨row, chain_of_qubitTower hrow, hlen⟩
    omega
  case steps_eq =>
    intro hpos hfree k hk
    rw [← hops] at hfree
    obtain ⟨n, hn, hgreatest⟩ := hsteps hpos
    obtain ⟨⟨row, hrow, hlen⟩, hle⟩ := hd.isGreatest_depth hk
    obtain ⟨row', hrow', hlen'⟩ := hgreatest.1
    -- With no bit in common a chain is a tower of qubits, so the two maxima agree.
    have hkn : k ≤ n :=
      hgreatest.2 ⟨row, qubitTower_of_chain (operations_pairwise _) hfree hrow, hlen⟩
    have hnk : n ≤ k := hle ⟨row', chain_of_qubitTower hrow', hlen'⟩
    omega

theorem exists_laidOut_overwriting :
    (History.of overwriting).dag.toVertices {} = .ok (overwritingVertices, []) ∧
      (History.of overwriting).dag.depth = .ok 3 ∧
      ∃ g, Grid.layOutBy (fun _ => List.reverse) overwritingVertices = .ok g ∧
        g.steps = 4 ∧ LaidOut (History.of overwriting) g := by
  have hc : (History.of overwriting).dag.toVertices {} = .ok (overwritingVertices, []) := by
    decide +kernel
  have hk : (History.of overwriting).dag.depth = .ok 3 := by
    decide +kernel
  obtain ⟨g, hg, hlaid⟩ := exists_laidOut_of hc fun _ gs => List.reverse_perm gs
  have hsteps : (Grid.layOutBy (fun _ => List.reverse) overwritingVertices).map Grid.steps =
      .ok 4 := by
    decide +kernel
  rw [hg] at hsteps
  exact ⟨hc, hk, g, hg, Except.ok.inj hsteps, hlaid⟩

end Dag

end CircuitForms
