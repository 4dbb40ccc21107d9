import CircuitForms.Proofs.Convert.LineReading
import CircuitForms.Proofs.Convert.WireGraph

/-! # Which nodes vertices stand for

The vertices of a circuit that is restored stand for the nodes of what it is restored as
that are carried over: a vertex within the lines for its operation, the start of a line for
the start of the wire of its qubit and an output for the end of that wire. A link leads from
one vertex to another where the wire leads from the one's node to the other's, and by the
same pins.
-/

namespace CircuitForms

theorem exists_pair_of_forall₂ {α β : Type} {R : α → β → Prop} {l : List α} {l' : List β}
    (h : List.Forall₂ R l l') {a a' : α} (ha : (a, a') ∈ l.consecutivePairs) :
    ∃ b b', (b, b') ∈ l'.consecutivePairs ∧ R a b ∧ R a' b' := by
  induction h with
  | nil => cases ha
  | @cons x y l l' hxy hl ih =>
    cases hl with
    | nil => cases ha
    | cons hxy' hl =>
      rcases List.mem_cons.mp ha with he | ha
      · obtain ⟨rfl, rfl⟩ := Prod.mk.inj he
        exact ⟨_, _, List.mem_cons_self, hxy, hxy'⟩
      · obtain ⟨b, b', hm, hb⟩ := ih ha
        exact ⟨b, b', List.mem_cons_of_mem _ hm, hb⟩

theorem exists_of_forall₂_right {α β : Type} {R : α → β → Prop} {l : List α} {l' : List β}
    (h : List.Forall₂ R l l') {b : β} (hb : b ∈ l') : ∃ a ∈ l, R a b := by
  obtain ⟨i, hi, rfl⟩ := List.getElem_of_mem hb
  have hi' : i < l.length := h.length_eq ▸ hi
  exact ⟨_, List.get_mem l ⟨i, hi'⟩, h.get hi' hi⟩

namespace Grid.Layered

open VertexCircuit

variable {c : VertexCircuit} {g : Grid} {j j' : Nat} {x : Cell}

theorem onLine_unique (h : Layered c g) (hlay : c.Layable) (hx : OnLine c j x)
    (hx' : OnLine c j' x) : j = j' := by
  have hj := (h.lineThrough x j).mpr ((h.onLine_iff hlay).mp hx)
  have hj' := (h.lineThrough x j').mpr ((h.onLine_iff hlay).mp hx')
  exact Option.some.inj (hj.symm.trans hj')

theorem exists_onLine (h : Layered c g) (hlay : c.Layable)
    (hx : (c.hasKind .input x.vertex ∧ x.pin = 0) ∨ x.pin < c.pins x.vertex) :
    ∃ j, OnLine c j x := by
  obtain ⟨j, hj⟩ := Option.isSome_iff_exists.mp ((h.lineThrough_isSome x).mpr hx)
  exact ⟨j, (h.onLine_iff hlay).mpr ((h.lineThrough x j).mp hj)⟩

theorem pin_lt_of_onLine (h : Layered c g) (hlay : c.Layable) (hx : OnLine c j x)
    (hi : ¬ c.hasKind .input x.vertex) : x.pin < c.pins x.vertex := by
  obtain ⟨k, hk⟩ := (h.onLine_iff hlay).mp hx
  exact h.pin_lt _ _ _ _ hi hk

end Grid.Layered

namespace VertexCircuit

open Grid

variable {c : VertexCircuit} {g : Grid} {register : String} {ds : List (Nat × Destination)}
  {op : Nat → Nat × Operation} {d : Dag} {j v u m n p : Nat} {a b : Cell}

theorem OnLine.lt_lineCount (h : OnLine c j a) : j < c.lineCount := by
  induction h with
  | start hv => exact (List.getElem?_eq_some_iff.mp hv).1
  | next _ _ ih => exact ih

/-- Which node a vertex stands for, the operations of the vertices within the lines being given. -/
inductive Stands (c : VertexCircuit) (register : String) (op : Nat → Nat × Operation) (d : Dag) :
    Nat → Nat → Prop
  | inner {v : Nat} (hv : c.isInner v) : Stands c register op d v (op v).1
  | start {j v n : Nat} (hv : c.inputs[j]? = some v)
    (hn : d.node? n = some (.input (.qubit ⟨register, j⟩))) : Stands c register op d v n
  | finish {j v n : Nat} (hv : OnLine c j ⟨v, 0⟩) (ho : c.hasKind .output v)
    (hn : d.node? n = some (.output (.qubit ⟨register, j⟩))) : Stands c register op d v n

theorem Stands.lt (h : Stands c register op d v n) : v < c.vertexCount := by
  cases h with
  | inner hv => exact mem_of_isInner hv
  | start hv _ =>
    obtain ⟨x, hx, -⟩ := hasKind_iff.mp (mem_inputs.mp (List.mem_of_getElem? hv))
    exact lt_of_vertex? hx
  | finish _ ho _ =>
    obtain ⟨x, hx, -⟩ := hasKind_iff.mp ho
    exact lt_of_vertex? hx

section Restored

variable (h : ReadOff c register g ds op d) (hg : Layered c g) (hlay : c.Layable)

include h hg

theorem Stands.carried (hs : Stands c register op d v n) : (d.node? n).any d.isCarried := by
  cases hs with
  | inner hv => rw [(h.node?_iff hg).mpr ⟨v, hv, rfl⟩]; rfl
  | start _ hn =>
    rw [hn]
    exact h.sound.mem_wires_iff.mp (h.sound.mem_wires_of_input hn)
  | finish _ _ hn =>
    rw [hn]
    exact h.sound.mem_wires_iff.mp (h.sound.mem_wires_of_output hn)

include hlay

theorem Stands.node_unique (hs : Stands c register op d v n) (hs' : Stands c register op d v m) :
    n = m := by
  have hinput : ∀ {j}, c.inputs[j]? = some v → c.hasKind .input v := fun hv =>
    mem_inputs.mp (List.mem_of_getElem? hv)
  cases hs with
  | inner hv =>
    cases hs' with
    | inner => rfl
    | start hv' => exact absurd (hinput hv') (not_input_of_isInner hv)
    | finish _ ho => exact absurd ho (isInner_iff_not_boundary.mp hv).2.2
  | start hv hn =>
    cases hs' with
    | inner hv' => exact absurd (hinput hv) (not_input_of_isInner hv')
    | start hv' hm =>
      obtain rfl := hg.onLine_unique hlay (.start hv) (.start hv')
      exact h.sound.start_unique hn hm
    | finish _ ho => exact absurd ho (not_output_of_input (hinput hv))
  | finish hv ho hn =>
    cases hs' with
    | inner hv' => exact absurd ho (isInner_iff_not_boundary.mp hv').2.2
    | start hv' => exact absurd ho (not_output_of_input (hinput hv'))
    | finish hv' _ hm =>
      obtain rfl := hg.onLine_unique hlay hv hv'
      exact h.sound.finish_unique hn hm

theorem output_unique (hv : OnLine c j ⟨v, p⟩) (ho : c.hasKind .output v) (hu : OnLine c j ⟨u, m⟩)
    (ho' : c.hasKind .output u) : v = u := by
  have hj := hv.lt_lineCount
  obtain ⟨cells, x, -, -, hrow, -, -, hinner, -⟩ :=
    h.exists_row hg hlay (List.getElem?_eq_getElem hj)
  have hlast : ∀ {y : Cell}, OnLine c j y → c.hasKind .output y.vertex → y = x := by
    intro y hy hout
    rcases List.mem_append.mp ((hrow y).mp hy) with hm | hm
    · rcases List.mem_cons.mp hm with rfl | hm
      · have hinput := mem_inputs.mp (List.getElem_mem hj)
        exact absurd hout (not_output_of_input hinput)
      · exact absurd hout (isInner_iff_not_boundary.mp (hinner y hm)).2.2
    · exact List.mem_singleton.mp hm
  exact congrArg Cell.vertex ((hlast hv ho).trans (hlast hu ho').symm)

theorem Stands.vertex_unique (hs : Stands c register op d v n) (hs' : Stands c register op d u n) :
    v = u := by
  have hnode : ∀ {v}, c.isInner v → d.node? (op v).1 = some (.op (op v).2) := fun hv =>
    (h.node?_iff hg).mpr ⟨_, hv, rfl⟩
  cases hs with
  | inner hv =>
    generalize hn : (op v).1 = n at hs'
    cases hs' with
    | inner hu => exact h.node_inj hg hv hu hn
    | start _ hm => cases (hn ▸ hnode hv).symm.trans hm
    | finish _ _ hm => cases (hn ▸ hnode hv).symm.trans hm
  | start hv hn =>
    cases hs' with
    | inner hu => cases (hnode hu).symm.trans hn
    | start hu hm =>
      cases hn.symm.trans hm
      exact Option.some.inj (hv.symm.trans hu)
    | finish _ _ hm => cases hn.symm.trans hm
  | finish hv ho hn =>
    cases hs' with
    | inner hu => cases (hnode hu).symm.trans hn
    | start _ hm => cases hn.symm.trans hm
    | finish hu ho' hm =>
      cases hn.symm.trans hm
      exact output_unique h hg hlay hv ho hu ho'

variable (hout : ∀ v, c.hasKind .output v → c.pins v = 1)

include hout

theorem exists_stands_row (hv : c.inputs[j]? = some v) :
    ∃ cells x s nodes e, c.hasKind .output x.vertex ∧
      (∀ y, OnLine c j y ↔ y ∈ ⟨v, 0⟩ :: cells ++ [x]) ∧
      ((⟨v, 0⟩ :: cells ++ [x] : List Cell).IsChain fun a b => c.next? a = some b) ∧
      List.Forall₂ (fun y n => Stands c register op d y.vertex n) (⟨v, 0⟩ :: cells ++ [x])
        (s :: nodes ++ [e]) ∧
      d.graph.Strand (.qubit ⟨register, j⟩) s nodes e := by
  obtain ⟨cells, x, s, e, hrow, hchain, ho, hinner, hstrand⟩ := h.exists_row hg hlay hv
  have hx : OnLine c j x := (hrow x).mpr (List.mem_append_right _ (List.mem_singleton_self x))
  have hpin : x.pin = 0 := by
    have hi : ¬ c.hasKind .input x.vertex := fun hi => not_output_of_input hi ho
    exact Nat.lt_one_iff.mp (hout _ ho ▸ hg.pin_lt_of_onLine hlay hx hi)
  have hx' : OnLine c j ⟨x.vertex, 0⟩ := hpin ▸ hx
  refine ⟨cells, x, s, _, e, ho, hrow, hchain, ?_, hstrand⟩
  refine List.rel_append (.cons (.start hv hstrand.start) ?_)
    (.cons (.finish hx' ho hstrand.finish) .nil)
  exact List.forall₂_map_right_iff.mpr (List.forall₂_same.mpr fun y hy => .inner (hinner y hy))

theorem exists_stands (hv : v < c.vertexCount) : ∃ n, Stands c register op d v n := by
  by_cases hinner : c.isInner v
  · exact ⟨_, .inner hinner⟩
  by_cases hi : c.hasKind .input v
  · obtain ⟨j, hj⟩ := List.mem_iff_getElem?.mp (mem_inputs.mpr hi)
    obtain ⟨_, _, s, _, _, -, -, -, -, hs⟩ := exists_stands_row h hg hlay hout hj
    exact ⟨s, .start hj hs.start⟩
  · have ho : c.hasKind .output v := by
      by_contra ho
      exact hinner (isInner_iff_not_boundary.mpr ⟨hv, hi, ho⟩)
    obtain ⟨j, hj⟩ := hg.exists_onLine (x := ⟨v, 0⟩) hlay (.inr (by simp [hout v ho]))
    obtain ⟨_, _, _, _, e, -, -, -, -, hs⟩ :=
      exists_stands_row h hg hlay hout (List.getElem?_eq_getElem hj.lt_lineCount)
    exact ⟨e, .finish hj ho hs.finish⟩

theorem exists_stands_of_carried (hn : (d.node? n).any d.isCarried) :
    ∃ v, Stands c register op d v n := by
  obtain ⟨node, hnode, hcarried⟩ := (Option.any_eq_true _ _).mp hn
  have hline : ∀ q : Qubit, d.hasQubit q → ∃ j < c.lineCount, q = ⟨register, j⟩ := fun q hq =>
    h.mem_qubits.mp (h.sound.mem_qubits_iff.mpr hq)
  cases node with
  | op o =>
    obtain ⟨v, hv, ho⟩ := (h.node?_iff hg).mp hnode
    obtain rfl : (op v).1 = n := congrArg Prod.fst ho
    exact ⟨v, .inner hv⟩
  | input w =>
    cases w with
    | clbit b => cases hcarried
    | qubit q =>
      obtain ⟨j, hj, rfl⟩ := hline q hcarried
      exact ⟨_, .start (List.getElem?_eq_getElem hj) hnode⟩
  | output w =>
    cases w with
    | clbit b => cases hcarried
    | qubit q =>
      obtain ⟨j, hj, rfl⟩ := hline q hcarried
      obtain ⟨_, x, _, _, e, -, -, -, hstands, hs⟩ :=
        exists_stands_row h hg hlay hout (List.getElem?_eq_getElem hj)
      obtain rfl := h.sound.finish_unique hnode hs.finish
      obtain ⟨y, -, hy⟩ := exists_of_forall₂_right hstands
        (List.mem_append_right _ (List.mem_singleton_self n))
      exact ⟨y.vertex, hy⟩

theorem follows_of_next? (hs : Stands c register op d a.vertex m)
    (hs' : Stands c register op d b.vertex n) (ha : OnLine c j a)
    (hab : c.next? a = some b) : d.Follows ⟨register, j⟩ m n := by
  obtain ⟨v, hv⟩ : ∃ v, c.inputs[j]? = some v := ⟨_, List.getElem?_eq_getElem ha.lt_lineCount⟩
  obtain ⟨cells, x, s, nodes, e, ho, hrow, hchain, hstands, hstrand⟩ :=
    exists_stands_row h hg hlay hout hv
  have hmem : a ∈ (⟨v, 0⟩ :: cells : List Cell) := by
    rcases List.mem_append.mp ((hrow a).mp ha) with hm | hm
    · exact hm
    · obtain rfl := List.mem_singleton.mp hm
      cases (next?_eq_none_of_output hlay ho).symm.trans hab
  obtain ⟨b', hpair, hnext⟩ := exists_pair_of_isChain hchain hmem
  obtain rfl := Option.some.inj (hab.symm.trans hnext)
  obtain ⟨m', n', hm, hsm, hsn⟩ := exists_pair_of_forall₂ hstands hpair
  obtain rfl := hs.node_unique h hg hlay hsm
  obtain rfl := hs'.node_unique h hg hlay hsn
  exact (Dag.mem_segments_iff_follows h.sound).mp (hstrand.segments.mem_iff.mpr hm)

end Restored

section Pins

variable (hg : Layered c g) (hlay : c.Layable)
  (hr : ReadsLines c register (fun v => (op v).1) d)

include hr

theorem exists_place_of_onLine (hv : c.isInner v) (ha : OnLine c j ⟨v, p⟩) :
    ∃ o, d.node? (op v).1 = some (.op o) ∧ o.qargs[p]? = some ⟨register, j⟩ := by
  obtain ⟨x, hx, -⟩ := (Option.any_eq_true _ _).mp hv
  obtain ⟨o, hn, ho⟩ := hr.operation v x hx hv
  exact ⟨o, hn, (ho.qargs p _).mpr ⟨j, ha, rfl⟩⟩

include hg hlay

/-- The wire of a line's qubit leaves the node of a vertex by the pin at which the line meets it. -/
theorem Stands.leaves (hs : Stands c register op d v n) (ha : OnLine c j ⟨v, p⟩)
    (ho : ¬ c.hasKind .output v) : d.Leaves ⟨register, j⟩ n p := by
  cases hs with
  | inner hv =>
    obtain ⟨o, hn, hq⟩ := exists_place_of_onLine hr hv ha
    exact .op hn hq
  | start hv hn =>
    obtain ⟨k, hk⟩ := (hg.onLine_iff hlay).mp ha
    obtain ⟨rfl, -, rfl⟩ := (hg.input _ _ hv _ _ _).mp hk
    exact .input hn
  | finish _ ho' _ => exact absurd ho' ho

/-- It enters the node of a vertex by that pin. -/
theorem Stands.enters (hs : Stands c register op d v n) (ha : OnLine c j ⟨v, p⟩)
    (hi : ¬ c.hasKind .input v) (hout : ∀ v, c.hasKind .output v → c.pins v = 1) :
    d.Enters ⟨register, j⟩ n p := by
  cases hs with
  | inner hv =>
    obtain ⟨o, hn, hq⟩ := exists_place_of_onLine hr hv ha
    exact .op hn hq
  | start hv _ => exact absurd (mem_inputs.mp (List.mem_of_getElem? hv)) hi
  | finish hv ho hn =>
    obtain rfl : p = 0 := Nat.lt_one_iff.mp (hout v ho ▸ hg.pin_lt_of_onLine hlay ha hi)
    obtain rfl := hg.onLine_unique hlay hv ha
    exact .output hn

end Pins

end VertexCircuit

end CircuitForms
