import CircuitForms.Proofs.Convert.Layers
import CircuitForms.Proofs.Dag.History

/-! # Classical wires

The operations on a classical wire are restored in the order of their layers, whatever
the order they were appended in. So the wire is restored as it was exactly if its
operations stand on it by layer, and in a layer by their first qubits. Two measurements
that write one bit from qubits with more and less work before them need not.
-/

namespace CircuitForms

/-- What an operation is called and what it acts on, its qubits being renamed. -/
def Operation.outline (rename : Qubit → Qubit) (op : Operation) :
    String × List Qubit × List Clbit :=
  (op.name, op.qargs.map rename, op.cargs)

section Rows

variable {α β : Type}

theorem eq_of_map_eq [DecidableEq β] {look : α → β} {xs ys : List α}
    (hmap : xs.map look = ys.map look)
    (hfilter : ∀ b, xs.filter (look · = b) = ys.filter (look · = b)) : xs = ys := by
  induction xs generalizing ys with
  | nil => exact (List.map_eq_nil_iff.mp hmap.symm).symm
  | cons x xs ih =>
    cases ys with
    | nil => cases hmap
    | cons y ys =>
      obtain ⟨hxy, hrest⟩ := List.cons.inj hmap
      have hhead := hfilter (look x)
      rw [List.filter_cons_of_pos (by simp), List.filter_cons_of_pos (by simp [hxy])] at hhead
      obtain rfl := (List.cons.inj hhead).1
      refine congrArg _ (ih hrest fun b => ?_)
      have htail := hfilter b
      by_cases hb : look x = b
      · rw [List.filter_cons_of_pos (by simp [hb]), List.filter_cons_of_pos (by simp [hb])] at htail
        exact (List.cons.inj htail).2
      · rwa [List.filter_cons_of_neg (by simp [hb]),
          List.filter_cons_of_neg (by simp [hb])] at htail

/-- A row that is put in order looks as before exactly if it was in order, provided that the members
of one look were. -/
theorem map_eq_iff_pairwise [DecidableEq β] {look : α → β} {R : α → α → Prop} {xs ys : List α}
    (hasymm : ∀ x y, R x y → ¬ R y x) (hperm : xs.Perm ys) (hxs : xs.Pairwise R)
    (hys : ys.Pairwise fun x y => look x = look y → R x y) :
    xs.map look = ys.map look ↔ ys.Pairwise R := by
  have heq : ∀ {xs ys : List α}, xs.Perm ys → xs.Pairwise R → ys.Pairwise R → xs = ys :=
    fun hp hx hy => hp.eq_of_pairwise (fun a b _ _ hab hba => absurd hba (hasymm a b hab)) hx hy
  constructor
  · intro hmap
    rw [← eq_of_map_eq hmap fun b => heq (hperm.filter _) (hxs.filter _) ?_]
    · exact hxs
    · refine (hys.filter _).imp_of_mem fun hx hy h => h ?_
      have hx := of_decide_eq_true (List.mem_filter.mp hx).2
      exact hx.trans (of_decide_eq_true (List.mem_filter.mp hy).2).symm
  · intro h
    rw [heq hperm hxs h]

theorem rel_of_getLast? {R : α → α → Prop} {l : List α} {x y : α} (h : l.Pairwise R)
    (hy : l.getLast? = some y) (hx : x ∈ l) : x = y ∨ R x y := by
  obtain ⟨pre, rfl⟩ := List.getLast?_eq_some_iff.mp hy
  rcases List.mem_append.mp hx with hx | hx
  · exact .inr ((List.pairwise_append.mp h).2.2 x hx y (List.mem_singleton_self y))
  · exact .inl (List.mem_singleton.mp hx)

theorem getLast?_map_eq_iff {look : α → β} {R : α → α → Prop} {xs ys : List α}
    (hasymm : ∀ x y, R x y → ¬ R y x) (hperm : xs.Perm ys) (hxs : xs.Pairwise R)
    (hys : ys.Pairwise fun x y => look x = look y → R x y) :
    (xs.map look).getLast? = (ys.map look).getLast? ↔
      ∀ y, ys.getLast? = some y → ∀ x ∈ ys, x = y ∨ R x y := by
  rw [List.getLast?_map, List.getLast?_map]
  constructor
  · intro he y hy x hx
    rw [hy, Option.map_some, Option.map_eq_some_iff] at he
    obtain ⟨z, hz, hlook⟩ := he
    -- Were `z` another one, `R` would put each of the two before the other.
    have hzy : z = y := by
      rcases rel_of_getLast? hys hy (hperm.mem_iff.mp (List.mem_of_getLast? hz)) with hzy | hzy
      · exact hzy
      · have hmem := hperm.mem_iff.mpr (List.mem_of_getLast? hy)
        exact ((rel_of_getLast? hxs hz hmem).resolve_right (hasymm _ _ (hzy hlook))).symm
    exact hzy ▸ rel_of_getLast? hxs hz (hperm.mem_iff.mpr hx)
  · intro h
    cases hy : ys.getLast? with
    | none =>
      obtain rfl := List.getLast?_eq_none_iff.mp hy
      rw [hperm.eq_nil]
      rfl
    | some y =>
      have hmem := hperm.mem_iff.mpr (List.mem_of_getLast? hy)
      obtain ⟨z, hz⟩ := Option.isSome_iff_exists.mp
        (List.getLast?_isSome.mpr (List.ne_nil_of_mem hmem))
      have hzy : z = y := by
        rcases h y hy z (hperm.mem_iff.mp (List.mem_of_getLast? hz)) with hzy | hzy
        · exact hzy
        · exact ((rel_of_getLast? hxs hz hmem).resolve_right (hasymm _ _ hzy)).symm
      rw [hz, hzy]

end Rows

namespace Dag

variable {d d' : Dag} {p : Policy} {c : VertexCircuit} {register : String} {b : Clbit}

def trail (d : Dag) (w : Wire) : List (Nat × Operation) :=
  d.operations.flatMap fun x => List.replicate (x.2.wires.count w) x

theorem map_fst_trail (d : Dag) (w : Wire) :
    (d.trail w).map Prod.fst = visits d.operations w := by
  rw [trail, visits, List.map_flatMap]
  simp only [List.map_replicate]

/-- What is restored of the wire of a classical bit. -/
structure RestoresBit (d d' : Dag) (register : String) (b : Clbit) : Prop where
  strand : ∃ s e, d.graph.Strand (.clbit b) s ((d.trail (.clbit b)).map Prod.fst) e
  strand' : d'.hasClbit b →
    ∃ s e, d'.graph.Strand (.clbit b) s ((d'.trail (.clbit b)).map Prod.fst) e
  idle : ¬ d'.hasClbit b → d.trail (.clbit b) = [] ∧ d'.trail (.clbit b) = []
  /-- The operations of the wire are put in the order of their layers. -/
  layered : ∃ ops : List (Nat × Operation), ops.Perm (d.trail (.clbit b)) ∧
    ops.Pairwise (fun x y => d.Precedes x.1 y.1) ∧
    (d'.trail (.clbit b)).map (·.2.outline id) = ops.map (·.2.outline (d.onLine register))
  /-- They keep their order exactly if it is this one. -/
  kept_iff : (d'.trail (.clbit b)).map (·.2.outline id) =
      (d.trail (.clbit b)).map (·.2.outline (d.onLine register)) ↔
    (d.trail (.clbit b)).Pairwise fun x y => d.Precedes x.1 y.1
  /-- The last of them stays the last exactly if it comes after all others in this order. -/
  last_iff : ((d'.trail (.clbit b)).map (·.2.outline id)).getLast? =
      ((d.trail (.clbit b)).map (·.2.outline (d.onLine register))).getLast? ↔
    ∀ y, (d.trail (.clbit b)).getLast? = some y →
      ∀ x ∈ d.trail (.clbit b), x = y ∨ d.Precedes x.1 y.1

theorem trail_clbit (hn : ∀ v o, d.node? v = some (.op o) → o.cargs.Nodup) :
    d.trail (.clbit b) = d.operations.filter (b ∈ ·.2.cargs) := by
  have hcount : ∀ x ∈ d.operations,
      x.2.wires.count (.clbit b) = if decide (b ∈ x.2.cargs) then 1 else 0 := by
    intro x hx
    rw [Operation.count_clbit, (hn x.1 x.2 (mem_operations_iff.mp hx)).count]
    simp only [decide_eq_true_eq]
  exact (flatMap_replicate id hcount).trans (List.map_id _)

theorem strand_trail (hd : d.Sound) (hb : d.hasClbit b) :
    ∃ s e, d.graph.Strand (.clbit b) s ((d.trail (.clbit b)).map Prod.fst) e := by
  rw [map_fst_trail]
  exact hd.threaded.exists_strand (hd.mem_wires_iff.mpr hb)

theorem trail_eq_nil (hd : d.Sound) (hb : ¬ d.hasClbit b) : d.trail (.clbit b) = [] := by
  rw [← List.map_eq_nil_iff, map_fst_trail]
  exact hd.threaded.idle _ fun hw => hb (hd.mem_wires_iff.mp hw)

theorem precedes_of_outline_eq (hd : d.Sound)
    (hq : ∀ v o, d.node? v = some (.op o) → o.qargs ≠ []) :
    d.operations.Pairwise fun x y =>
      x.2.outline (d.onLine register) = y.2.outline (d.onLine register) →
        d.Precedes x.1 y.1 := by
  refine (layer_pairwise d).imp_of_mem fun {x y} hx hy hlt he => .inl (hlt ?_)
  have hx := mem_operations_iff.mp hx
  have hy := mem_operations_iff.mp hy
  have hqargs : x.2.qargs.map (d.onLine register) = y.2.qargs.map (d.onLine register) :=
    congrArg (·.2.1) he
  obtain ⟨q, hmem⟩ := List.exists_mem_of_ne_nil _ (hq _ _ hx)
  obtain ⟨q', hmem', he'⟩ := List.mem_map.mp (hqargs ▸ List.mem_map_of_mem hmem)
  have hidx : d.qubits.idxOf q' = d.qubits.idxOf q := congrArg Qubit.index he'
  rw [List.idxOf_inj (mem_qubits_of_mem_qargs hd hy hmem')] at hidx
  exact ⟨q, hmem, hidx ▸ hmem'⟩

namespace Carries

variable {g : Grid} {ds : List (Nat × Destination)} {op : Nat → Nat × Operation}
  (h : d.Carries p c) (hd : d.Sound) (hg : Grid.Layered c g)
  (r : c.ReadOff register g ds op d')

include h hd hg r in
/-- The restored circuit has on a classical wire the same operations by layer, if the same
operations name the wire. -/
theorem exists_trail_of_look {β : Type} (look look' : Operation → β)
    (hlook : ∀ v o, d.node? v = some (.op o) → look' (op (d.rank v)).2 = look o)
    (hmem : ∀ v o, d.node? v = some (.op o) → (b ∈ (op (d.rank v)).2.cargs ↔ b ∈ o.cargs))
    (hn : ∀ v o, d.node? v = some (.op o) → o.cargs.Nodup ∧ (op (d.rank v)).2.cargs.Nodup) :
    ∃ ops : List (Nat × Operation), ops.Perm (d.trail (.clbit b)) ∧
      ops.Pairwise (fun x y => d.Precedes x.1 y.1) ∧
      (d'.trail (.clbit b)).map (look' ·.2) = ops.map (look ·.2) := by
  obtain ⟨ops, hperm, hsorted, hops⟩ := h.exists_reordering hd hg r
  have hnode : ∀ x ∈ ops, d.node? x.1 = some (.op x.2) :=
    fun x hx => mem_operations_iff.mp (hperm.mem_iff.mp hx)
  have hnodup : ∀ v o, d'.node? v = some (.op o) → o.cargs.Nodup := by
    intro v o hv
    have hm := mem_operations_iff.mpr hv
    rw [hops, List.mem_map] at hm
    obtain ⟨x, hx, he⟩ := hm
    obtain rfl : (op (d.rank x.1)).2 = o := congrArg Prod.snd he
    exact (hn _ _ (hnode x hx)).2
  refine ⟨ops.filter (b ∈ ·.2.cargs), ?_, hsorted.filter _, ?_⟩
  · rw [trail_clbit fun v o hv => (hn v o hv).1]
    exact hperm.filter _
  · have htrail : d'.trail (.clbit b) =
        (ops.filter (b ∈ ·.2.cargs)).map fun x => op (d.rank x.1) := by
      rw [trail_clbit hnodup, hops, List.filter_map]
      refine congrArg _ (List.filter_congr fun x hx => ?_)
      rw [Function.comp_apply]
      simp only [hmem _ _ (hnode x hx)]
    rw [htrail, List.map_map]
    exact List.map_congr_left fun x hx => hlook _ _ (hnode x (List.mem_of_mem_filter hx))

variable (hds : c.destinations = .ok ds)
  (hm : ∀ v o, d.node? v = some (.op o) → o.isMeasurement → o.cargs ≠ [])

include h hd hg r hds hm

theorem outline_eq {v : Nat} {o : Operation} (hv : d.node? v = some (.op o)) :
    (op (d.rank v)).2.outline id = o.outline (d.onLine register) ∧ o.cargs.Nodup := by
  obtain ⟨x, hxv, hx, ho⟩ := h.restored_op r hv
  have hr := h.restores hd hg hds hv hxv hx ho
  have hcargs : (op (d.rank v)).2.cargs = o.cargs ∧ o.cargs.Nodup := by
    by_cases hne : o.cargs = []
    · have hk : x.kind ≠ .measure := fun hk => hm v o hv (hx.isMeasurement_iff.mpr hk) hne
      have hnone := (VertexCircuit.lookup_destinations hds hxv).2 hk
      rw [hne]
      exact ⟨ho.no_cargs hnone, List.nodup_nil⟩
    · exact ⟨hr.cargs hne, (hx.lookup hds hxv hne).2⟩
  refine ⟨?_, hcargs.2⟩
  rw [Operation.outline, Operation.outline, hr.name, hr.qargs, hcargs.1, List.map_id]

theorem exists_trail : ∃ ops : List (Nat × Operation), ops.Perm (d.trail (.clbit b)) ∧
    ops.Pairwise (fun x y => d.Precedes x.1 y.1) ∧
    (d'.trail (.clbit b)).map (·.2.outline id) = ops.map (·.2.outline (d.onLine register)) := by
  have hcargs : ∀ v o, d.node? v = some (.op o) → (op (d.rank v)).2.cargs = o.cargs :=
    fun v o hv => congrArg (·.2.2) (h.outline_eq hd hg r hds hm hv).1
  refine h.exists_trail_of_look hd hg r (·.outline (d.onLine register)) (·.outline id)
    (fun v o hv => (h.outline_eq hd hg r hds hm hv).1)
    (fun v o hv => by rw [hcargs v o hv]) fun v o hv => ?_
  rw [hcargs v o hv]
  exact ⟨(h.outline_eq hd hg r hds hm hv).2, (h.outline_eq hd hg r hds hm hv).2⟩

theorem restoresBit (hb : d.hasClbit b) : RestoresBit d d' register b := by
  obtain ⟨ops, hperm, hsorted, hmap⟩ := h.exists_trail hd hg r hds hm
  have halike : (d.trail (.clbit b)).Pairwise fun x y =>
      x.2.outline (d.onLine register) = y.2.outline (d.onLine register) → d.Precedes x.1 y.1 := by
    rw [trail_clbit fun v o hv => (h.outline_eq hd hg r hds hm hv).2]
    refine (precedes_of_outline_eq hd fun v o hv => ?_).filter _
    obtain ⟨x, -, hx⟩ := h.vertex_op hv
    exact hx.qargs
  constructor
  case strand => exact strand_trail hd hb
  case strand' => exact strand_trail r.sound
  case idle =>
    intro hb'
    have hnil := trail_eq_nil r.sound hb'
    rw [hnil, List.map_nil] at hmap
    obtain rfl := List.map_eq_nil_iff.mp hmap.symm
    exact ⟨hperm.symm.eq_nil, hnil⟩
  case layered => exact ⟨ops, hperm, hsorted, hmap⟩
  case kept_iff =>
    rw [hmap]
    exact map_eq_iff_pairwise (fun x y => Precedes.asymm) hperm hsorted halike
  case last_iff =>
    rw [hmap]
    exact getLast?_map_eq_iff (fun x y => Precedes.asymm) hperm hsorted halike

end Carries

/-- Whatever calls a circuit is built by, if it can be carried over and restored and its
measurements name the bits they write, then every classical wire is restored with its operations
in the order of their layers. -/
theorem restoresBit_of {calls : List Call} {losses : List Loss}
    (hc : (History.of calls).dag.toVertices p = .ok (c, losses)) (hd' : c.toWires register = .ok d')
    (hm : ∀ v o, (History.of calls).dag.node? v = some (.op o) → o.isMeasurement → o.cargs ≠ [])
    (hb : (History.of calls).dag.hasClbit b) :
    RestoresBit (History.of calls).dag d' register b := by
  have hd := (History.sound_of calls).dag
  have h := carries_of_toVertices hc
  obtain ⟨g, ds, op, hg, hds, r⟩ := h.exists_readOff hd'
  exact h.restoresBit hd hg r hds hm hb

/-- A qubit is measured after a gate, and then another one at once, into the same bit. -/
def overwriting : List Call :=
  [.addQreg ⟨"q", 2⟩, .addCreg ⟨"c", 1⟩, .declare ⟨"h", 1, 0, 0⟩, .declare ⟨"measure", 1, 1, 0⟩,
    .append ⟨"h", [⟨"q", 0⟩], [], [], none⟩, .append (.measurement [⟨"q", 0⟩] [⟨"c", 0⟩]),
    .append (.measurement [⟨"q", 1⟩] [⟨"c", 0⟩])]

def overwritingVertices : VertexCircuit :=
  .of [.addVertex .lineStart, .addVertex .lineEnd, .addVertex .lineStart, .addVertex .lineEnd,
    .addVertex (.onLines .h 1),
    .addVertex (.onLines .measure 1
      (.description (Destination.encode ⟨[⟨"c", 0⟩], [⟨"c", 1⟩]⟩))),
    .addVertex (.onLines .measure 1
      (.description (Destination.encode ⟨[⟨"c", 0⟩], [⟨"c", 1⟩]⟩))),
    .addLink ⟨5, 0, 1, 0⟩, .addLink ⟨6, 0, 3, 0⟩, .addLink ⟨0, 0, 4, 0⟩, .addLink ⟨4, 0, 5, 0⟩,
    .addLink ⟨2, 0, 6, 0⟩]

def overwritingRestored : Dag :=
  (History.of [.addQreg ⟨"q", 2⟩, .declare ⟨"h", 1, 0, 0⟩, .append ⟨"h", [⟨"q", 0⟩], [], [], none⟩,
    .addCreg ⟨"c", 1⟩, .declare ⟨"measure", 1, 1, 0⟩,
    .append (.measurement [⟨"q", 1⟩] [⟨"c", 0⟩]),
    .append (.measurement [⟨"q", 0⟩] [⟨"c", 0⟩])]).dag

theorem restoresBit_overwriting :
    (History.of overwriting).dag.toVertices {} = .ok (overwritingVertices, []) ∧
      overwritingVertices.toWires "q" = .ok overwritingRestored ∧
      RestoresBit (History.of overwriting).dag overwritingRestored "q" ⟨"c", 0⟩ ∧
      ((History.of overwriting).dag.trail (.clbit ⟨"c", 0⟩)).map Prod.snd =
        [.measurement [⟨"q", 0⟩] [⟨"c", 0⟩], .measurement [⟨"q", 1⟩] [⟨"c", 0⟩]] ∧
      (overwritingRestored.trail (.clbit ⟨"c", 0⟩)).map Prod.snd =
        [.measurement [⟨"q", 1⟩] [⟨"c", 0⟩], .measurement [⟨"q", 0⟩] [⟨"c", 0⟩]] := by
  have hc : (History.of overwriting).dag.toVertices {} = .ok (overwritingVertices, []) := by
    decide +kernel
  have hd : overwritingVertices.toWires "q" = .ok overwritingRestored := by
    decide +kernel
  have hm : ∀ v o, (History.of overwriting).dag.node? v = some (.op o) → o.isMeasurement →
      o.cargs ≠ [] := by
    have hops : ∀ x ∈ (History.of overwriting).dag.operations, x.2.isMeasurement →
        x.2.cargs ≠ [] := by
      decide +kernel
    exact fun v o hv => hops (v, o) (mem_operations_iff.mpr hv)
  have hb : (History.of overwriting).dag.hasClbit ⟨"c", 0⟩ := by
    decide +kernel
  exact ⟨hc, hd, restoresBit_of hc hd hm hb, by decide +kernel, by decide +kernel⟩

end Dag

end CircuitForms
