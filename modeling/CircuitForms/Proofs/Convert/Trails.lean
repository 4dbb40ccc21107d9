import CircuitForms.Proofs.Convert.ClassicalWires
import CircuitForms.Proofs.Convert.Naming
import CircuitForms.Proofs.Convert.Pins
import CircuitForms.Proofs.Convert.RoundTrip
import CircuitForms.Proofs.Dag.Integrity

/-! # Wires and the registers that are made

A measurement that names no bit is restored with the bits of a register that is made for
it. Up to these registers the wires of a circuit are restored with their operations: a
qubit's wire in the order it had, the wire of a classical bit in the order of the layers.
-/

namespace CircuitForms

/-- What an operation is called and what it acts on, less the bits of some registers. -/
def Operation.outlineBut (made : List String) (op : Operation) :
    String × List Qubit × List Clbit :=
  (op.name, op.qargs, op.cargs.filter (·.register ∉ made))

namespace Dag

variable {d d' : Dag} {p : Policy} {c : VertexCircuit} {register : String} {b : Clbit} {w : Wire}

/-- What is restored of a circuit when registers of some names are made for its measurements. -/
structure RestoresWires (d d' : Dag) (register : String) (f : Nat → Nat)
    (made : List String) : Prop extends RoundTrip d d' register f where
  qubit_count : d'.qubitCount = d.qubitCount
  op_count : d'.opCount = d.opCount
  /-- No name is made twice or belongs to bits that are named. -/
  nodup : made.Nodup
  fresh : ∀ name ∈ made, name ≠ register ∧
    ∀ v o, d.node? v = some (.op o) → ∀ b ∈ o.cargs, b.register ≠ name
  /-- A measurement that names no bit has a register for itself. -/
  own : ∀ v o, d.node? v = some (.op o) → o.isMeasurement → o.cargs = [] → ∃ name ∈ made,
    (∃ o', d'.node? (f v) = some (.op o') ∧
      o'.cargs = (List.range o.qargs.length).map (Clbit.mk name)) ∧
    ∀ n o', d'.node? n = some (.op o') → n ≠ f v → ∀ b ∈ o'.cargs, b.register ≠ name
  strand : ∀ w, d.hasWire w → ∃ s e, d.graph.Strand w s ((d.trail w).map Prod.fst) e
  strand' : ∀ w, d'.hasWire w → ∃ s e, d'.graph.Strand w s ((d'.trail w).map Prod.fst) e
  /-- The wire of a qubit keeps its operations. -/
  qubit : ∀ (j : Nat) q, d.qubits[j]? = some q →
    (d'.trail (.qubit ⟨register, j⟩)).map (·.2.outlineBut made) =
      (d.trail (.qubit q)).map (·.2.outline (d.onLine register))
  /-- The operations on the wire of a classical bit are put in the order of their layers. -/
  clbit : ∀ b : Clbit, b.register ∉ made → ∃ ops : List (Nat × Operation),
    ops.Perm (d.trail (.clbit b)) ∧ ops.Pairwise (fun x y => d.Precedes x.1 y.1) ∧
    (d'.trail (.clbit b)).map (·.2.outlineBut made) = ops.map (·.2.outline (d.onLine register))
  /-- They keep their order exactly if it is this one. -/
  clbit_iff : ∀ b : Clbit, b.register ∉ made →
    ((d'.trail (.clbit b)).map (·.2.outlineBut made) =
        (d.trail (.clbit b)).map (·.2.outline (d.onLine register)) ↔
      (d.trail (.clbit b)).Pairwise fun x y => d.Precedes x.1 y.1)

theorem RoundTrip.qubitCount_eq {f : Nat → Nat} (h : RoundTrip d d' register f) :
    d'.qubitCount = d.qubitCount := by
  rw [qubitCount, h.qregs, Register.total_eq_sum]
  exact Nat.add_zero _

theorem exists_strand_trail (hd : d.Sound) (hw : d.hasWire w) :
    ∃ s e, d.graph.Strand w s ((d.trail w).map Prod.fst) e := by
  rw [map_fst_trail]
  exact hd.threaded.exists_strand (hd.mem_wires_iff.mpr hw)

theorem mem_trail {x : Nat × Operation} (hx : x ∈ d.trail w) : d.node? x.1 = some (.op x.2) := by
  obtain ⟨y, hy, hx⟩ := List.mem_flatMap.mp hx
  obtain rfl := (List.mem_replicate.mp hx).2
  exact mem_operations_iff.mp hy

theorem map_look_eq {β : Type} {look look' : Operation → β} {f : Nat → Nat}
    {l l' : List (Nat × Operation)} (hfst : l'.map Prod.fst = (l.map Prod.fst).map f)
    (hlook : ∀ x ∈ l, ∀ x' ∈ l', x'.1 = f x.1 → look' x'.2 = look x.2) :
    l'.map (look' ·.2) = l.map (look ·.2) := by
  induction l generalizing l' with
  | nil => rw [List.map_eq_nil_iff.mp hfst]; rfl
  | cons x l ih =>
    obtain ⟨x', l', rfl⟩ : ∃ x' tail, l' = x' :: tail := by
      cases l' with
      | nil => cases hfst
      | cons x' tail => exact ⟨x', tail, rfl⟩
    obtain ⟨hx, hfst⟩ := List.cons.inj hfst
    rw [List.map_cons, List.map_cons, hlook x List.mem_cons_self x' List.mem_cons_self hx,
      ih hfst fun y hy y' hy' =>
        hlook y (List.mem_cons_of_mem x hy) y' (List.mem_cons_of_mem x' hy')]

/-- The three ways in which the bits of an operation are restored. -/
inductive WrittenAs (ds : List (Nat × Destination)) (given : List (Nat × Register)) (u : Nat)
    (o o' : Operation) : Prop
  | recorded (hne : o.cargs ≠ []) (hsame : o'.cargs = o.cargs) (hnodup : o.cargs.Nodup)
      (hreserved : ∀ b ∈ o.cargs, b.register ∈ VertexCircuit.reservedNames ds)
  | made (hm : o.isMeasurement) (hn : o.cargs = []) (r : Register) (hr : (u, r) ∈ given)
      (hsize : r.size = o.qargs.length) (hbits : o'.cargs = r.clbits)
  | nothing (hm : ¬ o.isMeasurement) (hn : o.cargs = []) (hnone : o'.cargs = [])

def madeNames (given : List (Nat × Register)) : List String :=
  given.map fun t => t.2.name

namespace WrittenAs

variable {ds : List (Nat × Destination)} {given : List (Nat × Register)} {u : Nat}
  {o o' : Operation} (h : WrittenAs ds given u o o')
  (hfresh : ∀ name ∈ madeNames given, name ∉ VertexCircuit.reservedNames ds)

include h

theorem nodup : o.cargs.Nodup ∧ o'.cargs.Nodup := by
  cases h with
  | recorded hne hsame hnodup hreserved => exact ⟨hnodup, hsame ▸ hnodup⟩
  | made hm hn r hr hsize hbits =>
    rw [hn, hbits]
    exact ⟨List.nodup_nil, r.clbits_nodup⟩
  | nothing hm hn hnone =>
    rw [hn, hnone]
    exact ⟨List.nodup_nil, List.nodup_nil⟩

include hfresh

theorem filter_cargs : o'.cargs.filter (·.register ∉ madeNames given) = o.cargs := by
  cases h with
  | recorded hne hsame hnodup hreserved =>
    rw [hsame, List.filter_eq_self]
    intro b hb
    simpa using fun hmade => hfresh _ hmade (hreserved b hb)
  | made hm hn r hr hsize hbits =>
    rw [hbits, hn, List.filter_eq_nil_iff]
    intro b hb
    have hname : b.register ∈ madeNames given :=
      (Register.mem_clbits.mp hb).1 ▸ List.mem_map_of_mem hr
    simpa using hname
  | nothing hm hn hnone => rw [hnone, hn, List.filter_nil]

theorem mem_cargs_iff (hb : b.register ∉ madeNames given) : b ∈ o'.cargs ↔ b ∈ o.cargs := by
  rw [← h.filter_cargs hfresh, List.mem_filter]
  simp [hb]

end WrittenAs

namespace Carries

variable {g : Grid} {ds : List (Nat × Destination)} {op : Nat → Nat × Operation}
  {given : List (Nat × Register)} {s : VertexCircuit.Restoration}

theorem exists_given (h : d.Carries p c) (hd' : c.toWires register = .ok d') :
    ∃ g ds op given s, Grid.Layered c g ∧ c.destinations = .ok ds ∧
      c.ReadOff register g ds op d' ∧ VertexCircuit.Gives c ds (c.start register {}) given s ∧
      s.dag = d' ∧ ∀ u, c.isInner u → VertexCircuit.Writes ds given u (op u).2 := by
  have hin : ∀ u, c.hasKind .input u → c.pins u = 0 := fun _ hu => h.pins_of_input hu
  obtain ⟨g, ds, -, hlaid, hg, hds, -⟩ := VertexCircuit.exists_readOff h.wired hin hd'
  rcases hrun : (g.reading.forM (c.restoreVertex g register ds)).run.run (c.start register {})
    with ⟨o, s⟩
  have hnarrow := VertexCircuit.narrow_of_layOut h.wired hin
    (VertexCircuit.lineCount_lt_of_toWiresWith hd') hlaid
  obtain ⟨given, hprov⟩ := VertexCircuit.exists_provides_forM
    (VertexCircuit.sound_start c register {}).1 hds hnarrow hrun
  obtain ⟨op, hs, r, -, hw⟩ := hprov.exists_writes h.wired hin hlaid hds hrun hd'
  exact ⟨g, ds, op, given, s, hg, hds, r, hprov.gives, hs, hw⟩

variable (h : d.Carries p c) (hd : d.Sound) (hg : Grid.Layered c g)
  (r : c.ReadOff register g ds op d') (hds : c.destinations = .ok ds)
  (hgives : VertexCircuit.Gives c ds (c.start register {}) given s)
  (hw : ∀ u, c.isInner u → VertexCircuit.Writes ds given u (op u).2)

include h r hds in
/-- The vertex of a measurement that names no bit records nothing. -/
theorem unrecorded {v : Nat} {o : Operation} (hv : d.node? v = some (.op o))
    (hm : o.isMeasurement) (hn : o.cargs = []) : ∃ x, c.vertex? (d.rank v) = some x ∧
      x.outputs = o.qargs.length ∧ VertexCircuit.Unrecorded x := by
  obtain ⟨x, hxv, hx, -⟩ := h.restored_op r hv
  have hk := hx.isMeasurement_iff.mp hm
  obtain ⟨dest, -, hdest⟩ := (VertexCircuit.lookup_destinations hds hxv).1 hk
  have hdecode := mapError_eq_ok.mp hdest
  refine ⟨x, hxv, hx.outputs, hk, dest, hdecode, ?_⟩
  rw [hx.measure hk, Option.getD_some] at hdecode
  rw [(Destination.of_decode_encode hdecode).1, hn]
  rfl

include h hd hg r hds hgives hw

theorem writtenAs {v : Nat} {o : Operation} (hv : d.node? v = some (.op o)) :
    WrittenAs ds given (d.rank v) o (op (d.rank v)).2 := by
  obtain ⟨x, hxv, hx, ho⟩ := h.restored_op r hv
  have hinner : c.isInner (d.rank v) := h.isInner_iff.mpr ⟨v, o, hv, rfl⟩
  by_cases hne : o.cargs = []
  · by_cases hm : o.isMeasurement
    · obtain ⟨y, hy, hsize, hu⟩ := h.unrecorded r hds hv hm hne
      obtain ⟨dest, hlookup, hempty⟩ := hu.lookup hds hy
      rcases hw _ hinner with ⟨reg, hreg, hbits⟩ | ⟨hnone, -⟩
      · obtain ⟨z, hz, -, hz'⟩ := hgives.unrecorded _ hreg
        obtain rfl := Option.some.inj (hy.symm.trans hz)
        exact .made hm hne reg hreg (hz'.trans hsize) hbits
      · cases hempty.symm.trans (hnone dest hlookup)
    · have hk : x.kind ≠ .measure := fun hk => hm (hx.isMeasurement_iff.mpr hk)
      exact .nothing hm hne (ho.no_cargs ((VertexCircuit.lookup_destinations hds hxv).2 hk))
  · obtain ⟨hlookup, hnodup⟩ := hx.lookup hds hxv hne
    refine .recorded hne ((h.restores hd hg hds hv hxv hx ho).cargs hne) hnodup fun b hb => ?_
    have hk : x.kind = .measure := by
      by_contra hk
      exact hne (hx.cargs hk)
    obtain ⟨dest, hlookup', hdest⟩ := (VertexCircuit.lookup_destinations hds hxv).1 hk
    obtain rfl := Option.some.inj (hlookup.symm.trans hlookup')
    have hmem := (VertexCircuit.mem_destinations hds).mpr ⟨x, hxv, hk, hdest⟩
    exact VertexCircuit.mem_reservedNames.mpr ⟨_, _, hmem, b, hb, rfl⟩

theorem outlineBut_eq {v : Nat} {o : Operation} (hv : d.node? v = some (.op o))
    (hfresh : ∀ name ∈ madeNames given, name ∉ VertexCircuit.reservedNames ds) :
    (op (d.rank v)).2.outlineBut (madeNames given) = o.outline (d.onLine register) := by
  obtain ⟨x, hxv, hx, ho⟩ := h.restored_op r hv
  have hr := h.restores hd hg hds hv hxv hx ho
  have hcargs := (h.writtenAs hd hg r hds hgives hw hv).filter_cargs hfresh
  rw [Operation.outlineBut, Operation.outline, hr.name, hr.qargs, hcargs]

theorem restoresWires (hs : s.dag = d') :
    RestoresWires d d' register (fun v => (op (d.rank v)).1) (madeNames given) := by
  have hround := h.roundTrip hd hg r hds
  have hfresh : ∀ name ∈ madeNames given, name ∉ VertexCircuit.reservedNames ds := by
    intro name hname
    obtain ⟨t, ht, rfl⟩ := List.mem_map.mp hname
    exact (hgives.unreserved t ht).1
  have hwritten : ∀ v o, d.node? v = some (.op o) →
      WrittenAs ds given (d.rank v) o (op (d.rank v)).2 :=
    fun v o hv => h.writtenAs hd hg r hds hgives hw hv
  have hlook : ∀ v o, d.node? v = some (.op o) →
      (op (d.rank v)).2.outlineBut (madeNames given) = o.outline (d.onLine register) :=
    fun v o hv => h.outlineBut_eq hd hg r hds hgives hw hv hfresh
  have htrail : ∀ b : Clbit, b.register ∉ madeNames given → ∃ ops : List (Nat × Operation),
      ops.Perm (d.trail (.clbit b)) ∧ ops.Pairwise (fun x y => d.Precedes x.1 y.1) ∧
      (d'.trail (.clbit b)).map (·.2.outlineBut (madeNames given)) =
        ops.map (·.2.outline (d.onLine register)) := fun b hb =>
    h.exists_trail_of_look hd hg r (·.outline (d.onLine register)) (·.outlineBut (madeNames given))
      hlook (fun v o hv => (hwritten v o hv).mem_cargs_iff hfresh hb)
      fun v o hv => (hwritten v o hv).nodup
  constructor
  case toRoundTrip => exact hround
  case qubit_count => exact hround.qubitCount_eq
  case op_count =>
    obtain ⟨ops, hperm, -, hops⟩ := h.exists_reordering hd hg r
    rw [← r.sound.length_operations, ← hd.length_operations, hops, List.length_map, hperm.length_eq]
  case nodup => exact hgives.names.nodup
  case fresh =>
    intro name hname
    obtain ⟨t, ht, rfl⟩ := List.mem_map.mp hname
    have hqregs := (hgives.unreserved t ht).2
    rw [VertexCircuit.qregs_start] at hqregs
    refine ⟨by simpa using hqregs, fun v o hv b hb he => ?_⟩
    cases hwritten v o hv with
    | recorded hne hsame hnodup hreserved => exact hfresh _ hname (he ▸ hreserved b hb)
    | made hm hn => simp [hn] at hb
    | nothing hm hn => simp [hn] at hb
  case own =>
    intro v o hv hm hn
    cases hwritten v o hv with
    | recorded hne => exact absurd hn hne
    | nothing hm' => exact absurd hm hm'
    | made hm hn reg hreg hsize hbits =>
      have hinner : c.isInner (d.rank v) := h.isInner_iff.mpr ⟨v, o, hv, rfl⟩
      have hown := r.ownRegister hg hds hgives (VertexCircuit.qregs_start c register {}) hs hw
        hinner hreg hbits
      exact ⟨reg.name, List.mem_map_of_mem hreg, hsize ▸ hown.written, hown.alone⟩
  case strand => exact fun w hw => exists_strand_trail hd hw
  case strand' => exact fun w hw => exists_strand_trail r.sound hw
  case qubit =>
    intro j q hq
    refine map_look_eq (f := fun v => (op (d.rank v)).1) ?_ fun x hx x' hx' he => ?_
    · rw [map_fst_trail, map_fst_trail, h.wire_eq hd hg r hq]
    · have hnode : d'.node? (op (d.rank x.1)).1 = some (.op (op (d.rank x.1)).2) :=
        (r.node?_iff hg).mpr ⟨_, h.isInner_iff.mpr ⟨_, _, mem_trail hx, rfl⟩, rfl⟩
      rw [← he, mem_trail hx'] at hnode
      rw [Node.op.inj (Option.some.inj hnode)]
      exact hlook _ _ (mem_trail hx)
  case clbit => exact htrail
  case clbit_iff =>
    intro b hb
    obtain ⟨ops, hperm, hsorted, hmap⟩ := htrail b hb
    rw [hmap]
    refine map_eq_iff_pairwise (fun x y => Precedes.asymm) hperm hsorted ?_
    rw [trail_clbit fun v o hv => (hwritten v o hv).nodup.1]
    refine (precedes_of_outline_eq hd fun v o hv => ?_).filter _
    obtain ⟨x, -, hx⟩ := h.vertex_op hv
    exact hx.qargs

/-- What can be restored names no wire twice, and neither does what is restored. -/
theorem nodup_wires (hc : d.Consistent) : (∀ x ∈ d.operations, x.2.wires.Nodup) ∧
    ∀ x ∈ d'.operations, x.2.wires.Nodup := by
  have hboth : ∀ v o, d.node? v = some (.op o) →
      o.wires.Nodup ∧ (op (d.rank v)).2.wires.Nodup := by
    intro v o hv
    obtain ⟨x, hxv, hx, ho⟩ := h.restored_op r hv
    obtain ⟨hcargs, hcargs'⟩ := (h.writtenAs hd hg r hds hgives hw hv).nodup
    have hqargs := hc.nodup_qargs hv
    refine ⟨nodup_wires_iff.mpr ⟨hqargs, hcargs⟩, nodup_wires_iff.mpr ⟨?_, hcargs'⟩⟩
    rw [(h.restores hd hg hds hv hxv hx ho).qargs]
    refine hqargs.map_on fun q hq q' _ he => ?_
    exact (List.idxOf_inj (mem_qubits_of_mem_qargs hd hv hq)).mp (congrArg Qubit.index he)
  refine ⟨fun x hx => (hboth _ _ (mem_operations_iff.mp hx)).1, fun x hx => ?_⟩
  obtain ⟨ops, hperm, -, hops⟩ := h.exists_reordering hd hg r
  rw [hops, List.mem_map] at hx
  obtain ⟨y, hy, rfl⟩ := hx
  exact (hboth _ _ (mem_operations_iff.mp (hperm.mem_iff.mp hy))).2

end Carries

theorem exists_depths (calls : List Call) {losses : List Loss}
    (hc : (History.of calls).dag.toVertices p = .ok (c, losses))
    (hd' : c.toWires register = .ok d') :
    (∃ k, (History.of calls).dag.depth = .ok k) ∧ ∃ k, d'.depth = .ok k := by
  have hd := (History.sound_of calls).dag
  have h := carries_of_toVertices hc
  obtain ⟨g, ds, op, given, s, hg, hds, r, hgives, -, hw⟩ := h.exists_given hd'
  obtain ⟨hn, hn'⟩ := h.nodup_wires hd hg r hds hgives hw (consistent_of calls)
  exact ⟨(hd.readable hn).depth, (r.sound.readable hn').depth⟩

theorem exists_restoresWires (calls : List Call) {losses : List Loss}
    (hc : (History.of calls).dag.toVertices p = .ok (c, losses))
    (hd' : c.toWires register = .ok d') :
    ∃ f made, RestoresWires (History.of calls).dag d' register f made := by
  have hd := (History.sound_of calls).dag
  have h := carries_of_toVertices hc
  obtain ⟨g, ds, op, given, s, hg, hds, r, hgives, hs, hw⟩ := h.exists_given hd'
  exact ⟨_, _, h.restoresWires hd hg r hds hgives hw hs⟩

end Dag

end CircuitForms
