import CircuitForms.Proofs.Convert.BroughtBack
import CircuitForms.Proofs.Convert.Naming

/-! # Operations that were vertices

What a circuit of vertices is restored as declares all that its operations name, so it can
be carried over again as far as each of them can. The operation of a vertex that the
catalog accepts gives a vertex of the same kind with the same pins. Its rotations are those
that were read off, and the destination of a measurement that of the bits it writes.
-/

namespace CircuitForms

namespace VertexCircuit

open Grid

variable {c : VertexCircuit} {g : Grid} {register : String} {ds : List (Nat × Destination)}
  {op : Nat → Nat × Operation} {d : Dag} {namer : Namer} {given : List (Nat × Register)}
  {s s' : Restoration} {v : Nat} {x y : Descriptor} {o : Operation}

/-- Bits that a measurement can write: those it records or, if it records none, any as many as its
outputs. -/
structure Written (x : Descriptor) (bits : List Clbit) : Prop where
  nodup : bits.Nodup
  length : bits.length = x.outputs
  recorded : ∀ dest, Destination.decode (x.description?.getD "") x.outputs = .ok dest →
    dest.isEmpty = false → bits = dest.bits

theorem Writes.written (h : Writes ds given v o) (hgives : Gives c ds s given s')
    (hr : RestoredAs g register ds v x o) (hds : c.destinations = .ok ds)
    (hx : c.vertex? v = some x) (hk : x.kind = .measure) : Written x o.cargs := by
  obtain ⟨dest, hlookup, hdest⟩ := (lookup_destinations hds hx).1 hk
  have hdecode := mapError_eq_ok.mp hdest
  cases he : dest.isEmpty with
  | false =>
    have hvalid := Destination.valid_of_decode hdecode
    rw [hr.cargs dest hlookup he]
    refine ⟨hvalid.nodup, hvalid.length he, fun dest' hdest' _ => ?_⟩
    rw [Except.ok.inj (hdecode.symm.trans hdest')]
  | true =>
    obtain ⟨r, hvr, hcargs⟩ | ⟨hnone, -⟩ := h
    · obtain ⟨x', hx', -, hsize⟩ := hgives.unrecorded _ hvr
      obtain rfl := Option.some.inj (hx.symm.trans hx')
      refine ⟨hcargs ▸ r.clbits_nodup, by rw [hcargs, Register.length_clbits, hsize], ?_⟩
      intro dest' hdest' he'
      obtain rfl := Except.ok.inj (hdecode.symm.trans hdest')
      cases he.symm.trans he'
    · cases he.symm.trans (hnone dest hlookup)

structure Restores (c : VertexCircuit) (register : String) (g : Grid)
    (ds : List (Nat × Destination)) (op : Nat → Nat × Operation) (d : Dag) : Prop
    extends ReadOff c register g ds op d where
  reads : ∀ v x, c.vertex? v = some x → c.isInner v → Reads c register v x (op v).2
  written : ∀ v x, c.vertex? v = some x → x.kind = .measure → Written x (op v).2.cargs
  consistent : d.Consistent
  /-- The sizes of the registers that are written fit 32 bits. -/
  sizes : ∀ r ∈ d.cregs, r.size < 1 <<< 32

theorem signatureAt?_eq_signature (hx : c.vertex? v = some x) (hv : c.isInner v)
    (hr : RestoredAs g register ds v x o) (hreads : Reads c register v x o)
    (hw : x.kind = .measure → Written x o.cargs) : c.signatureAt? v = some o.signature := by
  have hcargs : o.cargs.length = if x.kind = .measure then x.outputs else 0 := by
    split
    · rename_i hk
      exact (hw hk).length
    · rename_i hk
      rw [hreads.cargs hk, List.length_nil]
  rw [signatureAt?_eq_some hx ((isInner_iff_of_vertex? hx).mp hv) hr.name, Operation.signature,
    hreads.qargs_length, hcargs, hreads.params, List.length_map]

theorem ReadOff.admits (h : ReadOff c register g ds op d) (hg : Layered c g)
    (hdeclared : ∀ u a, c.signatureAt? u = some a → d.signature? a.name = some a)
    (hv : c.isInner v) (hr : RestoredAs g register ds v x (op v).2)
    (hsig : c.signatureAt? v = some (op v).2.signature) : d.Admits (op v).2 := by
  have hwires : ∀ w ∈ (op v).2.wires, d.hasWire w := fun w hw =>
    h.sound.mem_wires_iff.mp (h.sound.mem_wires_of_op ((h.node?_iff hg).mpr ⟨v, hv, rfl⟩) hw)
  constructor
  case signature => exact hdeclared v _ hsig
  case qubit => exact fun q hq => hwires _ (List.mem_append_left _ (List.mem_map_of_mem hq))
  case clbit => exact fun b hb => hwires _ (List.mem_append_right _ (List.mem_map_of_mem hb))
  case nodup => exact nodup_lineQubits hg hr.qargs
  case condition => simp [hr.condition]

theorem signature?_of_toWiresWith (hc : c.Wired)
    (hin : ∀ v, c.hasKind .input v → c.pins v = 0) (hlaid : layOut c = .ok g)
    (hg : Layered c g) (hds : c.destinations = .ok ds)
    (h : (c.toWiresWith register namer).1 = .ok d) {a : Signature}
    (ha : c.signatureAt? v = some a) : d.signature? a.name = some a := by
  obtain ⟨x, hx, -⟩ := Option.bind_eq_some_iff.mp ha
  rcases toWiresWith_cases hc hin (lineCount_lt_of_toWiresWith h) hlaid hds register namer with
    ⟨s, hs, hrestoring⟩ | ⟨f, u, hf, -⟩
  · obtain rfl := Except.ok.inj (h.symm.trans hs)
    exact hrestoring.declared v (hg.mem_reading.mpr (lt_of_vertex? hx)) a ha
  · cases h.symm.trans hf

theorem ReadOff.restoredAs (h : ReadOff c register g ds op d) (hx : c.vertex? v = some x)
    (hv : c.isInner v) : RestoredAs g register ds v x (op v).2 := by
  obtain ⟨x', hx', hr⟩ := h.restored v hv
  rwa [Option.some.inj (hx.symm.trans hx')]

theorem Gives.size_lt (h : Gives c ds (c.start register namer) given s') (hg : Layered c g)
    (hlay : c.Layable) (hlines : c.lineCount < 1 <<< 32) {r : Register} (hr : r ∈ s'.dag.cregs) :
    r.size < 1 <<< 32 := by
  rcases h.sizes r hr with hstart | hgiven | hlt
  · rw [cregs_start] at hstart
    cases hstart
  · obtain ⟨t, ht, rfl⟩ := List.mem_map.mp hgiven
    obtain ⟨x, hx, hu, hsize⟩ := h.unrecorded t ht
    have hinner := isInner_iff_not_boundary.mp (hu.isInner hx)
    have hpins := (hlay.inner _ x hx hinner.2.1 hinner.2.2).1
    rw [hsize, ← hpins]
    exact (inputs_le_lineCount hg hx).trans_lt hlines
  · exact hlt

theorem exists_restores (hc : c.Wired) (hin : ∀ v, c.hasKind .input v → c.pins v = 0)
    (h : (c.toWiresWith register namer).1 = .ok d) :
    ∃ g ds op, Layered c g ∧ c.Layable ∧ Restores c register g ds op d ∧
      ReadsLines c register (fun v => (op v).1) d := by
  have hlines := lineCount_lt_of_toWiresWith h
  obtain ⟨g, ds, -, hlaid, hg, hds, -⟩ := exists_readsLines hc hin h
  have hlay : c.Layable := (exists_layOutBy_iff hc hin fun _ gs => .refl gs).mp ⟨g, hlaid⟩
  rcases hrun : (g.reading.forM (c.restoreVertex g register ds)).run.run
    (c.start register namer) with ⟨o, s⟩
  obtain ⟨given, hprov⟩ := exists_provides_forM (sound_start c register namer).1 hds
    (narrow_of_layOut hc hin hlines hlaid) hrun
  obtain ⟨op, rfl, hr, hreadsLines, hwrites⟩ := hprov.exists_writes hc hin hlaid hds hrun h
  have hreads : ∀ v x, c.vertex? v = some x → c.isInner v → Reads c register v x (op v).2 := by
    intro v x hx hv
    exact (hr.restoredAs hx hv).reads hg hlay hds hx hv
  have hwritten : ∀ v x, c.vertex? v = some x → x.kind = .measure → Written x (op v).2.cargs := by
    intro v x hx hk
    have hv := isInner_of_measure hx hk
    exact (hwrites v hv).written hprov.gives (hr.restoredAs hx hv) hds hx hk
  refine ⟨g, ds, op, hg, hlay, ⟨hr, hreads, hwritten, fun n hn => ?_, fun r hm => ?_⟩, hreadsLines⟩
  · rw [hr.operations] at hn
    obtain ⟨v, hv, rfl⟩ := List.mem_map.mp hn
    have hv := (List.mem_filter.mp hv).2
    obtain ⟨x, hx, hrestored⟩ := hr.restored v hv
    refine hr.admits hg (fun u a => signature?_of_toWiresWith hc hin hlaid hg hds h) hv hrestored ?_
    exact signatureAt?_eq_signature hx hv hrestored (hreads v x hx hv) (hwritten v x hx)
  · exact hprov.gives.size_lt hg hlay hlines hm

end VertexCircuit

/-- Whether a vertex has the pins and the number of angles that its kind has in the catalog. A box
must not have a name of the catalog. -/
def Descriptor.isSupported (x : Descriptor) : Bool :=
  match x.kind with
  | .input => x.inputs == 0 && x.outputs == 1
  | .output => x.inputs == 1 && x.outputs == 0
  | .box => x.description?.any fun name => (Catalog.standard.byName? name).isNone
  | kind => (Catalog.standard.byKind? kind).any (·.accepts x.inputs x.rotations.length)

namespace Dag

variable {o : Operation} {n : Nat}

theorem exists_describe_of_unlisted (d : Dag) (n : Nat)
    (hname : Catalog.standard.byName? o.name = none) (hk : o.condition = none)
    (hq : o.qargs ≠ []) (hc : o.cargs = []) : ∃ losses, d.describe {} n o =
      .ok (.onLines .box o.qargs.length (.description o.name), losses) := by
  have hboxed : ∃ losses, boxed n o =
      .ok (.onLines .box o.qargs.length (.description o.name), losses) := by
    rw [boxed, if_neg (by simpa using hq), if_neg (by simp [hc])]
    exact ⟨_, rfl⟩
  obtain ⟨losses, hboxed⟩ := hboxed
  refine ⟨losses, ?_⟩
  rw [describe, hname]
  dsimp only
  rw [if_pos rfl, dropCondition, hk, hboxed]
  rfl

section Listed

variable {e : Entry} (d : Dag) (n : Nat) (hname : Catalog.standard.byName? o.name = some e)
  (hk : o.condition = none) (haccepts : e.accepts o.qargs.length o.params.length)

include hname hk haccepts

theorem describe_measure (hm : e.kind = .measure) (hc : o.cargs.length = o.qargs.length) :
    d.describe {} n o = .ok (.onLines .measure o.qargs.length
      (.description (Destination.ofClbits o.cargs d.cregs).encode), []) := by
  rw [describe, hname]
  dsimp only
  rw [dropCondition, hk, listed, Entry.check, if_pos haccepts, if_pos hm, measured,
    if_neg (by simp [hc])]
  rfl

theorem describe_listed (hm : e.kind ≠ .measure) (hc : o.cargs = []) :
    d.describe {} n o =
      .ok (.onLines e.kind o.qargs.length (.ofRotations (o.params.map .ofAngle)), []) := by
  rw [describe, hname]
  dsimp only
  rw [dropCondition, hk, listed, Entry.check, if_pos haccepts, if_neg hm, if_neg (by simp [hc])]
  rfl

end Listed

end Dag

namespace VertexCircuit

open Grid

variable {c : VertexCircuit} {g : Grid} {register : String} {ds : List (Nat × Destination)}
  {op : Nat → Nat × Operation} {d : Dag} {v : Nat} {x y : Descriptor} {o : Operation}
  {losses : List Loss}

theorem exists_entry_of_isSupported (h : x.isSupported) (hb : ¬ x.kind.isBoundary)
    (hk : x.kind ≠ .box) : ∃ e ∈ Catalog.standard.entries, e.kind = x.kind ∧
      Catalog.standard.byKind? x.kind = some e ∧ e.accepts x.inputs x.rotations.length := by
  have hany : (Catalog.standard.byKind? x.kind).any (·.accepts x.inputs x.rotations.length) := by
    rw [Descriptor.isSupported] at h
    cases hx : x.kind <;> simp_all [Kind.isBoundary]
  obtain ⟨e, he, haccepts⟩ := (Option.any_eq_true _ _).mp hany
  obtain ⟨hmem, hkind⟩ := Catalog.byKind?_eq_some_iff.mp he
  exact ⟨e, hmem, hkind, he, haccepts⟩

theorem rotations_of_description? {text : String} (h : x.description? = some text) :
    x.rotations = [] := by
  unfold Descriptor.description? at h
  unfold Descriptor.rotations
  cases hp : x.payload <;> simp_all

/-- A vertex is like another, its angles being those that are read off the other's. An end of a line
is no operation, so its angles are not read. -/
structure Resembles (x y : Descriptor) : Prop where
  kind : y.kind = x.kind
  inputs : y.inputs = x.inputs
  outputs : y.outputs = x.outputs
  rotations : ¬ x.kind.isBoundary → y.rotations = x.rotations.map fun r => .ofAngle r.toAngle
  boxed : x.kind = .box → y.description? = x.description?

structure Recovers (x : Descriptor) (o : Operation) (y : Descriptor) : Prop
    extends Resembles x y where
  measured : x.kind = .measure → ∃ text dest, y.description? = some text ∧
    Destination.decode text y.outputs = .ok dest ∧ dest.bits = o.cargs

section Described

variable (hr : Reads c register v x o) (hs : x.isSupported) (hpins : 0 < x.inputs)
  (heq : x.inputs = x.outputs)

include hr hs

theorem Reads.exists_entry (hb : ¬ x.kind.isBoundary) (hk : x.kind ≠ .box) :
    ∃ e ∈ Catalog.standard.entries, e.kind = x.kind ∧
      Catalog.standard.byName? o.name = some e ∧ e.accepts o.qargs.length o.params.length := by
  obtain ⟨e, he, hkind, hbyKind, haccepts⟩ := exists_entry_of_isSupported hs hb hk
  obtain ⟨e', hbyKind', hname⟩ := hr.named hk
  obtain rfl := Option.some.inj (hbyKind.symm.trans hbyKind')
  refine ⟨e, he, hkind, hname ▸ Catalog.byName?_name e he, ?_⟩
  rwa [hr.qargs_length, hr.params, List.length_map]

include heq

include hpins in
theorem Reads.exists_box (hk : x.kind = .box) (d : Dag) (n : Nat) :
    ∃ y losses, d.describe {} n o = .ok (y, losses) ∧ Recovers x o y := by
  have hname := hr.boxed hk
  have hnone : Catalog.standard.byName? o.name = none := by
    simpa [Descriptor.isSupported, hk, hname] using hs
  have hq : o.qargs ≠ [] := List.ne_nil_of_length_pos (hr.qargs_length ▸ hpins)
  have hcargs : o.cargs = [] := hr.cargs (by simp [hk])
  obtain ⟨losses, hdesc⟩ := d.exists_describe_of_unlisted n hnone hr.condition hq hcargs
  refine ⟨_, losses, hdesc, ⟨hk.symm, hr.qargs_length, hr.qargs_length.trans heq, fun _ => ?_,
    fun _ => hname.symm⟩, by simp [hk]⟩
  rw [rotations_of_description? hname]
  rfl

theorem Reads.exists_listed (hb : ¬ x.kind.isBoundary) (hk : x.kind ≠ .box)
    (hm : x.kind ≠ .measure) (d : Dag) (n : Nat) :
    ∃ y losses, d.describe {} n o = .ok (y, losses) ∧ Recovers x o y := by
  obtain ⟨e, he, hkind, hname, hfits⟩ := hr.exists_entry hs hb hk
  have hdesc := d.describe_listed n hname hr.condition hfits (hkind ▸ hm) (hr.cargs hm)
  refine ⟨_, [], hdesc, ⟨hkind, hr.qargs_length, hr.qargs_length.trans heq, fun _ => ?_,
    fun hbox => absurd hbox hk⟩, fun hmeasure => absurd hmeasure hm⟩
  rw [Payload.rotations_ofRotations, hr.params, List.map_map]
  rfl

/-- A measurement is carried over as one with the destination it is read off with. -/
theorem Reads.exists_measure (hm : x.kind = .measure) (hw : Written x o.cargs) {d : Dag}
    (ha : d.Admits o) (hsize : ∀ r ∈ d.cregs, r.size < 1 <<< 32) (n : Nat) :
    ∃ y losses, d.describe {} n o = .ok (y, losses) ∧ Recovers x o y := by
  have hb : ¬ x.kind.isBoundary := by simp [hm, Kind.isBoundary]
  have hk : x.kind ≠ .box := by simp [hm]
  obtain ⟨e, he, hkind, hname, hfits⟩ := hr.exists_entry hs hb hk
  have hcount : o.cargs.length = o.qargs.length := by rw [hw.length, hr.qargs_length, heq]
  have hdesc := d.describe_measure n hname hr.condition hfits (hkind.trans hm) hcount
  have hnone : x.rotations = [] := by
    rw [Entry.accepts, Catalog.params_of_measure e he (hkind.trans hm), hr.params, List.length_map,
      Bool.and_eq_true, beq_iff_eq] at hfits
    exact List.length_eq_zero_iff.mp hfits.2.symm
  have hdecode := (Dag.describes_of_describe hdesc).decode_eq hsize ha rfl
  rw [Dag.firstRepeated?_eq_none_iff.mpr ⟨hw.nodup, by simp⟩] at hdecode
  refine ⟨_, [], hdesc, ⟨hm.symm, hr.qargs_length, hr.qargs_length.trans heq, fun _ => ?_,
    fun hbox => absurd hbox hk⟩, fun _ => ⟨_, _, rfl, hdecode, rfl⟩⟩
  rw [hnone]
  rfl

end Described

/-- The operation of a vertex that is supported is carried over as such a vertex again. -/
theorem Restores.exists_describe (h : Restores c register g ds op d) (hg : Layered c g)
    (hlay : c.Layable) (hx : c.vertex? v = some x) (hv : c.isInner v) (hs : x.isSupported)
    (n : Nat) : ∃ y losses, d.describe {} n (op v).2 = .ok (y, losses) ∧
      Recovers x (op v).2 y := by
  have hr := h.reads v x hx hv
  have hinner := isInner_iff_not_boundary.mp hv
  obtain ⟨heq, hpins, -⟩ := hlay.inner v x hx hinner.2.1 hinner.2.2
  by_cases hk : x.kind = .box
  · exact hr.exists_box hs hpins heq hk d n
  by_cases hm : x.kind = .measure
  · have hmem := Dag.mem_operations_iff.mpr ((h.node?_iff hg).mpr ⟨v, hv, rfl⟩)
    exact hr.exists_measure hs heq hm (h.written v x hx hm) (h.consistent _ hmem) h.sizes n
  · exact hr.exists_listed hs heq ((isInner_iff_of_vertex? hx).mp hv) hk hm d n

end VertexCircuit

end CircuitForms
