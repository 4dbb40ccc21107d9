import CircuitForms.Proofs.Convert.Sizes
import CircuitForms.Proofs.Convert.Trails

/-! # Registers of restored circuits

A restored circuit has two sorts of classical registers. One that a measurement records a bit of
is as large as any measurement asks, in whatever order they are met. Any other was made for one
measurement that records nothing. So a circuit of wires that is carried over and restored gets
back the registers it measures into, at their sizes.
-/

namespace CircuitForms

namespace VertexCircuit

open Grid

variable {c : VertexCircuit} {register : String} {ds : List (Nat × Destination)} {v : Nat}
  {node : Nat → Nat} {namer : Namer} {d : Dag}

theorem OwnRegister.unique {u : Nat} {r : Register} (h : OwnRegister c register node d v r)
    (h' : OwnRegister c register node d u r) (hreads : ReadsLines c register node d)
    (hv : c.isInner v) (hu : c.isInner u) (hsize : 0 < r.size) : v = u := by
  obtain ⟨op, hop, hcargs⟩ := h'.written
  refine hreads.nodes.injOn hv hu ?_
  by_contra hne
  have hbit : Clbit.mk r.name 0 ∈ op.cargs :=
    hcargs ▸ List.mem_map_of_mem (List.mem_range.mpr hsize)
  exact h.alone _ op hop (fun he => hne he.symm) _ hbit rfl

theorem Unrecorded.outputs_pos {x : Descriptor} (hlay : c.Layable) (hx : c.vertex? v = some x)
    (hu : Unrecorded x) : 0 < x.outputs := by
  have hkind : ∀ k : Kind, k ≠ .measure → ¬ c.hasKind k v := fun k hk hv =>
    hk ((hasKind_of_vertex? hx).mp hv ▸ hu.1)
  obtain ⟨hpins, hpos, -⟩ := hlay.inner v x hx (hkind .input nofun) (hkind .output nofun)
  exact hpins ▸ hpos

/-- The classical registers of what a circuit is restored as. -/
structure RestoresRegisters (c : VertexCircuit) (register : String) (d : Dag) : Prop where
  nodup : (d.cregs.map Register.name).Nodup
  /-- There is one register for each name that a bit is recorded under. -/
  recorded : ∀ v dest, c.Records v dest → ∀ b ∈ dest.bits,
    ∃! r, r ∈ d.cregs ∧ r.name = b.register
  /-- Its size is the greatest that is asked for. -/
  size : ∀ v dest, c.Records v dest → ∀ b ∈ dest.bits, ∀ r ∈ d.cregs, r.name = b.register →
    IsGreatest (c.sizesAsked r.name) r.size
  /-- Any other was made for one measurement that records nothing. -/
  made : ∃ node, ReadsLines c register node d ∧ ∀ r ∈ d.cregs,
    (∀ v dest, c.Records v dest → ∀ b ∈ dest.bits, b.register ≠ r.name) →
    ∃! v, ∃ x, c.vertex? v = some x ∧ Unrecorded x ∧ r.size = x.outputs ∧
      OwnRegister c register node d v r
  /-- The bits that operations act on are there. -/
  wires : ∀ v op, d.node? v = some (.op op) → ∀ w ∈ op.wires, d.hasWire w

theorem Turn.Names.exists_own {t : Turn} {given : List (Nat × Register)} (h : t.Names given)
    (hds : t.circuit.destinations = .ok ds)
    (hd : (t.circuit.toWiresWith t.register t.namer).1 = .ok d) :
    ∃ node, ReadsLines t.circuit t.register node d ∧ ∀ r ∈ d.cregs, r.name ∉ reservedNames ds →
      ∃ v x, t.circuit.vertex? v = some x ∧ Unrecorded x ∧ r.size = x.outputs ∧
        OwnRegister t.circuit t.register node d v r := by
  obtain ⟨node, hreads, hown⟩ := h.own d hd
  refine ⟨node, hreads, fun r hr hreserved => ?_⟩
  have hmade : r ∈ t.made := by
    rw [toWiresWith_def] at hd
    obtain ⟨_, -, rfl⟩ := map_eq_ok.mp hd
    rw [Turn.made, recordedNames, hds]
    exact List.mem_filter.mpr ⟨hr, decide_eq_true hreserved⟩
  rw [h.made] at hmade
  obtain ⟨⟨v, r⟩, hv, rfl⟩ := List.mem_map.mp hmade
  obtain ⟨x, hx, hu, hsize⟩ := h.unrecorded v r hv
  obtain ⟨r', hr', howns⟩ := hown v x hx hu
  obtain rfl : r' = r := congrArg Prod.snd (List.inj_on_of_nodup_map h.nodup hr' hv rfl)
  exact ⟨v, x, hx, hu, hsize, howns⟩

theorem restoresRegisters (hc : c.Wired) (hin : ∀ v, c.hasKind .input v → c.pins v = 0)
    (hd : (c.toWiresWith register namer).1 = .ok d) : RestoresRegisters c register d := by
  obtain ⟨g, ds, op, hlaid, hg, hds, hread, -⟩ := exists_readsLines hc hin hd
  have hlay : c.Layable := (exists_layOutBy_iff hc hin fun _ gs => .refl gs).mp ⟨g, hlaid⟩
  have hnames := hread.sound.cnames
  constructor
  case nodup => exact hnames
  case recorded =>
    intro v dest hv b hb
    obtain ⟨r, hr, hname, -⟩ := hv.exists_register hb hg hlaid hds hd
    refine ⟨r, ⟨hr, hname⟩, ?_⟩
    rintro r' ⟨hr', hname'⟩
    exact List.inj_on_of_nodup_map hnames hr' hr (hname'.trans hname.symm)
  case size =>
    intro v dest hv b hb r hr hname
    obtain ⟨r', hr', hname', hsize⟩ := hv.exists_register hb hg hlaid hds hd
    obtain rfl := List.inj_on_of_nodup_map hnames hr' hr (hname'.trans hname.symm)
    exact hsize
  case made =>
    obtain ⟨given, hgiven⟩ := Turn.exists_names ⟨c, register, namer⟩ hc hin
    obtain ⟨node, hreads, hown⟩ := hgiven.exists_own hds hd
    refine ⟨node, hreads, fun r hr hother => ?_⟩
    have hreserved : r.name ∉ reservedNames ds := by
      intro hm
      obtain ⟨v, dest, hv, b, hb, hname⟩ := mem_reservedNames.mp hm
      obtain ⟨x, hx, hk, hdest⟩ := (mem_destinations hds).mp hv
      exact hother v dest ⟨x, hx, hk, mapError_eq_ok.mp hdest⟩ b hb hname
    obtain ⟨v, x, hx, hu, hsize, howns⟩ := hown r hr hreserved
    refine ⟨v, ⟨x, hx, hu, hsize, howns⟩, ?_⟩
    rintro u ⟨y, hy, hyu, -, howns'⟩
    -- A register made for a vertex has a bit, so no other vertex can own it.
    have hpos : 0 < r.size := hsize ▸ hu.outputs_pos hlay hx
    exact howns'.unique howns hreads (hyu.isInner hy) (hu.isInner hx) hpos
  case wires =>
    intro v op hop w hw
    exact hread.sound.mem_wires_iff.mp (hread.sound.mem_wires_of_op hop hw)

end VertexCircuit

namespace Dag

variable {d d' : Dag} {p : Policy} {c : VertexCircuit} {register : String} {u v : Nat}
  {o : Operation} {dest : Destination} {b : Clbit} {r r' : Register}

/-- Whether some measurement writes to a register. -/
def measuresInto (d : Dag) (r : Register) : Bool :=
  d.operations.any fun x => x.2.isMeasurement && x.2.cargs.any (·.register == r.name)

theorem measuresInto_iff : d.measuresInto r ↔ ∃ v o, d.node? v = some (.op o) ∧
    o.isMeasurement ∧ ∃ b ∈ o.cargs, b.register = r.name := by
  simp [measuresInto, mem_operations_iff]

namespace Carries

variable (h : d.Carries p c) (hc : d.Consistent) (hdec : c.Decoded)

include h hdec

theorem records_iff : c.Records u dest ↔ ∃ v o, d.node? v = some (.op o) ∧ d.rank v = u ∧
    o.isMeasurement ∧ dest = Destination.ofClbits o.cargs d.cregs := by
  constructor
  · rintro ⟨x, hx, hk, hdest⟩
    obtain ⟨v, rfl, ⟨q, -, -, rfl⟩ | ⟨q, -, -, rfl⟩ | ⟨o, ho, hdesc⟩⟩ := h.node_cases hx
    · cases hk
    · cases hk
    rw [hdesc.measure hk, Option.getD_some] at hdest
    exact ⟨v, o, ho, rfl, hdesc.isMeasurement_iff.mpr hk, (Destination.of_decode_encode hdest).1⟩
  · rintro ⟨v, o, ho, rfl, hm, rfl⟩
    obtain ⟨x, hx, hdesc⟩ := h.vertex_op ho
    have hk := hdesc.isMeasurement_iff.mp hm
    obtain ⟨dest, hdest⟩ := hdec _ x hx hk
    have hread := hdest
    rw [hdesc.measure hk, Option.getD_some] at hread
    exact ⟨x, hx, hk, (Destination.of_decode_encode hread).1 ▸ hdest⟩

include hc

theorem isGreatest_sizesAsked (ho : d.node? v = some (.op o)) (hm : o.isMeasurement)
    (hb : b ∈ o.cargs) (hr : d.creg? b.register = some r) :
    IsGreatest (c.sizesAsked r.name) r.size := by
  have hname : r.name = b.register := by simpa using List.find?_some hr
  have hclbits : ∀ {v o}, d.node? v = some (.op o) → ∀ b ∈ o.cargs,
      ∃ r, Register.find? d.cregs b.register = some r ∧ b.index < r.size := fun ho b hb =>
    hasClbit_iff.mp ((hc _ (mem_operations_iff.mpr ho)).clbit b hb)
  constructor
  · have hrec := (h.records_iff hdec).mpr ⟨v, o, ho, rfl, hm, rfl⟩
    exact ⟨_, _, hrec, ⟨b, hb, hname.symm⟩, .inl (Destination.mem_registers_ofClbits hb hr)⟩
  · rintro n ⟨u, dest, hrec, -, hn⟩
    obtain ⟨v', o', ho', -, -, rfl⟩ := (h.records_iff hdec).mp hrec
    rw [← hname] at hr
    rcases hn with hn | ⟨b', hb', hname', rfl⟩
    · have hfind := Destination.find?_of_mem_registers (hclbits ho') hn
      exact (congrArg Register.size (Option.some.inj (hfind.symm.trans hr))).le
    · obtain ⟨r', hr', hlt⟩ := hclbits ho' b' hb'
      rw [hname'] at hr'
      exact Option.some.inj (hr'.symm.trans hr) ▸ hlt

theorem register_eq (hregs : c.RestoresRegisters register d') (ho : d.node? v = some (.op o))
    (hm : o.isMeasurement) (hb : b ∈ o.cargs) (hr : d.creg? b.register = some r)
    (hr' : r' ∈ d'.cregs) (hname' : r'.name = b.register) : r' = r := by
  have hname : r.name = b.register := by simpa using List.find?_some hr
  have hrec := (h.records_iff hdec).mpr ⟨v, o, ho, rfl, hm, rfl⟩
  have hsize := hregs.size _ _ hrec b hb r' hr' hname'
  rw [hname', ← hname] at hsize
  have hsizes := hsize.unique (h.isGreatest_sizesAsked hc hdec ho hm hb hr)
  cases r
  cases r'
  rw [Register.mk.injEq]
  exact ⟨hname'.trans hname.symm, hsizes⟩

theorem mem_cregs_iff (hd : d.Sound) (hregs : c.RestoresRegisters register d')
    (hcargs : ∀ v o, d.node? v = some (.op o) → o.isMeasurement → o.cargs ≠ []) :
    r ∈ d'.cregs ↔ r ∈ d.cregs ∧ d.measuresInto r := by
  have hcreg : ∀ {v o b}, d.node? v = some (.op o) → b ∈ o.cargs →
      ∃ r, d.creg? b.register = some r ∧ b.index < r.size := fun ho hb =>
    hasClbit_iff.mp ((hc _ (mem_operations_iff.mpr ho)).clbit _ hb)
  rw [measuresInto_iff]
  constructor
  · intro hr
    -- A register is named by a destination, or was made for a vertex without one.
    by_cases hrec : ∃ u dest, c.Records u dest ∧ ∃ b ∈ dest.bits, b.register = r.name
    · obtain ⟨u, dest, hu, b, hb, hname⟩ := hrec
      obtain ⟨v, o, ho, -, hm, rfl⟩ := (h.records_iff hdec).mp hu
      obtain ⟨r₀, hr₀, -⟩ := hcreg ho hb
      obtain rfl := h.register_eq hc hdec hregs ho hm hb hr₀ hr hname.symm
      exact ⟨List.mem_of_find?_eq_some hr₀, v, o, ho, hm, b, hb, hname⟩
    · obtain ⟨node, -, hmade⟩ := hregs.made
      obtain ⟨u, ⟨x, hx, ⟨hk, dest, hdest, he⟩, -⟩, -⟩ := hmade r hr fun u dest hu b hb hname =>
        hrec ⟨u, dest, hu, b, hb, hname⟩
      obtain ⟨v, o, ho, -, hm, rfl⟩ := (h.records_iff hdec).mp ⟨x, hx, hk, hdest⟩
      exact absurd (List.isEmpty_iff.mp he) (hcargs v o ho hm)
  · rintro ⟨hr, v, o, ho, hm, b, hb, hname⟩
    have hfind : d.creg? b.register = some r :=
      (find?_key_eq_some_iff hd.cnames).mpr ⟨hr, hname.symm⟩
    have hrec := (h.records_iff hdec).mpr ⟨v, o, ho, rfl, hm, rfl⟩
    obtain ⟨r', ⟨hr', hname'⟩, -⟩ := hregs.recorded _ _ hrec b hb
    exact h.register_eq hc hdec hregs ho hm hb hfind hr' hname' ▸ hr'

end Carries

end Dag

namespace VertexCircuit

open Dag (History)

/-- Whatever calls a circuit is built by, if no input has input pins, then the classical registers
of what it is restored as are those that are recorded, each of the greatest size asked for, and
those of the measurements that record nothing. If it was carried over from a circuit of wires all of
whose measurements name their bits, then they are the registers that are measured into. -/
theorem restoresRegisters_of :
    (∀ (calls : List Call) (register : String) (namer : Namer) (d : Dag),
      (∀ v, (of calls).hasKind .input v → (of calls).pins v = 0) →
      ((of calls).toWiresWith register namer).1 = .ok d →
      RestoresRegisters (of calls) register d) ∧
    ∀ (calls : List Dag.Call) (p : Policy) (c : VertexCircuit) (losses : List Loss)
      (register : String) (namer : Namer) (d : Dag),
      (History.of calls).dag.toVertices p = .ok (c, losses) →
      (∀ v o, (History.of calls).dag.node? v = some (.op o) → o.isMeasurement → o.cargs ≠ []) →
      (c.toWiresWith register namer).1 = .ok d →
      d.cregs.Perm ((History.of calls).dag.cregs.filter (History.of calls).dag.measuresInto) := by
  constructor
  · intro calls register namer d hin hd
    exact restoresRegisters (wired_of calls) hin hd
  · intro calls p c losses register namer d hcd hcargs hd
    have h := Dag.carries_of_toVertices hcd
    have hsound := (History.sound_of calls).dag
    have hregs := restoresRegisters h.wired (fun _ => h.pins_of_input) hd
    obtain ⟨g, ds, -, hds, -⟩ := toWires_ok hd
    refine (List.perm_ext_iff_of_nodup (.of_map _ hregs.nodup)
      ((List.Nodup.of_map _ hsound.cnames).filter _)).mpr fun r => ?_
    rw [List.mem_filter]
    have hdec := decoded_of_destinations hds
    exact h.mem_cregs_iff (Dag.consistent_of calls) hdec hsound hregs hcargs

/-- Two measurements record bits of one register, the second a bit beyond the size that the first
records, and a third records nothing. -/
def growing : List Call :=
  [.addVertex .lineStart,
    .addVertex (.onLines .measure 1
      (.description (Destination.encode ⟨[⟨"c", 0⟩], [⟨"c", 2⟩]⟩))),
    .addVertex (.onLines .measure 1 (.description (Destination.encode ⟨[⟨"c", 3⟩], []⟩))),
    .addVertex (.onLines .measure 1), .addVertex .lineEnd, .addLink ⟨0, 0, 1, 0⟩,
    .addLink ⟨1, 0, 2, 0⟩, .addLink ⟨2, 0, 3, 0⟩, .addLink ⟨3, 0, 4, 0⟩]

def growingRestored : Dag :=
  (History.of [.addQreg ⟨"q", 1⟩, .addCreg ⟨"c", 2⟩, .declare ⟨"measure", 1, 1, 0⟩,
    .append (.measurement [⟨"q", 0⟩] [⟨"c", 0⟩]), .growCreg "c" 4,
    .append (.measurement [⟨"q", 0⟩] [⟨"c", 3⟩]), .addCreg ⟨"tk_c1", 1⟩,
    .append (.measurement [⟨"q", 0⟩] [⟨"tk_c1", 0⟩])]).dag

def scattered : List Dag.Call :=
  [.addQreg ⟨"q", 2⟩, .addCreg ⟨"a", 2⟩, .addCreg ⟨"b", 1⟩, .addCreg ⟨"c", 3⟩,
    .declare ⟨"h", 1, 0, 0⟩, .declare ⟨"measure", 1, 1, 0⟩,
    .append ⟨"h", [⟨"q", 0⟩], [], [], none⟩, .append (.measurement [⟨"q", 0⟩] [⟨"a", 1⟩]),
    .append (.measurement [⟨"q", 1⟩] [⟨"c", 0⟩])]

def scatteredVertices : VertexCircuit :=
  .of [.addVertex .lineStart, .addVertex .lineEnd, .addVertex .lineStart, .addVertex .lineEnd,
    .addVertex (.onLines .h 1),
    .addVertex (.onLines .measure 1
      (.description (Destination.encode ⟨[⟨"a", 1⟩], [⟨"a", 2⟩]⟩))),
    .addVertex (.onLines .measure 1
      (.description (Destination.encode ⟨[⟨"c", 0⟩], [⟨"c", 3⟩]⟩))),
    .addLink ⟨5, 0, 1, 0⟩, .addLink ⟨6, 0, 3, 0⟩, .addLink ⟨0, 0, 4, 0⟩, .addLink ⟨4, 0, 5, 0⟩,
    .addLink ⟨2, 0, 6, 0⟩]

def scatteredRestored : Dag :=
  (History.of [.addQreg ⟨"q", 2⟩, .declare ⟨"h", 1, 0, 0⟩, .append ⟨"h", [⟨"q", 0⟩], [], [], none⟩,
    .addCreg ⟨"c", 3⟩, .declare ⟨"measure", 1, 1, 0⟩,
    .append (.measurement [⟨"q", 1⟩] [⟨"c", 0⟩]), .addCreg ⟨"a", 2⟩,
    .append (.measurement [⟨"q", 0⟩] [⟨"a", 1⟩])]).dag

theorem restoresRegisters_growing :
    ((of growing).toWiresWith "q" {}).1 = .ok growingRestored ∧
      growingRestored.cregs = [⟨"c", 4⟩, ⟨"tk_c1", 1⟩] ∧
      RestoresRegisters (of growing) "q" growingRestored ∧
      (History.of scattered).dag.toVertices {} = .ok (scatteredVertices, []) ∧
      (scatteredVertices.toWiresWith "q" {}).1 = .ok scatteredRestored ∧
      scatteredRestored.cregs = [⟨"c", 3⟩, ⟨"a", 2⟩] ∧
      scatteredRestored.cregs.Perm
        ((History.of scattered).dag.cregs.filter (History.of scattered).dag.measuresInto) := by
  have hin : ∀ v, (of growing).hasKind .input v → (of growing).pins v = 0 := by
    have hpins : ∀ v ∈ (of growing).inputs, (of growing).pins v = 0 := by
      decide +kernel
    exact fun v hv => hpins v (mem_inputs.mpr hv)
  have hgrowing : ((of growing).toWiresWith "q" {}).1 = .ok growingRestored := by
    decide +kernel
  have hc : (History.of scattered).dag.toVertices {} = .ok (scatteredVertices, []) := by
    decide +kernel
  have hcargs : ∀ v o, (History.of scattered).dag.node? v = some (.op o) → o.isMeasurement →
      o.cargs ≠ [] := by
    have hops : ∀ x ∈ (History.of scattered).dag.operations, x.2.isMeasurement →
        x.2.cargs ≠ [] := by
      decide +kernel
    exact fun v o hv => hops (v, o) (Dag.mem_operations_iff.mpr hv)
  have hscattered : (scatteredVertices.toWiresWith "q" {}).1 = .ok scatteredRestored := by
    decide +kernel
  exact ⟨hgrowing, by decide +kernel, restoresRegisters_of.1 growing "q" {} _ hin hgrowing, hc,
    hscattered, by decide +kernel,
    restoresRegisters_of.2 scattered {} _ [] "q" {} _ hc hcargs hscattered⟩

end VertexCircuit

end CircuitForms
