import CircuitForms.Proofs.Convert.LineReading

/-! # Names of registers that are made

A measurement that does not record where it is written gets a register of its own. The
register is made as soon as its name is drawn, so a restoration that fails has used up the
names of the registers in what it leaves behind. Restorations that share their names never
give one twice, and none that a destination of their circuit names, even one of a
measurement that is restored later.
-/

namespace CircuitForms

namespace Dag

variable {d d' : Dag} {reserved : List String}

def cregsBut (reserved : List String) (d : Dag) : List Register :=
  d.cregs.filter (·.name ∉ reserved)

theorem filter_enlarge {name : String} (h : name ∈ reserved) (size : Nat) (rs : List Register) :
    (enlarge name size rs).filter (·.name ∉ reserved) = rs.filter (·.name ∉ reserved) := by
  induction rs with
  | nil => rfl
  | cons r rs ih =>
    rw [enlarge]
    split
    · rename_i hr
      rw [List.filter_cons_of_neg (by simpa [hr] using h),
        List.filter_cons_of_neg (by simpa [hr] using h)]
    · rw [List.filter_cons, List.filter_cons, ih]

theorem cregsBut_addCreg {r : Register} (h : d.creg? r.name = none) :
    (edit (addCreg r) d).2.cregsBut reserved =
      d.cregsBut reserved ++ [r].filter (·.name ∉ reserved) := by
  rw [edit_addCreg_of_new h, cregsBut, List.filter_append]
  rfl

theorem cregsBut_provide {r : Register} (h : r.name ∈ reserved) :
    (edit (VertexCircuit.provide r) d).2.cregsBut reserved = d.cregsBut reserved := by
  rw [VertexCircuit.provide, edit_get_bind]
  cases hr : d.creg? r.name with
  | none =>
    rw [Option.isSome_none, if_neg Bool.false_ne_true, cregsBut_addCreg hr,
      List.filter_cons_of_neg (by simpa using h)]
    exact List.append_nil _
  | some r' =>
    rw [Option.isSome_some, if_pos rfl, edit_growCreg, hr]
    exact filter_enlarge h _ _

theorem cregsBut_forM_provide {rs : List Register} (h : ∀ r ∈ rs, r.name ∈ reserved)
    (he : edit (rs.forM VertexCircuit.provide) d = (.ok (), d')) :
    d'.cregsBut reserved = d.cregsBut reserved := by
  induction rs generalizing d with
  | nil =>
    obtain rfl : d = d' := congrArg Prod.snd he
    rfl
  | cons r rs ih =>
    obtain ⟨_, d₁, h₁, he⟩ := run_bind_eq_ok he
    have hr := cregsBut_provide (d := d) (h r List.mem_cons_self)
    rw [show edit (VertexCircuit.provide r) d = _ from h₁] at hr
    exact (ih (fun r hr => h r (List.mem_cons_of_mem _ hr)) he).trans hr

theorem mem_or_size_of_mem_enlarge {name : String} {size : Nat} {rs : List Register} {r : Register}
    (h : r ∈ enlarge name size rs) : r ∈ rs ∨ r.size = size := by
  induction rs with
  | nil => cases h
  | cons r' rs ih =>
    rw [enlarge] at h
    split at h
    · rcases List.mem_cons.mp h with rfl | h
      · rcases Nat.le_total size r'.size with hle | hle
        · exact .inl (List.mem_cons.mpr (.inl (by rw [Nat.max_eq_left hle])))
        · exact .inr (Nat.max_eq_right hle)
      · exact .inl (List.mem_cons_of_mem _ h)
    · rcases List.mem_cons.mp h with rfl | h
      · exact .inl List.mem_cons_self
      · exact (ih h).imp_left (List.mem_cons_of_mem _)

theorem mem_or_size_of_mem_provide {r r' : Register}
    (h : r' ∈ (edit (VertexCircuit.provide r) d).2.cregs) : r' ∈ d.cregs ∨ r'.size = r.size := by
  rw [VertexCircuit.provide, edit_get_bind] at h
  cases hr : d.creg? r.name with
  | some r₀ =>
    rw [hr, Option.isSome_some, if_pos rfl, edit_growCreg, hr] at h
    exact mem_or_size_of_mem_enlarge h
  | none =>
    rw [hr, Option.isSome_none, if_neg Bool.false_ne_true, edit_addCreg_of_new hr] at h
    rcases List.mem_append.mp h with h | h
    · exact .inl h
    · exact .inr (congrArg Register.size (List.mem_singleton.mp h))

theorem mem_or_size_of_mem_forM_provide {rs : List Register}
    (he : edit (rs.forM VertexCircuit.provide) d = (.ok (), d')) {r' : Register}
    (h : r' ∈ d'.cregs) : r' ∈ d.cregs ∨ ∃ r ∈ rs, r'.size = r.size := by
  induction rs generalizing d with
  | nil =>
    obtain rfl : d = d' := congrArg Prod.snd he
    exact .inl h
  | cons r rs ih =>
    obtain ⟨_, d₁, h₁, he⟩ := run_bind_eq_ok he
    rcases ih he with h | ⟨r₂, hr₂, hsize⟩
    · have hd₁ : d₁ = (edit (VertexCircuit.provide r) d).2 := (congrArg Prod.snd h₁).symm
      rw [hd₁] at h
      exact (mem_or_size_of_mem_provide h).imp_right fun hsize => ⟨r, List.mem_cons_self, hsize⟩
    · exact .inr ⟨r₂, List.mem_cons_of_mem _ hr₂, hsize⟩

end Dag

namespace VertexCircuit

open Grid

variable {c : VertexCircuit} {g : Grid} {register : String} {ds : List (Nat × Destination)}
  {s s' s'' : Restoration} {given given' : List (Nat × Register)} {v : Nat} {x : Descriptor}
  {namer : Namer} {d : Dag}

/-- A measurement that does not record where it is written. -/
def Unrecorded (x : Descriptor) : Prop :=
  x.kind = .measure ∧
    ∃ dest, Destination.decode (x.description?.getD "") x.outputs = .ok dest ∧ dest.isEmpty

/-- What becomes of the names in a part of a restoration: which vertices are given which registers,
under names that neither a destination nor a quantum register has. -/
structure Gives (c : VertexCircuit) (ds : List (Nat × Destination)) (s : Restoration)
    (given : List (Nat × Register)) (s' : Restoration) : Prop where
  qregs : s'.dag.qregs = s.dag.qregs
  cregs : s'.dag.cregsBut (reservedNames ds) =
    s.dag.cregsBut (reservedNames ds) ++ given.map Prod.snd
  names : s.namer.Gives (given.map fun t => t.2.name) s'.namer
  unreserved : ∀ t ∈ given, t.2.name ∉ reservedNames ds ∧ t.2.name ∉ s.dag.qregs.map Register.name
  unrecorded : ∀ t ∈ given, ∃ x, c.vertex? t.1 = some x ∧ Unrecorded x ∧ t.2.size = x.outputs
  /-- A register was there, is given or has a size of 32 bits. -/
  sizes : ∀ r ∈ s'.dag.cregs, r ∈ s.dag.cregs ∨ r ∈ given.map Prod.snd ∨ r.size < 1 <<< 32

theorem Gives.none (hqregs : s'.dag.qregs = s.dag.qregs) (hcregs : s'.dag.cregs = s.dag.cregs)
    (hnamer : s'.namer = s.namer) : Gives c ds s [] s' where
  qregs := hqregs
  cregs := (congrArg (List.filter _) hcregs).trans (List.append_nil _).symm
  names := hnamer ▸ .nil _
  unreserved := by simp
  unrecorded := by simp
  sizes r hr := .inl (hcregs ▸ hr)

theorem Gives.refl (c : VertexCircuit) (ds : List (Nat × Destination)) (s : Restoration) :
    Gives c ds s [] s :=
  .none rfl rfl rfl

theorem Gives.append (h : Gives c ds s given s') (h' : Gives c ds s' given' s'') :
    Gives c ds s (given ++ given') s'' where
  qregs := h'.qregs.trans h.qregs
  cregs := by rw [h'.cregs, h.cregs, List.map_append, List.append_assoc]
  names := by
    rw [List.map_append]
    exact h.names.append h'.names
  unreserved t ht := by
    rcases List.mem_append.mp ht with ht | ht
    · exact h.unreserved t ht
    · exact h.qregs ▸ h'.unreserved t ht
  unrecorded t ht := by
    rcases List.mem_append.mp ht with ht | ht
    · exact h.unrecorded t ht
    · exact h'.unrecorded t ht
  sizes r hr := by
    rw [List.map_append, List.mem_append]
    rcases h'.sizes r hr with hr | hr | hr
    · exact (h.sizes r hr).imp_right (.imp_left .inl)
    · exact .inr (.inl (.inr hr))
    · exact .inr (.inr hr)

/-- The bits an operation writes are those of the register that its vertex is given, or recorded. -/
def Writes (ds : List (Nat × Destination)) (given : List (Nat × Register)) (v : Nat)
    (op : Operation) : Prop :=
  (∃ r, (v, r) ∈ given ∧ op.cargs = r.clbits) ∨
    (∀ dest, ds.lookup v = some dest → dest.isEmpty = false) ∧
      ∀ b ∈ op.cargs, b.register ∈ reservedNames ds

theorem Writes.mono {op : Operation} (h : Writes ds given v op) (hsub : given ⊆ given') :
    Writes ds given' v op := by
  rcases h with ⟨r, hr, hop⟩ | h
  · exact .inl ⟨r, hsub hr, hop⟩
  · exact .inr h

theorem exists_given_fresh (hs : s.dag.Sound) (hx : c.vertex? v = some x) (hu : Unrecorded x)
    (hnarrow : c.Narrow) {dest : Destination} (he : dest.isEmpty) :
    ∃ r s', (writtenBits (reservedNames ds) v x dest).run.run s = (.ok r.clbits, s') ∧
      Dag.Extends s.dag s'.dag ∧ Gives c ds s [(v, r)] s' := by
  obtain ⟨s', hrun, hdag, hnamer, hextends, -⟩ :=
    exists_writtenBits_fresh (reservedNames ds) v x hs he (hnarrow v x hx hu.1)
  obtain ⟨hreserved, -, hqregs⟩ := notMem_freshRegister (reservedNames ds) x s
  have hnew := creg?_freshRegister (reservedNames ds) x s
  have hcregs : s'.dag.cregs = s.dag.cregs ++ [s.freshRegister (reservedNames ds) x] := by
    rw [hdag, Dag.edit_addCreg_of_new hnew]
  refine ⟨_, s', hrun, hextends, ?_⟩
  constructor
  case qregs => exact hextends.qregs
  case cregs =>
    rw [hdag, Dag.cregsBut_addCreg hnew, List.filter_cons_of_pos (by simpa using hreserved)]
    rfl
  case names => exact hnamer ▸ .cons _ (.nil _)
  case unreserved =>
    intro t ht
    obtain rfl := List.mem_singleton.mp ht
    exact ⟨hreserved, hqregs⟩
  case unrecorded =>
    intro t ht
    obtain rfl := List.mem_singleton.mp ht
    exact ⟨x, hx, hu, rfl⟩
  case sizes =>
    intro r hr
    rw [hcregs, List.mem_append] at hr
    exact hr.imp_right .inl

theorem exists_given_recorded (c : VertexCircuit) (hs : s.dag.Sound) {dest : Destination}
    (hdest : (v, dest) ∈ ds) (hfits : dest.Fits) (he : dest.isEmpty = false) :
    ∃ s', (writtenBits (reservedNames ds) v x dest).run.run s = (.ok dest.bits, s') ∧
      Dag.Extends s.dag s'.dag ∧ Gives c ds s [] s' := by
  obtain ⟨s', hrun, hprovided, hnamer, hextends, -⟩ :=
    exists_writtenBits_recorded (reservedNames ds) v x hs he
  have hnames : ∀ r ∈ dest.requiredSizes, r.name ∈ reservedNames ds := by
    intro r hr
    exact mem_reservedNames.mpr ⟨v, dest, hdest, (Destination.mem_requiredSizes.mp hr).1⟩
  have hcregs := Dag.cregsBut_forM_provide hnames hprovided
  refine ⟨s', hrun, hextends, hextends.qregs, hcregs.trans (List.append_nil _).symm,
    hnamer ▸ .nil _, by simp, by simp, fun r hr => ?_⟩
  rcases Dag.mem_or_size_of_mem_forM_provide hprovided hr with hr | ⟨r', hr', hsize⟩
  · exact .inl hr
  · exact .inr (.inr (hsize ▸ hfits.requiredSize_lt hr'))

structure Provides (c : VertexCircuit) (ds : List (Nat × Destination)) (vs : List Nat)
    (s : Restoration) (given : List (Nat × Register)) (o : Except ConversionFault Unit)
    (s' : Restoration) : Prop where
  gives : Gives c ds s given s'
  vertices : (given.map Prod.fst).Sublist vs
  writes : o = .ok () → ∃ new, s'.dag.operations = s.dag.operations ++ new ∧
    List.Forall₂ (fun v op => Writes ds given v op.2) (vs.filter c.isInner) new

theorem Provides.failed (c : VertexCircuit) (ds : List (Nat × Destination)) (vs : List Nat)
    (s : Restoration) (f : ConversionFault) : Provides c ds vs s [] (.error f) s where
  gives := .refl c ds s
  vertices := List.nil_sublist _
  writes ho := nomatch ho

theorem gives_announce (hs : s.dag.Sound) {op : Operation} {o : Except ConversionFault Unit}
    (h : (announce v op).run.run s = (o, s')) : Gives c ds s [] s' := by
  obtain ⟨_, hrun, hdag, hnamer⟩ := run_announce v op s
  obtain ⟨-, rfl⟩ := Prod.mk.inj (hrun.symm.trans h)
  obtain ⟨hcregs, hqregs⟩ := Dag.registers_declareAppend hs op
  exact .none (hdag ▸ hqregs) (hdag ▸ hcregs) hnamer

theorem Gives.provides {s₁ : Restoration} {op : Operation} {o : Except ConversionFault Unit}
    (h : Gives c ds s given s₁) (hs : Dag.Extends s.dag s₁.dag) (hv : c.isInner v)
    (hgiven : (given.map Prod.fst).Sublist [v]) (hw : Writes ds given v op)
    (hrun : (announce v op).run.run s₁ = (o, s')) : Provides c ds [v] s given o s' := by
  refine ⟨?_, hgiven, ?_⟩
  · rw [← List.append_nil given]
    exact h.append (gives_announce hs.sound hrun)
  · rintro rfl
    obtain ⟨-, -, -, n, hops⟩ := announce_ok hs.sound hrun
    rw [List.filter_cons_of_pos hv, List.filter_nil]
    exact ⟨[(n, op)], by rw [hops, hs.operations], .cons hw .nil⟩

theorem exists_given (hs : s.dag.Sound) (hds : c.destinations = .ok ds) (hnarrow : c.Narrow)
    (hx : c.vertex? v = some x) : ∃ given cargs s₁,
      (provideBits ds v x).run.run s = (.ok cargs, s₁) ∧ Dag.Extends s.dag s₁.dag ∧
      Gives c ds s given s₁ ∧ (given.map Prod.fst).Sublist [v] ∧
      ∀ op, op.cargs = cargs → Writes ds given v op := by
  unfold provideBits
  obtain ⟨hmeasure, hother⟩ := lookup_destinations hds hx
  by_cases hk : x.kind = .measure
  · obtain ⟨dest, hlookup, hdest⟩ := hmeasure hk
    rw [hlookup]
    cases he : dest.isEmpty with
    | true =>
      have hu : Unrecorded x := ⟨hk, dest, mapError_eq_ok.mp hdest, he⟩
      obtain ⟨r, s₁, hrun, hs₁, hgives⟩ := exists_given_fresh hs hx hu hnarrow he
      refine ⟨_, _, s₁, hrun, hs₁, hgives, .refl _, fun op hop => ?_⟩
      exact .inl ⟨r, List.mem_singleton_self _, hop⟩
    | false =>
      have hm := (mem_destinations hds).mpr ⟨x, hx, hk, hdest⟩
      have hfits := Destination.fits_of_decode (mapError_eq_ok.mp hdest)
      obtain ⟨s₁, hrun, hs₁, hgives⟩ := exists_given_recorded c hs hm hfits he
      refine ⟨_, _, s₁, hrun, hs₁, hgives, List.nil_sublist _, fun op hop => .inr ⟨?_, ?_⟩⟩
      · intro dest' hlookup'
        rwa [← Option.some.inj (hlookup.symm.trans hlookup')]
      · intro b hb
        exact mem_reservedNames.mpr ⟨v, dest, hm, b, hop ▸ hb, rfl⟩
  · have hnone := hother hk
    rw [hnone]
    refine ⟨[], [], s, rfl, .refl hs, .refl c ds s, List.nil_sublist _, fun op hop => .inr ⟨?_, ?_⟩⟩
    · intro dest hlookup
      cases hnone.symm.trans hlookup
    · simp [hop]

theorem exists_provides_restoreVertex (hs : s.dag.Sound) (hds : c.destinations = .ok ds)
    (hnarrow : c.Narrow) {o : Except ConversionFault Unit}
    (h : (c.restoreVertex g register ds v).run.run s = (o, s')) :
    ∃ given, Provides c ds [v] s given o s' := by
  rcases restoreVertex_outcome h with
    ⟨f, rfl, rfl⟩ | ⟨hv, rfl, rfl⟩ | ⟨hv, x, qargs, name, hx, -, -, h⟩
  · exact ⟨[], .failed c ds [v] s' f⟩
  · refine ⟨[], .refl c ds s', List.nil_sublist _, fun _ => ⟨[], (List.append_nil _).symm, ?_⟩⟩
    rw [List.filter_cons_of_neg (by simp [hv])]
    exact .nil
  · obtain ⟨given, cargs, s₁, hrun, hs₁, hgives, hgiven, hwrites⟩ := exists_given hs hds hnarrow hx
    rw [run_bind_ok hrun] at h
    exact ⟨given, hgives.provides hs₁ hv hgiven (hwrites _ rfl) h⟩

/-- Vertices are given registers one after the other, up to the first that is not restored. -/
theorem exists_provides_forM {vs : List Nat} (hs : s.dag.Sound) (hds : c.destinations = .ok ds)
    (hnarrow : c.Narrow) {o : Except ConversionFault Unit}
    (h : (vs.forM (c.restoreVertex g register ds)).run.run s = (o, s')) :
    ∃ given, Provides c ds vs s given o s' := by
  induction vs generalizing s with
  | nil =>
    obtain ⟨rfl, rfl⟩ := Prod.mk.inj h
    exact ⟨[], .refl c ds s, .slnil, fun _ => ⟨[], (List.append_nil _).symm, .nil⟩⟩
  | cons v vs ih =>
    rcases hrun : (c.restoreVertex g register ds v).run.run s with ⟨f | u, s₁⟩
    · obtain ⟨rfl, rfl⟩ := Prod.mk.inj ((run_bind_error hrun).symm.trans h)
      obtain ⟨given, hgiven⟩ := exists_provides_restoreVertex hs hds hnarrow hrun
      exact ⟨given, hgiven.gives, hgiven.vertices.trans (by simp), fun ho => nomatch ho⟩
    · obtain ⟨given, hgiven⟩ := exists_provides_restoreVertex hs hds hnarrow hrun
      obtain ⟨given', hgiven'⟩ := ih (sound_restoreVertex hs hrun) ((run_bind_ok hrun).symm.trans h)
      refine ⟨given ++ given', hgiven.gives.append hgiven'.gives, ?_, fun ho => ?_⟩
      · rw [List.map_append, ← List.singleton_append]
        exact hgiven.vertices.append hgiven'.vertices
      · obtain ⟨new, hnew, hwrites⟩ := hgiven.writes rfl
        obtain ⟨new', hnew', hwrites'⟩ := hgiven'.writes ho
        refine ⟨new ++ new', by rw [hnew', hnew, List.append_assoc], ?_⟩
        rw [← List.singleton_append, List.filter_append]
        exact List.rel_append
          (hwrites.imp fun _ _ hw => hw.mono (List.subset_append_left _ _))
          (hwrites'.imp fun _ _ hw => hw.mono (List.subset_append_right _ _))

def recordedNames (c : VertexCircuit) : List String :=
  reservedNames (c.destinations.toOption.getD [])

structure OwnRegister (c : VertexCircuit) (register : String) (node : Nat → Nat) (d : Dag) (v : Nat)
    (r : Register) : Prop where
  declared : r ∈ d.cregs
  /-- The measurement writes the bits of the register in their order. -/
  written : ∃ op, d.node? (node v) = some (.op op) ∧
    op.cargs = (List.range r.size).map (Clbit.mk r.name)
  ne_register : r.name ≠ register
  /-- No measurement records a bit of the register. -/
  unrecorded : ∀ u x dest, c.vertex? u = some x → x.kind = .measure →
    Destination.decode (x.description?.getD "") x.outputs = .ok dest →
    ∀ b ∈ dest.bits, b.register ≠ r.name
  /-- No other operation writes a bit of the register. -/
  alone : ∀ m op, d.node? m = some (.op op) → m ≠ node v → ∀ b ∈ op.cargs, b.register ≠ r.name

/-- A circuit that is to be restored and the names that are left for it. -/
structure Turn where
  circuit : VertexCircuit
  register : String
  namer : Namer

namespace Turn

/-- The registers that are made and that no destination names, in the order in which they are made.
They count even if the restoration fails later on. -/
def made (t : Turn) : List Register :=
  (t.circuit.restored t.register t.namer).2.dag.cregsBut t.circuit.recordedNames

/-- Which vertices are given which registers. -/
structure Names (t : Turn) (given : List (Nat × Register)) : Prop where
  made : t.made = given.map Prod.snd
  /-- The names of these registers are the fresh names that are asked for. -/
  names : t.namer.Gives (given.map fun p => p.2.name)
    (t.circuit.toWiresWith t.register t.namer).2
  nodup : (given.map Prod.fst).Nodup
  unrecorded : ∀ v r, (v, r) ∈ given →
    ∃ x, t.circuit.vertex? v = some x ∧ Unrecorded x ∧ r.size = x.outputs
  /-- In what is restored every measurement that records nothing has its register. -/
  own : ∀ d, (t.circuit.toWiresWith t.register t.namer).1 = .ok d →
    ∃ node, ReadsLines t.circuit t.register node d ∧
      ∀ v x, t.circuit.vertex? v = some x → Unrecorded x →
        ∃ r, (v, r) ∈ given ∧ OwnRegister t.circuit t.register node d v r

theorem names_nil {t : Turn} {f : ConversionFault} {s : Restoration}
    (h : t.circuit.restored t.register t.namer = (.error f, s)) (hcregs : s.dag.cregs = [])
    (hnamer : s.namer = t.namer) : t.Names [] where
  made := by
    rw [made, h, Dag.cregsBut, hcregs]
    rfl
  names := by
    rw [toWiresWith_def, h, hnamer]
    exact .nil _
  nodup := .nil
  unrecorded := by simp
  own d hd := by
    rw [toWiresWith_def, h] at hd
    cases hd

end Turn

theorem Unrecorded.lookup (hds : c.destinations = .ok ds) (hx : c.vertex? v = some x)
    (hu : Unrecorded x) : ∃ dest, ds.lookup v = some dest ∧ dest.isEmpty := by
  obtain ⟨hk, dest, hdest, he⟩ := hu
  obtain ⟨dest', hlookup, hdest'⟩ := (lookup_destinations hds hx).1 hk
  rw [destination, hdest] at hdest'
  exact ⟨dest', hlookup, Except.ok.inj hdest' ▸ he⟩

theorem isInner_of_measure (hx : c.vertex? v = some x) (hk : x.kind = .measure) : c.isInner v := by
  rw [isInner_iff_of_vertex? hx, hk]
  exact Bool.false_ne_true

theorem Unrecorded.isInner (hx : c.vertex? v = some x) (hu : Unrecorded x) : c.isInner v :=
  isInner_of_measure hx hu.1

theorem ReadOff.ownRegister {op : Nat → Nat × Operation} {r : Register}
    (h : ReadOff c register g ds op d) (hg : Layered c g) (hds : c.destinations = .ok ds)
    (hgives : Gives c ds s given s') (hs : s.dag.qregs = [⟨register, c.lineCount⟩])
    (hd : s'.dag = d) (hwrites : ∀ u, c.isInner u → Writes ds given u (op u).2) (hv : c.isInner v)
    (hr : (v, r) ∈ given) (hcargs : (op v).2.cargs = r.clbits) :
    OwnRegister c register (fun u => (op u).1) d v r := by
  obtain ⟨hreserved, hqregs⟩ := hgives.unreserved _ hr
  constructor
  case declared =>
    have hm : r ∈ s'.dag.cregsBut (reservedNames ds) := by
      rw [hgives.cregs]
      exact List.mem_append_right _ (List.mem_map_of_mem hr)
    exact hd ▸ (List.mem_filter.mp hm).1
  case written => exact ⟨_, (h.node?_iff hg).mpr ⟨v, hv, rfl⟩, hcargs⟩
  case ne_register =>
    rintro rfl
    exact hqregs (by simp [hs])
  case unrecorded =>
    rintro u x dest hx hk hdest b hb hname
    have hm := (mem_destinations hds).mpr ⟨x, hx, hk, mapError_eq_ok.mpr hdest⟩
    exact hreserved (mem_reservedNames.mpr ⟨u, dest, hm, b, hb, hname⟩)
  case alone =>
    intro m o hm hne b hb hname
    obtain ⟨u, hu, ho⟩ := (h.node?_iff hg).mp hm
    obtain ⟨rfl, rfl⟩ := Prod.mk.inj ho
    -- Names are given once, and a recorded bit is in a reserved register.
    rcases hwrites u hu with ⟨r', hr', hcargs'⟩ | ⟨-, hrecorded⟩
    · rw [hcargs'] at hb
      have hname' : r'.name = r.name := by rw [← hname, (Register.mem_clbits.mp hb).1]
      have hsame := List.inj_on_of_nodup_map hgives.names.nodup hr' hr hname'
      exact hne (congrArg (fun v => (op v).1) (congrArg Prod.fst hsame))
    · exact hreserved (hname ▸ hrecorded b hb)

/-- If a circuit is restored, then every vertex within its lines has its operation, which writes
what the vertex was given or records. -/
theorem Provides.exists_writes {o : Except ConversionFault Unit} (hc : c.Wired)
    (hin : ∀ v, c.hasKind .input v → c.pins v = 0) (hlaid : layOut c = .ok g)
    (hds : c.destinations = .ok ds)
    (hrun : (g.reading.forM (c.restoreVertex g register ds)).run.run (c.start register namer) =
      (o, s))
    (h : Provides c ds g.reading (c.start register namer) given o s)
    (hd : (c.toWiresWith register namer).1 = .ok d) :
    ∃ op, s.dag = d ∧ ReadOff c register g ds op d ∧
      ReadsLines c register (fun v => (op v).1) d ∧
      ∀ u, c.isInner u → Writes ds given u (op u).2 := by
  obtain ⟨g', ds', op, hlaid', hg, hds', hr, hreads⟩ := exists_readsLines hc hin hd
  obtain rfl := Except.ok.inj (hlaid.symm.trans hlaid')
  obtain rfl := Except.ok.inj (hds.symm.trans hds')
  rw [toWiresWith_eq (lineCount_lt_of_toWiresWith hd) hlaid hds hrun] at hd
  obtain ⟨_, rfl, rfl⟩ := map_eq_ok.mp hd
  obtain ⟨new, hnew, hall⟩ := h.writes rfl
  rw [(sound_start c register namer).2, List.nil_append] at hnew
  rw [← hnew, hr.operations, List.forall₂_map_right_iff, List.forall₂_same] at hall
  exact ⟨op, rfl, hr, hreads, fun u hu =>
    hall u (List.mem_filter.mpr ⟨hg.mem_reading.mpr (mem_of_isInner hu), hu⟩)⟩

/-- A restoration gives its measurements registers, whether it succeeds or fails. -/
theorem Turn.exists_names (t : Turn) (hc : t.circuit.Wired)
    (hin : ∀ v, t.circuit.hasKind .input v → t.circuit.pins v = 0) :
    ∃ given, t.Names given := by
  obtain ⟨c, register, namer⟩ := t
  dsimp only at hc hin ⊢
  -- A turn that stops before its vertices are read off gives no name.
  by_cases hlines : c.lineCount < 1 <<< 32
  case neg => exact ⟨[], names_nil (restored_of_not_lt hlines namer) rfl rfl⟩
  have hstart := cregs_start c register namer
  cases hlaid : layOut c with
  | error f => exact ⟨[], names_nil (restored_of_not_laid hlines hlaid namer) hstart rfl⟩
  | ok g =>
    cases hds : c.destinations with
    | error f => exact ⟨[], names_nil (restored_of_not_decoded hlines hlaid hds namer) hstart rfl⟩
    | ok ds =>
      have hg := layered_of_wired hc hin (fun _ gs => .refl gs) hlaid
      have hnarrow := narrow_of_layOut hc hin hlines hlaid
      have hsound := (sound_start c register namer).1
      rcases hrun : (g.reading.forM (c.restoreVertex g register ds)).run.run
        (c.start register namer) with ⟨o, s⟩
      obtain ⟨given, hprov⟩ := exists_provides_forM hsound hds hnarrow hrun
      have hgives := hprov.gives
      obtain ⟨s', hrestored, hdag, hnamer⟩ := exists_restored_eq hlines hlaid hds hrun
      have hnames : (c.toWiresWith register namer).2 = s.namer := by
        rw [toWiresWith_def, hrestored, hnamer]
      refine ⟨given, ?_, hnames ▸ hgives.names, hprov.vertices.nodup hg.reading_nodup,
        fun v r hr => hgives.unrecorded _ hr, ?_⟩
      · have hcregs := hgives.cregs
        rw [Dag.cregsBut, Dag.cregsBut, cregs_start] at hcregs
        rw [Turn.made, hrestored, recordedNames, hds, hdag]
        exact hcregs
      · intro d hd
        dsimp only at hd ⊢
        obtain ⟨op, rfl, hr, hreads, hinner⟩ := hprov.exists_writes hc hin hlaid hds hrun hd
        refine ⟨_, hreads, fun v x hx hu => ?_⟩
        have hv := hu.isInner hx
        obtain ⟨dest, hlookup, he⟩ := hu.lookup hds hx
        rcases hinner v hv with ⟨r, hvr, hcargs⟩ | ⟨hnone, -⟩
        · exact ⟨r, hvr, hr.ownRegister hg hds hgives (qregs_start c register namer) rfl hinner hv
            hvr hcargs⟩
        · cases he.symm.trans (hnone dest hlookup)

def turns (n : Namer) : List (VertexCircuit × String) → List Turn
  | [] => []
  | (c, register) :: rest => ⟨c, register, n⟩ :: turns (c.toWiresWith register n).2 rest

theorem exists_names_of_turns (seq : List (VertexCircuit × String)) (n : Namer)
    (hc : ∀ p ∈ seq, p.1.Wired) (hin : ∀ p ∈ seq, ∀ v, p.1.hasKind .input v → p.1.pins v = 0) :
    ∃ given n', List.Forall₂ Turn.Names (turns n seq) given ∧
      n.Gives (given.flatten.map fun t => t.2.name) n' := by
  induction seq generalizing n with
  | nil => exact ⟨[], n, .nil, .nil n⟩
  | cons p seq ih =>
    obtain ⟨c, register⟩ := p
    obtain ⟨g, hg⟩ := Turn.exists_names ⟨c, register, n⟩ (hc _ List.mem_cons_self)
      (hin _ List.mem_cons_self)
    obtain ⟨given, n', hgiven, hn'⟩ := ih (c.toWiresWith register n).2
      (fun p hp => hc p (List.mem_cons_of_mem _ hp)) fun p hp => hin p (List.mem_cons_of_mem _ hp)
    refine ⟨g :: given, n', .cons hg hgiven, ?_⟩
    rw [List.flatten_cons, List.map_append]
    exact hg.names.append hn'

/-- Whatever calls some circuits are built by, if no input has input pins and they are restored one
after the other with shared names, then the names of the registers that their measurements are given
are all different and have increasing numbers, and every measurement that records nothing has a
register of its own in what its circuit is restored as. Looking for a name ends one draw after at
most as many as names are taken. -/
theorem exists_numbers_of_turns (seq : List (List Call × String)) (n : Namer)
    (hin : ∀ p ∈ seq, ∀ v, (of p.1).hasKind .input v → (of p.1).pins v = 0) :
    (∃ (given : List (List (Nat × Register))) (numbers : List Nat),
      List.Forall₂ Turn.Names (turns n (seq.map fun p => (of p.1, p.2))) given ∧
      (given.flatten.map fun t => t.2.name) = numbers.map n.name ∧
      numbers.Pairwise (· < ·) ∧ (given.flatten.map fun t => t.2.name).Nodup) ∧
    ∀ (n : Namer) (taken : List String),
      ∃ k ≤ taken.toFinset.card + 1, n.Draws taken k (n.fresh taken) := by
  have hc : ∀ p ∈ seq.map fun p => (of p.1, p.2), p.1.Wired := by
    intro p hp
    obtain ⟨q, -, rfl⟩ := List.mem_map.mp hp
    exact wired_of q.1
  have hin' : ∀ p ∈ seq.map fun p => (of p.1, p.2), ∀ v, p.1.hasKind .input v → p.1.pins v = 0 := by
    intro p hp
    obtain ⟨q, hq, rfl⟩ := List.mem_map.mp hp
    exact hin q hq
  obtain ⟨given, n', hgiven, hn⟩ := exists_names_of_turns _ n hc hin'
  obtain ⟨numbers, hnumbers, hsorted, -⟩ := hn.exists_numbers
  exact ⟨⟨given, numbers, hgiven, hnumbers, hsorted, hn.nodup⟩, fun n taken => n.exists_draws taken⟩

def unrestorable : List Call :=
  [.addVertex .lineStart, .addVertex (.onLines .measure 1), .addVertex (.onLines .reset 1),
    .addVertex .lineEnd, .addLink ⟨0, 0, 1, 0⟩, .addLink ⟨1, 0, 2, 0⟩, .addLink ⟨2, 0, 3, 0⟩]

/-- A measurement that records nothing, and a later one that records the name it would get. -/
def foreseeing : List Call :=
  [.addVertex .lineStart, .addVertex .lineStart, .addVertex (.onLines .measure 1),
    .addVertex (.onLines .x 1),
    .addVertex (.onLines .measure 1 (.description (Destination.ofClbits [⟨"m2", 0⟩] []).encode)),
    .addVertex .lineEnd, .addVertex .lineEnd, .addLink ⟨0, 0, 2, 0⟩, .addLink ⟨1, 0, 3, 0⟩,
    .addLink ⟨3, 0, 4, 0⟩, .addLink ⟨2, 0, 5, 0⟩, .addLink ⟨4, 0, 6, 0⟩]

theorem exists_numbers_of_turns_foreseeing :
    (turns { stem := "m" } [(of unrestorable, "q"), (of foreseeing, "q")]).map Turn.made =
        [[⟨"m1", 1⟩], [⟨"m3", 1⟩]] ∧
      ∃ (given : List (List (Nat × Register))) (numbers : List Nat),
        List.Forall₂ Turn.Names
          (turns { stem := "m" } [(of unrestorable, "q"), (of foreseeing, "q")]) given ∧
        (given.flatten.map fun t => t.2.name) = numbers.map (Namer.name { stem := "m" }) ∧
        numbers.Pairwise (· < ·) ∧ (given.flatten.map fun t => t.2.name).Nodup := by
  have hpins : ∀ p ∈ [(unrestorable, "q"), (foreseeing, "q")], ∀ v ∈ (of p.1).inputs,
      (of p.1).pins v = 0 := by
    decide +kernel
  have hin : ∀ p ∈ [(unrestorable, "q"), (foreseeing, "q")], ∀ v,
      (of p.1).hasKind .input v → (of p.1).pins v = 0 := fun p hp v hv =>
    hpins p hp v (mem_inputs.mpr hv)
  have hmade : (turns { stem := "m" } [(of unrestorable, "q"), (of foreseeing, "q")]).map
      Turn.made = [[⟨"m1", 1⟩], [⟨"m3", 1⟩]] := by
    decide +kernel
  exact ⟨hmade, (exists_numbers_of_turns [(unrestorable, "q"), (foreseeing, "q")] { stem := "m" }
    hin).1⟩

end VertexCircuit

end CircuitForms
