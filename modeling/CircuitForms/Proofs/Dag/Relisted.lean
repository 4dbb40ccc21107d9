import CircuitForms.Proofs.Dag.Declared
import CircuitForms.Proofs.Dag.Depth

/-! # Listed circuits of wires

A circuit that can be listed is listed with all its operations, those on every wire in
the order of their appending. The listing is accepted again. The circuit read from it
has the same registers and depth, and each of its wires leads through the same
operations.
-/

namespace CircuitForms.Dag

variable {d d' d₀ : Dag} {op : Operation} {l : DagListing} {ops : List (Nat × Operation)}

theorem edit_discard {α : Type} {x : Edit α} {a : α} (h : edit x d = (.ok a, d')) :
    edit (discard x) d = (.ok (), d') := by
  rw [discard_eq]
  exact edit_bind_ok h

theorem after_eq_ok {α : Type} {e : Edit α} {a : α} (h : edit e d = (.ok a, d')) :
    after e d = .ok d' := by
  rw [after, h]
  rfl

theorem not_isSome_find? {rs new : List Register} {r : Register}
    (hn : ((rs ++ r :: new).map Register.name).Nodup) :
    ¬ (Register.find? rs r.name).isSome := by
  rw [Register.find?_isSome_iff]
  rw [List.map_append, List.map_cons] at hn
  exact fun hm => List.disjoint_of_nodup_append hn hm List.mem_cons_self

theorem exists_addRegisters (h : d.Sound) (k : BitKind) (rs : List Register)
    (hn : ((d.registers k ++ rs).map Register.name).Nodup) :
    ∃ d', edit (rs.forM (addRegister k)) d = (.ok (), d') ∧ d'.Sound ∧
      d'.registers k = d.registers k ++ rs ∧ (∀ k', k' ≠ k → d'.registers k' = d.registers k') ∧
      d'.basis = d.basis ∧ d'.operations = d.operations := by
  induction rs generalizing d with
  | nil => exact ⟨d, rfl, h, by simp, fun _ _ => rfl, rfl, rfl⟩
  | cons r rs ih =>
    have hedit := edit_addRegister k r d
    rw [if_neg (not_isSome_find? hn)] at hedit
    obtain ⟨hsound, hops⟩ := h.addRegister k r
    rw [hedit] at hsound hops
    have hk := registers_addRegister d r k
    obtain ⟨d', hd', hs', hrs, hother, hb, ho⟩ := ih hsound (by simpa [hk] using hn)
    refine ⟨d', (edit_bind_ok hedit).trans hd', hs', by simpa [hk] using hrs, fun k' hk' => ?_, ?_,
      ho.trans hops⟩
    · simpa [hk, hk'] using hother k' hk'
    · cases k <;> simpa using hb

/-- A sound circuit with the registers of another that declares nothing else than the other. -/
structure Within (d d₀ : Dag) : Prop where
  sound : d.Sound
  qregs : d.qregs = d₀.qregs
  cregs : d.cregs = d₀.cregs
  basis : ∀ s ∈ d.basis, d₀.signature? s.name = some s

theorem Within.signature? (h : d.Within d₀) {name : String} {s : Signature}
    (hs : d.signature? name = some s) : d₀.signature? name = some s := by
  have hname : s.name = name := by simpa using List.find?_some hs
  exact hname ▸ h.basis s (List.mem_of_find?_eq_some hs)

theorem Within.exists_declareAppend (h : d.Within d₀) (ha : d₀.Admits op) :
    ∃ d', edit (discard (declareAppend op)) d = (.ok (), d') ∧ d'.Within d₀ ∧
      d'.operations.map Prod.snd = d.operations.map Prod.snd ++ [op] := by
  have hqubit : ∀ q ∈ op.qargs, d.hasQubit q := by
    simpa [hasQubit, qreg?, h.qregs] using ha.qubit
  have hclbit : ∀ c ∈ op.cargs, d.hasClbit c := by
    simpa [hasClbit, creg?, h.cregs] using ha.clbit
  have hcondition : ∀ k, op.condition = some k → (d.creg? k.register).isSome := by
    simpa [creg?, h.cregs] using ha.condition
  rcases declareAppend_cases h.sound hqubit hclbit ha.nodup hcondition with
    ⟨n, d', hd', hg⟩ | ⟨s, hs, hne, -⟩
  · refine ⟨d', edit_discard hd',
      ⟨hg.sound, hg.qregs.trans h.qregs, hg.cregs.trans h.cregs, ?_⟩, ?_⟩
    · intro s hm
      rcases hg.basis s hm with hm | rfl
      · exact h.basis s hm
      · exact ha.signature
    · obtain ⟨v, hops⟩ := hg.operations
      rw [hops, List.map_append]
      rfl
  · exact absurd (Option.some.inj ((h.signature? hs).symm.trans ha.signature)) hne

theorem Within.exists_declareAppends {ops : List Operation} (h : d.Within d₀)
    (ha : ∀ op ∈ ops, d₀.Admits op) :
    ∃ d', edit (ops.forM fun op => discard (declareAppend op)) d = (.ok (), d') ∧ d'.Within d₀ ∧
      d'.operations.map Prod.snd = d.operations.map Prod.snd ++ ops := by
  induction ops generalizing d with
  | nil => exact ⟨d, rfl, h, (List.append_nil _).symm⟩
  | cons op ops ih =>
    obtain ⟨d₁, hd₁, h₁, hops₁⟩ := h.exists_declareAppend (ha op List.mem_cons_self)
    obtain ⟨d', hd', h', hops⟩ := ih h₁ fun o ho => ha o (List.mem_cons_of_mem _ ho)
    refine ⟨d', (edit_bind_ok hd₁).trans hd', h', ?_⟩
    rw [hops, hops₁, List.append_assoc]
    rfl

/-- A listing of the registers of a circuit and of operations it admits is accepted. -/
theorem exists_ofListing (h : d₀.Sound) (hq : l.qregs = d₀.qregs) (hc : l.cregs = d₀.cregs)
    (ha : ∀ op ∈ l.operations, d₀.Admits op) :
    ∃ d, ofListing l = .ok d ∧ d.Within d₀ ∧ d.operations.map Prod.snd = l.operations := by
  obtain ⟨d₁, hd₁, hs₁, hq₁, hother₁, hb₁, hops₁⟩ :=
    exists_addRegisters Sound.empty .quantum l.qregs (hq ▸ h.qnames)
  have hc₁ : d₁.registers .classical = [] := hother₁ .classical nofun
  obtain ⟨d₂, hd₂, hs₂, hc₂, hother₂, hb₂, hops₂⟩ :=
    exists_addRegisters hs₁ .classical l.cregs (by rw [hc₁]; exact hc ▸ h.cnames)
  have hwithin : d₂.Within d₀ := by
    refine ⟨hs₂, (hother₂ .quantum nofun).trans (hq₁.trans hq), ?_, ?_⟩
    · rw [hc₁] at hc₂
      exact hc₂.trans hc
    · rw [hb₂, hb₁]
      simp
  obtain ⟨d, hd, hw, hops⟩ := hwithin.exists_declareAppends ha
  refine ⟨d, after_eq_ok ((edit_bind_ok hd₁).trans ((edit_bind_ok hd₂).trans hd)), hw, ?_⟩
  rw [hops, hops₂, hops₁]
  rfl

/-- A circuit has the registers and the depth of another, and on every wire the same operations. -/
structure Copies (d d' : Dag) : Prop where
  qregs : d'.qregs = d.qregs
  cregs : d'.cregs = d.cregs
  op_count : d'.opCount = d.opCount
  depth : ∃ k, d.depth = .ok k ∧ d'.depth = .ok k
  wire : ∀ w, d.hasWire w → ∃ s vs e s' vs' e', d.graph.Strand w s vs e ∧
    d'.graph.Strand w s' vs' e' ∧ vs'.map d'.node? = vs.map d.node?

/-- What a listing of the circuit of a history says, and what is read from it. -/
structure Lists (h : History) (l : DagListing) : Prop where
  qregs : l.qregs = h.dag.qregs
  cregs : l.cregs = h.dag.cregs
  /-- The operations stand in the order in which a search with a stack finds them. -/
  sorted : ∃ order, h.dag.graph.Sorts order ∧
    l.operations = (order.filterMap h.dag.numbered?).map Prod.snd
  operations : ∃ ops, l.operations = ops.map Prod.snd ∧ Rearranges ops h.applied
  copy : ∃ d, ofListing l = .ok d ∧ Copies h.dag d

theorem depth_eq_ok {order : List Nat} (h : d.order = .ok order) :
    d.depth = .ok ((d.levels order).toList.foldl max 0) := by
  rw [depth, h]
  rfl

theorem map_snd_on (w : Wire) (ops : List (Nat × Operation)) :
    (on w ops).map Prod.snd = (ops.map Prod.snd).filter (w ∈ ·.wires) := by
  rw [List.filter_map]
  rfl

theorem map_node?_visits (hn : ∀ x ∈ d.operations, x.2.wires.Nodup) (w : Wire) :
    (visits d.operations w).map d.node? =
      ((on w d.operations).map Prod.snd).map fun op => some (.op op) := by
  rw [visits_eq hn, List.map_map, List.map_map]
  refine List.map_congr_left fun x hx => ?_
  exact mem_operations_iff.mp (mem_on.mp hx).1

theorem Within.copies (h : d₀.Sound) (hw : d.Within d₀) {order : List Nat}
    (ho : d₀.order = .ok order) (hr : Rearranges ops d₀.operations)
    (hops : d.operations.map Prod.snd = ops.map Prod.snd) : Copies d₀ d := by
  have hn₀ : ∀ x ∈ d₀.operations, x.2.wires.Nodup :=
    h.exists_order_iff.mp ⟨order, ho⟩
  have hn : ∀ x ∈ d.operations, x.2.wires.Nodup := by
    intro x hx
    have hm : x.2 ∈ ops.map Prod.snd := hops ▸ List.mem_map_of_mem hx
    obtain ⟨y, hy, he⟩ := List.mem_map.mp hm
    exact he ▸ hn₀ y (hr.perm.mem_iff.mp hy)
  obtain ⟨order', ho'⟩ := hw.sound.exists_order_iff.mpr hn
  constructor
  case qregs => exact hw.qregs
  case cregs => exact hw.cregs
  case op_count =>
    have hlen := congrArg List.length hops
    rw [List.length_map, List.length_map, hr.perm.length_eq] at hlen
    rw [← h.length_operations, ← hw.sound.length_operations, hlen]
  case depth =>
    refine ⟨_, depth_eq_ok ho, ?_⟩
    rw [h.depth_eq hw.sound hr hops.symm (depth_eq_ok ho) (depth_eq_ok ho'), depth_eq_ok ho']
  case wire =>
    intro w hasw
    have hasw' : d.hasWire w := by
      cases w with
      | qubit q => simpa [hasWire, hasQubit, qreg?, hw.qregs] using hasw
      | clbit c => simpa [hasWire, hasClbit, creg?, hw.cregs] using hasw
    obtain ⟨s, e, hs⟩ := h.threaded.exists_strand (h.mem_wires_iff.mpr hasw)
    obtain ⟨s', e', hs'⟩ := hw.sound.threaded.exists_strand (hw.sound.mem_wires_iff.mpr hasw')
    refine ⟨s, _, e, s', _, e', hs, hs', ?_⟩
    rw [map_node?_visits hn, map_node?_visits hn₀, ← hr.on_eq, map_snd_on, map_snd_on, hops]

/-- Whatever calls a circuit is built by, if it can be listed, then nothing that shares a wire is
lost or reordered, and the listing is read back as the same circuit on every wire. -/
theorem lists_of_toListing {calls : List Call} (hl : (History.of calls).dag.toListing = .ok l) :
    Lists (History.of calls) l := by
  obtain ⟨hd, happlied⟩ := History.sound_of calls
  have hc := consistent_of calls
  obtain ⟨ops, hops, rfl⟩ := map_eq_ok.mp hl
  obtain ⟨order, ho, rfl⟩ := map_eq_ok.mp hops
  have hr := (hd.topological ho).rearranges hd
  obtain ⟨d, hread, hw, hd'⟩ := exists_ofListing hd (l := ⟨_, _, _⟩) rfl rfl fun op hop => by
    obtain ⟨x, hx, rfl⟩ := List.mem_map.mp hop
    exact hc x (hr.perm.mem_iff.mp hx)
  exact ⟨rfl, rfl, ⟨order, hd.order_eq_ok_iff_sorts.mp ho, rfl⟩, ⟨_, rfl, happlied ▸ hr⟩, d, hread,
    hw.copies hd ho hr hd'⟩

/-- Both qubits are turned before they meet and one of them is measured. -/
def meeting : List Call :=
  [.addQreg ⟨"q", 2⟩, .addCreg ⟨"c", 1⟩, .declare ⟨"h", 1, 0, 0⟩, .declare ⟨"x", 1, 0, 0⟩,
    .declare ⟨"cx", 2, 0, 0⟩, .declare ⟨"measure", 1, 1, 0⟩,
    .append ⟨"h", [⟨"q", 0⟩], [], [], none⟩, .append ⟨"x", [⟨"q", 1⟩], [], [], none⟩,
    .append ⟨"cx", [⟨"q", 0⟩, ⟨"q", 1⟩], [], [], none⟩,
    .append (.measurement [⟨"q", 1⟩] [⟨"c", 0⟩])]

def meetingListing : DagListing :=
  ⟨[⟨"q", 2⟩], [⟨"c", 1⟩], [⟨"x", [⟨"q", 1⟩], [], [], none⟩, ⟨"h", [⟨"q", 0⟩], [], [], none⟩,
    ⟨"cx", [⟨"q", 0⟩, ⟨"q", 1⟩], [], [], none⟩, .measurement [⟨"q", 1⟩] [⟨"c", 0⟩]]⟩

theorem lists_meeting : (History.of meeting).dag.toListing = .ok meetingListing ∧
    Lists (History.of meeting) meetingListing := by
  have hl : (History.of meeting).dag.toListing = .ok meetingListing := by
    decide +kernel
  exact ⟨hl, lists_of_toListing hl⟩

end CircuitForms.Dag
