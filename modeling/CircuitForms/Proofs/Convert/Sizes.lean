import CircuitForms.Proofs.Convert.Naming
import CircuitForms.Proofs.Measurement.ReadBack

/-! # Sizes of recorded registers

A measurement that records where it is written asks for a size of each register it writes to: the
size it records, and room for its bits. A restoration provides what each measurement requires as it
comes to it. In the end every register has the greatest size that any measurement asks, in whatever
order they are met.
-/

namespace CircuitForms

namespace Destination

variable {d : Destination} {outputs : Nat} {name : String}

/-- A size that a destination asks of a register it writes to: the one it records, or one past a
bit. -/
def Asks (d : Destination) (name : String) (n : Nat) : Prop :=
  (∃ b ∈ d.bits, b.register = name) ∧
    (⟨name, n⟩ ∈ d.registers ∨ ∃ b ∈ d.bits, b.register = name ∧ n = b.index + 1)

theorem Sized.isGreatest_asks (h : d.Sized outputs) (hname : ∃ b ∈ d.bits, b.register = name) :
    IsGreatest {n | d.Asks name n} (max (usedSize d.bits name) (d.recordedSize name)) := by
  have hused := isGreatest_usedSize h.index_lt hname
  have hasks : {n | d.Asks name n} = {n | ∃ b ∈ d.bits, b.register = name ∧ n = b.index + 1} ∪
      {n | ⟨name, n⟩ ∈ d.registers} := by
    ext n
    simp [Asks, hname, or_comm]
  have hfound : ∀ n, ⟨name, n⟩ ∈ d.registers →
      Register.find? d.registers name = some ⟨name, n⟩ := fun n hn =>
    (find?_key_eq_some_iff h.names).mpr ⟨hn, rfl⟩
  rw [hasks, recordedSize]
  cases hr : Register.find? d.registers name with
  | none =>
    have hnone : {n | ⟨name, n⟩ ∈ d.registers} = ∅ := by
      refine Set.eq_empty_of_forall_notMem fun n hn => ?_
      cases hr.symm.trans (hfound n hn)
    simpa [hnone] using hused
  | some r =>
    obtain ⟨hmem, rfl⟩ := (find?_key_eq_some_iff h.names).mp hr
    have hone : {n | ⟨r.name, n⟩ ∈ d.registers} = {r.size} := by
      refine Set.eq_singleton_iff_unique_mem.mpr ⟨hmem, fun n hn => ?_⟩
      rw [Option.some.inj (hr.symm.trans (hfound n hn))]
    rw [hone]
    exact hused.union isGreatest_singleton

end Destination

namespace Dag

variable {d d' : Dag} {name : String} {sizes : Set Nat}

/-- The classical register of a name has the greatest of some sizes, and is there if there are
any. -/
structure Covers (d : Dag) (name : String) (sizes : Set Nat) : Prop where
  isGreatest : ∀ r, d.creg? name = some r → IsGreatest sizes r.size
  eq_empty : d.creg? name = none → sizes = ∅

theorem Covers.of_creg?_eq (h : d.Covers name sizes) (he : d'.creg? name = d.creg? name) :
    d'.Covers name sizes :=
  ⟨fun r hr => h.isGreatest r (he ▸ hr), fun hnone => h.eq_empty (he ▸ hnone)⟩

theorem covers_empty (h : d.creg? name = none) : d.Covers name ∅ :=
  ⟨(fun _ hr => nomatch h.symm.trans hr), fun _ => rfl⟩

theorem creg?_addCreg_of_ne {r : Register} (h : name ≠ r.name) :
    (edit (addCreg r) d).2.creg? name = d.creg? name := by
  rw [addCreg, edit_addRegister]
  split
  · rfl
  · simp [creg?, Register.find?, h.symm]

theorem creg?_provide_of_ne {r : Register} (h : name ≠ r.name) :
    (edit (VertexCircuit.provide r) d).2.creg? name = d.creg? name := by
  rw [VertexCircuit.provide, edit_get_bind]
  split
  · rw [edit_growCreg]
    split
    · rfl
    · exact find?_enlarge_of_ne h r.size d.cregs
  · exact creg?_addCreg_of_ne h

theorem creg?_provide (r : Register) (d : Dag) :
    (edit (VertexCircuit.provide r) d).2.creg? r.name =
      some ⟨r.name, max (((d.creg? r.name).map Register.size).getD 0) r.size⟩ := by
  rw [VertexCircuit.provide, edit_get_bind]
  cases hr : d.creg? r.name with
  | none =>
    have hfind : d.cregs.find? (·.name == r.name) = none := hr
    rw [Option.isSome_none, if_neg Bool.false_ne_true, edit_addCreg_of_new hr, creg?,
      Register.find?, List.find?_append, hfind]
    simp
  | some r' =>
    have hfind : Register.find? d.cregs r.name = some r' := hr
    have hname : r'.name = r.name := by simpa using List.find?_some hr
    rw [Option.isSome_some, if_pos rfl, edit_growCreg, hr]
    refine (find?_enlarge r.name r.size d.cregs).trans ?_
    rw [hfind, ← hname]
    rfl

/-- Providing a register adds its size to those that are covered. -/
theorem Covers.provide (h : d.Covers name sizes) (r : Register) :
    (edit (VertexCircuit.provide r) d).2.Covers name (sizes ∪ {n | r = ⟨name, n⟩}) := by
  -- Only the register of that name can change, and it keeps the larger size.
  by_cases hn : name = r.name
  · subst hn
    have hone : {n | r = ⟨r.name, n⟩} = {r.size} := by
      refine Set.eq_singleton_iff_unique_mem.mpr ⟨rfl, fun n hr => ?_⟩
      exact (congrArg Register.size hr).symm
    rw [hone]
    constructor
    case isGreatest =>
      intro r' hr'
      rw [creg?_provide] at hr'
      obtain rfl := Option.some.inj hr'
      cases hr : d.creg? r.name with
      | none =>
        rw [h.eq_empty hr, Set.empty_union]
        simp
      | some r₀ => exact (h.isGreatest r₀ hr).union isGreatest_singleton
    case eq_empty =>
      intro hnone
      rw [creg?_provide] at hnone
      cases hnone
  · have hother : {n | r = ⟨name, n⟩} = ∅ :=
      Set.eq_empty_of_forall_notMem fun n hr => hn (congrArg Register.name hr).symm
    rw [hother, Set.union_empty]
    exact h.of_creg?_eq (creg?_provide_of_ne hn)

theorem Covers.forM_provide {rs : List Register} (h : d.Covers name sizes)
    (he : edit (rs.forM VertexCircuit.provide) d = (.ok (), d')) :
    d'.Covers name (sizes ∪ {n | ⟨name, n⟩ ∈ rs}) := by
  induction rs generalizing d sizes with
  | nil =>
    obtain rfl : d = d' := congrArg Prod.snd he
    simpa using h
  | cons r rs ih =>
    obtain ⟨_, d₁, h₁, he⟩ := run_bind_eq_ok he
    have hr := h.provide r
    rw [show edit (VertexCircuit.provide r) d = _ from h₁] at hr
    have hrs := ih hr he
    rw [Set.union_assoc] at hrs
    have hcons : {n | ⟨name, n⟩ ∈ r :: rs} = {n | r = ⟨name, n⟩} ∪ {n | ⟨name, n⟩ ∈ rs} := by
      ext n
      simp [eq_comm]
    rwa [hcons]

end Dag

namespace VertexCircuit

open Grid

variable {c : VertexCircuit} {g : Grid} {register : String} {ds : List (Nat × Destination)}
  {s s' : Restoration} {v : Nat} {dest : Destination} {name : String} {sizes : Set Nat}
  {namer : Namer} {d : Dag}

def Records (c : VertexCircuit) (v : Nat) (dest : Destination) : Prop :=
  ∃ x, c.vertex? v = some x ∧ x.kind = .measure ∧
    Destination.decode (x.description?.getD "") x.outputs = .ok dest

theorem lookup_eq_some_iff (hds : c.destinations = .ok ds) :
    ds.lookup v = some dest ↔ c.Records v dest := by
  constructor
  · intro hd
    obtain ⟨x, hm, hdest⟩ := (lookup_of_forall₂ (mapM_eq_ok.mp hds)).2 dest hd
    obtain ⟨hx, hk⟩ := mem_measurements.mp hm
    exact ⟨x, hx, hk, mapError_eq_ok.mp hdest⟩
  · rintro ⟨x, hx, hk, hdest⟩
    obtain ⟨dest', hd, hdest'⟩ := (lookup_destinations hds hx).1 hk
    rw [destination, hdest] at hdest'
    rwa [← Except.ok.inj hdest'] at hd

theorem Records.mem_reservedNames (h : c.Records v dest) (hds : c.destinations = .ok ds)
    {b : Clbit} (hb : b ∈ dest.bits) : b.register ∈ reservedNames ds := by
  obtain ⟨x, hx, hk, hdest⟩ := h
  exact VertexCircuit.mem_reservedNames.mpr
    ⟨v, dest, (mem_destinations hds).mpr ⟨x, hx, hk, mapError_eq_ok.mpr hdest⟩, b, hb, rfl⟩

theorem Records.isInner (h : c.Records v dest) : c.isInner v := by
  obtain ⟨x, hx, hk, -⟩ := h
  exact isInner_of_measure hx hk

theorem Records.sized (h : c.Records v dest) : ∃ outputs, dest.Sized outputs := by
  obtain ⟨x, -, -, hdest⟩ := h
  exact ⟨_, Destination.sized_of_decode hdest⟩

theorem covers_writtenBits {reserved : List String} {x : Descriptor} {bits : List Clbit}
    (hname : name ∈ reserved) (h : s.dag.Covers name sizes)
    (hrun : (writtenBits reserved v x dest).run.run s = (.ok bits, s')) :
    s'.dag.Covers name (sizes ∪ {n | ⟨name, n⟩ ∈ dest.requiredSizes}) := by
  -- An empty destination asks for nothing, and its register has another name.
  cases he : dest.isEmpty with
  | true =>
    have hx : x.outputs < 1 <<< 32 := by
      by_contra hx
      cases (run_writtenBits_wide he hx s).symm.trans hrun
    obtain ⟨_, hrun', hdag, -⟩ := run_writtenBits_fresh he hx s
    obtain ⟨-, rfl⟩ := Prod.mk.inj (hrun'.symm.trans hrun)
    have hne : name ≠ (s.freshRegister reserved x).name := by
      rintro rfl
      exact (notMem_freshRegister reserved x s).1 hname
    have hnone : {n | ⟨name, n⟩ ∈ dest.requiredSizes} = ∅ := by
      ext n
      simp [Destination.mem_requiredSizes, List.isEmpty_iff.mp he]
    rw [hnone, Set.union_empty]
    exact h.of_creg?_eq (hdag ▸ Dag.creg?_addCreg_of_ne hne)
  | false =>
    obtain ⟨_, hrun', hdag, -⟩ := run_writtenBits_recorded he s
    obtain ⟨ho, rfl⟩ := Prod.mk.inj (hrun'.symm.trans hrun)
    obtain ⟨_, hok, -⟩ := map_eq_ok.mp ho
    exact h.forM_provide (Prod.ext (mapError_eq_ok.mp hok) hdag.symm)

theorem covers_restoreVertex (hs : s.dag.Sound) (hds : c.destinations = .ok ds)
    (hname : name ∈ reservedNames ds) (h : s.dag.Covers name sizes)
    (hrun : (c.restoreVertex g register ds v).run.run s = (.ok (), s')) :
    s'.dag.Covers name
      (sizes ∪ {n | ∃ dest, c.Records v dest ∧ ⟨name, n⟩ ∈ dest.requiredSizes}) := by
  simp only [← lookup_eq_some_iff hds]
  rcases restoreVertex_outcome hrun with
    ⟨f, hf, -⟩ | ⟨hv, -, rfl⟩ | ⟨-, x, qargs, opName, -, -, -, hrun⟩
  · cases hf
  · have hlookup : ds.lookup v = none := by
      refine Option.eq_none_iff_forall_ne_some.mpr fun dest hd => ?_
      cases hv.symm.trans ((lookup_eq_some_iff hds).mp hd).isInner
    simpa [hlookup] using h
  · obtain ⟨bits, s₁, hbits, happend⟩ := run_bind_eq_ok hrun
    obtain ⟨-, -, hcregs, -⟩ := announce_ok (kept_provideBits hs hbits).1.sound happend
    refine Dag.Covers.of_creg?_eq ?_ (congrArg (Register.find? · name) hcregs)
    rw [provideBits] at hbits
    cases hd : ds.lookup v with
    | none =>
      rw [hd] at hbits
      cases hbits
      simpa using h
    | some dest =>
      rw [hd] at hbits
      simpa using covers_writtenBits hname h hbits

theorem covers_forM_restoreVertex {vs : List Nat} (hs : s.dag.Sound)
    (hds : c.destinations = .ok ds) (hname : name ∈ reservedNames ds)
    (h : s.dag.Covers name sizes)
    (hrun : (vs.forM (c.restoreVertex g register ds)).run.run s = (.ok (), s')) :
    s'.dag.Covers name
      (sizes ∪ {n | ∃ v ∈ vs, ∃ dest, c.Records v dest ∧ ⟨name, n⟩ ∈ dest.requiredSizes}) := by
  induction vs generalizing s sizes with
  | nil =>
    cases hrun
    simpa using h
  | cons v vs ih =>
    obtain ⟨_, s₁, h₁, hrun⟩ := run_bind_eq_ok hrun
    have hrest := ih (sound_restoreVertex hs h₁) (covers_restoreVertex hs hds hname h h₁) hrun
    rw [Set.union_assoc] at hrest
    simpa [Set.ofPred_or] using hrest

theorem covers_of_toWiresWith (hg : Layered c g) (hlaid : layOut c = .ok g)
    (hds : c.destinations = .ok ds) (hname : name ∈ reservedNames ds)
    (hd : (c.toWiresWith register namer).1 = .ok d) :
    d.Covers name {n | ∃ v dest, c.Records v dest ∧ ⟨name, n⟩ ∈ dest.requiredSizes} := by
  rcases hrun : (g.reading.forM (c.restoreVertex g register ds)).run.run
    (c.start register namer) with ⟨o, s⟩
  rw [toWiresWith_eq (lineCount_lt_of_toWiresWith hd) hlaid hds hrun] at hd
  obtain ⟨_, rfl, rfl⟩ := map_eq_ok.mp hd
  have hstart : (c.start register namer).dag.creg? name = none := by
    rw [Dag.creg?, cregs_start]
    rfl
  have hcovers := covers_forM_restoreVertex (sound_start c register namer).1 hds hname
    (Dag.covers_empty hstart) hrun
  have hall : ∀ v dest, c.Records v dest → v ∈ g.reading := fun v dest hv =>
    hg.mem_reading.mpr (mem_of_isInner hv.isInner)
  rw [Set.empty_union] at hcovers
  refine cast (congrArg _ ?_) hcovers
  ext n
  constructor
  · rintro ⟨v, -, dest, hv, hn⟩
    exact ⟨v, dest, hv, hn⟩
  · rintro ⟨v, dest, hv, hn⟩
    exact ⟨v, hall v dest hv, dest, hv, hn⟩

def sizesAsked (c : VertexCircuit) (name : String) : Set Nat :=
  {n | ∃ v dest, c.Records v dest ∧ dest.Asks name n}

theorem isGreatest_sizesAsked {n : Nat} (h : IsGreatest
    {n | ∃ v dest, c.Records v dest ∧ ⟨name, n⟩ ∈ dest.requiredSizes} n) :
    IsGreatest (c.sizesAsked name) n := by
  obtain ⟨⟨v, dest, hv, hn⟩, hle⟩ := h
  constructor
  · obtain ⟨hname, rfl⟩ := Destination.mem_requiredSizes.mp hn
    obtain ⟨outputs, hsized⟩ := hv.sized
    exact ⟨v, dest, hv, (hsized.isGreatest_asks hname).1⟩
  · rintro m ⟨u, dest', hu, hm⟩
    obtain ⟨outputs, hsized⟩ := hu.sized
    have hrequired := hle ⟨u, dest', hu, Destination.mem_requiredSizes.mpr ⟨hm.1, rfl⟩⟩
    exact ((hsized.isGreatest_asks hm.1).2 hm).trans hrequired

/-- The register that a bit is recorded in has the greatest size that is asked for. -/
theorem Records.exists_register (h : c.Records v dest) {b : Clbit} (hb : b ∈ dest.bits)
    (hg : Layered c g) (hlaid : layOut c = .ok g) (hds : c.destinations = .ok ds)
    (hd : (c.toWiresWith register namer).1 = .ok d) : ∃ r ∈ d.cregs, r.name = b.register ∧
      IsGreatest (c.sizesAsked r.name) r.size := by
  have hcovers := covers_of_toWiresWith hg hlaid hds (h.mem_reservedNames hds hb) hd
  cases hr : d.creg? b.register with
  | none =>
    have hrequired := Destination.mem_requiredSizes.mpr ⟨⟨b, hb, rfl⟩, rfl⟩
    exact absurd (hcovers.eq_empty hr) (Set.nonempty_iff_ne_empty.mp ⟨_, v, dest, h, hrequired⟩)
  | some r =>
    have hname : r.name = b.register := by simpa using List.find?_some hr
    refine ⟨r, List.mem_of_find?_eq_some hr, hname, ?_⟩
    rw [hname]
    exact isGreatest_sizesAsked (hcovers.isGreatest r hr)

end VertexCircuit

end CircuitForms
