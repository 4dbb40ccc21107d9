import CircuitForms.Proofs.Convert.Fresh
import CircuitForms.Proofs.Convert.Restoring
import CircuitForms.Proofs.Dag.Declared
import CircuitForms.Proofs.Measurement.Decoded

/-! # What a restoration provides

Before an operation is appended, the registers it writes to are there: those of a
destination are made large enough, and a measurement that records nothing gets a register
under a name that nothing else has. None of this can fail.
-/

namespace CircuitForms

namespace Dag

variable {d d' d'' : Dag}

/-- A change that keeps the operations and the signatures, and declares no less. -/
structure Extends (d d' : Dag) : Prop extends Kept d d' where
  basis : d'.basis = d.basis
  declares : d'.Declares d

theorem Extends.refl (h : d.Sound) : Extends d d :=
  ⟨.refl h, rfl, .of_eq rfl rfl rfl⟩

theorem Extends.trans (h : Extends d d') (h' : Extends d' d'') : Extends d d'' :=
  ⟨h.toKept.trans h'.toKept, h'.basis.trans h.basis, h.declares.trans h'.declares⟩

theorem exists_addCreg (h : d.Sound) {r : Register} (hr : d.creg? r.name = none) :
    ∃ d', edit (addCreg r) d = (.ok (), d') ∧ Extends d d' ∧ ∀ b ∈ r.clbits, d'.hasClbit b := by
  have hedit := edit_addCreg_of_new hr
  have hkept := kept_addCreg h r
  have hdeclares := declares_addRegister .classical r d
  rw [addCreg] at hedit hkept
  rw [hedit] at hkept hdeclares
  refine ⟨_, hedit, ⟨hkept, foldl_addWire_basis _ _, hdeclares⟩, fun b hb => ?_⟩
  apply hkept.sound.mem_clbits_iff.mp
  exact List.mem_flatMap.mpr ⟨r, List.mem_append_right _ (List.mem_singleton_self r), hb⟩

theorem exists_growCreg (h : d.Sound) {r r' : Register} (hr : d.creg? r.name = some r') :
    ∃ d', edit (growCreg r.name r.size) d = (.ok (), d') ∧ Extends d d' ∧
      ∀ b ∈ r.clbits, d'.hasClbit b := by
  have hedit := edit_growCreg r.name r.size d
  rw [hr] at hedit
  have hkept := kept_growCreg h r.name r.size
  have hdeclares := declares_growCreg r.name r.size d
  rw [hedit] at hkept hdeclares
  refine ⟨_, hedit, ⟨hkept, foldl_addWire_basis _ _, hdeclares⟩, fun b hb => ?_⟩
  obtain ⟨hname, hlt⟩ := Register.mem_clbits.mp hb
  have hname' : r'.name = r.name := by simpa using List.find?_some hr
  rcases Nat.lt_or_ge b.index r'.size with hold | hnew
  · apply hdeclares.clbit
    exact hasClbit_iff.mpr ⟨r', hname ▸ hr, hold⟩
  · apply hkept.sound.mem_clbits_iff.mp
    refine (clbits_enlarge_perm hr r.size).mem_iff.mp (List.mem_append_right _ ?_)
    refine List.mem_map.mpr ⟨b.index, List.mem_range'_1.mpr ⟨hnew, by omega⟩, ?_⟩
    rw [hname', hname]

theorem exists_provide (h : d.Sound) (r : Register) :
    ∃ d', edit (VertexCircuit.provide r) d = (.ok (), d') ∧ Extends d d' ∧
      ∀ b ∈ r.clbits, d'.hasClbit b := by
  unfold VertexCircuit.provide
  rw [edit_get_bind]
  cases hr : d.creg? r.name with
  | none => exact exists_addCreg h hr
  | some r' => exact exists_growCreg h hr

theorem exists_forM_provide (h : d.Sound) (rs : List Register) :
    ∃ d', edit (rs.forM VertexCircuit.provide) d = (.ok (), d') ∧ Extends d d' ∧
      ∀ r ∈ rs, ∀ b ∈ r.clbits, d'.hasClbit b := by
  induction rs generalizing d with
  | nil => exact ⟨d, rfl, .refl h, by simp⟩
  | cons r rs ih =>
    obtain ⟨d₁, hd₁, h₁, hr⟩ := exists_provide h r
    obtain ⟨d', hd', h', hrs⟩ := ih h₁.sound
    refine ⟨d', (edit_bind_ok hd₁).trans hd', h₁.trans h', ?_⟩
    rintro r' hr' b hb
    rcases List.mem_cons.mp hr' with rfl | hr'
    · exact h'.declares.clbit b (hr b hb)
    · exact hrs r' hr' b hb

end Dag

namespace VertexCircuit

variable {s : Restoration} {x : Descriptor} {d : Destination}

theorem notMem_freshRegister (reserved : List String) (x : Descriptor) (s : Restoration) :
    (s.freshRegister reserved x).name ∉ reserved ∧
      (s.freshRegister reserved x).name ∉ s.dag.cregs.map Register.name ∧
      (s.freshRegister reserved x).name ∉ s.dag.qregs.map Register.name := by
  have hfresh := s.namer.fresh_notMem (s.taken reserved)
  rw [Restoration.taken, List.mem_append, List.mem_append, not_or, not_or] at hfresh
  exact ⟨hfresh.1.1, hfresh.1.2, hfresh.2⟩

theorem creg?_freshRegister (reserved : List String) (x : Descriptor) (s : Restoration) :
    s.dag.creg? (s.freshRegister reserved x).name = none := by
  rw [← Option.not_isSome_iff_eq_none, Dag.creg?, Register.find?_isSome_iff]
  exact (notMem_freshRegister reserved x s).2.1

theorem exists_writtenBits_fresh (reserved : List String) (v : Nat) (x : Descriptor)
    (hs : s.dag.Sound) (he : d.isEmpty) (hx : x.outputs < 1 <<< 32) :
    ∃ s', (writtenBits reserved v x d).run.run s =
        (.ok (s.freshRegister reserved x).clbits, s') ∧
      s'.dag = (Dag.edit (Dag.addCreg (s.freshRegister reserved x)) s.dag).2 ∧
      s'.namer = (s.namer.fresh (s.taken reserved)).2 ∧ Dag.Extends s.dag s'.dag ∧
      ∀ b ∈ (s.freshRegister reserved x).clbits, s'.dag.hasClbit b := by
  obtain ⟨s', hrun, hdag, hnamer⟩ := run_writtenBits_fresh he hx s
  obtain ⟨d', hd', hextends, hbits⟩ := Dag.exists_addCreg hs (creg?_freshRegister reserved x s)
  rw [hd'] at hrun
  have hdag' : s'.dag = d' := hdag.trans (congrArg Prod.snd hd')
  exact ⟨s', hrun, hdag, hnamer, hdag' ▸ hextends, hdag' ▸ hbits⟩

theorem exists_writtenBits_recorded (reserved : List String) (v : Nat) (x : Descriptor)
    (hs : s.dag.Sound) (he : d.isEmpty = false) :
    ∃ s', (writtenBits reserved v x d).run.run s = (.ok d.bits, s') ∧
      Dag.edit (d.requiredSizes.forM provide) s.dag = (.ok (), s'.dag) ∧ s'.namer = s.namer ∧
      Dag.Extends s.dag s'.dag ∧ ∀ r ∈ d.requiredSizes, ∀ b ∈ r.clbits, s'.dag.hasClbit b := by
  obtain ⟨s', hrun, hdag, hnamer⟩ := run_writtenBits_recorded he s
  obtain ⟨d', hd', hextends, hbits⟩ := Dag.exists_forM_provide hs d.requiredSizes
  rw [hd'] at hrun hdag
  subst hdag
  exact ⟨s', hrun, hd', hnamer, hextends, hbits⟩

/-- What a measurement writes are different bits, one for each output, and they are there. -/
theorem exists_writtenBits (reserved : List String) (v : Nat) (hs : s.dag.Sound)
    (hd : d.Valid x.outputs) (hx : x.outputs < 1 <<< 32) :
    ∃ bits s', (writtenBits reserved v x d).run.run s = (.ok bits, s') ∧
      Dag.Extends s.dag s'.dag ∧ bits.Nodup ∧ bits.length = x.outputs ∧
      ∀ b ∈ bits, s'.dag.hasClbit b := by
  cases he : d.isEmpty with
  | true =>
    obtain ⟨s', hrun, -, -, hextends, hbits⟩ := exists_writtenBits_fresh reserved v x hs he hx
    exact ⟨_, s', hrun, hextends, Register.clbits_nodup _, Register.length_clbits _, hbits⟩
  | false =>
    obtain ⟨s', hrun, -, -, hextends, hbits⟩ := exists_writtenBits_recorded reserved v x hs he
    refine ⟨d.bits, s', hrun, hextends, hd.nodup, hd.length he, fun b hb => ?_⟩
    obtain ⟨r, hr, hname, hlt⟩ := Destination.exists_requiredSize hd.index_lt hb
    exact hbits r hr b (Register.mem_clbits.mpr ⟨hname, hlt⟩)

end VertexCircuit

end CircuitForms
