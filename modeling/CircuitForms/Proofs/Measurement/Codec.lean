import CircuitForms.Measurement.Destination
import CircuitForms.Proofs.Document.Bit
import CircuitForms.Proofs.Text.Cut

/-! # Destinations as texts

The text of a destination is read back as that destination when its indices and
sizes fit 32 bits, and is refused otherwise.
-/

namespace CircuitForms

open Json Number Reader

variable {rule : Literal → Float}

namespace Destination

def Fits (d : Destination) : Prop :=
  (∀ c ∈ d.bits, c.index < 1 <<< 32) ∧ ∀ r ∈ d.registers, r.size < 1 <<< 32

instance (d : Destination) : Decidable d.Fits :=
  inferInstanceAs (Decidable ((∀ c ∈ d.bits, c.index < 1 <<< 32) ∧
    ∀ r ∈ d.registers, r.size < 1 <<< 32))

theorem readsBack : ReadsBack rule toJson read Fits id := by
  intro d room d'
  cases room with
  | zero => simp [toJson, read]
  | succ room =>
    rw [toJson, read, record_reread (by simp) (by simp)]
    simp [List.lookup, Option.bind_eq_some_iff, (Clbit.readsBack_as true).list d.bits room _,
      (Register.readsBack_as true).list d.registers room _, Fits, and_assoc, and_left_comm]

theorem readable (d : Destination) : Readable (Legible rule) deepest d.toJson := by
  simp [toJson, deepest, labelled, Clbit.toJson, Register.toJson]

theorem read_encode (d : Destination) : (parse? d.encode rule).bind (Reader.run read) =
    if d.Fits then some d else none := by
  refine Option.ext fun d' => (readsBack.compact).trans ?_
  rw [Option.ite_none_right_eq_some, Option.some.injEq]
  exact and_congr_left' (and_iff_right d.readable)

/-- What the text of a destination is taken for. -/
theorem decode_encode (d : Destination) (outputs : Nat) :
    decode d.encode outputs =
      if d.Fits then
        match d.fault? outputs with
        | some fault => .error fault
        | none => .ok d
      else .error .malformed := by
  have hbrace : '\x7b' ∈ d.encode.toList := by simp [encode, toJson, compact]
  have hstrip : (Text.strip d.encode.toList).isEmpty = false := by
    rw [List.isEmpty_eq_false_iff, Ne, Text.strip_eq_nil_iff]
    exact fun hblank => absurd (hblank _ hbrace) (by decide)
  rw [decode, hstrip, if_neg Bool.false_ne_true, read_encode]
  by_cases hd : d.Fits
  · have hread : (if d.Fits then some d else none) = some d := if_pos hd
    rw [hread]
    exact (if_pos hd).symm
  · have hread : (if d.Fits then some d else none) = none := if_neg hd
    rw [hread]
    exact (if_neg hd).symm

theorem of_decode_encode {d d' : Destination} {outputs : Nat}
    (h : decode d.encode outputs = .ok d') : d' = d ∧ d.fault? outputs = none := by
  rw [decode_encode] at h
  split at h
  · split at h
    · cases h
    · rename_i hf
      exact ⟨(Except.ok.inj h).symm, hf⟩
  · cases h

theorem nodup_of_bitFault? {registers : List Register} {seen bits : List Clbit}
    (h : bitFault? registers seen bits = none) : bits.Nodup ∧ ∀ c ∈ bits, c ∉ seen := by
  induction bits generalizing seen with
  | nil => exact ⟨List.nodup_nil, fun c hc => nomatch hc⟩
  | cons c bits ih =>
    rw [bitFault?] at h
    split at h
    · cases h
    split at h
    · cases h
    split at h
    · cases h
    rename_i hs
    obtain ⟨hn, hseen⟩ := ih h
    refine ⟨List.nodup_cons.mpr ⟨fun hc => hseen c hc List.mem_cons_self, hn⟩, fun b hb => ?_⟩
    rcases List.mem_cons.mp hb with rfl | hb
    · exact hs
    · exact fun hm => hseen b hb (List.mem_cons_of_mem _ hm)

theorem bits_nodup {d : Destination} {outputs : Nat} (h : d.fault? outputs = none) :
    d.bits.Nodup := by
  rw [fault?] at h
  split_ifs at h
  exact (nodup_of_bitFault? (Option.or_eq_none_iff.mp h).2).1

end Destination

end CircuitForms
