import CircuitForms.Proofs.Json.Accepted
import CircuitForms.Proofs.Measurement.Codec

/-! # Destinations from any text

Whatever text a measurement carries, what it is taken for names as many bits as there are
outputs or none, no bit twice, and none that a register of 32 bits could not have.
-/

namespace CircuitForms

open Json Reader

theorem exists_of_readLabelled {α : Type} {closed : Bool} {nameKey wordKey : String}
    {make : String → Nat → α} {room : Nat} {j : Json} {a : α}
    (h : readLabelled closed nameKey wordKey make room j = some a) :
    ∃ name n, n < 1 <<< 32 ∧ make name n = a := by
  obtain ⟨room', fields, -, hb⟩ := exists_of_record_eq_some h
  split at hb
  · simp only [bind, Option.bind_eq_some_iff, pure, Option.some.injEq] at hb
    obtain ⟨name, -, n, hn, hmake⟩ := hb
    exact ⟨name, n, lt_of_word_eq_some hn, hmake⟩
  · cases hb

namespace Destination

variable {d : Destination} {outputs : Nat} {text : String}

theorem fits_of_read {j : Json} (h : Reader.run read j = some d) : d.Fits := by
  obtain ⟨room, fields, -, hb⟩ := exists_of_record_eq_some h
  split at hb
  · rename_i bits? registers?
    simp only [bind, Option.bind_eq_some_iff, pure, Option.some.injEq] at hb
    obtain ⟨bits, hbits, registers, hregisters, rfl⟩ := hb
    constructor
    · intro c hc
      obtain ⟨_, _, -, hread⟩ := exists_of_optional_list_eq_some hbits hc
      obtain ⟨name, n, hn, rfl⟩ := exists_of_readLabelled hread
      exact hn
    · intro r hr
      obtain ⟨_, _, -, hread⟩ := exists_of_optional_list_eq_some hregisters hr
      obtain ⟨name, n, hn, rfl⟩ := exists_of_readLabelled hread
      exact hn
  · cases hb

/-- A destination that a measurement with some outputs can have. -/
structure Valid (d : Destination) (outputs : Nat) : Prop where
  nodup : d.bits.Nodup
  index_lt : ∀ c ∈ d.bits, c.index < greatest
  length : d.isEmpty = false → d.bits.length = outputs

theorem index_ne_of_bitFault? {registers : List Register} {seen bits : List Clbit}
    (h : bitFault? registers seen bits = none) : ∀ c ∈ bits, c.index ≠ greatest := by
  induction bits generalizing seen with
  | nil => simp
  | cons c bits ih =>
    unfold bitFault? at h
    split at h
    · cases h
    split at h
    · cases h
    split at h
    · cases h
    rintro b hb
    rcases List.mem_cons.mp hb with rfl | hb
    · assumption
    · exact ih h b hb

theorem Fits.valid (hd : d.Fits) (h : d.fault? outputs = none) : d.Valid outputs := by
  have hnodup := bits_nodup h
  rw [fault?] at h
  split at h
  · cases h
  · rename_i hcount
    constructor
    case nodup => exact hnodup
    case index_lt =>
      intro c hc
      have hlt : c.index < greatest + 1 := hd.1 c hc
      have hne := index_ne_of_bitFault? (Option.or_eq_none_iff.mp h).2 c hc
      omega
    case length =>
      intro he
      simpa [he] using hcount

theorem cases_of_decode (h : decode text outputs = .ok d) :
    d = {} ∨ d.Fits ∧ d.fault? outputs = none := by
  unfold decode at h
  split at h
  · exact .inl (Except.ok.inj h).symm
  · split at h
    · cases h
    · rename_i d' hread
      obtain ⟨j, -, hj⟩ := Option.bind_eq_some_iff.mp hread
      split at h
      · cases h
      · rename_i hfault
        obtain rfl := Except.ok.inj h
        exact .inr ⟨fits_of_read hj, hfault⟩

/-- Whatever text is decoded, what it describes can be a destination. -/
theorem valid_of_decode (h : decode text outputs = .ok d) : d.Valid outputs := by
  rcases cases_of_decode h with rfl | ⟨hfits, hfault⟩
  · constructor <;> simp [isEmpty]
  · exact hfits.valid hfault

theorem fits_of_decode (h : decode text outputs = .ok d) : d.Fits := by
  rcases cases_of_decode h with rfl | ⟨hfits, -⟩
  · constructor <;> simp
  · exact hfits

theorem mem_usedRegisters {bits : List Clbit} {name : String} :
    name ∈ usedRegisters bits ↔ ∃ c ∈ bits, c.register = name := by
  induction bits with
  | nil => simp [usedRegisters]
  | cons c bits ih =>
    simp only [usedRegisters, List.mem_cons, List.mem_filter, ih, exists_eq_or_imp,
      decide_eq_true_eq]
    constructor
    · rintro (rfl | ⟨hb, -⟩)
      · exact .inl rfl
      · exact .inr hb
    · rintro (rfl | hb)
      · exact .inl rfl
      · by_cases hname : name = c.register
        · exact .inl hname
        · exact .inr ⟨hb, hname⟩

/-- The size used in a register is one past the greatest index of its bits. -/
theorem isGreatest_usedSize {bits : List Clbit} {name : String}
    (hlt : ∀ c ∈ bits, c.index < greatest) (hname : ∃ c ∈ bits, c.register = name) :
    IsGreatest {n | ∃ c ∈ bits, c.register = name ∧ n = c.index + 1} (usedSize bits name) := by
  have hmem : ∀ n, n ∈ (bits.filter (·.register == name)).map (fun c =>
      min (c.index + 1) greatest) ↔ ∃ c ∈ bits, c.register = name ∧ n = c.index + 1 := by
    intro n
    simp only [List.mem_map, List.mem_filter, beq_iff_eq, and_assoc]
    refine exists_congr fun c => and_congr_right fun hc => and_congr_right fun _ => ?_
    rw [Nat.min_eq_left (hlt c hc), eq_comm]
  obtain ⟨c, hc, rfl⟩ := hname
  obtain ⟨m, hm⟩ := Option.isSome_iff_exists.mp
    (List.isSome_max?_of_mem ((hmem _).mpr ⟨c, hc, rfl, rfl⟩))
  obtain ⟨hmax, hle⟩ := List.max?_eq_some_iff.mp hm
  have hused : usedSize bits c.register = m := by
    rw [usedSize, List.foldl_max, hm, Option.getD_some, Nat.zero_max]
  rw [hused]
  exact ⟨(hmem m).mp hmax, fun n hn => hle n ((hmem n).mpr hn)⟩

theorem usedSize_le (bits : List Clbit) (register : String) :
    usedSize bits register ≤ greatest := by
  unfold usedSize
  rw [List.foldl_eq_foldr]
  refine List.max_le_of_forall_le _ _ fun n hn => ?_
  obtain ⟨c, -, rfl⟩ := List.mem_map.mp hn
  exact Nat.min_le_right _ _

theorem Fits.requiredSize_lt (hd : d.Fits) {r : Register} (hr : r ∈ d.requiredSizes) :
    r.size < 1 <<< 32 := by
  obtain ⟨name, -, rfl⟩ := List.mem_map.mp hr
  have hused : usedSize d.bits name < 1 <<< 32 :=
    (usedSize_le d.bits name).trans_lt (Nat.sub_lt (by decide) Nat.one_pos)
  refine max_lt hused ?_
  rw [recordedSize]
  cases hf : Register.find? d.registers name with
  | none => exact by decide
  | some r => exact hd.2 r (List.mem_of_find?_eq_some hf)

theorem mem_requiredSizes {name : String} {n : Nat} : (⟨name, n⟩ : Register) ∈ d.requiredSizes ↔
    (∃ c ∈ d.bits, c.register = name) ∧ n = max (usedSize d.bits name) (d.recordedSize name) := by
  rw [requiredSizes, List.mem_map]
  constructor
  · rintro ⟨name', hname, he⟩
    obtain ⟨rfl, rfl⟩ := Register.mk.inj he
    exact ⟨mem_usedRegisters.mp hname, rfl⟩
  · rintro ⟨hname, rfl⟩
    exact ⟨name, mem_usedRegisters.mpr hname, rfl⟩

theorem exists_requiredSize (hlt : ∀ c ∈ d.bits, c.index < greatest) {c : Clbit} (hc : c ∈ d.bits) :
    ∃ r ∈ d.requiredSizes, r.name = c.register ∧ c.index < r.size := by
  refine ⟨_, mem_requiredSizes.mpr ⟨⟨c, hc, rfl⟩, rfl⟩, rfl, ?_⟩
  have hused := (isGreatest_usedSize hlt ⟨c, hc, rfl⟩).2 ⟨c, hc, rfl, rfl⟩
  exact Nat.lt_of_succ_le (hused.trans (Nat.le_max_left _ _))

end Destination

end CircuitForms
