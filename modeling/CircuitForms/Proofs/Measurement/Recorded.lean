import CircuitForms.Proofs.Dag.Admitted
import CircuitForms.Proofs.Measurement.Decoded

/-! # Recorded destinations

A measurement of a circuit of wires is recorded with the sizes of the registers it writes
to. What is recorded is read back, and the only thing that can be wrong with it is that a
bit is written twice.
-/

namespace CircuitForms.Destination

variable {bits seen : List Clbit} {registers cregs : List Register} {outputs : Nat} {r : Register}

theorem repeatedName?_eq (seen : List String) (rs : List Register) :
    repeatedName? seen rs = Dag.firstRepeated? seen (rs.map Register.name) := by
  induction rs generalizing seen with
  | nil => rfl
  | cons r rs ih => rw [repeatedName?, List.map_cons, Dag.firstRepeated?, ih]

theorem bitFault?_eq (hlt : ∀ c ∈ bits, c.index < greatest)
    (hr : ∀ c ∈ bits, ∀ r, Register.find? registers c.register = some r → c.index < r.size) :
    bitFault? registers seen bits = (Dag.firstRepeated? seen bits).map Fault.duplicateBit := by
  induction bits generalizing seen with
  | nil => rfl
  | cons c bits ih =>
    obtain ⟨hc, hlt⟩ := List.forall_mem_cons.mp hlt
    obtain ⟨hcr, hr⟩ := List.forall_mem_cons.mp hr
    have hrange : (Register.find? registers c.register).filter (·.size ≤ c.index) = none := by
      rw [Option.filter_eq_none_iff]
      intro r hfind
      simpa using hcr r hfind
    rw [bitFault?, if_neg hc.ne, hrange, Dag.firstRepeated?]
    by_cases hs : c ∈ seen
    · simp [hs]
    · simpa [hs] using ih hlt hr

theorem nodup_usedRegisters (bits : List Clbit) : (usedRegisters bits).Nodup := by
  induction bits with
  | nil => exact List.nodup_nil
  | cons c bits ih =>
    rw [usedRegisters]
    exact List.nodup_cons.mpr ⟨by simp, ih.filter _⟩

theorem mem_registers_ofClbits {b : Clbit} (hb : b ∈ bits)
    (hr : Register.find? cregs b.register = some r) : r ∈ (ofClbits bits cregs).registers := by
  have hname : r.name = b.register := by simpa using List.find?_some hr
  refine List.mem_map.mpr ⟨b.register, mem_usedRegisters.mpr ⟨b, hb, rfl⟩, ?_⟩
  rw [hr, ← hname]
  rfl

section Recorded

variable (hb : ∀ c ∈ bits, ∃ r, Register.find? cregs c.register = some r ∧ c.index < r.size)

include hb

theorem find?_of_mem_registers (hr : r ∈ (ofClbits bits cregs).registers) :
    Register.find? cregs r.name = some r := by
  obtain ⟨name, hname, rfl⟩ := List.mem_map.mp hr
  obtain ⟨c, hc, rfl⟩ := mem_usedRegisters.mp hname
  obtain ⟨r, hr, -⟩ := hb c hc
  have hrn : r.name = c.register := by simpa using List.find?_some hr
  rw [hr, ← hrn]
  rfl

variable (hsize : ∀ r ∈ cregs, r.size < 1 <<< 32)

include hsize

theorem fits_ofClbits : (ofClbits bits cregs).Fits := by
  constructor
  · intro c hc
    obtain ⟨r, hr, hlt⟩ := hb c hc
    exact hlt.trans (hsize r (List.mem_of_find?_eq_some hr))
  · intro r hr
    exact hsize r (List.mem_of_find?_eq_some (find?_of_mem_registers hb hr))

theorem fault?_ofClbits (hlen : bits ≠ [] → bits.length = outputs) :
    (ofClbits bits cregs).fault? outputs =
      (Dag.firstRepeated? [] bits).map Fault.duplicateBit := by
  -- Count, names and ranges hold by construction; only a bit written twice is left.
  have hcount : ¬ (!(ofClbits bits cregs).isEmpty &&
      (ofClbits bits cregs).bits.length != outputs) := by
    cases bits with
    | nil => simp [isEmpty, ofClbits]
    | cons c bits => simpa [ofClbits] using fun _ => hlen (List.cons_ne_nil c bits)
  have hnames : repeatedName? [] (ofClbits bits cregs).registers = none := by
    rw [repeatedName?_eq, Dag.firstRepeated?_eq_none_iff]
    refine ⟨?_, fun _ _ => List.not_mem_nil⟩
    simpa [ofClbits, Function.comp_def] using nodup_usedRegisters bits
  have hgreatest : ∀ c ∈ bits, c.index < greatest := by
    intro c hc
    obtain ⟨r, hr, hlt⟩ := hb c hc
    exact hlt.trans_le (Nat.le_sub_one_of_lt (hsize r (List.mem_of_find?_eq_some hr)))
  have hrange : ∀ c ∈ bits, ∀ r, Register.find? (ofClbits bits cregs).registers c.register =
      some r → c.index < r.size := by
    intro c hc r hr
    have hrn : r.name = c.register := by simpa using List.find?_some hr
    have hfind := find?_of_mem_registers hb (List.mem_of_find?_eq_some hr)
    obtain ⟨r', hr', hlt⟩ := hb c hc
    rw [hrn, hr'] at hfind
    exact Option.some.inj hfind ▸ hlt
  rw [fault?, if_neg hcount, hnames]
  exact bitFault?_eq hgreatest hrange

/-- What is recorded of some bits is read back unless one of them is repeated. -/
theorem decode_encode_ofClbits (hlen : bits ≠ [] → bits.length = outputs) :
    decode (ofClbits bits cregs).encode outputs =
      match Dag.firstRepeated? [] bits with
      | some c => .error (.duplicateBit c)
      | none => .ok (ofClbits bits cregs) := by
  rw [decode_encode, if_pos (fits_ofClbits hb hsize), fault?_ofClbits hb hsize hlen]
  cases Dag.firstRepeated? [] bits with
  | none => rfl
  | some c => rfl

end Recorded

end CircuitForms.Destination
