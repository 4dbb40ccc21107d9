import CircuitForms.Proofs.Measurement.Recorded
import CircuitForms.Proofs.Rows

/-! # Destinations that are read back

The text of a destination is read back as that destination exactly if a measurement with so
many outputs can have it and its registers, each recorded once, have room for its bits. Of
what an operation of a circuit writes to, only a repeated bit is refused.
-/

namespace CircuitForms

theorem Dag.firstRepeated?_eq_some_iff {α : Type} [DecidableEq α] {seen l : List α} {a : α} :
    firstRepeated? seen l = some a ↔
      ∃ pre post, l = pre ++ a :: post ∧ pre.Nodup ∧ (∀ b ∈ pre, b ∉ seen) ∧
        (a ∈ seen ∨ a ∈ pre) := by
  induction l generalizing seen with
  | nil => simp [firstRepeated?]
  | cons b l ih =>
    -- The head is the answer if it was seen before; otherwise it joins what was seen.
    rw [firstRepeated?]
    split
    · rename_i hb
      rw [Option.some.injEq]
      constructor
      · rintro rfl
        exact ⟨[], l, rfl, List.nodup_nil, by simp, .inl hb⟩
      · rintro ⟨pre, post, he, -, hseen, -⟩
        cases pre with
        | nil => exact (List.cons.inj he).1
        | cons c pre =>
          rw [(List.cons.inj he).1] at hb
          exact absurd hb (hseen c List.mem_cons_self)
    · rename_i hb
      rw [ih]
      constructor
      · rintro ⟨pre, post, rfl, hn, hseen, ha⟩
        have hfresh : b ∉ pre := fun h => hseen b h List.mem_cons_self
        refine ⟨b :: pre, post, rfl, List.nodup_cons.mpr ⟨hfresh, hn⟩, ?_, ?_⟩
        · exact List.forall_mem_cons.mpr ⟨hb, fun c hc h => hseen c hc (List.mem_cons_of_mem b h)⟩
        · rw [List.mem_cons] at ha ⊢
          tauto
      · rintro ⟨pre, post, he, hn, hseen, ha⟩
        cases pre with
        | nil =>
          obtain ⟨rfl, -⟩ := List.cons.inj he
          exact absurd ha (by simpa using hb)
        | cons c pre =>
          obtain ⟨rfl, rfl⟩ := List.cons.inj he
          obtain ⟨hfresh, hn⟩ := List.nodup_cons.mp hn
          refine ⟨pre, post, rfl, hn, fun d hd h => ?_, ?_⟩
          · rcases List.mem_cons.mp h with rfl | h
            · exact hfresh hd
            · exact hseen d (List.mem_cons_of_mem b hd) h
          · rw [List.mem_cons] at ha ⊢
            tauto

namespace Destination

variable {d : Destination} {outputs : Nat} {seen bits : List Clbit} {registers : List Register}
  {fault : Fault}

/-- A destination that a measurement with some outputs can have, whose registers are recorded once
each and have room for its bits. -/
structure Sized (d : Destination) (outputs : Nat) : Prop extends d.Valid outputs where
  names : (d.registers.map Register.name).Nodup
  inRange : ∀ c ∈ d.bits, ∀ r ∈ d.registers, r.name = c.register → c.index < r.size

theorem sized_iff : d.Sized outputs ↔
    (d.bits = [] ∨ d.bits.length = outputs) ∧ (d.registers.map Register.name).Nodup ∧
    (∀ c ∈ d.bits, c.index < greatest ∧
      ∀ r ∈ d.registers, r.name = c.register → c.index < r.size) ∧ d.bits.Nodup := by
  constructor
  · intro h
    refine ⟨?_, h.names, fun c hc => ⟨h.index_lt c hc, h.inRange c hc⟩, h.nodup⟩
    cases he : d.isEmpty with
    | true => exact .inl (List.isEmpty_iff.mp he)
    | false => exact .inr (h.length he)
  · rintro ⟨hlen, hnames, hbits, hn⟩
    refine ⟨⟨hn, fun c hc => (hbits c hc).1, fun he => ?_⟩, hnames, fun c hc => (hbits c hc).2⟩
    exact hlen.resolve_left (List.isEmpty_eq_false_iff.mp he)

theorem bitFault?_eq_none_iff : bitFault? registers seen bits = none ↔
    (∀ c ∈ bits, c.index ≠ greatest) ∧
    (∀ c ∈ bits, ∀ r, Register.find? registers c.register = some r → c.index < r.size) ∧
    bits.Nodup ∧ ∀ c ∈ bits, c ∉ seen := by
  constructor
  · intro h
    refine ⟨index_ne_of_bitFault? h, ?_, nodup_of_bitFault? h⟩
    -- Each bit passed is seen from then on, so the induction is over all `seen`.
    induction bits generalizing seen with
    | nil => simp
    | cons c bits ih =>
      rw [bitFault?] at h
      split at h
      · cases h
      split at h
      · cases h
      rename_i hroom
      split at h
      · cases h
      refine List.forall_mem_cons.mpr ⟨fun r hr => ?_, ih h⟩
      simpa [hr] using hroom
  · rintro ⟨hne, hroom, hn, hseen⟩
    induction bits generalizing seen with
    | nil => rfl
    | cons c bits ih =>
      obtain ⟨hc, hne⟩ := List.forall_mem_cons.mp hne
      obtain ⟨hcr, hroom⟩ := List.forall_mem_cons.mp hroom
      obtain ⟨hfresh, hn⟩ := List.nodup_cons.mp hn
      obtain ⟨hcs, hseen⟩ := List.forall_mem_cons.mp hseen
      have hfilter : (Register.find? registers c.register).filter (·.size ≤ c.index) = none := by
        rw [Option.filter_eq_none_iff]
        intro r hr
        simpa using hcr r hr
      have hrest : ∀ b ∈ bits, b ∉ c :: seen := by
        intro b hb h
        rcases List.mem_cons.mp h with rfl | h
        · exact hfresh hb
        · exact hseen b hb h
      rw [bitFault?, if_neg hc, hfilter]
      exact (if_neg hcs).trans (ih hne hroom hn hrest)

/-- A destination whose numbers fit 32 bits is without fault exactly if it is sized. -/
theorem fault?_eq_none_iff (hd : d.Fits) : d.fault? outputs = none ↔ d.Sized outputs := by
  constructor
  · intro h
    have hvalid := hd.valid h
    rw [fault?] at h
    split_ifs at h
    obtain ⟨hnames, hbits⟩ := Option.or_eq_none_iff.mp h
    rw [Option.map_eq_none_iff, repeatedName?_eq, Dag.firstRepeated?_eq_none_iff] at hnames
    refine ⟨hvalid, hnames.1, fun c hc r hr hrc => ?_⟩
    exact (bitFault?_eq_none_iff.mp hbits).2.1 c hc r
      ((find?_key_eq_some_iff hnames.1).mpr ⟨hr, hrc⟩)
  · intro h
    have hcount : ¬ (!d.isEmpty && d.bits.length != outputs) := by
      cases he : d.isEmpty with
      | true => simp
      | false => simpa using h.length he
    have hnames : repeatedName? [] d.registers = none := by
      rw [repeatedName?_eq, Dag.firstRepeated?_eq_none_iff]
      exact ⟨h.names, fun _ _ => List.not_mem_nil⟩
    rw [fault?, if_neg hcount, hnames]
    refine bitFault?_eq_none_iff.mpr ⟨fun c hc => (h.index_lt c hc).ne, ?_, h.nodup,
      fun _ _ => List.not_mem_nil⟩
    intro c hc r hr
    obtain ⟨hr, hrc⟩ := (find?_key_eq_some_iff h.names).mp hr
    exact h.inRange c hc r hr hrc

theorem sized_of_decode {text : String} (h : decode text outputs = .ok d) : d.Sized outputs := by
  rcases cases_of_decode h with rfl | ⟨hfits, hfault⟩
  · exact sized_iff.mpr (by simp)
  · exact (fault?_eq_none_iff hfits).mp hfault

theorem bitFault?_ne_malformed (h : bitFault? registers seen bits = some fault) :
    fault ≠ .malformed := by
  induction bits generalizing seen with
  | nil => cases h
  | cons c bits ih =>
    rw [bitFault?] at h
    split at h
    · cases h
      rintro ⟨⟩
    split at h
    · cases h
      rintro ⟨⟩
    split at h
    · cases h
      rintro ⟨⟩
    · exact ih h

theorem fault?_ne_malformed (h : d.fault? outputs = some fault) : fault ≠ .malformed := by
  rw [fault?] at h
  split at h
  · cases h
    rintro ⟨⟩
  · rcases Option.or_eq_some_iff.mp h with hname | ⟨-, hbit⟩
    · obtain ⟨name, -, rfl⟩ := Option.map_eq_some_iff.mp hname
      rintro ⟨⟩
    · exact bitFault?_ne_malformed hbit

theorem decode_encode_cases (hd : d.Fits) (outputs : Nat) :
    d.Sized outputs ∧ decode d.encode outputs = .ok d ∨
      ¬ d.Sized outputs ∧ ∃ fault, fault ≠ .malformed ∧ decode d.encode outputs = .error fault := by
  rw [decode_encode, if_pos hd, ← fault?_eq_none_iff hd]
  cases hf : d.fault? outputs with
  | none => exact .inl ⟨rfl, rfl⟩
  | some fault => exact .inr ⟨by simp, fault, fault?_ne_malformed hf, rfl⟩

theorem decode_encode_of_admits {dag : Dag} {op : Operation} (h : dag.Admits op)
    (hsize : ∀ r ∈ dag.cregs, r.size < 1 <<< 32) :
    (op.cargs.Nodup → decode (ofClbits op.cargs dag.cregs).encode op.cargs.length =
      .ok (ofClbits op.cargs dag.cregs)) ∧
    (¬ op.cargs.Nodup → ∃ pre c post, op.cargs = pre ++ c :: post ∧ pre.Nodup ∧ c ∈ pre ∧
      decode (ofClbits op.cargs dag.cregs).encode op.cargs.length = .error (.duplicateBit c)) := by
  have hlength : op.cargs ≠ [] → op.cargs.length = op.cargs.length := fun _ => rfl
  have hread := decode_encode_ofClbits (fun c hc => Dag.hasClbit_iff.mp (h.clbit c hc)) hsize
    hlength
  have hnodup : Dag.firstRepeated? [] op.cargs = none ↔ op.cargs.Nodup := by
    simp [Dag.firstRepeated?_eq_none_iff]
  constructor
  · intro hn
    rw [hread, hnodup.mpr hn]
  · intro hn
    obtain ⟨c, hc⟩ := Option.ne_none_iff_exists'.mp fun he => hn (hnodup.mp he)
    obtain ⟨pre, post, he, hpre, -, hmem⟩ := Dag.firstRepeated?_eq_some_iff.mp hc
    rw [hc] at hread
    exact ⟨pre, c, post, he, hpre, by simpa using hmem, hread⟩

/-- Texts of destinations are read back as they should be: of any destination whose numbers fit 32
bits, and of the one recorded for an operation that a circuit accepts. -/
theorem readBack (calls : List Dag.Call) :
    (∀ (d : Destination) (outputs : Nat), d.Fits →
      (decode d.encode outputs = .ok d ↔
        (d.bits = [] ∨ d.bits.length = outputs) ∧ (d.registers.map Register.name).Nodup ∧
        (∀ c ∈ d.bits, c.index < greatest ∧
          ∀ r ∈ d.registers, r.name = c.register → c.index < r.size) ∧ d.bits.Nodup) ∧
      (decode d.encode outputs ≠ .ok d →
        ∃ fault, fault ≠ .malformed ∧ decode d.encode outputs = .error fault)) ∧
    ∀ (op : Operation) (v : Nat) (dag : Dag), (Dag.History.of calls).dag = dag →
      (∀ r ∈ dag.cregs, r.size < 1 <<< 32) → (Dag.edit (Dag.append op) dag).1 = .ok v →
      (op.cargs.Nodup → decode (ofClbits op.cargs dag.cregs).encode op.cargs.length =
        .ok (ofClbits op.cargs dag.cregs)) ∧
      (¬ op.cargs.Nodup → ∃ pre c post, op.cargs = pre ++ c :: post ∧ pre.Nodup ∧ c ∈ pre ∧
        decode (ofClbits op.cargs dag.cregs).encode op.cargs.length =
          .error (.duplicateBit c)) := by
  constructor
  · intro d outputs hd
    rw [← sized_iff]
    rcases decode_encode_cases hd outputs with ⟨hs, hok⟩ | ⟨hs, fault, hf, herror⟩
    · exact ⟨iff_of_true hok hs, fun h => absurd hok h⟩
    · rw [herror]
      exact ⟨iff_of_false (by simp) hs, fun _ => ⟨fault, hf, rfl⟩⟩
  · rintro op v dag rfl hsize hok
    refine decode_encode_of_admits ?_ hsize
    rcases (Dag.History.sound_of calls).dag.append op with ⟨f, -, he⟩ | ⟨hf, -⟩
    · rw [he] at hok
      cases hok
    · exact Dag.fault?_eq_none_iff.mp hf

/-- A destination whose names hold quotes, a backslash and a line break. -/
def quoted : Destination :=
  ⟨[⟨"\"c\"", 1⟩, ⟨"d\\", 7⟩], [⟨"\"c\"", 2⟩, ⟨"\n", 0⟩]⟩

def twoBits : List Dag.Call :=
  [.addQreg ⟨"q", 2⟩, .addCreg ⟨"\"c\"", 2⟩, .declare ⟨"measure", 2, 2, 0⟩]

theorem readBack_quoted :
    quoted.Fits ∧ decode quoted.encode 2 = .ok quoted ∧
    (∃ fault, fault ≠ .malformed ∧ decode quoted.encode 3 = .error fault) ∧
    (Dag.edit (Dag.append (.measurement [⟨"q", 0⟩, ⟨"q", 1⟩] [⟨"\"c\"", 1⟩, ⟨"\"c\"", 1⟩]))
      (Dag.History.of twoBits).dag).1 = .ok 8 ∧
    decode (ofClbits [⟨"\"c\"", 1⟩, ⟨"\"c\"", 1⟩] (Dag.History.of twoBits).dag.cregs).encode 2 =
      .error (.duplicateBit ⟨"\"c\"", 1⟩) := by
  have hfits : quoted.Fits := by decide
  obtain ⟨hall, hops⟩ := readBack twoBits
  have happend : (Dag.edit (Dag.append (.measurement [⟨"q", 0⟩, ⟨"q", 1⟩]
      [⟨"\"c\"", 1⟩, ⟨"\"c\"", 1⟩])) (Dag.History.of twoBits).dag).1 = .ok 8 := by
    decide +kernel
  refine ⟨hfits, (hall quoted 2 hfits).1.mpr (by decide), (hall quoted 3 hfits).2 fun h => ?_,
    happend, ?_⟩
  · exact absurd ((hall quoted 3 hfits).1.mp h).1 (by decide)
  · obtain ⟨pre, c, post, he, -, hc, hread⟩ :=
      (hops _ 8 _ rfl (by decide +kernel) happend).2 (by decide)
    have hmem : c ∈ pre ++ c :: post := List.mem_append_left _ hc
    rw [← he] at hmem
    obtain rfl : c = ⟨"\"c\"", 1⟩ := by simpa [Operation.measurement] using hmem
    exact hread

end Destination

end CircuitForms
