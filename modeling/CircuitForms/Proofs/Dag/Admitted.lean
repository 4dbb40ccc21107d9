import CircuitForms.Proofs.Dag.History

/-! # Admitted operations

What is declared in a circuit of wires stays declared: signatures are kept, and
registers are neither dropped nor shrunk. So every operation of a circuit passes the
checks of an append at any later time.
-/

namespace CircuitForms.Dag

variable {d d' : Dag} {op : Operation}

/-- A circuit declares all that an operation names, and no qubit is named twice. -/
structure Admits (d : Dag) (op : Operation) : Prop where
  signature : d.signature? op.name = some op.signature
  qubit : ∀ q ∈ op.qargs, d.hasQubit q
  clbit : ∀ c ∈ op.cargs, d.hasClbit c
  nodup : op.qargs.Nodup
  condition : ∀ k, op.condition = some k → (d.creg? k.register).isSome

theorem firstRepeated?_eq_none_iff {α : Type} [DecidableEq α] {seen l : List α} :
    firstRepeated? seen l = none ↔ l.Nodup ∧ ∀ a ∈ l, a ∉ seen := by
  induction l generalizing seen with
  | nil => simp [firstRepeated?]
  | cons a l ih =>
    rw [firstRepeated?]
    split
    · rename_i ha
      simp [ha]
    · rename_i ha
      rw [ih]
      simp only [List.nodup_cons, List.mem_cons, not_or, forall_eq_or_imp]
      constructor
      · rintro ⟨hn, hl⟩
        exact ⟨⟨fun hal => (hl a hal).1 rfl, hn⟩, ha, fun b hb => (hl b hb).2⟩
      · rintro ⟨⟨hal, hn⟩, -, hl⟩
        exact ⟨hn, fun b hb => ⟨fun he => hal (he ▸ hb), hl b hb⟩⟩

theorem signatureFault?_eq_none_iff :
    d.signatureFault? op = none ↔ d.signature? op.name = some op.signature := by
  rw [signatureFault?]
  cases d.signature? op.name with
  | none => simp
  | some declared => simp

theorem conditionFault?_eq_none_iff : d.conditionFault? op = none ↔
    ∀ k, op.condition = some k → (d.creg? k.register).isSome := by
  rw [conditionFault?]
  cases op.condition with
  | none => simp
  | some k => simp [Option.isSome_iff_ne_none]

theorem fault?_eq_none_iff : d.fault? op = none ↔ d.Admits op := by
  simp only [fault?, Option.or_eq_none_iff, Option.map_eq_none_iff, List.find?_eq_none,
    Bool.not_eq_true, Bool.not_eq_false', signatureFault?_eq_none_iff,
    firstRepeated?_eq_none_iff, conditionFault?_eq_none_iff]
  constructor
  · rintro ⟨hs, hq, hc, ⟨hn, -⟩, hk⟩
    exact ⟨hs, hq, hc, hn, hk⟩
  · rintro ⟨hs, hq, hc, hn, hk⟩
    exact ⟨hs, hq, hc, ⟨hn, fun _ _ => List.not_mem_nil⟩, hk⟩

theorem hasQubit_iff {q : Qubit} :
    d.hasQubit q ↔ ∃ r, d.qreg? q.register = some r ∧ q.index < r.size := by
  simp [hasQubit, Option.any_eq_true]

theorem hasClbit_iff {c : Clbit} :
    d.hasClbit c ↔ ∃ r, d.creg? c.register = some r ∧ c.index < r.size := by
  simp [hasClbit, Option.any_eq_true]

structure Declares (d' d : Dag) : Prop where
  signature : ∀ name s, d.signature? name = some s → d'.signature? name = some s
  qubit : ∀ q, d.hasQubit q → d'.hasQubit q
  clbit : ∀ c, d.hasClbit c → d'.hasClbit c
  creg : ∀ name, (d.creg? name).isSome → (d'.creg? name).isSome

theorem Declares.of_eq (hq : d'.qregs = d.qregs) (hc : d'.cregs = d.cregs)
    (hb : d'.basis = d.basis) : d'.Declares d := by
  constructor <;> simp [signature?, hasQubit, hasClbit, qreg?, creg?, hq, hc, hb]

theorem Admits.mono (h : d.Admits op) (hd : d'.Declares d) : d'.Admits op where
  signature := hd.signature _ _ h.signature
  qubit q hq := hd.qubit q (h.qubit q hq)
  clbit c hc := hd.clbit c (h.clbit c hc)
  nodup := h.nodup
  condition k hk := hd.creg _ (h.condition k hk)

theorem find?_append {rs : List Register} {name : String} {r : Register}
    (h : Register.find? rs name = some r) (new : List Register) :
    Register.find? (rs ++ new) name = some r := by
  rw [Register.find?] at h
  rw [Register.find?, List.find?_append, h]
  rfl

theorem find?_enlarge (name : String) (size : Nat) (rs : List Register) :
    Register.find? (enlarge name size rs) name =
      (Register.find? rs name).map fun r => ⟨r.name, max r.size size⟩ := by
  induction rs with
  | nil => rfl
  | cons r rs ih =>
    by_cases hn : r.name = name
    · simp [enlarge, Register.find?, hn]
    · simpa [enlarge, Register.find?, hn] using ih

theorem find?_enlarge_of_ne {name s : String} (hs : s ≠ name) (size : Nat) (rs : List Register) :
    Register.find? (enlarge name size rs) s = Register.find? rs s := by
  induction rs with
  | nil => rfl
  | cons r rs ih =>
    by_cases hr : r.name = s
    · simp [enlarge, Register.find?, hr, hs]
    · rw [enlarge]
      split
      · simp [Register.find?, hr]
      · simpa [Register.find?, hr] using ih

theorem exists_find?_enlarge {rs : List Register} {s : String} {r : Register}
    (h : Register.find? rs s = some r) (name : String) (size : Nat) :
    ∃ r', Register.find? (enlarge name size rs) s = some r' ∧ r.size ≤ r'.size := by
  by_cases hs : s = name
  · rw [← hs, find?_enlarge, h]
    exact ⟨_, rfl, Nat.le_max_left _ _⟩
  · rw [find?_enlarge_of_ne hs, h]
    exact ⟨r, rfl, le_rfl⟩

theorem find?_addRegister {name : String} {r' : Register} (k k' : BitKind) (r : Register)
    (h : Register.find? (d.registers k') name = some r') :
    Register.find? ((((r.wires k).foldl addWire d).withRegister k r).registers k') name =
      some r' := by
  rw [registers_addRegister]
  split
  · rename_i hk
    exact find?_append (hk ▸ h) [r]
  · exact h

theorem declares_addRegister (k : BitKind) (r : Register) (d : Dag) :
    (edit (addRegister k r) d).2.Declares d := by
  rw [edit_addRegister]
  split
  · exact .of_eq rfl rfl rfl
  · constructor
    case signature => cases k <;> simp [signature?]
    case qubit =>
      intro q hq
      obtain ⟨r', hr', hlt⟩ := hasQubit_iff.mp hq
      exact hasQubit_iff.mpr ⟨r', find?_addRegister k .quantum r hr', hlt⟩
    case clbit =>
      intro c hc
      obtain ⟨r', hr', hlt⟩ := hasClbit_iff.mp hc
      exact hasClbit_iff.mpr ⟨r', find?_addRegister k .classical r hr', hlt⟩
    case creg =>
      intro name h
      obtain ⟨r', hr'⟩ := Option.isSome_iff_exists.mp h
      exact Option.isSome_iff_exists.mpr ⟨r', find?_addRegister k .classical r hr'⟩

theorem declares_growCreg (name : String) (size : Nat) (d : Dag) :
    (edit (growCreg name size) d).2.Declares d := by
  rw [edit_growCreg]
  cases d.creg? name with
  | none => exact .of_eq rfl rfl rfl
  | some r =>
    constructor
    case clbit =>
      intro c hc
      obtain ⟨r', hr', hlt⟩ := hasClbit_iff.mp hc
      obtain ⟨r'', hr'', hle⟩ := exists_find?_enlarge hr' name size
      exact hasClbit_iff.mpr ⟨r'', hr'', hlt.trans_le hle⟩
    case creg =>
      intro s h
      obtain ⟨r', hr'⟩ := Option.isSome_iff_exists.mp h
      obtain ⟨r'', hr'', -⟩ := exists_find?_enlarge hr' name size
      exact Option.isSome_iff_exists.mpr ⟨r'', hr''⟩
    all_goals simp [signature?, hasQubit, qreg?]

theorem declares_declare (s : Signature) (d : Dag) : (edit (declare s) d).2.Declares d := by
  rw [edit_declare]
  cases d.signature? s.name with
  | none =>
    constructor
    case signature =>
      intro name t ht
      rw [signature?] at ht
      rw [signature?, List.find?_append, ht]
      rfl
    all_goals exact fun _ => id
  | some declared => dsimp only; split <;> exact .of_eq rfl rfl rfl

/-- Every operation of a circuit could be appended to it again. -/
def Consistent (d : Dag) : Prop :=
  ∀ x ∈ d.operations, d.Admits x.2

theorem Consistent.mono (h : d.Consistent) (hd : d'.Declares d)
    (ho : d'.operations = d.operations) : d'.Consistent := by
  intro x hx
  rw [ho] at hx
  exact (h x hx).mono hd

theorem Consistent.call {h : History} (hs : h.Sound) (hc : h.dag.Consistent) (c : Call) :
    (h.call c).dag.Consistent := by
  cases c with
  | addQreg r =>
    exact hc.mono (declares_addRegister .quantum r h.dag) (hs.dag.addRegister .quantum r).2
  | addCreg r =>
    exact hc.mono (declares_addRegister .classical r h.dag) (hs.dag.addRegister .classical r).2
  | growCreg name size =>
    exact hc.mono (declares_growCreg name size h.dag) (hs.dag.growCreg name size).2
  | declare s => exact hc.mono (declares_declare s h.dag) (hs.dag.declare s).2
  | append op =>
    rcases hs.dag.append op with ⟨f, -, he⟩ | ⟨hf, d, he, -, hops, hq, hcr, hb⟩
    · rw [History.call, he]
      exact hc
    · rw [History.call, he]
      have hd : d.Declares h.dag := .of_eq hq hcr hb
      intro x hx
      rw [hops, List.mem_append, List.mem_singleton] at hx
      rcases hx with hx | rfl
      · exact (hc x hx).mono hd
      · exact (fault?_eq_none_iff.mp hf).mono hd

theorem consistent_of (calls : List Call) : (History.of calls).dag.Consistent := by
  have hrun : ∀ (calls : List Call) (h : History), h.Sound → h.dag.Consistent →
      (calls.foldl History.call h).dag.Consistent := by
    intro calls
    induction calls with
    | nil => exact fun h _ hc => hc
    | cons c calls ih => exact fun h hs hc => ih _ (hs.call c) (hc.call hs c)
  exact hrun calls {} ⟨Sound.empty, rfl⟩ fun x hx => by cases hx

end CircuitForms.Dag
