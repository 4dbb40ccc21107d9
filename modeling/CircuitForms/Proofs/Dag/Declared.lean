import CircuitForms.Proofs.Dag.Admitted

/-! # Declared operations

An operation on bits that are there is declared and appended, unless its name was
declared before with other operand counts.
-/

namespace CircuitForms.Dag

variable {d d' d'' : Dag} {op : Operation}

theorem Declares.trans (h : d'.Declares d) (h' : d''.Declares d') : d''.Declares d where
  signature name s hs := h'.signature name s (h.signature name s hs)
  qubit q hq := h'.qubit q (h.qubit q hq)
  clbit c hc := h'.clbit c (h.clbit c hc)
  creg name hr := h'.creg name (h.creg name hr)

theorem nodup_wires_iff {op : Operation} :
    op.wires.Nodup ↔ op.qargs.Nodup ∧ op.cargs.Nodup := by
  have hdisjoint : List.Disjoint (op.qargs.map Wire.qubit) (op.cargs.map Wire.clbit) := by
    simp [List.disjoint_left]
  unfold Operation.wires
  rw [List.nodup_append', List.nodup_map_iff fun _ _ => Wire.qubit.inj,
    List.nodup_map_iff fun _ _ => Wire.clbit.inj, and_iff_left hdisjoint]

/-- A circuit that gained an operation and its signature. -/
structure Gains (d : Dag) (op : Operation) (d' : Dag) : Prop where
  sound : d'.Sound
  operations : ∃ n, d'.operations = d.operations ++ [(n, op)]
  qregs : d'.qregs = d.qregs
  cregs : d'.cregs = d.cregs
  declares : d'.Declares d
  signature : d'.signature? op.name = some op.signature
  basis : ∀ s ∈ d'.basis, s ∈ d.basis ∨ s = op.signature

theorem Admits.exists_append (ha : d.Admits op) (h : d.Sound) :
    ∃ n d', edit (append op) d = (.ok n, d') ∧ Gains d op d' := by
  rcases h.append op with ⟨f, hf, -⟩ | ⟨-, d', hd', hs, hops, hq, hc, hb⟩
  · rw [fault?_eq_none_iff.mpr ha] at hf
    cases hf
  · have hdeclares : d'.Declares d := .of_eq hq hc hb
    refine ⟨_, d', hd', hs, ⟨_, hops⟩, hq, hc, hdeclares, ?_, fun s hs => .inl (hb ▸ hs)⟩
    exact hdeclares.signature _ _ ha.signature

/-- An operation whose name is new is declared. -/
theorem exists_declare (h : d.Sound) (hs : d.signature? op.name = none) :
    ∃ d', edit (declare op.signature) d = (.ok (), d') ∧ d'.Sound ∧ d'.operations = d.operations ∧
      d'.qregs = d.qregs ∧ d'.cregs = d.cregs ∧ d'.Declares d ∧
      d'.signature? op.name = some op.signature ∧ d'.basis = d.basis ++ [op.signature] := by
  have hedit := edit_declare op.signature d
  have hnone : d.signature? op.signature.name = none := hs
  rw [hnone] at hedit
  obtain ⟨hsound, hops⟩ := h.declare op.signature
  have hdeclares := declares_declare op.signature d
  rw [hedit] at hsound hops hdeclares
  refine ⟨_, hedit, hsound, hops, rfl, rfl, hdeclares, ?_, rfl⟩
  have hfind : d.basis.find? (·.name == op.name) = none := hs
  rw [signature?, List.find?_append, hfind, Option.none_or]
  exact List.find?_cons_of_pos (beq_iff_eq.mpr rfl)

theorem declareAppend_cases (h : d.Sound) (hq : ∀ q ∈ op.qargs, d.hasQubit q)
    (hc : ∀ c ∈ op.cargs, d.hasClbit c) (hn : op.qargs.Nodup)
    (hk : ∀ k, op.condition = some k → (d.creg? k.register).isSome) :
    (∃ n d', edit (declareAppend op) d = (.ok n, d') ∧ Gains d op d') ∨
      ∃ s, d.signature? op.name = some s ∧ s ≠ op.signature ∧
        edit (declareAppend op) d = (.error (.basisMismatch op.name s op.signature), d) := by
  cases hs : d.signature? op.name with
  | none =>
    obtain ⟨d₁, hd₁, hsound, hops, hqregs, hcregs, hdeclares, hsig, hbasis⟩ := exists_declare h hs
    obtain ⟨n, d', hd', hg⟩ := Admits.exists_append ⟨hsig, fun q hm => hdeclares.qubit q (hq q hm),
      fun c hm => hdeclares.clbit c (hc c hm), hn, fun k he => hdeclares.creg _ (hk k he)⟩ hsound
    refine .inl ⟨n, d', (edit_bind_ok hd₁).trans hd', ?_⟩
    constructor
    case sound => exact hg.sound
    case operations => exact hops ▸ hg.operations
    case qregs => exact hg.qregs.trans hqregs
    case cregs => exact hg.cregs.trans hcregs
    case declares => exact hdeclares.trans hg.declares
    case signature => exact hg.signature
    case basis =>
      intro s hm
      rcases hg.basis s hm with hm | rfl
      · simpa [hbasis] using hm
      · exact .inr rfl
  | some s =>
    have hedit := edit_declare op.signature d
    have hsome : d.signature? op.signature.name = some s := hs
    rw [hsome] at hedit
    by_cases he : s = op.signature
    · subst he
      obtain ⟨n, d', hd', hg⟩ := Admits.exists_append ⟨hs, hq, hc, hn, hk⟩ h
      exact .inl ⟨n, d', (edit_bind_ok (hedit.trans (if_pos rfl))).trans hd', hg⟩
    · exact .inr ⟨s, rfl, he, run_bind_error (hedit.trans (if_neg he))⟩

end CircuitForms.Dag
