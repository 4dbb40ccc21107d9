import CircuitForms.Proofs.Dag.History

/-! # Calls that fail

Every call is checked before it changes anything, and a call that passes its checks
succeeds. So one that fails leaves the circuit as it was. An append leads the end of one
wire after the other through the new node. Whatever wires come before, each of them still
has its end and a last segment from its front.
-/

namespace CircuitForms.Dag

variable {d d' : Dag} {op : Operation} {f : CircuitFault}

namespace Call

def toEdit : Call → Edit Unit
  | .addQreg r => Dag.addQreg r
  | .addCreg r => Dag.addCreg r
  | .growCreg name size => Dag.growCreg name size
  | .declare s => Dag.declare s
  | .append op => discard (Dag.append op)

def fault? (d : Dag) : Call → Option CircuitFault
  | .addQreg r => if (d.qreg? r.name).isSome then some (.duplicateRegister r.name) else none
  | .addCreg r => if (d.creg? r.name).isSome then some (.duplicateRegister r.name) else none
  | .growCreg name _ => if (d.creg? name).isSome then none else some (.registerNotFound name)
  | .declare s => (d.signature? s.name).bind fun declared =>
      if declared = s then none else some (.basisMismatch s.name declared s)
  | .append op => d.fault? op

end Call

theorem edit_discard_eq {α : Type} (e : Edit α) (d : Dag) :
    edit (discard e) d = ((edit e d).1.map fun _ => (), (edit e d).2) := by
  rw [discard_eq]
  rcases h : edit e d with ⟨f | a, d'⟩
  · exact run_bind_error h
  · exact edit_bind_ok h

theorem edit_toEdit_of_fault {k : Call} (hf : k.fault? d = some f) :
    edit k.toEdit d = (.error f, d) := by
  cases k with
  | addQreg r =>
    obtain ⟨hr, rfl⟩ := Option.ite_some_none_eq_some.mp hf
    exact (edit_addRegister .quantum r d).trans (if_pos hr)
  | addCreg r =>
    obtain ⟨hr, rfl⟩ := Option.ite_some_none_eq_some.mp hf
    exact (edit_addRegister .classical r d).trans (if_pos hr)
  | growCreg name size =>
    obtain ⟨hr, hf⟩ := Option.ite_none_left_eq_some.mp hf
    rw [Call.toEdit, edit_growCreg, Option.not_isSome_iff_eq_none.mp hr, Option.some.inj hf]
  | declare s =>
    obtain ⟨declared, hs, hf⟩ := Option.bind_eq_some_iff.mp hf
    obtain ⟨hne, hf⟩ := Option.ite_none_left_eq_some.mp hf
    rw [Call.toEdit, edit_declare, hs]
    dsimp only
    rw [if_neg hne, Option.some.inj hf]
  | append op =>
    rw [Call.toEdit, edit_discard_eq, edit_append_of_fault hf]
    rfl

theorem Sound.exists_edit_toEdit (h : d.Sound) {k : Call} (hf : k.fault? d = none) :
    ∃ d', edit k.toEdit d = (.ok (), d') := by
  cases k with
  | addQreg r =>
    have hr : ¬ (d.qreg? r.name).isSome := by simpa [Call.fault?] using hf
    exact ⟨_, (edit_addRegister .quantum r d).trans (if_neg hr)⟩
  | addCreg r =>
    have hr : ¬ (d.creg? r.name).isSome := by simpa [Call.fault?] using hf
    exact ⟨_, (edit_addRegister .classical r d).trans (if_neg hr)⟩
  | growCreg name size =>
    have hr : (d.creg? name).isSome := by simpa [Call.fault?, Option.isSome_iff_ne_none] using hf
    obtain ⟨r, hr⟩ := Option.isSome_iff_exists.mp hr
    rw [Call.toEdit, edit_growCreg, hr]
    exact ⟨_, rfl⟩
  | declare s =>
    rw [Call.toEdit, edit_declare]
    cases hs : d.signature? s.name with
    | none => exact ⟨_, rfl⟩
    | some declared =>
      have he : declared = s := by simpa [Call.fault?, hs] using hf
      exact ⟨d, if_pos he⟩
  | append op =>
    rcases h.append op with ⟨f, hf', -⟩ | ⟨-, d', he, -⟩
    · cases hf.symm.trans hf'
    · rw [Call.toEdit, edit_discard_eq, he]
      exact ⟨d', rfl⟩

/-- A call fails exactly for what its checks find. -/
theorem Sound.edit_toEdit_eq_error_iff (h : d.Sound) {k : Call} :
    edit k.toEdit d = (.error f, d') ↔ k.fault? d = some f ∧ d' = d := by
  constructor
  · intro he
    cases hf : k.fault? d with
    | none =>
      obtain ⟨d₁, hok⟩ := h.exists_edit_toEdit hf
      cases hok.symm.trans he
    | some g =>
      obtain ⟨hfg, rfl⟩ := Prod.mk.inj ((edit_toEdit_of_fault hf).symm.trans he)
      exact ⟨congrArg some (Except.error.inj hfg), rfl⟩
  · rintro ⟨hf, rfl⟩
    exact edit_toEdit_of_fault hf

inductive Refuses (d : Dag) (op : Operation) : CircuitFault → Prop
  | undeclared (hs : d.signature? op.name = none) : Refuses d op (.undeclaredOperation op.name)
  | mismatch (s : Signature) (hs : d.signature? op.name = some s) (hne : s ≠ op.signature) :
      Refuses d op (.basisMismatch op.name s op.signature)
  | qubit (q : Qubit) : Refuses d op (.qubitNotFound q op.name)
  | clbit (b : Clbit) : Refuses d op (.clbitNotFound b op.name)
  | duplicate (q : Qubit) : Refuses d op (.duplicateQubit q op.name)
  | register (name : String) : Refuses d op (.registerNotFound name)

theorem refuses_of_signatureFault? (h : d.signatureFault? op = some f) : Refuses d op f := by
  rw [signatureFault?] at h
  cases hs : d.signature? op.name with
  | none =>
    rw [hs] at h
    exact Option.some.inj h ▸ .undeclared hs
  | some s =>
    rw [hs] at h
    obtain ⟨hne, h⟩ := Option.ite_none_left_eq_some.mp h
    exact Option.some.inj h ▸ .mismatch s hs hne

theorem refuses_of_conditionFault? (h : d.conditionFault? op = some f) : Refuses d op f := by
  rw [conditionFault?] at h
  cases hc : op.condition with
  | none => rw [hc] at h; cases h
  | some c =>
    rw [hc] at h
    exact Option.some.inj (Option.ite_none_left_eq_some.mp h).2 ▸ .register c.register

theorem refuses_of_fault? (h : d.fault? op = some f) : Refuses d op f := by
  simp only [Dag.fault?, Option.or_eq_some_iff, Option.map_eq_some_iff] at h
  rcases h with h | ⟨-, ⟨q, -, rfl⟩ | ⟨-, ⟨b, -, rfl⟩ | ⟨-, ⟨q, -, rfl⟩ | ⟨-, h⟩⟩⟩⟩
  · exact refuses_of_signatureFault? h
  · exact .qubit q
  · exact .clbit b
  · exact .duplicate q
  · exact refuses_of_conditionFault? h

theorem Call.fault?_ne_invalidWires (d : Dag) (k : Call) (fault : WireFault) :
    k.fault? d ≠ some (.invalidWires fault) := by
  cases k with
  | addQreg r => simp [Call.fault?]
  | addCreg r => simp [Call.fault?]
  | growCreg name size => simp [Call.fault?]
  | declare s =>
    intro h
    obtain ⟨declared, -, h⟩ := Option.bind_eq_some_iff.mp h
    cases (Option.ite_none_left_eq_some.mp h).2
  | append op =>
    intro h
    cases refuses_of_fault? h

/-- The circuit with the node of an operation, before any wire is led through it. -/
def withNode (d : Dag) (op : Operation) : Dag :=
  { d with graph := d.graph.addNode (.op op) }

theorem Sound.exists_leadsOn (h : d.Sound) (hf : d.fault? op = none) {pre post : List Wire}
    {w : Wire} (hw : op.wires = pre ++ w :: post) :
    ∃ d₁, edit (pre.forM (extend d.nodeCount)) (d.withNode op) = (.ok (), d₁) ∧ d₁.LeadsOn w := by
  have hwires := wires_subset_of_fault?_eq_none h hf
  rw [hw, List.append_subset, List.cons_subset] at hwires
  obtain ⟨hpre, hmem, -⟩ := hwires
  obtain ⟨g, fs, hg, -, -, ht⟩ :=
    (h.threaded.addOp op).exists_forM_extend pre hpre Array.getElem?_push_size
  exact ⟨_, hg, ht.leadsOn hmem⟩

namespace History

theorem call_eq_of_fault {h : History} {k : Call} {f : CircuitFault}
    (hf : k.fault? h.dag = some f) : h.call k = h := by
  have he := edit_toEdit_of_fault hf
  cases k with
  | addQreg r => rw [call, show edit (addQreg r) h.dag = _ from he]
  | addCreg r => rw [call, show edit (addCreg r) h.dag = _ from he]
  | growCreg name size => rw [call, show edit (growCreg name size) h.dag = _ from he]
  | declare s => rw [call, show edit (declare s) h.dag = _ from he]
  | append op => rw [call, edit_append_of_fault hf]

/-- How calls on a circuit fail. -/
structure FailsCleanly (calls : List Call) : Prop where
  /-- A call fails for what its checks find, and then changes nothing. -/
  error_iff : ∀ k f d', edit (Call.toEdit k) (of calls).dag = (.error f, d') ↔
    k.fault? (of calls).dag = some f ∧ d' = (of calls).dag
  /-- What they find is never that a wire is broken. -/
  intact : ∀ (k : Call) fault, k.fault? (of calls).dag ≠ some (.invalidWires fault)
  /-- An append that passes its checks comes to each of its wires, and finds that it leads on. -/
  leadsOn : ∀ op, (of calls).dag.fault? op = none → ∀ pre w post, op.wires = pre ++ w :: post →
    ∃ d₁, edit (pre.forM (extend (of calls).dag.nodeCount)) ((of calls).dag.withNode op) =
      (.ok (), d₁) ∧ d₁.LeadsOn w
  /-- A call that fails may as well not have been made. -/
  omitted : ∀ k f, Call.fault? (of calls).dag k = some f →
    ∀ later, of (calls ++ k :: later) = of (calls ++ later)

/-- Whatever calls a circuit is built by, a call on it that fails changes nothing, and none fails
once it has begun to change something. -/
theorem failsCleanly_of (calls : List Call) : FailsCleanly calls := by
  have hd := (sound_of calls).dag
  constructor
  case error_iff => exact fun k f d' => hd.edit_toEdit_eq_error_iff
  case intact => exact fun k fault => k.fault?_ne_invalidWires _ fault
  case leadsOn => exact fun op hf pre w post hw => hd.exists_leadsOn hf hw
  case omitted =>
    intro k f hf later
    rw [of, of, List.foldl_append, List.foldl_append, List.foldl_cons, ← of,
      call_eq_of_fault hf]

end History

end CircuitForms.Dag
