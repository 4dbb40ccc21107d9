import CircuitForms.Proofs.Convert.Exchanged

/-! # What a policy carries over

Whether a circuit is carried over is decided operation by operation: each must be one that
the policy supports, whatever stands around it. What one policy carries over, a policy that
allows more carries over to the same vertices with the same losses.
-/

namespace CircuitForms

structure Policy.Within (p p' : Policy) : Prop where
  boxUnknown : p.boxUnknown → p'.boxUnknown
  dropConditions : p.dropConditions → p'.dropConditions

/-- An operation that is carried over under a policy, by what it is alone. -/
structure Operation.Supported (p : Policy) (op : Operation) : Prop where
  condition : op.condition ≠ none → p.dropConditions
  /-- An operation of the catalog has the operands of its entry, and if it is a measurement it may
  write one bit for each qubit. -/
  known : ∀ e, Catalog.standard.byName? op.name = some e →
    e.qubits.accepts op.qargs.length ∧ op.params.length = e.params ∧
      (op.cargs = [] ∨ op.isMeasurement ∧ op.cargs.length = op.qargs.length)
  unknown : Catalog.standard.byName? op.name = none →
    p.boxUnknown ∧ op.qargs ≠ [] ∧ op.cargs = []

theorem Catalog.kind_eq_measure_iff : ∀ e ∈ standard.entries,
    e.kind = .measure ↔ e.name = Operation.measurementName := by
  decide

namespace Dag

variable {d : Dag} {p p' : Policy} {v : Nat} {op : Operation} {e : Entry}

theorem exists_dropCondition_iff :
    (∃ losses, dropCondition p v op = .ok losses) ↔ (op.condition ≠ none → p.dropConditions) := by
  rw [dropCondition]
  cases op.condition with
  | none => simp
  | some c => cases p.dropConditions <;> simp

theorem exists_boxed_iff : (∃ r, boxed v op = .ok r) ↔ op.qargs ≠ [] ∧ op.cargs = [] := by
  rw [boxed]
  cases op.qargs <;> cases op.cargs <;> simp

theorem exists_measured_iff : (∃ x, d.measured v op = .ok x) ↔
    (op.cargs = [] ∨ op.cargs.length = op.qargs.length) := by
  rw [measured]
  by_cases hc : op.cargs = []
  · simp [hc]
  · by_cases hl : op.cargs.length = op.qargs.length <;> simp [hc, hl]

theorem check_eq_ok_iff {qubits params : Nat} : e.check v qubits params = .ok () ↔
    e.qubits.accepts qubits ∧ params = e.params := by
  rw [Entry.check, Entry.accepts]
  cases e.qubits.accepts qubits <;> simp [eq_comm (a := params)]

theorem exists_listed_iff (he : Catalog.standard.byName? op.name = some e) :
    (∃ x, d.listed v e op = .ok x) ↔
      e.qubits.accepts op.qargs.length ∧ op.params.length = e.params ∧
        (op.cargs = [] ∨ op.isMeasurement ∧ op.cargs.length = op.qargs.length) := by
  obtain ⟨hmem, hname⟩ := Catalog.byName?_eq_some_iff.mp he
  have hkind : e.kind = .measure ↔ op.isMeasurement := by
    rw [Catalog.kind_eq_measure_iff e hmem, hname, Operation.isMeasurement, beq_iff_eq]
  have hrest : (∃ x, (if e.kind = .measure then d.measured v op
      else if !op.cargs.isEmpty then .error (.unsupportedUse v op.name (.arguments op.cargs.length))
      else .ok (.onLines e.kind op.qargs.length (.ofRotations (op.params.map .ofAngle)))) =
        .ok x) ↔ (op.cargs = [] ∨ op.isMeasurement ∧ op.cargs.length = op.qargs.length) := by
    by_cases hm : op.isMeasurement
    · rw [if_pos (hkind.mpr hm), exists_measured_iff]
      simp [hm]
    · rw [if_neg (hkind.not.mpr hm)]
      cases op.cargs <;> simp [hm]
  rw [← and_assoc, ← check_eq_ok_iff (v := v), ← hrest]
  simp only [listed, bind_eq_ok]
  constructor
  · rintro ⟨x, _, hc, hx⟩
    exact ⟨hc, x, hx⟩
  · rintro ⟨hc, x, hx⟩
    exact ⟨x, (), hc, hx⟩

/-- An operation becomes a vertex exactly if the policy supports it, at whatever node of whatever
circuit it stands. -/
theorem exists_describe_iff : (∃ r, d.describe p v op = .ok r) ↔ op.Supported p := by
  rw [describe]
  -- A name of the catalog is checked against its entry; any other has to be boxed.
  cases he : Catalog.standard.byName? op.name with
  | some e =>
    simp only [bind_eq_ok]
    constructor
    · rintro ⟨_, dropped, hd, x, hx, -⟩
      have hknown := (exists_listed_iff he).mp ⟨x, hx⟩
      refine ⟨exists_dropCondition_iff.mp ⟨_, hd⟩, fun e' he' => ?_, fun hn => ?_⟩
      · rwa [← Option.some.inj (he.symm.trans he')]
      · cases he.symm.trans hn
    · intro h
      obtain ⟨dropped, hd⟩ := exists_dropCondition_iff.mpr h.condition
      obtain ⟨x, hx⟩ := (exists_listed_iff (d := d) (v := v) he).mpr (h.known e he)
      exact ⟨_, dropped, hd, x, hx, rfl⟩
  | none =>
    dsimp only
    split_ifs with hb
    · simp only [bind_eq_ok]
      constructor
      · rintro ⟨_, dropped, hd, r, hr, -⟩
        refine ⟨exists_dropCondition_iff.mp ⟨_, hd⟩, fun e' he' => ?_,
          fun _ => ⟨hb, exists_boxed_iff.mp ⟨r, hr⟩⟩⟩
        cases he.symm.trans he'
      · intro h
        obtain ⟨dropped, hd⟩ := exists_dropCondition_iff.mpr h.condition
        obtain ⟨r, hr⟩ := exists_boxed_iff (v := v).mpr (h.unknown he).2
        exact ⟨_, dropped, hd, r, hr, rfl⟩
    · refine iff_of_false ?_ fun h => hb (h.unknown he).1
      rintro ⟨_, h⟩
      cases h

section Within

variable (hp : p.Within p')

include hp

theorem dropCondition_mono {losses : List Loss} (h : dropCondition p v op = .ok losses) :
    dropCondition p' v op = .ok losses := by
  rw [dropCondition] at h ⊢
  cases hc : op.condition with
  | none => rwa [hc] at h
  | some c =>
    rw [hc] at h
    dsimp only at h ⊢
    split_ifs at h with hdrop
    rwa [if_pos (hp.dropConditions hdrop)]

theorem describe_mono {r : Descriptor × List Loss} (h : d.describe p v op = .ok r) :
    d.describe p' v op = .ok r := by
  rw [describe] at h ⊢
  cases he : Catalog.standard.byName? op.name with
  | some e =>
    rw [he] at h
    obtain ⟨dropped, hd, h⟩ := bind_eq_ok.mp h
    exact bind_eq_ok.mpr ⟨dropped, dropCondition_mono hp hd, h⟩
  | none =>
    rw [he] at h
    dsimp only at h ⊢
    split_ifs at h with hb
    obtain ⟨dropped, hd, h⟩ := bind_eq_ok.mp h
    rw [if_pos (hp.boxUnknown hb)]
    exact bind_eq_ok.mpr ⟨dropped, dropCondition_mono hp hd, h⟩

theorem toVertex?_mono {node : Node} {r : Option (Descriptor × List Loss)}
    (h : d.toVertex? p v node = .ok r) : d.toVertex? p' v node = .ok r := by
  cases node with
  | input w => exact h
  | output w => exact h
  | op o =>
    obtain ⟨r, hr, rfl⟩ := map_eq_ok.mp h
    exact map_eq_ok.mpr ⟨r, describe_mono hp hr, rfl⟩

theorem toVertices_mono {r : VertexCircuit × List Loss} (h : d.toVertices p = .ok r) :
    d.toVertices p' = .ok r := by
  obtain ⟨nodes, hnodes, h⟩ := bind_eq_ok.mp h
  refine bind_eq_ok.mpr ⟨nodes, ?_, h⟩
  exact mapM_eq_ok.mpr ((mapM_eq_ok.mp hnodes).imp fun _ _ => toVertex?_mono hp)

end Within

/-- What decides whether a circuit is carried over. -/
structure DecidedAlone (calls : List Call) (p : Policy) : Prop where
  exists_iff : (∃ r, (History.of calls).dag.toVertices p = .ok r) ↔
    ∀ x ∈ (History.of calls).applied, x.2.Supported p
  /-- What fails is the first operation that is not supported. The fault names it and its node. -/
  first : ∀ f, (History.of calls).dag.toVertices p = .error f → ∃ pre v op post,
    (History.of calls).applied = pre ++ (v, op) :: post ∧ (∀ x ∈ pre, x.2.Supported p) ∧
      ¬ op.Supported p ∧ f.OfOperation v op.name
  /-- The order of the operations does not matter. -/
  reordered : ∀ calls', ((History.of calls').applied.map Prod.snd).Perm
      ((History.of calls).applied.map Prod.snd) →
    ((∃ r, (History.of calls').dag.toVertices p = .ok r) ↔
      ∃ r, (History.of calls).dag.toVertices p = .ok r)
  mono : ∀ p', p.Within p' → ∀ c losses, (History.of calls).dag.toVertices p = .ok (c, losses) →
    (History.of calls).dag.toVertices p' = .ok (c, losses)

theorem exists_toVertices_of_iff (calls : List Call) (p : Policy) :
    (∃ r, (History.of calls).dag.toVertices p = .ok r) ↔
      ∀ x ∈ (History.of calls).applied, x.2.Supported p := by
  obtain ⟨hd, hops⟩ := History.sound_of calls
  rw [exists_toVertices_iff hd (consistent_of calls), ← hops]
  simp only [exists_describe_iff, ← mem_operations_iff, Prod.forall]

theorem exists_first_of_toVertices (hd : d.Sound) (hc : d.Consistent) {f : ConversionFault}
    (h : d.toVertices p = .error f) : ∃ pre v op post,
      d.operations = pre ++ (v, op) :: post ∧ (∀ x ∈ pre, x.2.Supported p) ∧
        d.describe p v op = .error f := by
  have hsnd := map_snd_toVertices (p := p) hd hc
  rw [h, eq_comm, Except.map, map_eq_error] at hsnd
  obtain ⟨before, x, after, hnodes, hf, hbefore⟩ := exists_append_of_mapM_eq_error hsnd
  obtain ⟨op, hx, hf⟩ := exists_op_of_toVertex? hf
  have hnode : d.graph.nodes.toList.zipIdx[before.length]? = some x := by simp [hnodes]
  obtain ⟨hv, hn⟩ : x.2 = before.length ∧ d.node? before.length = some (.op op) := by
    rw [List.getElem?_zipIdx, Option.map_eq_some_iff] at hnode
    obtain ⟨node, hnode, rfl⟩ := hnode
    obtain rfl : node = .op op := hx
    exact ⟨Nat.zero_add _, by simpa [node?] using hnode⟩
  obtain ⟨pre, post, hsplit⟩ := List.append_of_mem (mem_operations_iff.mpr hn)
  refine ⟨pre, before.length, op, post, hsplit, fun y hy => ?_, hv ▸ hf⟩
  -- An earlier operation is an earlier node, and those were all described.
  have hlt : y.1 < before.length := by
    have hp := operations_pairwise d
    rw [hsplit, List.pairwise_append] at hp
    exact hp.2.2 y hy _ List.mem_cons_self
  have hyn : d.node? y.1 = some (.op y.2) :=
    mem_operations_iff.mp (hsplit ▸ List.mem_append_left _ hy)
  have hmem : (Node.op y.2, y.1) ∈ before := by
    have hget : d.graph.nodes.toList.zipIdx[y.1]? = some (Node.op y.2, y.1) := by
      simpa [node?] using hyn
    rw [hnodes, List.getElem?_append_left hlt] at hget
    exact List.mem_of_getElem? hget
  obtain ⟨r, hr⟩ := hbefore _ hmem
  obtain ⟨r, hr, -⟩ := map_eq_ok.mp hr
  exact exists_describe_iff.mp ⟨r, hr⟩

/-- Whatever calls a circuit is built by, it is carried over exactly if each of its operations is
supported by itself. -/
theorem decidedAlone_of (calls : List Call) (p : Policy) : DecidedAlone calls p := by
  obtain ⟨hd, hops⟩ := History.sound_of calls
  constructor
  case exists_iff => exact exists_toVertices_of_iff calls p
  case first =>
    intro f hf
    obtain ⟨pre, v, op, post, hsplit, hpre, hop⟩ :=
      exists_first_of_toVertices hd (consistent_of calls) hf
    refine ⟨pre, v, op, post, hops.symm.trans hsplit, hpre, fun hs => ?_,
      ofOperation_of_describe hop⟩
    obtain ⟨r, hr⟩ := exists_describe_iff.mpr hs
    cases hop.symm.trans hr
  case reordered =>
    intro calls' hperm
    have hall : ∀ l : List (Nat × Operation),
        (∀ x ∈ l, x.2.Supported p) ↔ ∀ op ∈ l.map Prod.snd, op.Supported p :=
      fun l => List.forall_mem_map.symm
    rw [exists_toVertices_of_iff, exists_toVertices_of_iff, hall, hall]
    exact ⟨fun h op hop => h op (hperm.mem_iff.mpr hop),
      fun h op hop => h op (hperm.mem_iff.mp hop)⟩
  case mono => exact fun p' hp c losses h => toVertices_mono hp h

end Dag

end CircuitForms
