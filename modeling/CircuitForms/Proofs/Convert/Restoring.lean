import CircuitForms.Convert.ToWires
import CircuitForms.Proofs.Dag.Sound
import CircuitForms.Proofs.Grid.Reading

/-! # What a restoration does

A restoration that succeeds appends one operation for each vertex within the lines, in
the order in which the layout is read. On the way the circuit stays sound, and the
registers that are provided change neither its operations nor its qubits.
-/

namespace CircuitForms

namespace Dag

variable {d d' d'' : Dag}

/-- A change that keeps the operations and the quantum registers. -/
structure Kept (d d' : Dag) : Prop where
  sound : d'.Sound
  operations : d'.operations = d.operations
  qregs : d'.qregs = d.qregs

theorem Kept.refl (h : d.Sound) : Kept d d := ⟨h, rfl, rfl⟩

theorem Kept.trans (h : Kept d d') (h' : Kept d' d'') : Kept d d'' :=
  ⟨h'.sound, h'.operations.trans h.operations, h'.qregs.trans h.qregs⟩

theorem kept_addCreg (h : d.Sound) (r : Register) : Kept d (edit (addCreg r) d).2 := by
  obtain ⟨hs, ho⟩ := h.addRegister .classical r
  refine ⟨hs, ho, ?_⟩
  rw [addCreg, edit_addRegister]
  split
  · rfl
  · exact foldl_addWire_qregs _ _

theorem kept_growCreg (h : d.Sound) (name : String) (size : Nat) :
    Kept d (edit (growCreg name size) d).2 := by
  obtain ⟨hs, ho⟩ := h.growCreg name size
  refine ⟨hs, ho, ?_⟩
  rw [edit_growCreg]
  split
  · rfl
  · exact foldl_addWire_qregs _ _

theorem kept_declare (h : d.Sound) (s : Signature) : Kept d (edit (declare s) d).2 := by
  obtain ⟨hs, ho⟩ := h.declare s
  refine ⟨hs, ho, ?_⟩
  rw [edit_declare]
  split
  · rfl
  · split <;> rfl

theorem registers_declareAppend (h : d.Sound) (op : Operation) :
    (edit (declareAppend op) d).2.cregs = d.cregs ∧
      (edit (declareAppend op) d).2.qregs = d.qregs := by
  have hk := kept_declare h op.signature
  have hdeclare : (edit (declare op.signature) d).2.cregs = d.cregs := by
    rw [edit_declare]
    split
    · rfl
    · split <;> rfl
  rcases hd : edit (declare op.signature) d with ⟨f | u, d₁⟩
  · rw [show edit (declareAppend op) d = _ from run_bind_error hd]
    rw [hd] at hk hdeclare
    exact ⟨hdeclare, hk.qregs⟩
  · rw [show edit (declareAppend op) d = _ from run_bind_ok hd]
    rw [hd] at hk hdeclare
    rcases hk.sound.append op with ⟨f, -, ha⟩ | ⟨-, d₂, ha, -, -, hq, hc, -⟩
    · rw [show (append op).run.run d₁ = _ from ha]
      exact ⟨hdeclare, hk.qregs⟩
    · rw [show (append op).run.run d₁ = _ from ha]
      exact ⟨hc.trans hdeclare, hq.trans hk.qregs⟩

theorem kept_provide (h : d.Sound) (r : Register) :
    Kept d (edit (VertexCircuit.provide r) d).2 := by
  rw [VertexCircuit.provide, edit_get_bind]
  split
  · exact kept_growCreg h r.name r.size
  · exact kept_addCreg h r

theorem kept_forM_provide {rs : List Register} (h : d.Sound)
    (he : edit (rs.forM VertexCircuit.provide) d = (.ok (), d')) : Kept d d' := by
  induction rs generalizing d with
  | nil =>
    obtain rfl : d = d' := congrArg Prod.snd he
    exact .refl h
  | cons r rs ih =>
    obtain ⟨_, d₁, h₁, he⟩ := run_bind_eq_ok he
    have hk := kept_provide h r
    rw [show edit (VertexCircuit.provide r) d = _ from h₁] at hk
    exact hk.trans (ih hk.sound he)

theorem operations_declareAppend {op : Operation} {v : Nat} (h : d.Sound)
    (he : edit (declareAppend op) d = (.ok v, d')) :
    d'.Sound ∧ d'.operations = d.operations ++ [(v, op)] ∧ d'.qregs = d.qregs := by
  obtain ⟨_, d₁, h₁, he⟩ := run_bind_eq_ok he
  have hk := kept_declare h op.signature
  rw [show edit (declare op.signature) d = _ from h₁] at hk
  rcases hk.sound.append op with ⟨f, -, hf⟩ | ⟨-, d₂, hd, hs, hops, hq, -⟩
  · cases hf.symm.trans he
  · obtain ⟨hv, rfl⟩ := Prod.mk.inj (hd.symm.trans he)
    obtain rfl := Except.ok.inj hv
    exact ⟨hs, by rw [hops, hk.operations], hq.trans hk.qregs⟩

end Dag

namespace VertexCircuit

variable {α β : Type} {c : VertexCircuit} {g : Grid} {register : String}
  {ds : List (Nat × Destination)} {s s' : Restoration}

theorem run_get (s : Restoration) : (get : Restore Restoration).run.run s = (.ok s, s) := rfl

theorem run_liftExcept (x : Except ConversionFault α) (s : Restoration) :
    (liftExcept x : Restore α).run.run s = (x, s) := by
  cases x <;> rfl

theorem run_edit (e : Dag.Edit α) (s : Restoration) :
    (Restore.edit e).run.run s = ((Dag.edit e s.dag).1.mapError ConversionFault.circuit,
      { s with dag := (Dag.edit e s.dag).2 }) := by
  rw [Restore.edit, run_bind_ok (run_get s)]
  rcases Dag.edit e s.dag with ⟨f | a, d⟩
  · rfl
  · rfl

theorem run_edit_bind (e : Dag.Edit α) (f : α → β) (s : Restoration) :
    (Restore.edit e >>= fun a => pure (f a)).run.run s =
      (((Dag.edit e s.dag).1.mapError ConversionFault.circuit).map f,
        { s with dag := (Dag.edit e s.dag).2 }) := by
  have hrun := run_edit e s
  cases he : (Dag.edit e s.dag).1 with
  | error fault =>
    rw [he] at hrun
    exact run_bind_error hrun
  | ok a =>
    rw [he] at hrun
    exact run_bind_ok hrun

theorem asWord_of_lt {n : Nat} (h : n < 1 <<< 32) (fault : LayoutFault) :
    asWord n fault = .ok n :=
  if_pos h

theorem asWord_of_not_lt {n : Nat} (h : ¬ n < 1 <<< 32) (fault : LayoutFault) :
    asWord n fault = .error (.circuit (.notLayable fault)) :=
  if_neg h

def Restoration.taken (s : Restoration) (reserved : List String) : List String :=
  reserved ++ s.dag.cregs.map Register.name ++ s.dag.qregs.map Register.name

theorem run_freshName (reserved : List String) (s : Restoration) :
    (Restore.freshName reserved).run.run s = (.ok (s.namer.fresh (s.taken reserved)).1,
      { s with namer := (s.namer.fresh (s.taken reserved)).2 }) := rfl

def Restoration.freshRegister (s : Restoration) (reserved : List String) (x : Descriptor) :
    Register :=
  ⟨(s.namer.fresh (s.taken reserved)).1, x.outputs⟩

def Narrow (c : VertexCircuit) : Prop :=
  ∀ v x, c.vertex? v = some x → x.kind = .measure → x.outputs < 1 <<< 32

section WrittenBits

variable {reserved : List String} {v : Nat} {x : Descriptor} {dest : Destination}

theorem run_writtenBits_fresh (he : dest.isEmpty) (hx : x.outputs < 1 <<< 32) (s : Restoration) :
    ∃ s', (writtenBits reserved v x dest).run.run s =
        (((Dag.edit (Dag.addCreg (s.freshRegister reserved x)) s.dag).1.mapError
          ConversionFault.circuit).map fun _ => (s.freshRegister reserved x).clbits, s') ∧
      s'.dag = (Dag.edit (Dag.addCreg (s.freshRegister reserved x)) s.dag).2 ∧
      s'.namer = (s.namer.fresh (s.taken reserved)).2 := by
  unfold writtenBits
  rw [if_pos he, run_bind_ok (run_freshName reserved s), asWord_of_lt hx,
    run_bind_ok (run_liftExcept (.ok x.outputs) _)]
  exact ⟨_, run_edit_bind _ _ _, rfl, rfl⟩

theorem run_writtenBits_wide (he : dest.isEmpty) (hx : ¬ x.outputs < 1 <<< 32) (s : Restoration) :
    (writtenBits reserved v x dest).run.run s = (.error (.circuit (.notLayable .tooWide)),
      { s with namer := (s.namer.fresh (s.taken reserved)).2 }) := by
  unfold writtenBits
  rw [if_pos he, run_bind_ok (run_freshName reserved s), asWord_of_not_lt hx]
  exact run_bind_error (run_liftExcept _ _)

theorem run_writtenBits_recorded (he : dest.isEmpty = false) (s : Restoration) :
    ∃ s', (writtenBits reserved v x dest).run.run s =
        (((Dag.edit (dest.requiredSizes.forM provide) s.dag).1.mapError
          ConversionFault.circuit).map fun _ => dest.bits, s') ∧
      s'.dag = (Dag.edit (dest.requiredSizes.forM provide) s.dag).2 ∧ s'.namer = s.namer := by
  unfold writtenBits
  rw [he, if_neg Bool.false_ne_true]
  exact ⟨_, run_edit_bind _ _ s, rfl, rfl⟩

theorem kept_writtenBits {bits : List Clbit} (hs : s.dag.Sound)
    (h : (writtenBits reserved v x dest).run.run s = (.ok bits, s')) :
    Dag.Kept s.dag s'.dag ∧ (dest.isEmpty = false → bits = dest.bits) := by
  cases he : dest.isEmpty with
  | true =>
    by_cases hx : x.outputs < 1 <<< 32
    · obtain ⟨_, hrun, hdag, -⟩ := run_writtenBits_fresh he hx s
      obtain ⟨-, rfl⟩ := Prod.mk.inj (hrun.symm.trans h)
      exact ⟨hdag ▸ Dag.kept_addCreg hs _, by simp⟩
    · cases (run_writtenBits_wide he hx s).symm.trans h
  | false =>
    obtain ⟨_, hrun, hdag, -⟩ := run_writtenBits_recorded he s
    obtain ⟨ho, rfl⟩ := Prod.mk.inj (hrun.symm.trans h)
    obtain ⟨_, hok, rfl⟩ := map_eq_ok.mp ho
    exact ⟨Dag.kept_forM_provide hs (Prod.ext (mapError_eq_ok.mp hok) hdag.symm), fun _ => rfl⟩

end WrittenBits

/-- Whether a vertex lies within the lines, and is not an end of one. -/
def isInner (c : VertexCircuit) (v : Nat) : Bool :=
  (c.vertex? v).any (!·.kind.isBoundary)

structure RestoredAs (g : Grid) (register : String) (ds : List (Nat × Destination)) (v : Nat)
    (x : Descriptor) (op : Operation) : Prop where
  qargs : lineQubits g register v x = .ok op.qargs
  name : operationName v x = .ok op.name
  params : op.params = x.rotations.map Rotation.toAngle
  condition : op.condition = none
  cargs : ∀ d, ds.lookup v = some d → d.isEmpty = false → op.cargs = d.bits
  no_cargs : ds.lookup v = none → op.cargs = []

def provideBits (ds : List (Nat × Destination)) (v : Nat) (x : Descriptor) :
    Restore (List Clbit) :=
  match ds.lookup v with
  | some d => writtenBits (reservedNames ds) v x d
  | none => pure []

def announce (v : Nat) (op : Operation) : Restore Unit := do
  Restore.say .detail (s!"vertex {v} -> " ++ op.name)
  discard (Restore.edit (Dag.declareAppend op))

theorem kept_provideBits {v : Nat} {x : Descriptor} {bits : List Clbit} (hs : s.dag.Sound)
    (h : (provideBits ds v x).run.run s = (.ok bits, s')) : Dag.Kept s.dag s'.dag ∧
      (∀ d, ds.lookup v = some d → d.isEmpty = false → bits = d.bits) ∧
      (ds.lookup v = none → bits = []) := by
  rw [provideBits] at h
  cases hd : ds.lookup v with
  | none =>
    rw [hd] at h
    cases h
    exact ⟨.refl hs, (fun d he => nomatch he), fun _ => rfl⟩
  | some d =>
    rw [hd] at h
    obtain ⟨hk, hbits⟩ := kept_writtenBits hs h
    exact ⟨hk, fun d' he => Option.some.inj he ▸ hbits, fun he => nomatch he⟩

theorem run_announce (v : Nat) (op : Operation) (s : Restoration) :
    ∃ s', (announce v op).run.run s = (((Dag.edit (Dag.declareAppend op) s.dag).1.mapError
        ConversionFault.circuit).map fun _ => (), s') ∧
      s'.dag = (Dag.edit (Dag.declareAppend op) s.dag).2 ∧ s'.namer = s.namer := by
  have hedit := run_edit_bind (Dag.declareAppend op) (fun _ => ())
    { s with remarks := s.remarks ++ [⟨.detail, s!"vertex {v} -> " ++ op.name⟩] }
  exact ⟨_, hedit, rfl, rfl⟩

/-- If it succeeds, then the operation is added. -/
theorem announce_ok {v : Nat} {op : Operation} (hs : s.dag.Sound)
    (h : (announce v op).run.run s = (.ok (), s')) :
    s'.dag.Sound ∧ s'.dag.qregs = s.dag.qregs ∧ s'.dag.cregs = s.dag.cregs ∧
      ∃ n, s'.dag.operations = s.dag.operations ++ [(n, op)] := by
  obtain ⟨_, hrun, hdag, -⟩ := run_announce v op s
  obtain ⟨ho, rfl⟩ := Prod.mk.inj (hrun.symm.trans h)
  obtain ⟨n, hn, -⟩ := map_eq_ok.mp ho
  obtain ⟨hs', hops, hqregs⟩ := Dag.operations_declareAppend hs
    (Prod.ext (mapError_eq_ok.mp hn) hdag.symm)
  exact ⟨hs', hqregs, hdag ▸ (Dag.registers_declareAppend hs op).1, n, hops⟩

theorem run_restoreVertex {v : Nat} {x : Descriptor} {qargs : List Qubit} {name : String}
    (hx : c.vertex? v = some x) (hb : ¬ x.kind.isBoundary)
    (hq : lineQubits g register v x = .ok qargs) (hn : operationName v x = .ok name)
    (s : Restoration) : (c.restoreVertex g register ds v).run.run s =
      (provideBits ds v x >>= fun cargs =>
        announce v ⟨name, qargs, cargs, x.rotations.map Rotation.toAngle, none⟩).run.run s := by
  rw [restoreVertex, hx]
  dsimp only
  rw [if_neg hb, hq, run_bind_ok (run_liftExcept (.ok qargs) s), hn,
    run_bind_ok (run_liftExcept (.ok name) s), provideBits]
  cases ds.lookup v with
  | none => rfl
  | some d => rfl

/-- Any other vertex changes nothing: it is refused, or it is the end of a line. -/
theorem restoreVertex_outcome {v : Nat} {o : Except ConversionFault Unit}
    (h : (c.restoreVertex g register ds v).run.run s = (o, s')) :
    (∃ f, o = .error f ∧ s' = s) ∨ (c.isInner v = false ∧ o = .ok () ∧ s' = s) ∨
      c.isInner v = true ∧ ∃ x qargs name, c.vertex? v = some x ∧
        lineQubits g register v x = .ok qargs ∧ operationName v x = .ok name ∧
        (provideBits ds v x >>= fun cargs =>
          announce v ⟨name, qargs, cargs, x.rotations.map Rotation.toAngle, none⟩).run.run s =
            (o, s') := by
  have hrun := h
  rw [restoreVertex] at h
  -- Every check comes before the first edit, so it leaves the state as it was.
  cases hx : c.vertex? v with
  | none =>
    rw [hx] at h
    cases h
    exact .inl ⟨_, rfl, rfl⟩
  | some x =>
    rw [hx] at h
    dsimp only at h
    by_cases hb : x.kind.isBoundary
    · rw [if_pos hb] at h
      cases h
      exact .inr (.inl ⟨by simp [isInner, hx, hb], rfl, rfl⟩)
    rw [if_neg hb] at h
    cases hq : lineQubits g register v x with
    | error f =>
      rw [hq, run_bind_error (run_liftExcept (.error f) s)] at h
      cases h
      exact .inl ⟨f, rfl, rfl⟩
    | ok qargs =>
      rw [hq, run_bind_ok (run_liftExcept (.ok qargs) s)] at h
      cases hn : operationName v x with
      | error f =>
        rw [hn, run_bind_error (run_liftExcept (.error f) s)] at h
        cases h
        exact .inl ⟨f, rfl, rfl⟩
      | ok name =>
        rw [run_restoreVertex hx hb hq hn] at hrun
        exact .inr (.inr ⟨by simp [isInner, hx, hb], x, qargs, name, rfl, hq, hn, hrun⟩)

theorem restoreVertex_ok {v : Nat} (hs : s.dag.Sound)
    (h : (c.restoreVertex g register ds v).run.run s = (.ok (), s')) :
    (c.isInner v = false ∧ s'.dag = s.dag) ∨
      (c.isInner v = true ∧ s'.dag.Sound ∧ s'.dag.qregs = s.dag.qregs ∧
        ∃ x n op, c.vertex? v = some x ∧ RestoredAs g register ds v x op ∧
          s'.dag.operations = s.dag.operations ++ [(n, op)]) := by
  rcases restoreVertex_outcome h with
    ⟨f, hf, -⟩ | ⟨hv, -, rfl⟩ | ⟨hv, x, qargs, name, hx, hq, hn, h⟩
  · cases hf
  · exact .inl ⟨hv, rfl⟩
  · obtain ⟨cargs, s₁, h₁, h₂⟩ := run_bind_eq_ok h
    obtain ⟨hk, hbits, hnone⟩ := kept_provideBits hs h₁
    obtain ⟨hs', hqregs, -, n, hops⟩ := announce_ok hk.sound h₂
    rw [hk.operations] at hops
    exact .inr ⟨hv, hs', hqregs.trans hk.qregs, x, n, _, hx, ⟨hq, hn, rfl, rfl, hbits, hnone⟩, hops⟩

theorem sound_restoreVertex {v : Nat} (hs : s.dag.Sound)
    (h : (c.restoreVertex g register ds v).run.run s = (.ok (), s')) : s'.dag.Sound := by
  rcases restoreVertex_ok hs h with ⟨-, hdag⟩ | ⟨-, hs', -⟩
  · rwa [hdag]
  · exact hs'

theorem forM_restoreVertex_ok {vs : List Nat} (hs : s.dag.Sound)
    (h : (vs.forM (c.restoreVertex g register ds)).run.run s = (.ok (), s')) :
    s'.dag.Sound ∧ s'.dag.qregs = s.dag.qregs ∧
      ∃ new, s'.dag.operations = s.dag.operations ++ new ∧
        List.Forall₂ (fun v o => ∃ x, c.vertex? v = some x ∧ RestoredAs g register ds v x o.2)
          (vs.filter c.isInner) new := by
  induction vs generalizing s with
  | nil =>
    cases h
    exact ⟨hs, rfl, [], by simp, .nil⟩
  | cons v vs ih =>
    obtain ⟨_, s₁, h₁, h⟩ := run_bind_eq_ok h
    rcases restoreVertex_ok hs h₁ with ⟨hv, hd⟩ | ⟨hv, hs₁, hq, x, n, op, hx, hr, hops⟩
    · rw [List.filter_cons_of_neg (by simp [hv])]
      rw [← hd] at hs ⊢
      exact ih hs h
    · obtain ⟨hs', hq', new, hnew, hall⟩ := ih hs₁ h
      refine ⟨hs', hq'.trans hq, (n, op) :: new, ?_, ?_⟩
      · rw [hnew, hops, List.append_assoc, List.singleton_append]
      · rw [List.filter_cons_of_pos hv]
        exact .cons ⟨x, hx, hr⟩ hall

/-- The circuit that has the lines as qubits, before any vertex is restored. -/
def start (c : VertexCircuit) (register : String) (namer : Namer) : Restoration :=
  { dag := (Dag.edit (Dag.addQreg ⟨register, c.lineCount⟩) {}).2, namer }

theorem run_addQreg (c : VertexCircuit) (register : String) (namer : Namer) :
    (Restore.edit (Dag.addQreg ⟨register, c.lineCount⟩)).run.run { namer } =
      (.ok (), c.start register namer) := by
  rw [run_edit, start, Dag.addQreg, Dag.edit_addRegister]
  rfl

theorem sound_start (c : VertexCircuit) (register : String) (namer : Namer) :
    (c.start register namer).dag.Sound ∧ (c.start register namer).dag.operations = [] :=
  Dag.Sound.empty.addRegister .quantum ⟨register, c.lineCount⟩

theorem qregs_start (c : VertexCircuit) (register : String) (namer : Namer) :
    (c.start register namer).dag.qregs = [⟨register, c.lineCount⟩] := by
  rw [start, Dag.addQreg, Dag.edit_addRegister]
  exact congrArg (· ++ [_]) (Dag.foldl_addWire_qregs _ _)

theorem cregs_start (c : VertexCircuit) (register : String) (namer : Namer) :
    (c.start register namer).dag.cregs = [] := by
  rw [start, Dag.addQreg, Dag.edit_addRegister]
  exact Dag.foldl_addWire_cregs _ _

theorem toWiresWith_def (c : VertexCircuit) (register : String) (namer : Namer) :
    c.toWiresWith register namer = ((c.restored register namer).1.map fun _ =>
      (c.restored register namer).2.dag, (c.restored register namer).2.namer) := rfl

theorem restored_of_not_lt (hlines : ¬ c.lineCount < 1 <<< 32) (namer : Namer) :
    c.restored register namer = (.error (.circuit (.notLayable .tooManyLines)), { namer }) := by
  have hrun : (c.restore register).run.run { namer } =
      (.error (.circuit (.notLayable .tooManyLines)), { namer }) := by
    rw [restore, asWord_of_not_lt hlines]
    exact run_bind_error (run_liftExcept _ _)
  exact hrun

theorem restored_of_not_laid {f : CircuitFault} (hlines : c.lineCount < 1 <<< 32)
    (hg : Grid.layOut c = .error f) (namer : Namer) :
    c.restored register namer = (.error (.circuit f), c.start register namer) := by
  have hrun : (c.restore register).run.run { namer } =
      (.error (.circuit f), c.start register namer) := by
    rw [restore, asWord_of_lt hlines, run_bind_ok (run_liftExcept (.ok c.lineCount) _),
      run_bind_ok (run_addQreg c register namer)]
    refine run_bind_error ?_
    rw [run_liftExcept, hg]
    rfl
  exact hrun

theorem restored_of_not_decoded {f : ConversionFault} (hlines : c.lineCount < 1 <<< 32)
    (hg : Grid.layOut c = .ok g) (hds : c.destinations = .error f) (namer : Namer) :
    c.restored register namer = (.error f, c.start register namer) := by
  have hrun : (c.restore register).run.run { namer } = (.error f, c.start register namer) := by
    rw [restore, asWord_of_lt hlines, run_bind_ok (run_liftExcept (.ok c.lineCount) _),
      run_bind_ok (run_addQreg c register namer), hg]
    refine (run_bind_ok (run_liftExcept _ _)).trans (run_bind_error ?_)
    rw [run_liftExcept, hds]
  exact hrun

theorem exists_restored_eq (hlines : c.lineCount < 1 <<< 32) (hg : Grid.layOut c = .ok g)
    (hds : c.destinations = .ok ds) {namer : Namer} {o : Except ConversionFault Unit}
    (h : (g.reading.forM (c.restoreVertex g register ds)).run.run (c.start register namer) =
      (o, s)) :
    ∃ s', c.restored register namer = (o, s') ∧ s'.dag = s.dag ∧ s'.namer = s.namer := by
  have hlaid : (Grid.layOut c).mapError ConversionFault.circuit = .ok g := mapError_eq_ok.mpr hg
  have hrun : ∃ s', (c.restore register).run.run { namer } = (o, s') ∧ s'.dag = s.dag ∧
      s'.namer = s.namer := by
    rw [restore, asWord_of_lt hlines, run_bind_ok (run_liftExcept (.ok c.lineCount) _),
      run_bind_ok (run_addQreg c register namer), hlaid, run_bind_ok (run_liftExcept (.ok g) _),
      hds, run_bind_ok (run_liftExcept (.ok ds) _)]
    cases o with
    | error f => exact ⟨s, run_bind_error h, rfl, rfl⟩
    | ok u => exact ⟨_, (run_bind_ok h).trans rfl, rfl, rfl⟩
  exact hrun

theorem toWiresWith_of_not_lt (hlines : ¬ c.lineCount < 1 <<< 32) (namer : Namer) :
    (c.toWiresWith register namer).1 = .error (.circuit (.notLayable .tooManyLines)) := by
  rw [toWiresWith_def, restored_of_not_lt hlines]
  rfl

theorem lineCount_lt_of_toWiresWith {d : Dag} {namer : Namer}
    (h : (c.toWiresWith register namer).1 = .ok d) : c.lineCount < 1 <<< 32 := by
  by_contra hlines
  cases h.symm.trans (toWiresWith_of_not_lt hlines namer)

theorem toWiresWith_of_not_laid {f : CircuitFault} (hlines : c.lineCount < 1 <<< 32)
    (hg : Grid.layOut c = .error f) (namer : Namer) :
    (c.toWiresWith register namer).1 = .error (.circuit f) := by
  rw [toWiresWith_def, restored_of_not_laid hlines hg]
  rfl

theorem toWiresWith_of_not_decoded {f : ConversionFault} (hlines : c.lineCount < 1 <<< 32)
    (hg : Grid.layOut c = .ok g) (hds : c.destinations = .error f) (namer : Namer) :
    (c.toWiresWith register namer).1 = .error f := by
  rw [toWiresWith_def, restored_of_not_decoded hlines hg hds]
  rfl

/-- Any other circuit is restored if its vertices are. -/
theorem toWiresWith_eq (hlines : c.lineCount < 1 <<< 32) (hg : Grid.layOut c = .ok g)
    (hds : c.destinations = .ok ds) {namer : Namer} {o : Except ConversionFault Unit}
    (h : (g.reading.forM (c.restoreVertex g register ds)).run.run (c.start register namer) =
      (o, s)) : (c.toWiresWith register namer).1 = o.map fun _ => s.dag := by
  obtain ⟨s', hrestored, hdag, -⟩ := exists_restored_eq hlines hg hds h
  rw [toWiresWith_def, hrestored, hdag]

/-- A circuit that is restored has one quantum register and the operations of the vertices within
the lines, in the order in which the layout is read. -/
theorem toWires_ok {d : Dag} {namer : Namer} (h : (c.toWiresWith register namer).1 = .ok d) :
    ∃ g ds, Grid.layOut c = .ok g ∧ c.destinations = .ok ds ∧ d.Sound ∧
      d.qregs = [⟨register, c.lineCount⟩] ∧
      List.Forall₂ (fun v o => ∃ x, c.vertex? v = some x ∧ RestoredAs g register ds v x o.2)
        (g.reading.filter c.isInner) d.operations := by
  have hlines := lineCount_lt_of_toWiresWith h
  cases hg : Grid.layOut c with
  | error f => cases h.symm.trans (toWiresWith_of_not_laid hlines hg namer)
  | ok g =>
    cases hds : c.destinations with
    | error f => cases h.symm.trans (toWiresWith_of_not_decoded hlines hg hds namer)
    | ok ds =>
      rcases hrun : (g.reading.forM (c.restoreVertex g register ds)).run.run
        (c.start register namer) with ⟨o, s⟩
      rw [toWiresWith_eq hlines hg hds hrun] at h
      obtain ⟨_, rfl, rfl⟩ := map_eq_ok.mp h
      obtain ⟨hs, hops⟩ := sound_start c register namer
      obtain ⟨hs', hq, new, hnew, hall⟩ := forM_restoreVertex_ok hs hrun
      rw [hops, List.nil_append] at hnew
      exact ⟨g, ds, rfl, rfl, hs', hq.trans (qregs_start c register namer), hnew ▸ hall⟩

end VertexCircuit

end CircuitForms
