import CircuitForms.Proofs.Convert.Operands
import CircuitForms.Proofs.Convert.Provided
import CircuitForms.Proofs.Convert.ReadOff
import CircuitForms.Proofs.Grid.Layable

/-! # Restorable circuits of vertices

A circuit of vertices is restored exactly if it can be laid out, its measurements have
destinations, its vertices stand for operations, and those of one name for operations with
the same operand counts. What goes wrong first is what is reported, and nothing else can.
-/

namespace CircuitForms.VertexCircuit

open Grid

variable {c : VertexCircuit} {g : Grid} {register : String} {ds : List (Nat × Destination)}
  {s s₁ : Restoration} {v : Nat} {vs : List Nat} {x : Descriptor} {namer : Namer}

/-- The signature of the operation that a vertex stands for. The ends of lines stand for none. -/
def signatureAt? (c : VertexCircuit) (v : Nat) : Option Signature :=
  (c.vertex? v).bind fun x =>
    if x.kind.isBoundary then none
    else (operationName v x).toOption.map fun name =>
      ⟨name, x.inputs, if x.kind = .measure then x.outputs else 0, x.rotations.length⟩

theorem signatureAt?_of_isBoundary (hx : c.vertex? v = some x) (hb : x.kind.isBoundary) :
    c.signatureAt? v = none := by
  simp [signatureAt?, hx, hb]

theorem signatureAt?_eq_some (hx : c.vertex? v = some x) (hb : ¬ x.kind.isBoundary) {name : String}
    (hn : operationName v x = .ok name) : c.signatureAt? v =
      some ⟨name, x.inputs, if x.kind = .measure then x.outputs else 0, x.rotations.length⟩ := by
  simp [signatureAt?, hx, hb, hn, Except.toOption]

theorem isInner_iff_of_vertex? (hx : c.vertex? v = some x) :
    c.isInner v = true ↔ ¬ x.kind.isBoundary := by
  simp [isInner, hx]

/-- Whether a vertex stands for an operation: one of the catalog, or a boxed one with a name. -/
def Named (x : Descriptor) : Prop :=
  (Catalog.standard.byKind? x.kind).isSome ∨ x.kind = .box ∧ x.description?.isSome

theorem operationName_cases (v : Nat) (x : Descriptor) :
    ((∃ name, operationName v x = .ok name) ∧ Named x) ∨
      (operationName v x = .error (.noCounterpart v x.kind) ∧ ¬ Named x) := by
  have hbox : Catalog.standard.byKind? .box = none := by decide
  by_cases hk : x.kind = .box
  · cases hd : x.description? with
    | none => simp [operationName, Named, hk, hd, hbox]
    | some name => simp [operationName, Named, hk, hd]
  · cases he : Catalog.standard.byKind? x.kind with
    | none => simp [operationName, Named, hk, he]
    | some entry => simp [operationName, Named, hk, he]

inductive Refused (c : VertexCircuit) (v : Nat) : ConversionFault → Prop where
  /-- The vertex stands for no operation. -/
  | noCounterpart {x : Descriptor} (hx : c.vertex? v = some x) (hv : c.isInner v)
      (hn : ¬ Named x) : Refused c v (.noCounterpart v x.kind)
  /-- Another vertex stands for an operation of the same name with other operand counts. -/
  | mismatch {u : Nat} {a b : Signature} (hu : c.signatureAt? u = some a)
      (hv : c.signatureAt? v = some b) (hname : a.name = b.name) (hne : a ≠ b) :
      Refused c v (.circuit (.basisMismatch b.name a b))

/-- How a restoration stands once some vertices are restored. -/
structure Restoring (c : VertexCircuit) (register : String) (vs : List Nat) (s : Restoration) :
    Prop where
  sound : s.dag.Sound
  qregs : s.dag.qregs = [⟨register, c.lineCount⟩]
  nodup : ∀ o ∈ s.dag.operations, o.2.wires.Nodup
  named : ∀ v ∈ vs, c.isInner v → (c.signatureAt? v).isSome
  declared : ∀ v ∈ vs, ∀ a, c.signatureAt? v = some a → s.dag.signature? a.name = some a
  known : ∀ a ∈ s.dag.basis, ∃ v ∈ vs, c.signatureAt? v = some a

theorem restoring_start (c : VertexCircuit) (register : String) (namer : Namer) :
    Restoring c register [] (c.start register namer) := by
  obtain ⟨hs, hops⟩ := sound_start c register namer
  have hbasis : (c.start register namer).dag.basis = [] := by
    rw [start, Dag.addQreg, Dag.edit_addRegister]
    exact Dag.foldl_addWire_basis _ _
  constructor
  case sound => exact hs
  case qregs => exact qregs_start c register namer
  all_goals simp [hops, hbasis]

theorem Restoring.boundary (h : Restoring c register vs s) (hx : c.vertex? v = some x)
    (hb : x.kind.isBoundary) : Restoring c register (vs ++ [v]) s where
  sound := h.sound
  qregs := h.qregs
  nodup := h.nodup
  named u hu hi := by
    rcases List.mem_append.mp hu with hu | hu
    · exact h.named u hu hi
    · obtain rfl := List.mem_singleton.mp hu
      exact absurd hb ((isInner_iff_of_vertex? hx).mp hi)
  declared u hu a ha := by
    rcases List.mem_append.mp hu with hu | hu
    · exact h.declared u hu a ha
    · obtain rfl := List.mem_singleton.mp hu
      cases (signatureAt?_of_isBoundary hx hb).symm.trans ha
  known a ha := by
    obtain ⟨u, hu, hua⟩ := h.known a ha
    exact ⟨u, List.mem_append_left _ hu, hua⟩

theorem Restoring.gains (h : Restoring c register vs s) (he : Dag.Extends s.dag s₁.dag)
    {op : Operation} {s' : Restoration} (hg : Dag.Gains s₁.dag op s'.dag)
    (hsig : c.signatureAt? v = some op.signature) (hn : op.wires.Nodup) :
    Restoring c register (vs ++ [v]) s' where
  sound := hg.sound
  qregs := hg.qregs.trans (he.qregs.trans h.qregs)
  nodup o ho := by
    obtain ⟨n, hops⟩ := hg.operations
    rw [hops, he.operations, List.mem_append, List.mem_singleton] at ho
    rcases ho with ho | rfl
    · exact h.nodup o ho
    · exact hn
  named u hu hi := by
    rcases List.mem_append.mp hu with hu | hu
    · exact h.named u hu hi
    · obtain rfl := List.mem_singleton.mp hu
      exact Option.isSome_of_eq_some hsig
  declared u hu a ha := by
    rcases List.mem_append.mp hu with hu | hu
    · exact (he.declares.trans hg.declares).signature _ _ (h.declared u hu a ha)
    · obtain rfl := List.mem_singleton.mp hu
      obtain rfl := Option.some.inj (hsig.symm.trans ha)
      exact hg.signature
  known a ha := by
    rcases hg.basis a ha with ha | rfl
    · rw [he.basis] at ha
      obtain ⟨u, hu, hua⟩ := h.known a ha
      exact ⟨u, List.mem_append_left _ hu, hua⟩
    · exact ⟨v, List.mem_append_right _ (List.mem_singleton_self v), hsig⟩

theorem Restoring.announce_cases (h : Restoring c register vs s) (he : Dag.Extends s.dag s₁.dag)
    {op : Operation} (hsig : c.signatureAt? v = some op.signature)
    (hq : ∀ q ∈ op.qargs, ∃ j < c.lineCount, q = ⟨register, j⟩)
    (hc : ∀ b ∈ op.cargs, s₁.dag.hasClbit b) (hn : op.wires.Nodup) (hk : op.condition = none) :
    (∃ s', (announce v op).run.run s₁ = (.ok (), s') ∧ Restoring c register (vs ++ [v]) s') ∨
      ∃ f s', (announce v op).run.run s₁ = (.error f, s') ∧ Refused c v f := by
  obtain ⟨s', hrun, hdag, -⟩ := run_announce v op s₁
  have hqubit : ∀ q ∈ op.qargs, s₁.dag.hasQubit q := by
    intro q hm
    obtain ⟨j, hj, rfl⟩ := hq q hm
    simp [Dag.hasQubit, Dag.qreg?, he.qregs, h.qregs, Register.find?, hj]
  rcases Dag.declareAppend_cases he.sound hqubit hc (Dag.nodup_wires_iff.mp hn).1
    (by simp [hk]) with ⟨n, d', hd', hg⟩ | ⟨a, ha, hne, hd'⟩
  · rw [hd'] at hrun hdag
    subst hdag
    exact .inl ⟨s', hrun, h.gains he hg hsig hn⟩
  · rw [hd'] at hrun
    have hname : a.name = op.name := by simpa using List.find?_some ha
    have hmem : a ∈ s.dag.basis := he.basis ▸ List.mem_of_find?_eq_some ha
    obtain ⟨u, -, hu⟩ := h.known a hmem
    exact .inr ⟨_, s', hrun, .mismatch hu hsig hname hne⟩

theorem exists_provideBits (hs : s.dag.Sound) (hds : c.destinations = .ok ds) (hc : c.Narrow)
    (hx : c.vertex? v = some x) : ∃ bits s',
      (provideBits ds v x).run.run s = (.ok bits, s') ∧ Dag.Extends s.dag s'.dag ∧ bits.Nodup ∧
      bits.length = (if x.kind = .measure then x.outputs else 0) ∧
      ∀ b ∈ bits, s'.dag.hasClbit b := by
  obtain ⟨hmeasure, hother⟩ := lookup_destinations hds hx
  unfold provideBits
  by_cases hk : x.kind = .measure
  · obtain ⟨dest, hlookup, hdest⟩ := hmeasure hk
    rw [hlookup, if_pos hk]
    exact exists_writtenBits _ v hs (Destination.valid_of_decode (mapError_eq_ok.mp hdest))
      (hc v x hx hk)
  · rw [hother hk, if_neg hk]
    exact ⟨[], s, rfl, .refl hs, List.nodup_nil, rfl, by simp⟩

theorem exists_lineQubits (hg : Layered c g) (hx : c.vertex? v = some x) (register : String) :
    ∃ qs, lineQubits g register v x = .ok qs ∧ qs.length = x.inputs ∧
      ∀ q ∈ qs, ∃ j < c.lineCount, q = ⟨register, j⟩ := by
  have hpins : c.pins v = x.inputs := by
    rw [pins, hx]
    rfl
  cases hqs : lineQubits g register v x with
  | error f =>
    obtain ⟨p, hp, hf⟩ := exists_of_mapM_eq_error hqs
    have hsome : (g.lineThrough? ⟨v, p⟩).isSome :=
      (hg.lineThrough_isSome _).mpr (.inr (hpins ▸ List.mem_range.mp hp))
    obtain ⟨j, hj⟩ := Option.isSome_iff_exists.mp hsome
    rw [hj] at hf
    cases hf
  | ok qs =>
    have hall := lineQubits_ok hqs
    refine ⟨qs, rfl, by simpa using hall.length_eq.symm, fun q hq => ?_⟩
    obtain ⟨i, hi, rfl⟩ := List.getElem_of_mem hq
    have hi' : i < (List.range x.inputs).length := hall.length_eq ▸ hi
    obtain ⟨j, hj, he⟩ := hall.get hi' hi
    obtain ⟨k, hk⟩ := (hg.lineThrough _ _).mp hj
    obtain ⟨l, hl, -⟩ := cell?_eq_some.mp hk
    have hlt := (List.getElem?_eq_some_iff.mp hl).1
    exact ⟨j, hg.length_lines ▸ hlt, he⟩

theorem inputs_le_lineCount (hg : Layered c g) (hx : c.vertex? v = some x) :
    x.inputs ≤ c.lineCount := by
  obtain ⟨qs, hqs, hlen, hlines⟩ := exists_lineQubits hg hx ""
  have hsub : qs ⊆ (Register.mk "" c.lineCount).qubits := by
    intro q hq
    obtain ⟨j, hj, rfl⟩ := hlines q hq
    exact Register.mem_qubits.mpr ⟨rfl, hj⟩
  have hle := ((nodup_lineQubits hg hqs).subperm hsub).length_le
  rwa [hlen, Register.length_qubits] at hle

theorem narrow_of_layOut (hc : c.Wired) (hin : ∀ v, c.hasKind .input v → c.pins v = 0)
    (hlines : c.lineCount < 1 <<< 32) (hlaid : layOut c = .ok g) : c.Narrow := by
  intro v x hx hk
  have hg := layered_of_wired hc hin (fun _ gs => .refl gs) hlaid
  have hlay : c.Layable := (exists_layOutBy_iff hc hin fun _ gs => .refl gs).mp ⟨g, hlaid⟩
  have hkind (k : Kind) (hne : .measure ≠ k) : ¬ c.hasKind k v := by
    simp [hasKind, hx, hk, hne]
  rw [← (hlay.inner v x hx (hkind _ (by decide)) (hkind _ (by decide))).1]
  exact (inputs_le_lineCount hg hx).trans_lt hlines

/-- A vertex is restored, or there is a reason why not. -/
theorem Restoring.step (h : Restoring c register vs s) (hg : Layered c g)
    (hds : c.destinations = .ok ds) (hnarrow : c.Narrow) (hv : v < c.vertexCount) :
    (∃ s', (c.restoreVertex g register ds v).run.run s = (.ok (), s') ∧
        Restoring c register (vs ++ [v]) s') ∨
      ∃ f s', (c.restoreVertex g register ds v).run.run s = (.error f, s') ∧ Refused c v f := by
  obtain ⟨x, hx⟩ : ∃ x, c.vertex? v = some x := ⟨_, Array.getElem?_eq_getElem hv⟩
  by_cases hb : x.kind.isBoundary
  · unfold restoreVertex
    rw [hx]
    dsimp only
    rw [if_pos hb]
    exact .inl ⟨s, rfl, h.boundary hx hb⟩
  have hi := (isInner_iff_of_vertex? hx).mpr hb
  obtain ⟨qs, hqs, hlen, hq⟩ := exists_lineQubits hg hx register
  rcases operationName_cases v x with ⟨⟨name, hn⟩, -⟩ | ⟨hn, hnamed⟩
  · obtain ⟨bits, s₁, hrun, he, hnodup, hbits, hc⟩ := exists_provideBits h.sound hds hnarrow hx
    rw [run_restoreVertex hx hb hqs hn, run_bind_ok hrun]
    refine h.announce_cases he ?_ hq hc
      (Dag.nodup_wires_iff.mpr ⟨nodup_lineQubits hg hqs, hnodup⟩) rfl
    rw [signatureAt?_eq_some hx hb hn, Operation.signature, hlen, hbits, List.length_map]
  · unfold restoreVertex
    rw [hx]
    dsimp only
    rw [if_neg hb, hqs, run_bind_ok (run_liftExcept (.ok qs) s), hn]
    exact .inr ⟨_, s, run_bind_error (run_liftExcept _ s), .noCounterpart hx hi hnamed⟩

/-- Vertices are restored one after the other up to the first that cannot be. -/
theorem Restoring.run (h : Restoring c register vs s) (hg : Layered c g)
    (hds : c.destinations = .ok ds) (hnarrow : c.Narrow) {todo : List Nat}
    (htodo : ∀ v ∈ todo, v < c.vertexCount) :
    (∃ s', (todo.forM (c.restoreVertex g register ds)).run.run s = (.ok (), s') ∧
        Restoring c register (vs ++ todo) s') ∨
      ∃ f s' v, (todo.forM (c.restoreVertex g register ds)).run.run s = (.error f, s') ∧
        Refused c v f := by
  induction todo generalizing vs s with
  | nil => exact .inl ⟨s, rfl, by simpa using h⟩
  | cons v todo ih =>
    rcases h.step hg hds hnarrow (htodo v List.mem_cons_self) with ⟨s₁, h₁, hs₁⟩ | ⟨f, s₁, h₁, hf⟩
    · rcases ih hs₁ fun u hu => htodo u (List.mem_cons_of_mem v hu) with
        ⟨s', h', hs'⟩ | ⟨f, s', u, h', hf⟩
      · exact .inl ⟨s', (run_bind_ok h₁).trans h', by simpa using hs'⟩
      · exact .inr ⟨f, s', u, (run_bind_ok h₁).trans h', hf⟩
    · exact .inr ⟨f, s₁, v, run_bind_error h₁, hf⟩

theorem toWiresWith_cases (hc : c.Wired) (hin : ∀ v, c.hasKind .input v → c.pins v = 0)
    (hlines : c.lineCount < 1 <<< 32) (hlaid : layOut c = .ok g) (hds : c.destinations = .ok ds)
    (register : String) (namer : Namer) :
    (∃ s, (c.toWiresWith register namer).1 = .ok s.dag ∧ Restoring c register g.reading s) ∨
      ∃ f v, (c.toWiresWith register namer).1 = .error f ∧ Refused c v f := by
  have hg := layered_of_wired hc hin (fun _ gs => .refl gs) hlaid
  have hnarrow := narrow_of_layOut hc hin hlines hlaid
  have hlt : ∀ v ∈ g.reading, v < c.vertexCount := fun v => hg.mem_reading.mp
  rcases (restoring_start c register namer).run hg hds hnarrow hlt with
    ⟨s, hrun, hs⟩ | ⟨f, s, v, hrun, hf⟩
  · exact .inl ⟨s, toWiresWith_eq hlines hlaid hds hrun, hs⟩
  · exact .inr ⟨f, v, toWiresWith_eq hlines hlaid hds hrun, hf⟩

/-- Whether the text of every measurement describes where its outputs are written. -/
def Decoded (c : VertexCircuit) : Prop :=
  ∀ v x, c.vertex? v = some x → x.kind = .measure →
    ∃ dest, Destination.decode (x.description?.getD "") x.outputs = .ok dest

theorem decoded_of_destinations (hds : c.destinations = .ok ds) : c.Decoded := by
  intro v x hx hk
  obtain ⟨dest, -, hdest⟩ := (lookup_destinations hds hx).1 hk
  exact ⟨dest, mapError_eq_ok.mp hdest⟩

theorem exists_of_destinations_eq_error {f : ConversionFault} (hds : c.destinations = .error f) :
    ∃ v x fault, c.vertex? v = some x ∧ x.kind = .measure ∧
      Destination.decode (x.description?.getD "") x.outputs = .error fault ∧
      f = .invalidDestination v fault ∧ ∀ u < v, ∀ y, c.vertex? u = some y → y.kind = .measure →
        ∃ dest, Destination.decode (y.description?.getD "") y.outputs = .ok dest := by
  obtain ⟨pre, ⟨x, v⟩, post, hl, hf, hpre⟩ := exists_append_of_mapM_eq_error hds
  obtain ⟨hx, hk⟩ := mem_measurements.mp (hl ▸ List.mem_append_right pre List.mem_cons_self)
  obtain ⟨fault, hfault, he⟩ := mapError_eq_error.mp (map_eq_error.mp hf)
  refine ⟨v, x, fault, hx, hk, hfault, he.symm, fun u hu y hy hky => ?_⟩
  have hm : (y, u) ∈ pre ++ (x, v) :: post := hl ▸ mem_measurements.mpr ⟨hy, hky⟩
  rcases List.mem_append.mp hm with hm | hm
  · obtain ⟨b, hb⟩ := hpre _ hm
    obtain ⟨dest, hdest, -⟩ := map_eq_ok.mp hb
    exact ⟨dest, mapError_eq_ok.mp hdest⟩
  · -- The measurements stand in the order of their vertices.
    have hsorted := (List.pairwise_append.mp (hl ▸ measurements_pairwise c)).2.1
    have hle : v ≤ u := by
      rcases List.mem_cons.mp hm with he | hm
      · exact (congrArg Prod.snd he).ge
      · exact ((List.pairwise_cons.mp hsorted).1 _ hm).le
    exact absurd hu hle.not_gt

theorem Decoded.exists_destinations (h : c.Decoded) : ∃ ds, c.destinations = .ok ds := by
  cases hds : c.destinations with
  | ok ds => exact ⟨ds, rfl⟩
  | error f =>
    obtain ⟨v, x, fault, hx, hk, hf, -, -⟩ := exists_of_destinations_eq_error hds
    obtain ⟨dest, hd⟩ := h v x hx hk
    cases hf.symm.trans hd

structure Restorable (c : VertexCircuit) : Prop where
  laid : ∃ g, layOut c = .ok g
  decoded : c.Decoded
  /-- Every vertex within the lines stands for an operation. -/
  named : ∀ v x, c.vertex? v = some x → c.isInner v → Named x
  /-- Vertices that stand for operations of one name agree on the operand counts. -/
  agree : ∀ u v a b, c.signatureAt? u = some a → c.signatureAt? v = some b → a.name = b.name → a = b

theorem Restorable.not_refused (h : c.Restorable) {f : ConversionFault} : ¬ Refused c v f := by
  rintro (⟨hx, hi, hn⟩ | ⟨hu, hv, hname, hne⟩)
  · exact hn (h.named _ _ hx hi)
  · exact hne (h.agree _ _ _ _ hu hv hname)

theorem Restoring.restorable (h : Restoring c register g.reading s) (hlaid : layOut c = .ok g)
    (hg : Layered c g) (hds : c.destinations = .ok ds) : c.Restorable := by
  have hsignature : ∀ u a, c.signatureAt? u = some a → s.dag.signature? a.name = some a := by
    intro u a ha
    obtain ⟨x, hx, -⟩ := Option.bind_eq_some_iff.mp ha
    exact h.declared u (hg.mem_reading.mpr (lt_of_vertex? hx)) a ha
  constructor
  case laid => exact ⟨g, hlaid⟩
  case decoded => exact decoded_of_destinations hds
  case named =>
    intro v x hx hi
    have hsome := h.named v (hg.mem_reading.mpr (lt_of_vertex? hx)) hi
    rcases operationName_cases v x with ⟨-, hn⟩ | ⟨hn, -⟩
    · exact hn
    · simp [signatureAt?, hx, hn, Except.toOption] at hsome
  case agree =>
    intro u v a b ha hb hname
    have haName := hsignature u a ha
    rw [hname] at haName
    exact Option.some.inj (haName.symm.trans (hsignature v b hb))

theorem exists_toWiresWith_iff (hc : c.Wired) (hin : ∀ v, c.hasKind .input v → c.pins v = 0)
    (hlines : c.lineCount < 1 <<< 32) (register : String) (namer : Namer) :
    (∃ d, (c.toWiresWith register namer).1 = .ok d) ↔ c.Restorable := by
  constructor
  · rintro ⟨d, hd⟩
    obtain ⟨g, ds, hlaid, hds, -⟩ := toWires_ok hd
    have hg := layered_of_wired hc hin (fun _ gs => .refl gs) hlaid
    rcases toWiresWith_cases hc hin hlines hlaid hds register namer with
      ⟨s, -, hs⟩ | ⟨f, v, hf, -⟩
    · exact hs.restorable hlaid hg hds
    · cases hd.symm.trans hf
  · intro h
    obtain ⟨g, hlaid⟩ := h.laid
    obtain ⟨ds, hds⟩ := h.decoded.exists_destinations
    rcases toWiresWith_cases hc hin hlines hlaid hds register namer with
      ⟨s, hs, -⟩ | ⟨f, v, -, hf⟩
    · exact ⟨s.dag, hs⟩
    · exact absurd hf h.not_refused

/-- What becomes of a circuit that is to be restored. -/
structure Answers (c : VertexCircuit) (register : String) (namer : Namer) : Prop where
  lineCount_le : c.lineCount ≤ c.vertexCount
  isOk_iff : c.lineCount < 1 <<< 32 →
    ((∃ d, (c.toWiresWith register namer).1 = .ok d) ↔ c.Restorable)
  tooManyLines : ¬ c.lineCount < 1 <<< 32 →
    (c.toWiresWith register namer).1 = .error (.circuit (.notLayable .tooManyLines))
  not_laid : (¬ ∃ g, layOut c = .ok g) →
    ∃ fault, (c.toWiresWith register namer).1 = .error (.circuit (.notLayable fault))
  not_decoded : c.lineCount < 1 <<< 32 → (∃ g, layOut c = .ok g) → ¬ c.Decoded →
    ∃ v x fault, c.vertex? v = some x ∧ x.kind = .measure ∧
      Destination.decode (x.description?.getD "") x.outputs = .error fault ∧
      (c.toWiresWith register namer).1 = .error (.invalidDestination v fault)
  refused : c.lineCount < 1 <<< 32 → (∃ g, layOut c = .ok g) → c.Decoded →
    ∀ f, (c.toWiresWith register namer).1 = .error f → ∃ v, Refused c v f

/-- Whatever calls a circuit is built by, if no input has input pins and 32 bits can number the
lines, then it is restored exactly if it is restorable, and otherwise the layout, a measurement or a
vertex is to blame. -/
theorem answers_toWiresWith {calls : List Call}
    (hin : ∀ v, (of calls).hasKind .input v → (of calls).pins v = 0) (register : String)
    (namer : Namer) : Answers (of calls) register namer := by
  have hc := wired_of calls
  constructor
  case lineCount_le => exact lineCount_le_vertexCount _
  case isOk_iff => exact fun hlines => exists_toWiresWith_iff hc hin hlines register namer
  case tooManyLines => exact fun hlines => toWiresWith_of_not_lt hlines namer
  case not_laid =>
    intro hn
    by_cases hlines : (of calls).lineCount < 1 <<< 32
    · cases hlaid : layOut (of calls) with
      | ok g => exact absurd ⟨g, hlaid⟩ hn
      | error f =>
        obtain ⟨fault, rfl⟩ := exists_notLayable hc hin (fun _ gs => .refl gs) hlaid
        exact ⟨fault, toWiresWith_of_not_laid hlines hlaid namer⟩
    · exact ⟨_, toWiresWith_of_not_lt hlines namer⟩
  case not_decoded =>
    rintro hlines ⟨g, hlaid⟩ hn
    cases hds : (of calls).destinations with
    | ok ds => exact absurd (decoded_of_destinations hds) hn
    | error f =>
      obtain ⟨v, x, fault, hx, hk, hf, rfl, -⟩ := exists_of_destinations_eq_error hds
      exact ⟨v, x, fault, hx, hk, hf, toWiresWith_of_not_decoded hlines hlaid hds namer⟩
  case refused =>
    rintro hlines ⟨g, hlaid⟩ hd f hf
    obtain ⟨ds, hds⟩ := hd.exists_destinations
    rcases toWiresWith_cases hc hin hlines hlaid hds register namer with
      ⟨s, hs, -⟩ | ⟨f', v, hf', hv⟩
    · cases hf.symm.trans hs
    · obtain rfl := Except.error.inj (hf.symm.trans hf')
      exact ⟨v, hv⟩

/-- Two lines with a box on the first and then a box of the same name on both. -/
def disagreeing : VertexCircuit :=
  of [.addVertex .lineStart, .addVertex .lineStart,
    .addVertex (.onLines .box 1 (.description "twist")),
    .addVertex (.onLines .box 2 (.description "twist")), .addVertex .lineEnd, .addVertex .lineEnd,
    .addLink ⟨0, 0, 2, 0⟩, .addLink ⟨2, 0, 3, 0⟩, .addLink ⟨1, 0, 3, 1⟩, .addLink ⟨3, 0, 4, 0⟩,
    .addLink ⟨3, 1, 5, 0⟩]

theorem answers_disagreeing : Answers disagreeing "q" {} ∧ ¬ disagreeing.Restorable ∧
    (disagreeing.toWiresWith "q" {}).1 =
      .error (.circuit (.basisMismatch "twist" ⟨"twist", 1, 0, 0⟩ ⟨"twist", 2, 0, 0⟩)) := by
  have hpins : ∀ v ∈ disagreeing.inputs, disagreeing.pins v = 0 := by
    decide +kernel
  have hin : ∀ v, disagreeing.hasKind .input v → disagreeing.pins v = 0 := fun v hv =>
    hpins v (mem_inputs.mpr hv)
  have hf : (disagreeing.toWiresWith "q" {}).1 =
      .error (.circuit (.basisMismatch "twist" ⟨"twist", 1, 0, 0⟩ ⟨"twist", 2, 0, 0⟩)) := by
    decide +kernel
  have h := answers_toWiresWith hin "q" {}
  refine ⟨h, fun hr => ?_, hf⟩
  obtain ⟨d, hd⟩ := (h.isOk_iff (by decide +kernel)).mpr hr
  cases hf.symm.trans hd

end CircuitForms.VertexCircuit
