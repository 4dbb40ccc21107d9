import CircuitForms.Dag.Builder
import CircuitForms.Proofs.Dag.Admitted
import CircuitForms.Proofs.Dag.Refused

/-! # Steps that fail

A step of a builder declares the signature of its operation and then appends it. Where the
append fails, the signature stays declared, and nothing else does. So a later step notices
that one before it failed exactly if it is the first to name the same operation since and
gives it other operands.
-/

namespace CircuitForms

open Dag

namespace Builder

inductive Step where
  | qreg (r : Register)
  | creg (r : Register)
  | apply (op : Operation)
  | gate (name : String) (qargs : List Qubit) (params : List Angle)
  | conditional (name : String) (qargs : List Qubit) (register : String) (value : Nat)
  | h (q : Qubit)
  | x (q : Qubit)
  | y (q : Qubit)
  | z (q : Qubit)
  | s (q : Qubit)
  | t (q : Qubit)
  | rx (theta : Angle) (q : Qubit)
  | ry (theta : Angle) (q : Qubit)
  | rz (theta : Angle) (q : Qubit)
  | u3 (theta phi lambda : Angle) (q : Qubit)
  | cx (control target : Qubit)
  | cz (control target : Qubit)
  | ccx (first second target : Qubit)
  | measure (q : Qubit) (c : Clbit)

namespace Step

def toEdit : Step → Edit Unit
  | .qreg r => addQreg r
  | .creg r => addCreg r
  | .apply op => Builder.apply op
  | .gate name qargs params => Builder.gate name qargs params
  | .conditional name qargs register value => Builder.conditional name qargs register value
  | .h q => Builder.h q
  | .x q => Builder.x q
  | .y q => Builder.y q
  | .z q => Builder.z q
  | .s q => Builder.s q
  | .t q => Builder.t q
  | .rx theta q => Builder.rx theta q
  | .ry theta q => Builder.ry theta q
  | .rz theta q => Builder.rz theta q
  | .u3 theta phi lambda q => Builder.u3 theta phi lambda q
  | .cx control target => Builder.cx control target
  | .cz control target => Builder.cz control target
  | .ccx first second target => Builder.ccx first second target
  | .measure q c => Builder.measure q c

def operation? : Step → Option Operation
  | .qreg _ | .creg _ => none
  | .apply op => some op
  | .gate name qargs params => some ⟨name, qargs, [], params, none⟩
  | .conditional name qargs register value => some ⟨name, qargs, [], [], some ⟨register, value⟩⟩
  | .h q => some ⟨"h", [q], [], [], none⟩
  | .x q => some ⟨"x", [q], [], [], none⟩
  | .y q => some ⟨"y", [q], [], [], none⟩
  | .z q => some ⟨"z", [q], [], [], none⟩
  | .s q => some ⟨"s", [q], [], [], none⟩
  | .t q => some ⟨"t", [q], [], [], none⟩
  | .rx theta q => some ⟨"rx", [q], [], [theta], none⟩
  | .ry theta q => some ⟨"ry", [q], [], [theta], none⟩
  | .rz theta q => some ⟨"rz", [q], [], [theta], none⟩
  | .u3 theta phi lambda q => some ⟨"u3", [q], [], [theta, phi, lambda], none⟩
  | .cx control target => some ⟨"cx", [control, target], [], [], none⟩
  | .cz control target => some ⟨"cz", [control, target], [], [], none⟩
  | .ccx first second target => some ⟨"ccx", [first, second, target], [], [], none⟩
  | .measure q c => some (.measurement [q] [c])

/-- The signature that stays declared if a step fails: that of its operation, unless the name has
one before. -/
def leftover? (d : Dag) (k : Step) : Option Signature :=
  (k.operation?.map Operation.signature).filter fun s => (d.signature? s.name).isNone

variable {k : Step} {op : Operation}

theorem toEdit_of_operation? (h : k.operation? = some op) : k.toEdit = Builder.apply op := by
  cases k <;> cases h <;> rfl

theorem unnamed_or_exists (k : Step) (name : String) :
    (∀ op, k.operation? = some op → op.name ≠ name) ∨
      ∃ op, k.operation? = some op ∧ op.name = name := by
  by_cases hk : ∃ op, k.operation? = some op ∧ op.name = name
  · exact .inr hk
  · exact .inl fun op hop hn => hk ⟨op, hop, hn⟩

end Step

/-- The outcomes of some steps, each taken whether those before it failed or not, and the circuit
after them. -/
def run : List Step → Dag → List (Except CircuitFault Unit) × Dag
  | [], d => ([], d)
  | k :: later, d =>
    let (outcome, d₁) := edit k.toEdit d
    let (outcomes, d₂) := run later d₁
    (outcome :: outcomes, d₂)

/-- A builder of some size is one after steps that add its registers. -/
theorem exists_run_eq_ofSize (qubits clbits : Nat) :
    ∃ steps, edit (ofSize qubits clbits) {} = (.ok (), (run steps {}).2) := by
  have hq : edit (addQreg ⟨"q", qubits⟩) {} =
      (.ok (), (run [.qreg ⟨"q", qubits⟩] {}).2) := by
    rfl
  by_cases hc : 0 < clbits
  · refine ⟨[.qreg ⟨"q", qubits⟩, .creg ⟨"c", clbits⟩], ?_⟩
    rw [ofSize, edit_bind_ok hq, if_pos hc]
    simp only [run, Step.toEdit, addQreg, addCreg]
    rw [edit_addRegister, edit_addRegister]
    simp [Register.find?]
  · refine ⟨[.qreg ⟨"q", qubits⟩], ?_⟩
    rw [ofSize, edit_bind_ok hq, if_neg hc]
    rfl

def firstNamed? (name : String) (steps : List Step) : Option Operation :=
  (steps.filterMap Step.operation?).find? (·.name == name)

theorem firstNamed?_cons_of_eq {k : Step} {op : Operation} (hk : k.operation? = some op)
    (later : List Step) : firstNamed? op.name (k :: later) = some op := by
  rw [firstNamed?, List.filterMap_cons_some hk]
  exact List.find?_cons_of_pos (beq_self_eq_true op.name)

theorem firstNamed?_cons_of_ne {k : Step} {name : String}
    (hk : ∀ op, k.operation? = some op → op.name ≠ name) (later : List Step) :
    firstNamed? name (k :: later) = firstNamed? name later := by
  rw [firstNamed?, firstNamed?]
  cases hop : k.operation? with
  | none => rw [List.filterMap_cons_none hop]
  | some op =>
    rw [List.filterMap_cons_some hop, List.find?_cons_of_neg (by simpa using hk op hop)]

end Builder

open Builder

namespace Dag

variable {α β : Type} {d d' : Dag} {s : Signature} {op : Operation} {k : Step} {f : CircuitFault}
  {names : Set String}

def withSignature (d : Dag) (s : Signature) : Dag :=
  { d with basis := d.basis ++ [s] }

/-- Two circuits that are the same but for what they declare, and declare the same for some
names. -/
structure AgreeOn (names : Set String) (d d' : Dag) : Prop where
  wiring : d.SameWiring d'
  qregs : d'.qregs = d.qregs
  cregs : d'.cregs = d.cregs
  signature? : ∀ name ∈ names, d'.signature? name = d.signature? name

/-- An edit that looks up the signatures of some names alone. -/
def LooksUp (names : Set String) (e : Edit α) : Prop :=
  ∀ d d', AgreeOn names d d' →
    (edit e d').1 = (edit e d).1 ∧ AgreeOn names (edit e d).2 (edit e d').2

namespace LooksUp

theorem pure (a : α) : LooksUp names (Pure.pure a) :=
  fun _ _ h => ⟨rfl, h⟩

theorem bind {e : Edit α} {k : α → Edit β} (he : LooksUp names e)
    (hk : ∀ a, LooksUp names (k a)) : LooksUp names (e >>= k) := by
  intro d d' h
  obtain ⟨hout, hagree⟩ := he d d' h
  rcases hd : edit e d with ⟨f | a, d₁⟩ <;> rcases hd' : edit e d' with ⟨f' | a', d₁'⟩ <;>
    rw [hd, hd'] at hout hagree
  · obtain rfl := Except.error.inj hout
    have hfail : ∀ {d d₁ : Dag}, edit e d = (.error f', d₁) →
        edit (e >>= k) d = (.error f', d₁) := run_bind_error
    rw [hfail hd, hfail hd']
    exact ⟨rfl, hagree⟩
  · cases hout
  · cases hout
  · obtain rfl := Except.ok.inj hout
    rw [edit_bind_ok hd, edit_bind_ok hd']
    exact hk a' d₁ d₁' hagree

theorem discard {e : Edit α} (he : LooksUp names e) : LooksUp names (Functor.discard e) := by
  rw [discard_eq]
  exact he.bind fun _ => .pure ()

theorem forM {e : α → Edit Unit} (he : ∀ a, LooksUp names (e a)) (as : List α) :
    LooksUp names (as.forM e) := by
  induction as with
  | nil => exact .pure ()
  | cons a as ih => exact (he a).bind fun _ => ih

end LooksUp

section LooksUp

theorem AgreeOn.creg? (h : AgreeOn names d d') (name : String) : d'.creg? name = d.creg? name := by
  rw [Dag.creg?, Dag.creg?, h.cregs]

theorem AgreeOn.registers (h : AgreeOn names d d') (k : BitKind) :
    d'.registers k = d.registers k := by
  cases k with
  | quantum => exact h.qregs
  | classical => exact h.cregs

theorem AgreeOn.foldl_addWire (h : AgreeOn names d d') (new : List Wire) :
    AgreeOn names (new.foldl addWire d) (new.foldl addWire d') := by
  induction new generalizing d d' with
  | nil => exact h
  | cons w new ih =>
    refine ih ⟨⟨?_, ?_, ?_, ?_⟩, h.qregs, h.cregs, h.signature?⟩ <;>
      simp [addWire, h.wiring.graph, h.wiring.inputs, h.wiring.outputs, h.wiring.fronts]

theorem AgreeOn.withRegister (h : AgreeOn names d d') (k : BitKind) (r : Register) :
    AgreeOn names (d.withRegister k r) (d'.withRegister k r) := by
  have hw : ∀ k, (d.withRegister k r).SameWiring (d'.withRegister k r)
    | .quantum | .classical =>
      { h.wiring with }
  cases k with
  | quantum => exact ⟨hw .quantum, congrArg (· ++ [r]) h.qregs, h.cregs, h.signature?⟩
  | classical => exact ⟨hw .classical, h.qregs, congrArg (· ++ [r]) h.cregs, h.signature?⟩

theorem looksUp_addRegister (k : BitKind) (r : Register) : LooksUp names (addRegister k r) := by
  intro d d' h
  rw [edit_addRegister, edit_addRegister, h.registers]
  split
  · exact ⟨rfl, h⟩
  · exact ⟨rfl, (h.foldl_addWire (r.wires k)).withRegister k r⟩

theorem signature?_withSignature (d : Dag) (s : Signature) (name : String) :
    (d.withSignature s).signature? name =
      (d.signature? name).or (if s.name = name then some s else none) := by
  rw [signature?, withSignature, List.find?_append, List.find?_singleton]
  simp only [beq_iff_eq]
  rfl

theorem signature?_withSignature_self (hs : d.signature? op.name = none) :
    (d.withSignature op.signature).signature? op.name = some op.signature := by
  rw [signature?_withSignature, hs, Option.none_or]
  exact if_pos rfl

theorem looksUp_declare (hs : s.name ∈ names) : LooksUp names (declare s) := by
  intro d d' h
  rw [edit_declare, edit_declare, h.signature? _ hs]
  cases d.signature? s.name with
  | none =>
    refine ⟨rfl, { h.wiring with }, h.qregs,
      h.cregs, fun name hn => ?_⟩
    rw [← withSignature, ← withSignature, signature?_withSignature, signature?_withSignature,
      h.signature? _ hn]
  | some declared =>
    dsimp only
    split <;> exact ⟨rfl, h⟩

theorem looksUp_extend (v : Nat) (w : Wire) : LooksUp names (extend v w) := by
  rintro ⟨_, _, _, _, _, _, b⟩ ⟨g, qregs, cregs, inputs, outputs, fronts, b'⟩
    ⟨⟨rfl, rfl, rfl, rfl⟩, rfl, rfl, hs⟩
  have hsegment : ∀ x y, segment? ⟨g, qregs, cregs, inputs, outputs, fronts, b'⟩ w x y =
      segment? ⟨g, qregs, cregs, inputs, outputs, fronts, b⟩ w x y := fun _ _ => rfl
  rw [extend, edit_get_bind, edit_get_bind, recorded, recorded]
  simp only [hsegment]
  cases outputs.get? w with
  | none => exact ⟨rfl, ⟨rfl, rfl, rfl, rfl⟩, rfl, rfl, hs⟩
  | some target =>
    cases fronts.get? w with
    | none => exact ⟨rfl, ⟨rfl, rfl, rfl, rfl⟩, rfl, rfl, hs⟩
    | some source =>
      simp only [pure_bind]
      cases segment? ⟨g, qregs, cregs, inputs, outputs, fronts, b⟩ w source target with
      | none => exact ⟨rfl, ⟨rfl, rfl, rfl, rfl⟩, rfl, rfl, hs⟩
      | some a => exact ⟨rfl, ⟨rfl, rfl, rfl, rfl⟩, rfl, rfl, hs⟩

theorem AgreeOn.fault? (h : AgreeOn names d d') (hop : op.name ∈ names) :
    d'.fault? op = d.fault? op := by
  have hq : d'.hasQubit = d.hasQubit := by
    funext q
    rw [hasQubit, hasQubit, qreg?, qreg?, h.qregs]
  have hc : d'.hasClbit = d.hasClbit := by
    funext b
    rw [hasClbit, hasClbit, h.creg?]
  rw [Dag.fault?, Dag.fault?, signatureFault?, signatureFault?, h.signature? _ hop, hq, hc,
    conditionFault?, conditionFault?]
  simp only [h.creg?]

theorem looksUp_append (hop : op.name ∈ names) : LooksUp names (append op) := by
  intro d d' h
  rw [append, edit_get_bind, edit_get_bind, h.fault? hop]
  cases d.fault? op with
  | some f => exact ⟨rfl, h⟩
  | none =>
    have hrest : LooksUp names (op.wires.forM (extend d.graph.size) >>= fun _ =>
        pure d.graph.size) :=
      (LooksUp.forM (looksUp_extend d.graph.size) op.wires).bind fun _ => .pure _
    have hnode : AgreeOn names { d with graph := d.graph.addNode (.op op) }
        { d' with graph := d'.graph.addNode (.op op) } :=
      ⟨⟨by rw [h.wiring.graph], h.wiring.inputs, h.wiring.outputs, h.wiring.fronts⟩, h.qregs,
        h.cregs, h.signature?⟩
    have hrun := hrest _ _ hnode
    rw [h.wiring.graph] at hrun ⊢
    exact hrun

theorem looksUp_apply (hop : op.name ∈ names) : LooksUp names (Builder.apply op) :=
  ((looksUp_declare hop).bind fun _ => looksUp_append hop).discard

theorem looksUp_step (hk : ∀ op, k.operation? = some op → op.name ∈ names) :
    LooksUp names k.toEdit := by
  cases hop : k.operation? with
  | some op =>
    rw [Step.toEdit_of_operation? hop]
    exact looksUp_apply (hk op hop)
  | none =>
    cases k with
    | qreg r => exact looksUp_addRegister .quantum r
    | creg r => exact looksUp_addRegister .classical r
    | _ => cases hop

theorem AgreeOn.run (h : AgreeOn names d d') {later : List Step}
    (hk : ∀ op ∈ later.filterMap Step.operation?, op.name ∈ names) :
    (run later d').1 = (run later d).1 ∧ AgreeOn names (run later d).2 (run later d').2 := by
  induction later generalizing d d' with
  | nil => exact ⟨rfl, h⟩
  | cons k later ih =>
    have hfirst : ∀ op, k.operation? = some op → op.name ∈ names := fun op hop =>
      hk op (List.mem_filterMap.mpr ⟨k, List.mem_cons_self, hop⟩)
    obtain ⟨hout, hagree⟩ := looksUp_step hfirst d d' h
    obtain ⟨houts, hagree⟩ := ih hagree fun op hop => hk op (by
      obtain ⟨k', hk', hop⟩ := List.mem_filterMap.mp hop
      exact List.mem_filterMap.mpr ⟨k', List.mem_cons_of_mem k hk', hop⟩)
    exact ⟨congrArg₂ List.cons hout houts, hagree⟩

end LooksUp

theorem edit_apply_of_declared (hs : d.signature? op.name = some op.signature) :
    edit (Builder.apply op) d = edit (Call.append op).toEdit d := by
  have hd : edit (declare op.signature) d = (.ok (), d) := by
    rw [edit_declare, show d.signature? op.signature.name = _ from hs]
    exact if_pos rfl
  rw [Builder.apply, Call.toEdit, edit_discard_eq, edit_discard_eq, declareAppend, edit_bind_ok hd]

theorem edit_apply_of_ne (hs : d.signature? op.name = some s) (hne : s ≠ op.signature) :
    edit (Builder.apply op) d = (.error (.basisMismatch op.name s op.signature), d) := by
  have hd : edit (declare op.signature) d =
      (.error (.basisMismatch op.name s op.signature), d) := by
    rw [edit_declare, show d.signature? op.signature.name = _ from hs]
    exact if_neg hne
  rw [Builder.apply, edit_discard_eq, declareAppend,
    show edit (_ >>= _) d = _ from run_bind_error hd]
  rfl

theorem edit_apply_of_new (hs : d.signature? op.name = none) :
    edit (Builder.apply op) d = edit (Builder.apply op) (d.withSignature op.signature) := by
  have hd : edit (declare op.signature) d = (.ok (), d.withSignature op.signature) := by
    rw [edit_declare, show d.signature? op.signature.name = _ from hs, withSignature]
  rw [edit_apply_of_declared (signature?_withSignature_self hs), Builder.apply, Call.toEdit,
    edit_discard_eq, edit_discard_eq, declareAppend, edit_bind_ok hd]

theorem signature?_addRegister (k : BitKind) (r : Register) (d : Dag) (name : String) :
    (edit (addRegister k r) d).2.signature? name = d.signature? name := by
  rw [edit_addRegister]
  split
  · rfl
  · cases k <;> simp [Dag.signature?]

theorem Sound.withSignature (h : d.Sound) (s : Signature) : (d.withSignature s).Sound :=
  h.withBasis _

theorem Sound.apply_of_declared (h : d.Sound) (hs : d.signature? op.name = some op.signature) :
    (edit (Builder.apply op) d).2.Sound ∧ (edit (Builder.apply op) d).2.basis = d.basis := by
  rw [edit_apply_of_declared hs]
  rcases h.append op with ⟨f, hf, -⟩ | ⟨-, d', he, hd, -, -, -, hb⟩
  · rw [edit_toEdit_of_fault (k := .append op) hf]
    exact ⟨h, rfl⟩
  · rw [Call.toEdit, edit_discard_eq, he]
    exact ⟨hd, hb⟩

/-- A step keeps a circuit sound, and changes no signature but that of its operation. -/
theorem Sound.step (h : d.Sound) (k : Step) : (edit k.toEdit d).2.Sound ∧
    ∀ name, (∀ op, k.operation? = some op → op.name ≠ name) →
      (edit k.toEdit d).2.signature? name = d.signature? name := by
  cases hop : k.operation? with
  | some op =>
    rw [Step.toEdit_of_operation? hop]
    cases hs : d.signature? op.name with
    | none =>
      obtain ⟨hsound, hbasis⟩ :=
        (h.withSignature op.signature).apply_of_declared (signature?_withSignature_self hs)
      rw [edit_apply_of_new hs]
      refine ⟨hsound, fun name hn => ?_⟩
      rw [Dag.signature?, hbasis, ← Dag.signature?, signature?_withSignature,
        if_neg (show op.signature.name ≠ name from hn op rfl), Option.or_none]
    | some s =>
      by_cases he : s = op.signature
      · obtain ⟨hsound, hbasis⟩ := h.apply_of_declared (he ▸ hs)
        exact ⟨hsound, fun name _ => by rw [Dag.signature?, hbasis, ← Dag.signature?]⟩
      · rw [edit_apply_of_ne hs he]
        exact ⟨h, fun name _ => rfl⟩
  | none =>
    cases k with
    | qreg r =>
      exact ⟨(h.addRegister .quantum r).1, fun name _ => signature?_addRegister .quantum r d name⟩
    | creg r =>
      exact ⟨(h.addRegister .classical r).1,
        fun name _ => signature?_addRegister .classical r d name⟩
    | _ => cases hop

theorem Sound.run (h : d.Sound) (steps : List Step) : (run steps d).2.Sound := by
  induction steps generalizing d with
  | nil => exact h
  | cons k steps ih => exact ih (h.step k).1

/-- A step that fails leaves nothing but the signature of its operation. -/
theorem Sound.eq_of_step_eq_error (h : d.Sound) (he : edit k.toEdit d = (.error f, d')) :
    d' = ((k.leftover? d).map d.withSignature).getD d := by
  rw [Step.leftover?]
  cases hop : k.operation? with
  | some op =>
    rw [Step.toEdit_of_operation? hop] at he
    rw [Option.map_some, Option.filter_some]
    cases hs : d.signature? op.name with
    | none =>
      rw [edit_apply_of_new hs, edit_apply_of_declared (signature?_withSignature_self hs),
        (h.withSignature op.signature).edit_toEdit_eq_error_iff] at he
      rw [show d.signature? op.signature.name = none from hs]
      exact he.2
    | some s =>
      rw [show d.signature? op.signature.name = some s from hs]
      by_cases hsig : s = op.signature
      · rw [edit_apply_of_declared (hsig ▸ hs), h.edit_toEdit_eq_error_iff] at he
        exact he.2
      · rw [edit_apply_of_ne hs hsig] at he
        exact (Prod.mk.inj he).2.symm
  | none =>
    cases k with
    | qreg r => exact (h.edit_toEdit_eq_error_iff (k := .addQreg r).mp he).2
    | creg r => exact (h.edit_toEdit_eq_error_iff (k := .addCreg r).mp he).2
    | _ => cases hop

theorem fault?_ne_basisMismatch (hs : d.signature? op.name = some op.signature) (name : String)
    (declared used : Signature) : d.fault? op ≠ some (.basisMismatch name declared used) := by
  intro hf
  cases refuses_of_fault? hf with
  | mismatch s hs' hne => exact hne (Option.some.inj (hs'.symm.trans hs))

/-- Two sound circuits of which only the second declares a signature, and that are the same
otherwise. -/
structure LeftOver (s : Signature) (d d' : Dag) : Prop where
  sound : d.Sound
  sound' : d'.Sound
  agree : AgreeOn {name | name ≠ s.name} d d'
  undeclared : d.signature? s.name = none
  declared : d'.signature? s.name = some s

namespace LeftOver

theorem withSignature (h : d.Sound) (hs : d.signature? s.name = none) :
    LeftOver s d (d.withSignature s) where
  sound := h
  sound' := h.withSignature s
  agree := ⟨⟨rfl, rfl, rfl, rfl⟩, rfl, rfl, fun name hn => by
    rw [signature?_withSignature, if_neg (Ne.symm hn), Option.or_none]⟩
  undeclared := hs
  declared := by rw [signature?_withSignature, hs, if_pos rfl, Option.none_or]

variable (h : LeftOver s d d')

include h

/-- A step that does not name the operation does not notice the signature. -/
theorem step (hk : ∀ op, k.operation? = some op → op.name ≠ s.name) :
    (edit k.toEdit d').1 = (edit k.toEdit d).1 ∧
      LeftOver s (edit k.toEdit d).2 (edit k.toEdit d').2 := by
  obtain ⟨hout, hagree⟩ := looksUp_step hk d d' h.agree
  obtain ⟨hsound, hkeep⟩ := h.sound.step k
  obtain ⟨hsound', hkeep'⟩ := h.sound'.step k
  exact ⟨hout, hsound, hsound', hagree, (hkeep _ hk).trans h.undeclared,
    (hkeep' _ hk).trans h.declared⟩

theorem step_of_eq (hk : k.operation? = some op) (he : op.signature = s) :
    (edit k.toEdit d').1 = (edit k.toEdit d).1 ∧
      AgreeOn Set.univ (edit k.toEdit d).2 (edit k.toEdit d').2 := by
  subst he
  have hs : d.signature? op.name = none := h.undeclared
  rw [Step.toEdit_of_operation? hk, edit_apply_of_new hs]
  refine looksUp_apply (Set.mem_univ _) _ _ ⟨{ h.agree.wiring with }, h.agree.qregs, h.agree.cregs,
    fun name _ => ?_⟩
  rw [signature?_withSignature]
  split_ifs with hn
  · subst hn
    rw [h.undeclared, h.declared, Option.none_or]
  · rw [Option.or_none]
    exact h.agree.signature? name (Ne.symm hn)

theorem step_of_ne (hk : k.operation? = some op) (hn : op.name = s.name) (hne : op.signature ≠ s) :
    edit k.toEdit d' = (.error (.basisMismatch s.name s op.signature), d') := by
  rw [Step.toEdit_of_operation? hk, ← hn]
  exact edit_apply_of_ne (hn ▸ h.declared) hne.symm

theorem step_ne (hk : k.operation? = some op) (hn : op.name = s.name) (used : Signature) :
    (edit k.toEdit d).1 ≠ .error (.basisMismatch s.name s used) := by
  intro he
  have hs : d.signature? op.name = none := hn ▸ h.undeclared
  have hdeclared := signature?_withSignature_self hs
  rw [Step.toEdit_of_operation? hk, edit_apply_of_new hs, edit_apply_of_declared hdeclared] at he
  have hf := ((h.sound.withSignature op.signature).edit_toEdit_eq_error_iff.mp
    (Prod.ext he rfl)).1
  exact fault?_ne_basisMismatch hdeclared _ _ _ hf

/-- Later steps notice the signature exactly if the first of them to name the operation gives it
other operands. -/
theorem run_iff (later : List Step) : (Builder.run later d').1 = (Builder.run later d).1 ↔
    ∀ op, firstNamed? s.name later = some op → op.signature = s := by
  induction later generalizing d d' with
  | nil => exact iff_of_true rfl fun op hop => nomatch hop
  | cons k later ih =>
    have hcons : (Builder.run (k :: later) d').1 = (Builder.run (k :: later) d).1 ↔
        (edit k.toEdit d').1 = (edit k.toEdit d).1 ∧
          (Builder.run later (edit k.toEdit d').2).1 = (Builder.run later (edit k.toEdit d).2).1 :=
      List.cons_eq_cons
    rcases k.unnamed_or_exists s.name with hk | ⟨op, hop, hn⟩
    · obtain ⟨hout, hleft⟩ := h.step hk
      rw [hcons, and_iff_right hout, ih hleft, firstNamed?_cons_of_ne hk]
    · rw [hcons, ← hn, firstNamed?_cons_of_eq hop]
      by_cases hs : op.signature = s
      · obtain ⟨hout, hagree⟩ := h.step_of_eq hop hs
        exact iff_of_true ⟨hout, (hagree.run fun _ _ => Set.mem_univ _).1⟩
          fun op' hop' => Option.some.inj hop' ▸ hs
      · refine iff_of_false (fun he => ?_) fun hall => hs (hall op rfl)
        rw [h.step_of_ne hop hn hs] at he
        exact h.step_ne hop hn op.signature he.1.symm

theorem run_of_unnamed {later : List Step} (hnone : firstNamed? s.name later = none) :
    LeftOver s (Builder.run later d).2 (Builder.run later d').2 := by
  induction later generalizing d d' with
  | nil => exact h
  | cons k later ih =>
    have hk : ∀ op, k.operation? = some op → op.name ≠ s.name := by
      intro op hop hn
      rw [← hn, firstNamed?_cons_of_eq hop] at hnone
      cases hnone
    rw [firstNamed?_cons_of_ne hk] at hnone
    exact ih (h.step hk).2 hnone

theorem run_of_named {later : List Step} (hsome : firstNamed? s.name later = some op)
    (hs : op.signature = s) :
    AgreeOn Set.univ (Builder.run later d).2 (Builder.run later d').2 := by
  induction later generalizing d d' with
  | nil => cases hsome
  | cons k later ih =>
    rcases k.unnamed_or_exists s.name with hk | ⟨op', hop, hn⟩
    · rw [firstNamed?_cons_of_ne hk] at hsome
      exact ih (h.step hk).2 hsome
    · rw [← hn, firstNamed?_cons_of_eq hop] at hsome
      obtain rfl := Option.some.inj hsome
      exact ((h.step_of_eq hop hs).2.run fun _ _ => Set.mem_univ _).2

end LeftOver

/-- What a step that fails, and so makes one circuit of another, means for the steps after it. -/
structure FailedStep (k : Step) (d d' : Dag) : Prop where
  /-- Nothing changes but that the signature of its operation is declared. -/
  left : d' = ((k.leftover? d).map d.withSignature).getD d
  /-- Later steps have the outcomes they have without it, unless the first of them to name its
  operation gives it other operands. -/
  outcomes_iff : ∀ later, (run later d').1 = (run later d).1 ↔
    ∀ s, k.leftover? d = some s → ∀ op, firstNamed? s.name later = some op → op.signature = s
  /-- If they have, they build the same circuit, except for the signature if none of them names the
  operation. -/
  built : ∀ later, (run later d').1 = (run later d).1 →
    AgreeOn {name | ∀ s, k.leftover? d = some s → s.name = name →
      (firstNamed? name later).isSome} (run later d).2 (run later d').2
  /-- A step that gives it other operands is refused for the signature, and is not without it. -/
  refused : ∀ s, k.leftover? d = some s → ∀ later, firstNamed? s.name later = none →
    ∀ (k' : Step) op, k'.operation? = some op → op.name = s.name → op.signature ≠ s →
      (edit k'.toEdit (run later d').2).1 = .error (.basisMismatch s.name s op.signature) ∧
        (edit k'.toEdit (run later d).2).1 ≠ .error (.basisMismatch s.name s op.signature)

theorem Step.signature?_of_leftover? (hs : k.leftover? d = some s) :
    d.signature? s.name = none := by
  simpa using (Option.filter_eq_some_iff.mp hs).2

/-- Whatever steps a circuit is built by, of a step that fails nothing stays but the signature of
its operation. -/
theorem failedStep_of (steps : List Step) {k : Step} {f : CircuitFault} {d' : Dag}
    (h : edit k.toEdit (run steps {}).2 = (.error f, d')) : FailedStep k (run steps {}).2 d' := by
  have hd : (run steps {}).2.Sound := Sound.empty.run steps
  have hleft := hd.eq_of_step_eq_error h
  -- All that a failed step can leave behind is the signature it declared first.
  cases hs : k.leftover? (run steps {}).2 with
  | none =>
    obtain rfl : d' = (run steps {}).2 := by rwa [hs] at hleft
    constructor
    case left => exact hleft
    case outcomes_iff => exact fun later => iff_of_true rfl fun s h => nomatch hs.symm.trans h
    case built => exact fun later _ => ⟨⟨rfl, rfl, rfl, rfl⟩, rfl, rfl, fun _ _ => rfl⟩
    case refused => exact fun s h => nomatch hs.symm.trans h
  | some s =>
    have hover : LeftOver s (run steps {}).2 d' := by
      rw [hleft, hs]
      exact .withSignature hd (Step.signature?_of_leftover? hs)
    constructor
    case left => exact hleft
    case outcomes_iff =>
      intro later
      rw [hover.run_iff later, hs]
      simp
    case built =>
      intro later hout
      cases hf : firstNamed? s.name later with
      | none =>
        have hagree := (hover.run_of_unnamed hf).agree
        refine ⟨hagree.wiring, hagree.qregs, hagree.cregs, fun name hname => ?_⟩
        refine hagree.signature? name fun hn => ?_
        have hnamed := hname s hs hn.symm
        rw [hn, hf] at hnamed
        cases hnamed
      | some op =>
        have hagree := hover.run_of_named hf ((hover.run_iff later).mp hout op hf)
        exact ⟨hagree.wiring, hagree.qregs, hagree.cregs,
          fun name _ => hagree.signature? name (Set.mem_univ name)⟩
    case refused =>
      intro s' hs' later hnone k' op hop hn hne
      obtain rfl : s = s' := Option.some.inj (hs.symm.trans hs')
      have hlater := hover.run_of_unnamed hnone
      exact ⟨congrArg Prod.fst (hlater.step_of_ne hop hn hne), hlater.step_ne hop hn op.signature⟩

def beyond : Step := .gate "foo" [⟨"q", 0⟩, ⟨"q", 5⟩] []

theorem failedStep_beyond : ∃ d',
    edit beyond.toEdit (run [.qreg ⟨"q", 1⟩] {}).2 = (.error (.qubitNotFound ⟨"q", 5⟩ "foo"), d') ∧
      FailedStep beyond (run [.qreg ⟨"q", 1⟩] {}).2 d' ∧
      (run [.gate "foo" [⟨"q", 0⟩] []] d').1 =
        [.error (.basisMismatch "foo" ⟨"foo", 2, 0, 0⟩ ⟨"foo", 1, 0, 0⟩)] ∧
      (run [.gate "foo" [⟨"q", 0⟩] []] (run [.qreg ⟨"q", 1⟩] {}).2).1 = [.ok ()] := by
  have h : edit beyond.toEdit (run [.qreg ⟨"q", 1⟩] {}).2 = (.error (.qubitNotFound ⟨"q", 5⟩ "foo"),
      (edit beyond.toEdit (run [.qreg ⟨"q", 1⟩] {}).2).2) := by
    decide +kernel
  exact ⟨_, h, failedStep_of [.qreg ⟨"q", 1⟩] h, by decide +kernel, by decide +kernel⟩

end Dag

end CircuitForms
