import CircuitForms.Document.Operation
import CircuitForms.Proofs.Document.Bit

/-! # Angles and operations read back -/

namespace CircuitForms

open Json Reader

variable {rule : Number.Literal → Float}

namespace Angle

def map (f : Float → Float) : Angle → Angle
  | .constant x => .constant (f x)
  | .symbol name => .symbol name
  | .pi => .pi
  | .neg a => .neg (a.map f)
  | .add a b => .add (a.map f) (b.map f)
  | .sub a b => .sub (a.map f) (b.map f)
  | .mul a b => .mul (a.map f) (b.map f)
  | .div a b => .div (a.map f) (b.map f)

theorem map_eq_self_iff {f : Float → Float} {a : Angle} :
    a.map f = a ↔ ∀ x ∈ a.toJson.reals, f x = x := by
  induction a with
  | constant x => simp [map, toJson]
  | symbol name => simp [map, toJson]
  | pi => simp [map, toJson]
  | neg a ih => simp [map, toJson, ih]
  | add a b iha ihb => simp [map, toJson, iha, ihb]
  | sub a b iha ihb => simp [map, toJson, iha, ihb]
  | mul a b iha ihb => simp [map, toJson, iha, ihb]
  | div a b iha ihb => simp [map, toJson, iha, ihb]

theorem read_constant (room : Nat) (j : Json) :
    read (room + 1) (.object [("Constant", j)]) = (real room j).map .constant := rfl

theorem read_symbol (room : Nat) (j : Json) :
    read (room + 1) (.object [("Symbol", j)]) = (string room j).map .symbol := rfl

theorem read_neg (room : Nat) (j : Json) :
    read (room + 1) (.object [("Neg", j)]) = (read room j).map .neg := rfl

/-- An angle of two parts takes room for an object and an array. -/
theorem read_binary {tag : String} {build : Angle → Angle → Angle} (h : binary? tag = some build)
    (room : Nat) (i j : Json) :
    read 1 (.object [(tag, .array [i, j])]) = none ∧
    read (room + 2) (.object [(tag, .array [i, j])]) =
      (read room i).bind fun a => (read room j).bind fun b => some (build a b) := by
  unfold binary? at h
  split_ifs at h with hadd hsub hmul hdiv
  · subst hadd
    cases h
    exact ⟨rfl, rfl⟩
  · subst hsub
    cases h
    exact ⟨rfl, rfl⟩
  · subst hmul
    cases h
    exact ⟨rfl, rfl⟩
  · subst hdiv
    cases h
    exact ⟨rfl, rfl⟩

theorem readBack_binary {tag : String} {build : Angle → Angle → Angle}
    (htag : binary? tag = some build) {a b : Angle}
    (ha : ReadBack rule toJson read (fun _ => True) (map (again rule)) a)
    (hb : ReadBack rule toJson read (fun _ => True) (map (again rule)) b) (room : Nat) (c : Angle) :
    read room (reread rule (.object [(tag, .array [a.toJson, b.toJson])])) = some c ↔
      (Readable (Legible rule) room (.object [(tag, .array [a.toJson, b.toJson])]) ∧ True) ∧
        build (a.map (again rule)) (b.map (again rule)) = c := by
  simp only [reread_object, reread_array, List.map_cons, List.map_nil]
  match room with
  | 0 => simp [read]
  | 1 => simp [(read_binary htag 0 _ _).1]
  | room + 2 =>
    simp only [(read_binary htag room _ _).2, Option.bind_eq_some_iff, ha room _, hb room _]
    simp [and_assoc]

/-- An angle is read back apart from its numbers. -/
theorem readsBack : ReadsBack rule toJson read (fun _ => True) (map (again rule)) := by
  intro a
  induction a with
  | constant x =>
    intro room b
    cases room with
    | zero => simp [toJson, reread_object, read]
    | succ room => simp [toJson, reread_object, read_constant, map]
  | symbol name =>
    intro room b
    cases room with
    | zero => simp [toJson, reread_object, read]
    | succ room => simp [toJson, reread_object, read_symbol, map]
  | pi =>
    intro room b
    cases room <;> simp [toJson, reread, read, map]
  | neg a ih =>
    intro room b
    cases room with
    | zero => simp [toJson, reread_object, read]
    | succ room => simp [toJson, reread_object, read_neg, map, ih room]
  | add a b iha ihb => exact readBack_binary rfl iha ihb
  | sub a b iha ihb => exact readBack_binary rfl iha ihb
  | mul a b iha ihb => exact readBack_binary rfl iha ihb
  | div a b iha ihb => exact readBack_binary rfl iha ihb

end Angle

theorem Condition.readsBack :
    ReadsBack rule Condition.toJson Condition.read (fun c => c.value < 1 <<< 64) id := by
  intro c room b
  cases room with
  | zero => simp [toJson, read]
  | succ room =>
    rw [toJson, read, record_reread (by simp) (by simp)]
    simp [List.lookup, Option.bind_eq_some_iff]

namespace Operation

def map (f : Float → Float) (op : Operation) : Operation :=
  { op with params := op.params.map (Angle.map f) }

structure Fits (op : Operation) : Prop where
  qubits : ∀ q ∈ op.qargs, q.index < 1 <<< 32
  clbits : ∀ c ∈ op.cargs, c.index < 1 <<< 32
  condition : ∀ k ∈ op.condition, k.value < 1 <<< 64

theorem fits_iff {op : Operation} : op.Fits ↔ (∀ q ∈ op.qargs, q.index < 1 <<< 32) ∧
    (∀ c ∈ op.cargs, c.index < 1 <<< 32) ∧ ∀ k ∈ op.condition, k.value < 1 <<< 64 :=
  ⟨fun h => ⟨h.qubits, h.clbits, h.condition⟩, fun h => ⟨h.1, h.2.1, h.2.2⟩⟩

instance (op : Operation) : Decidable op.Fits :=
  decidable_of_iff' _ fits_iff

theorem lookup_unlessEmpty (name key : String) (items : List Json) :
    (unlessEmpty name items).lookup key =
      if key = name ∧ items ≠ [] then some (.array items) else none := by
  cases items with
  | nil => simp [unlessEmpty]
  | cons item items =>
    by_cases hkey : key = name
    · simp [unlessEmpty, hkey]
    · have hne : (key == name) = false := beq_eq_false_iff_ne.mpr hkey
      simp [unlessEmpty, List.lookup_cons, hkey, hne]

theorem lookup_condition (key : String) (k : Option Condition) :
    (k.map fun c => ("condition", c.toJson)).toList.lookup key =
      if key = "condition" then k.map Condition.toJson else none := by
  cases k with
  | none => simp
  | some c =>
    by_cases hkey : key = "condition"
    · simp [hkey]
    · have hne : (key == "condition") = false := beq_eq_false_iff_ne.mpr hkey
      simp [List.lookup_cons, hkey, hne]

theorem forall_unlessEmpty (P : Json → Prop) {name : String} {items : List Json} :
    (∀ m ∈ unlessEmpty name items, P m.2) ↔ (items ≠ [] → P (.array items)) := by
  cases items <;> simp [unlessEmpty]

theorem optional_list_reread {α : Type} {toJson : α → Json} {read : Reader α} {fits : α → Prop}
    {image : α → α} (h : ReadsBack rule toJson read fits image) {room : Nat} (as bs : List α) :
    optional (list read) [] room
      (Option.map (reread rule) (if as = [] then none else some (.array (as.map toJson)))) =
        some bs ↔
    ((as ≠ [] → Readable (Legible rule) room (.array (as.map toJson))) ∧ ∀ a ∈ as, fits a) ∧
      as.map image = bs := by
  cases as with
  | nil => simp
  | cons a as => simpa using h.list (a :: as) room bs

theorem optional_condition_reread {room : Nat} (k k' : Option Condition) :
    optional (nullable Condition.read) none room (k.map (reread rule ∘ Condition.toJson)) =
      some k' ↔
    ((∀ c ∈ k, Readable (Legible rule) room c.toJson) ∧ ∀ c ∈ k, c.value < 1 <<< 64) ∧ k = k' := by
  cases k with
  | none => simp
  | some c =>
    have hobject : nullable Condition.read room (reread rule c.toJson) =
        (Condition.read room (reread rule c.toJson)).map some := by
      rw [Condition.toJson, reread_object]
      rfl
    simp [hobject, Condition.readsBack c room _]

theorem readable_toJson {op : Operation} {room : Nat} :
    Readable (Legible rule) (room + 1) op.toJson ↔
    Readable (Legible rule) room (.array (op.qargs.map Qubit.toJson)) ∧
    (op.cargs ≠ [] → Readable (Legible rule) room (.array (op.cargs.map Clbit.toJson))) ∧
    (op.params ≠ [] → Readable (Legible rule) room (.array (op.params.map Angle.toJson))) ∧
    ∀ k ∈ op.condition, Readable (Legible rule) room k.toJson := by
  rw [toJson, readable_object_iff]
  simp only [List.forall_mem_append, forall_unlessEmpty (Readable (Legible rule) room)]
  simp [and_assoc]

theorem forall_reals {P : Float → Prop} {op : Operation} :
    (∀ x ∈ op.toJson.reals, P x) ↔ ∀ a ∈ op.params, ∀ x ∈ a.toJson.reals, P x := by
  rw [toJson, forall_reals_object]
  simp only [List.forall_mem_append, forall_unlessEmpty fun j => ∀ x ∈ j.reals, P x]
  cases op.params <;> simp [labelled, Qubit.toJson, Clbit.toJson, Condition.toJson]

theorem map_eq_self_iff {f : Float → Float} {op : Operation} :
    op.map f = op ↔ ∀ x ∈ op.toJson.reals, f x = x := by
  have hparams : op.map f = op ↔ op.params.map (Angle.map f) = op.params := by
    obtain ⟨name, qargs, cargs, params, condition⟩ := op
    simp [map]
  rw [hparams, Reader.map_eq_self_iff, forall_reals]
  simp only [Angle.map_eq_self_iff]

theorem names_sublist (op : Operation) :
    (([("name", Json.string op.name), ("qargs", .array (op.qargs.map Qubit.toJson))] ++
      unlessEmpty "cargs" (op.cargs.map Clbit.toJson) ++
      unlessEmpty "params" (op.params.map Angle.toJson) ++
      (op.condition.map fun c => ("condition", c.toJson)).toList).map Prod.fst).Sublist
        ["name", "qargs", "cargs", "params", "condition"] := by
  cases op.cargs <;> cases op.params <;> cases op.condition <;> simp [unlessEmpty]

theorem read_reread (op : Operation) (room : Nat) : read (room + 1) (reread rule op.toJson) = do
    return ⟨op.name, ← list Qubit.read room (reread rule (.array (op.qargs.map Qubit.toJson))),
      ← optional (list Clbit.read) [] room (Option.map (reread rule)
        (if op.cargs = [] then none else some (.array (op.cargs.map Clbit.toJson)))),
      ← optional (list Angle.read) [] room (Option.map (reread rule)
        (if op.params = [] then none else some (.array (op.params.map Angle.toJson)))),
      ← optional (nullable Condition.read) none room
        (op.condition.map (reread rule ∘ Condition.toJson))⟩ := by
  rw [toJson, read, record_reread]
  · simp [List.lookup, List.lookup_append, lookup_unlessEmpty, lookup_condition]
  · exact (names_sublist op).nodup (by decide)
  · exact fun m hm => (names_sublist op).subset (List.mem_map_of_mem hm)

/-- An operation is read back apart from the numbers of its angles. -/
theorem readsBack : ReadsBack rule toJson read Fits (map (again rule)) := by
  intro op room b
  cases room with
  | zero => simp [toJson, read]
  | succ room =>
    rw [read_reread, readable_toJson]
    simp only [Option.bind_eq_bind, Option.bind_eq_some_iff, Option.pure_def, Option.some.injEq,
      Qubit.readsBack.list op.qargs room _, optional_list_reread Clbit.readsBack,
      optional_list_reread Angle.readsBack, optional_condition_reread, List.map_id]
    constructor
    · rintro ⟨_, ⟨⟨hq, hqf⟩, rfl⟩, _, ⟨⟨hc, hcf⟩, rfl⟩, _, ⟨⟨hp, -⟩, rfl⟩, _, ⟨⟨hk, hkf⟩, rfl⟩, rfl⟩
      exact ⟨⟨⟨hq, hc, hp, hk⟩, ⟨hqf, hcf, hkf⟩⟩, rfl⟩
    · rintro ⟨⟨⟨hq, hc, hp, hk⟩, ⟨hqf, hcf, hkf⟩⟩, rfl⟩
      exact ⟨_, ⟨⟨hq, hqf⟩, rfl⟩, _, ⟨⟨hc, hcf⟩, rfl⟩, _, ⟨⟨hp, fun _ _ => trivial⟩, rfl⟩, _,
        ⟨⟨hk, hkf⟩, rfl⟩, rfl⟩

end Operation

end CircuitForms
