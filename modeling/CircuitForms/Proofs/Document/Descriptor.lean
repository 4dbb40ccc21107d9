import CircuitForms.Document.Descriptor
import CircuitForms.Proofs.Document.Operation

/-! # Descriptors read back -/

namespace CircuitForms

open Json Reader

variable {rule : Number.Literal → Float} {room : Nat}

namespace Rotation

def map (f : Float → Float) : Rotation → Rotation
  | .halfTurns x => .halfTurns (f x)
  | .symbolic a => .symbolic (a.map f)

theorem map_eq_self_iff {f : Float → Float} {r : Rotation} :
    r.map f = r ↔ ∀ x ∈ r.toJson.reals, f x = x := by
  cases r <;> simp [map, toJson, Angle.map_eq_self_iff]

theorem read_numeric (j : Json) :
    read (room + 1) (.object [("numeric", j)]) = (real room j).map .halfTurns := rfl

theorem read_symbolic (j : Json) :
    read (room + 1) (.object [("symbolic", j)]) = (Angle.read room j).map .symbolic := rfl

theorem readsBack : ReadsBack rule toJson read (fun _ => True) (map (again rule)) := by
  intro r room s
  cases room with
  | zero => cases r <;> simp [toJson, reread_object, read, tagged]
  | succ room =>
    cases r with
    | halfTurns x => simp [toJson, reread_object, read_numeric, map]
    | symbolic a => simp [toJson, reread_object, read_symbolic, map, Angle.readsBack a room _]

end Rotation

theorem Kind.readable_toJson (k : Kind) : Readable (Legible rule) room k.toJson :=
  readable_string _

theorem Kind.read_reread (k : Kind) : Kind.read room (reread rule k.toJson) = some k := by
  rw [toJson, reread, read, tagged]
  · exact ofText?_text k
  all_goals exact nofun

namespace Payload

def map (f : Float → Float) : Payload → Payload
  | .none => .none
  | .single r => .single (r.map f)
  | .multi rs => .multi (rs.map (Rotation.map f))
  | .description s => .description s

theorem map_eq_self_iff {f : Float → Float} {p : Payload} :
    p.map f = p ↔ ∀ x ∈ p.toJson.reals, f x = x := by
  cases p <;> simp [map, toJson, Reader.map_eq_self_iff, Rotation.map_eq_self_iff]

theorem read_single (j : Json) :
    read (room + 1) (.object [("single", j)]) = (Rotation.read room j).map .single := rfl

theorem read_multi (j : Json) :
    read (room + 1) (.object [("multi", j)]) = (list Rotation.read room j).map .multi := rfl

theorem read_description (j : Json) :
    read (room + 1) (.object [("description", j)]) = (string room j).map .description := rfl

theorem readsBack : ReadsBack rule toJson read (fun _ => True) (map (again rule)) := by
  intro p room q
  cases p with
  | none => cases room <;> simp [toJson, reread, read, tagged, map, isBare]
  | single r =>
    cases room with
    | zero => simp [toJson, reread_object, read, tagged]
    | succ room => simp [toJson, reread_object, read_single, map, Rotation.readsBack r room _]
  | multi rs =>
    cases room with
    | zero => simp [toJson, reread_object, read, tagged]
    | succ room => simp [toJson, reread_object, read_multi, map, Rotation.readsBack.list rs room _]
  | description s =>
    cases room with
    | zero => simp [toJson, reread_object, read, tagged]
    | succ room => simp [toJson, reread_object, read_description, map]

end Payload

namespace Descriptor

def map (f : Float → Float) (x : Descriptor) : Descriptor :=
  { x with payload := x.payload.map f }

theorem map_eq_self_iff {f : Float → Float} {x : Descriptor} :
    x.map f = x ↔ ∀ y ∈ x.toJson.reals, f y = y := by
  obtain ⟨kind, inputs, outputs, payload⟩ := x
  simp [map, toJson, Kind.toJson, Payload.map_eq_self_iff]

def Fits (x : Descriptor) : Prop :=
  x.inputs < 1 <<< 64 ∧ x.outputs < 1 <<< 64

instance (x : Descriptor) : Decidable x.Fits :=
  inferInstanceAs (Decidable (x.inputs < 1 <<< 64 ∧ x.outputs < 1 <<< 64))

theorem readsBack : ReadsBack rule toJson read Fits (map (again rule)) := by
  intro x room y
  cases room with
  | zero => simp [toJson, read]
  | succ room =>
    rw [toJson, read, record_reread (by simp) (by simp)]
    simp [List.lookup, Option.bind_eq_some_iff, Kind.read_reread, Kind.readable_toJson,
      Payload.readsBack x.payload room _, Fits, map, and_assoc, and_left_comm]

end Descriptor

end CircuitForms
