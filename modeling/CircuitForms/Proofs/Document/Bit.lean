import CircuitForms.Document.Bit
import CircuitForms.Proofs.Json.Readable

/-! # Bits and registers read back -/

namespace CircuitForms

open Json Reader

variable {α : Type} {rule : Number.Literal → Float}

/-- Values that are made of a name and a word are read back if the word fits. -/
theorem readsBack_labelled (closed : Bool) {nameKey wordKey : String} (hne : nameKey ≠ wordKey)
    {make : String → Nat → α} {name : α → String} {word : α → Nat}
    (hmake : ∀ a, make (name a) (word a) = a) :
    ReadsBack rule (fun a => labelled nameKey wordKey (name a) (word a))
      (readLabelled closed nameKey wordKey make) (fun a => word a < 1 <<< 32) id := by
  intro a room b
  cases room with
  | zero => simp [labelled, readLabelled]
  | succ room =>
    have hbeq : (wordKey == nameKey) = false := beq_false_of_ne hne.symm
    dsimp only [labelled, readLabelled]
    rw [record_reread (by simpa using hne) (by simp)]
    simp [List.lookup, required, Option.bind_eq_some_iff, hbeq, hmake]

theorem Qubit.readsBack :
    ReadsBack rule Qubit.toJson Qubit.read (fun q => q.index < 1 <<< 32) id :=
  readsBack_labelled false (by decide) fun _ => rfl

theorem Clbit.readsBack_as (closed : Bool) :
    ReadsBack rule Clbit.toJson (Clbit.readAs closed) (fun c => c.index < 1 <<< 32) id :=
  readsBack_labelled closed (by decide) fun _ => rfl

theorem Clbit.readsBack :
    ReadsBack rule Clbit.toJson Clbit.read (fun c => c.index < 1 <<< 32) id :=
  readsBack_as false

theorem Register.readsBack_as (closed : Bool) :
    ReadsBack rule Register.toJson (Register.readAs closed) (fun r => r.size < 1 <<< 32) id :=
  readsBack_labelled closed (by decide) fun _ => rfl

theorem Register.readsBack :
    ReadsBack rule Register.toJson Register.read (fun r => r.size < 1 <<< 32) id :=
  readsBack_as false

end CircuitForms
