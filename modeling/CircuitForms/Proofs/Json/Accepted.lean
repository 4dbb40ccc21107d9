import CircuitForms.Json.Reader

/-! # What was read

What a reader makes of a document, whichever document it is, was made from parts of it that were
read in turn, and with room for one array or object less.
-/

namespace CircuitForms.Json.Reader

variable {α : Type} {read : Reader α} {room : Nat} {j : Json}

theorem exists_of_mapM_eq_some {f : Json → Option α} {items : List Json} {as : List α}
    (h : items.mapM f = some as) {a : α} (ha : a ∈ as) : ∃ j ∈ items, f j = some a := by
  induction items generalizing as with
  | nil =>
    obtain rfl : [] = as := by simpa using h
    cases ha
  | cons j items ih =>
    simp only [List.mapM_cons, bind, Option.bind_eq_some_iff, pure, Option.some.injEq] at h
    obtain ⟨b, hb, bs, hbs, rfl⟩ := h
    rcases List.mem_cons.mp ha with rfl | ha
    · exact ⟨j, List.mem_cons_self, hb⟩
    · obtain ⟨j', hj', he⟩ := ih hbs ha
      exact ⟨j', List.mem_cons_of_mem j hj', he⟩

theorem exists_of_list_eq_some {as : List α} (h : list read room j = some as) {a : α}
    (ha : a ∈ as) : ∃ room' item, room = room' + 1 ∧ read room' item = some a := by
  unfold list at h
  split at h
  · obtain ⟨item, -, he⟩ := exists_of_mapM_eq_some h ha
    exact ⟨_, item, rfl, he⟩
  · cases h

theorem exists_of_optional_list_eq_some {field : Option Json} {as : List α}
    (h : optional (list read) [] room field = some as) {a : α} (ha : a ∈ as) :
    ∃ room' item, room = room' + 1 ∧ read room' item = some a := by
  cases field with
  | none =>
    obtain rfl := Option.some.inj h
    cases ha
  | some j => exact exists_of_list_eq_some h ha

/-- A record is built from the values of its fields. -/
theorem exists_of_record_eq_some {closed : Bool} {names : List String}
    {build : Nat → List (Option Json) → Option α} {a : α}
    (h : record closed names build room j = some a) :
    ∃ room' fields, room = room' + 1 ∧ build room' fields = some a := by
  unfold record at h
  split at h
  · obtain ⟨fields, -, hb⟩ := Option.bind_eq_some_iff.mp h
    exact ⟨_, fields, rfl, hb⟩
  · obtain ⟨fields, -, hb⟩ := Option.bind_eq_some_iff.mp h
    exact ⟨_, fields, rfl, hb⟩
  · cases h

theorem lt_of_word_eq_some {n : Nat} {field : Option Json}
    (h : required word room field = some n) : n < 1 <<< 32 := by
  obtain ⟨j, -, hj⟩ := Option.bind_eq_some_iff.mp h
  unfold word natBelow at hj
  split at hj
  · rw [Option.ite_none_right_eq_some, Option.some.injEq] at hj
    exact hj.2 ▸ hj.1
  · cases hj

end CircuitForms.Json.Reader
