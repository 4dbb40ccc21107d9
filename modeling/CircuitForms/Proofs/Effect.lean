import Mathlib

/-! # Effects that may fail

What a run over a state says of its parts when it may fail on the way, and when a row of
computations that may fail succeeds.
-/

namespace CircuitForms

section Run

variable {ε σ α β : Type} {x : ExceptT ε (StateM σ) α} {k : α → ExceptT ε (StateM σ) β} {s s' : σ}

theorem run_bind_ok {a : α} (h : x.run.run s = (.ok a, s')) :
    (x >>= k).run.run s = (k a).run.run s' := by
  simp only [ExceptT.run, StateT.run] at h ⊢
  simp only [bind, ExceptT.bind, ExceptT.mk, StateT.bind, h]
  rfl

theorem run_bind_error {e : ε} (h : x.run.run s = (.error e, s')) :
    (x >>= k).run.run s = (.error e, s') := by
  simp only [ExceptT.run, StateT.run] at h ⊢
  simp only [bind, ExceptT.bind, ExceptT.mk, StateT.bind, h]
  rfl

/-- What a sequence of two effects that succeeds says of its parts. -/
theorem run_bind_eq_ok {b : β} (h : (x >>= k).run.run s = (.ok b, s')) :
    ∃ a s₁, x.run.run s = (.ok a, s₁) ∧ (k a).run.run s₁ = (.ok b, s') := by
  rcases hx : x.run.run s with ⟨e | a, s₁⟩
  · rw [run_bind_error hx] at h
    cases h
  · exact ⟨a, s₁, rfl, by rwa [run_bind_ok hx] at h⟩

end Run

section Except

variable {ε α β : Type}

theorem bind_eq_ok {x : Except ε α} {k : α → Except ε β} {b : β} :
    x >>= k = .ok b ↔ ∃ a, x = .ok a ∧ k a = .ok b := by
  cases x with
  | error e => simp [bind, Except.bind]
  | ok a => simp [bind, Except.bind]

theorem bind_eq_error {x : Except ε α} {k : α → Except ε β} {e : ε} :
    x >>= k = .error e ↔ x = .error e ∨ ∃ a, x = .ok a ∧ k a = .error e := by
  cases x with
  | error e' => simp [bind, Except.bind]
  | ok a => simp [bind, Except.bind]

theorem map_eq_ok {x : Except ε α} {f : α → β} {b : β} :
    x.map f = .ok b ↔ ∃ a, x = .ok a ∧ f a = b := by
  cases x <;> simp [Except.map]

theorem map_eq_error {x : Except ε α} {f : α → β} {e : ε} : x.map f = .error e ↔ x = .error e := by
  cases x <;> simp [Except.map]

theorem mapError_eq_ok {ε' : Type} {x : Except ε α} {f : ε → ε'} {a : α} :
    x.mapError f = .ok a ↔ x = .ok a := by
  cases x <;> simp [Except.mapError]

theorem mapError_eq_error {ε' : Type} {x : Except ε α} {f : ε → ε'} {e : ε'} :
    x.mapError f = .error e ↔ ∃ e', x = .error e' ∧ f e' = e := by
  cases x <;> simp [Except.mapError]

/-- A row of computations succeeds when each of them does. -/
theorem mapM_eq_ok {f : α → Except ε β} {l : List α} {r : List β} :
    l.mapM f = .ok r ↔ List.Forall₂ (fun a b => f a = .ok b) l r := by
  induction l generalizing r with
  | nil =>
    rw [List.mapM_nil]
    cases r <;> simp [pure, Except.pure]
  | cons a l ih =>
    rw [List.mapM_cons]
    simp only [bind_eq_ok, ih, pure, Except.pure, Except.ok.injEq]
    constructor
    · rintro ⟨b, hb, r, hr, rfl⟩
      exact .cons hb hr
    · rintro (_ | ⟨hb, hr⟩)
      exact ⟨_, hb, _, hr, rfl⟩

theorem exists_of_mapM_eq_ok {f : α → Except ε β} {l : List α} {r : List β} (h : l.mapM f = .ok r)
    {a : α} (ha : a ∈ l) : ∃ b ∈ r, f a = .ok b := by
  have hf := mapM_eq_ok.mp h
  obtain ⟨i, hi, rfl⟩ := List.getElem_of_mem ha
  have hr : i < r.length := hf.length_eq ▸ hi
  exact ⟨r[i], List.getElem_mem hr, hf.get hi hr⟩

theorem exists_append_of_mapM_eq_error {f : α → Except ε β} {l : List α} {e : ε}
    (h : l.mapM f = .error e) : ∃ pre a post, l = pre ++ a :: post ∧ f a = .error e ∧
      ∀ b ∈ pre, ∃ y, f b = .ok y := by
  induction l with
  | nil =>
    rw [List.mapM_nil] at h
    cases h
  | cons a l ih =>
    rw [List.mapM_cons] at h
    rcases bind_eq_error.mp h with ha | ⟨y, ha, h⟩
    · exact ⟨[], a, l, rfl, ha, fun b hb => nomatch hb⟩
    · rcases bind_eq_error.mp h with hl | ⟨r, -, h⟩
      · obtain ⟨pre, a', post, rfl, he, hpre⟩ := ih hl
        exact ⟨a :: pre, a', post, rfl, he, List.forall_mem_cons.mpr ⟨⟨y, ha⟩, hpre⟩⟩
      · cases h

theorem exists_of_mapM_eq_error {f : α → Except ε β} {l : List α} {e : ε}
    (h : l.mapM f = .error e) : ∃ a ∈ l, f a = .error e := by
  obtain ⟨pre, a, post, rfl, he, -⟩ := exists_append_of_mapM_eq_error h
  exact ⟨a, by simp, he⟩

theorem toOption_eq_some {x : Except ε α} {a : α} : x.toOption = some a ↔ x = .ok a := by
  cases x <;> simp [Except.toOption]

theorem toOption_map (x : Except ε α) (f : α → β) : (x.map f).toOption = x.toOption.map f := by
  cases x <;> rfl

theorem toOption_mapM_congr {f f' : α → Except ε β}
    (h : ∀ a, (f a).toOption = (f' a).toOption) (l : List α) :
    (l.mapM f).toOption = (l.mapM f').toOption := by
  have hok : ∀ a b, f a = .ok b ↔ f' a = .ok b := fun a b => by
    rw [← toOption_eq_some, h, toOption_eq_some]
  refine Option.ext fun r => ?_
  simp only [toOption_eq_some, mapM_eq_ok, hok]

theorem join_toOption_eq_some {x : Except ε (Option β)} {b : β} :
    x.toOption.join = some b ↔ x = .ok (some b) := by
  cases x <;> simp [Except.toOption]

theorem reduceOption_of_mapM {f : α → Except ε (Option β)} {l : List α} {r : List (Option β)}
    (h : l.mapM f = .ok r) : r.reduceOption = l.filterMap fun a => (f a).toOption.join := by
  have hf := mapM_eq_ok.mp h
  clear h
  induction hf with
  | nil => rfl
  | @cons a b l r hab _ ih =>
    cases b <;> simp [hab, ih, Except.toOption]

/-- The results of a row of computations are what they give one by one. -/
theorem mem_of_mapM_eq_ok {f : α → Except ε β} {l : List α} {r : List β} (h : l.mapM f = .ok r)
    {b : β} : b ∈ r ↔ ∃ a ∈ l, f a = .ok b := by
  constructor
  · intro hb
    have hf := mapM_eq_ok.mp h
    obtain ⟨i, hi, rfl⟩ := List.getElem_of_mem hb
    have hl : i < l.length := hf.length_eq ▸ hi
    exact ⟨l[i], List.getElem_mem hl, hf.get hl hi⟩
  · rintro ⟨a, ha, hab⟩
    obtain ⟨b', hb', hab'⟩ := exists_of_mapM_eq_ok h ha
    rw [hab, Except.ok.injEq] at hab'
    exact hab' ▸ hb'

theorem forM_eq_ok {f : α → Except ε Unit} {l : List α} (h : ∀ a ∈ l, f a = .ok ()) :
    l.forM f = .ok () := by
  induction l with
  | nil => rfl
  | cons a l ih =>
    have ha := h a List.mem_cons_self
    exact bind_eq_ok.mpr ⟨(), ha, ih fun b hb => h b (List.mem_cons_of_mem a hb)⟩

end Except

end CircuitForms
