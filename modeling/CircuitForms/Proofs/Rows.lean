import Mathlib

/-! # Rows

What a search by key finds in a row, at which members a row that grows can be divided, and what is
left of it when every member is kept only where it first stands.
-/

namespace CircuitForms

section Search

variable {α κ : Type} [BEq κ] [LawfulBEq κ] {key : α → κ} {l : List α}

/-- Where no key is repeated, what is found for a key is what has it. -/
theorem find?_key_eq_some_iff (hn : (l.map key).Nodup) {k : κ} {a : α} :
    l.find? (key · == k) = some a ↔ a ∈ l ∧ key a = k := by
  constructor
  · intro h
    exact ⟨List.mem_of_find?_eq_some h, by simpa using List.find?_some h⟩
  · rintro ⟨ha, rfl⟩
    have hsome : (l.find? (key · == key a)).isSome := List.find?_isSome.mpr ⟨a, ha, by simp⟩
    obtain ⟨b, hb⟩ := Option.isSome_iff_exists.mp hsome
    have hkey : key b = key a := by simpa using List.find?_some hb
    rw [hb, List.inj_on_of_nodup_map hn (List.mem_of_find?_eq_some hb) ha hkey]

end Search

theorem exists_split_concat_iff {α : Type} {l : List α} {y : α} {P : List α → α → Prop} :
    (∃ pre x post, l ++ [y] = pre ++ x :: post ∧ P pre x) ↔
      (∃ pre x post, l = pre ++ x :: post ∧ P pre x) ∨ P l y := by
  constructor
  · rintro ⟨pre, x, post, he, hx⟩
    rcases List.eq_nil_or_concat post with rfl | ⟨post, last, rfl⟩
    · obtain ⟨rfl, hlast⟩ := List.append_inj' he rfl
      obtain rfl := List.singleton_inj.mp hlast
      exact .inr hx
    · have he : l ++ [y] = (pre ++ x :: post) ++ [last] := by simpa using he
      exact .inl ⟨pre, x, post, (List.append_inj' he rfl).1, hx⟩
  · rintro (⟨pre, x, post, rfl, hx⟩ | hy)
    · exact ⟨pre, x, post ++ [y], by simp, hx⟩
    · exact ⟨l, y, [], rfl, hy⟩

section Once

variable {α β : Type} [BEq α] [LawfulBEq α] [BEq β] [LawfulBEq β]

theorem eraseDups_concat (l : List α) (a : α) :
    (l ++ [a]).eraseDups = if a ∈ l then l.eraseDups else l.eraseDups ++ [a] := by
  rw [List.eraseDups_append]
  split_ifs with ha
  · simp [List.removeAll, ha]
  · simp [List.removeAll, ha, List.eraseDups_cons]

theorem nodup_eraseDups (l : List α) : l.eraseDups.Nodup := by
  induction l using List.reverseRecOn with
  | nil => simp
  | append_singleton l a ih =>
    rw [eraseDups_concat]
    split_ifs with ha
    · exact ih
    · rw [← List.concat_eq_append]
      exact ih.concat (by simpa using ha)

theorem eraseDups_map {f : α → β} (hf : Function.Injective f) (l : List α) :
    (l.map f).eraseDups = l.eraseDups.map f := by
  induction l using List.reverseRecOn with
  | nil => rfl
  | append_singleton l a ih =>
    rw [List.map_append, List.map_singleton, eraseDups_concat, eraseDups_concat, ih]
    simp only [List.mem_map_of_injective hf]
    split_ifs <;> simp

theorem pairwise_eraseDups (l : List α) :
    l.eraseDups.Pairwise fun a b => ∀ pre post, l = pre ++ b :: post → a ∈ pre := by
  induction l using List.reverseRecOn with
  | nil => simp
  | append_singleton l x ih =>
    -- an occurrence in the longer list is one in `l`, or it is the new member after all of `l`
    have hkept : l.eraseDups.Pairwise fun a b =>
        ∀ pre post, l ++ [x] = pre ++ b :: post → a ∈ pre := by
      refine ih.imp_of_mem fun {a b} ha _ h pre post hl => ?_
      rcases List.eq_nil_or_concat post with rfl | ⟨post, last, rfl⟩
      · obtain ⟨rfl, -⟩ := List.append_inj' hl rfl
        exact List.mem_eraseDups.mp ha
      · have hl : l ++ [x] = (pre ++ b :: post) ++ [last] := by simpa using hl
        exact h pre post (List.append_inj' hl rfl).1
    rw [eraseDups_concat]
    split_ifs with hx
    · exact hkept
    · refine List.pairwise_append.mpr ⟨hkept, List.pairwise_singleton _ _, ?_⟩
      rintro a ha b hb pre post hl
      obtain rfl := List.mem_singleton.mp hb
      rcases List.eq_nil_or_concat post with rfl | ⟨post, last, rfl⟩
      · obtain ⟨rfl, -⟩ := List.append_inj' hl rfl
        exact List.mem_eraseDups.mp ha
      · have hl : l ++ [b] = (pre ++ b :: post) ++ [last] := by simpa using hl
        exact absurd ((List.append_inj' hl rfl).1 ▸ by simp) hx

end Once

end CircuitForms
