import CircuitForms.Convert.Namer
import CircuitForms.Proofs.Json.Token

/-! # Fresh names

A namer looks among one name more than are taken, and its names are all different, so it
always finds one that is free. It is the first free one after those handed out: the one
that drawing names until one is free ends with.
-/

namespace CircuitForms.Namer

variable {n : Namer} {taken : List String} {tries : Nat}

theorem name_injective (n : Namer) : Function.Injective n.name := by
  intro i j h
  have hlist : n.stem.toList ++ Nat.toDigits 10 i = n.stem.toList ++ Nat.toDigits 10 j := by
    simpa [name] using congrArg String.toList h
  have hread := congrArg Number.ofDigits (List.append_cancel_left hlist)
  rwa [Json.ofDigits_toDigits, Json.ofDigits_toDigits] at hread

theorem name_mem_of_search_mem (h : (n.search taken tries).1 ∈ taken) :
    ∀ i ≤ tries, n.name (n.drawn + 1 + i) ∈ taken := by
  induction tries generalizing n with
  | zero =>
    rintro i hi
    obtain rfl := Nat.le_zero.mp hi
    exact h
  | succ tries ih =>
    unfold search at h
    dsimp only at h
    split at h
    · rename_i hname
      rintro (_ | i) hi
      · exact hname
      · have hrest := ih h i (by omega)
        rwa [Nat.add_right_comm] at hrest
    · contradiction

theorem fresh_notMem (n : Namer) (taken : List String) : (n.fresh taken).1 ∉ taken := by
  intro h
  have hall := name_mem_of_search_mem h
  have hnodup : ((List.range (taken.length + 1)).map fun i => n.name (n.drawn + 1 + i)).Nodup :=
    List.nodup_range.map fun i j hij => by
      have := n.name_injective hij
      omega
  have hsub : ((List.range (taken.length + 1)).map fun i => n.name (n.drawn + 1 + i)) ⊆ taken := by
    intro name hname
    obtain ⟨i, hi, rfl⟩ := List.mem_map.mp hname
    exact hall i (Nat.le_of_lt_succ (List.mem_range.mp hi))
  have hle := (hnodup.subperm hsub).length_le
  rw [List.length_map, List.length_range] at hle
  omega

/-- Names are drawn until one is free: how many, which it is, and what names are left. -/
inductive Draws (taken : List String) : Namer → Nat → String × Namer → Prop
  | free {n : Namer} : n.next.1 ∉ taken → Draws taken n 1 n.next
  | again {n : Namer} {k : Nat} {r : String × Namer} : n.next.1 ∈ taken →
    Draws taken n.next.2 k r → Draws taken n (k + 1) r

theorem name_next (n : Namer) (i : Nat) :
    n.next.2.name (n.next.2.drawn + i) = n.name (n.drawn + (i + 1)) := by
  have hi : n.drawn + 1 + i = n.drawn + (i + 1) := by omega
  exact congrArg n.name hi

theorem Draws.eq {k : Nat} {r : String × Namer} (h : Draws taken n k r) :
    r = (n.name (n.drawn + k), { n with drawn := n.drawn + k }) := by
  induction h with
  | free => rfl
  | @again n k r _ _ ih =>
    have hk : n.drawn + 1 + k = n.drawn + (k + 1) := by omega
    rw [ih, ← hk]
    rfl

theorem Draws.isLeast {k : Nat} {r : String × Namer} (h : Draws taken n k r) :
    IsLeast {i | 0 < i ∧ n.name (n.drawn + i) ∉ taken} k := by
  induction h with
  | @free n hfree => exact ⟨⟨Nat.one_pos, hfree⟩, fun i hi => hi.1⟩
  | @again n k r htaken _ ih =>
    obtain ⟨⟨hpos, hfree⟩, hleast⟩ := ih
    rw [name_next] at hfree
    refine ⟨⟨Nat.succ_pos k, hfree⟩, ?_⟩
    rintro (_ | _ | i) ⟨hi, hni⟩
    · exact absurd hi (Nat.lt_irrefl 0)
    · exact absurd htaken hni
    · exact Nat.succ_le_succ (hleast ⟨Nat.succ_pos i, name_next n (i + 1) ▸ hni⟩)

theorem Draws.le_card {k : Nat} {r : String × Namer} (h : Draws taken n k r) :
    k ≤ taken.toFinset.card + 1 := by
  have hsub : (Finset.Ico 1 k).image (fun i => n.name (n.drawn + i)) ⊆ taken.toFinset := by
    intro name hname
    obtain ⟨i, hi, rfl⟩ := Finset.mem_image.mp hname
    obtain ⟨hpos, hlt⟩ := Finset.mem_Ico.mp hi
    by_contra hn
    exact hlt.not_ge (h.isLeast.2 ⟨hpos, fun hm => hn (List.mem_toFinset.mpr hm)⟩)
  have hinj : Function.Injective fun i => n.name (n.drawn + i) := fun i j hij =>
    Nat.add_left_cancel (n.name_injective hij)
  have hle := Finset.card_le_card hsub
  rw [Finset.card_image_of_injective _ hinj, Nat.card_Ico] at hle
  omega

theorem exists_draws_search (h : (n.search taken tries).1 ∉ taken) :
    ∃ k, Draws taken n k (n.search taken tries) := by
  induction tries generalizing n with
  | zero => exact ⟨1, .free h⟩
  | succ tries ih =>
    unfold search at h ⊢
    dsimp only at h ⊢
    split at h
    · rename_i hname
      rw [if_pos hname]
      obtain ⟨k, hk⟩ := ih h
      exact ⟨k + 1, .again hname hk⟩
    · rename_i hname
      rw [if_neg hname]
      exact ⟨1, .free hname⟩

theorem exists_draws (n : Namer) (taken : List String) :
    ∃ k ≤ taken.toFinset.card + 1, Draws taken n k (n.fresh taken) := by
  obtain ⟨k, hk⟩ := exists_draws_search (n.fresh_notMem taken)
  exact ⟨k, hk.le_card, hk⟩

theorem exists_fresh_eq (n : Namer) (taken : List String) : ∃ k, 0 < k ∧
    n.fresh taken = (n.name (n.drawn + k), { n with drawn := n.drawn + k }) := by
  obtain ⟨k, -, hk⟩ := n.exists_draws taken
  exact ⟨k, hk.isLeast.1.1, hk.eq⟩

/-- It matters only which names are taken. -/
theorem fresh_congr {taken' : List String} (n : Namer)
    (h : ∀ name, name ∈ taken ↔ name ∈ taken') : n.fresh taken = n.fresh taken' := by
  obtain ⟨k, -, hk⟩ := n.exists_draws taken
  obtain ⟨k', -, hk'⟩ := n.exists_draws taken'
  have hleast := hk.isLeast
  simp only [h] at hleast
  rw [hk.eq, hk'.eq, hleast.unique hk'.isLeast]

/-- Fresh names are asked for one after the other, with other names taken each time. -/
inductive Gives : Namer → List String → Namer → Prop
  | nil (n : Namer) : Gives n [] n
  | cons {n n' : Namer} {names : List String} (taken : List String) :
    Gives (n.fresh taken).2 names n' → Gives n ((n.fresh taken).1 :: names) n'

theorem Gives.append {n' n'' : Namer} {names names' : List String} (h : Gives n names n')
    (h' : Gives n' names' n'') : Gives n (names ++ names') n'' := by
  induction h with
  | nil => exact h'
  | cons taken _ ih => exact .cons taken (ih h')

/-- The numbers of the names increase. -/
theorem Gives.exists_numbers {n' : Namer} {names : List String} (h : Gives n names n') :
    ∃ numbers : List Nat, names = numbers.map n.name ∧ numbers.Pairwise (· < ·) ∧
      ∀ i ∈ numbers, n.drawn < i := by
  induction h with
  | nil => exact ⟨[], rfl, .nil, by simp⟩
  | @cons n n' names taken _ ih =>
    obtain ⟨k, hk, hfresh⟩ := n.exists_fresh_eq taken
    obtain ⟨numbers, rfl, hsorted, hlt⟩ := ih
    rw [hfresh] at hlt ⊢
    refine ⟨(n.drawn + k) :: numbers, rfl, .cons hlt hsorted, ?_⟩
    rintro i (_ | ⟨_, hi⟩)
    · exact Nat.lt_add_of_pos_right hk
    · exact lt_trans (Nat.lt_add_of_pos_right hk) (hlt i hi)

theorem Gives.nodup {n' : Namer} {names : List String} (h : Gives n names n') : names.Nodup := by
  obtain ⟨numbers, rfl, hsorted, -⟩ := h.exists_numbers
  exact List.Nodup.map n.name_injective (hsorted.imp Nat.ne_of_lt)

end CircuitForms.Namer
