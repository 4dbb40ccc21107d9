import Mathlib

/-! # Stacked items

Items that each take some places can be stacked one after the other, each one level over
the highest level so far at any of its places. The highest level of all is then the
greatest length of a tower of items.
-/

namespace CircuitForms

namespace Stack

variable {α ω : Type} (places : α → List ω) {items c : List α} {x y : α} {w : ω}

def Touches (x y : α) : Prop :=
  ∃ w ∈ places x, w ∈ places y

/-- Items in the order of their stacking, each of which has a place in common with the next. -/
structure Tower (items c : List α) : Prop where
  sublist : c.Sublist items
  linked : c.IsChain (Touches places)

/-- The lengths of the towers that are empty or have an item of some sort on top. -/
def lengths (items : List α) (top : α → Prop) : Set Nat :=
  {n | ∃ c, Tower places items c ∧ (∀ x ∈ c.getLast?, top x) ∧ c.length = n}

variable {places} {top : α → Prop}

theorem zero_mem_lengths : 0 ∈ lengths places items top :=
  ⟨[], ⟨List.nil_sublist _, .nil⟩, by simp, rfl⟩

theorem lengths_nil : lengths places [] top = {0} := by
  refine Set.eq_singleton_iff_unique_mem.mpr ⟨zero_mem_lengths, ?_⟩
  rintro n ⟨c, hc, -, rfl⟩
  exact congrArg List.length (List.sublist_nil.mp hc.sublist)

theorem tower_concat_iff : Tower places (items ++ [y]) c ↔ Tower places items c ∨
    ∃ c', c = c' ++ [y] ∧ Tower places items c' ∧ ∀ x ∈ c'.getLast?, Touches places x y := by
  constructor
  · rintro ⟨hsub, hlinked⟩
    obtain ⟨c', last, rfl, hc', hlast⟩ := List.sublist_append_iff.mp hsub
    rcases List.sublist_singleton.mp hlast with rfl | rfl
    · exact .inl ⟨by simpa using hc', by simpa using hlinked⟩
    · obtain ⟨hold, -, htouch⟩ := List.isChain_append.mp hlinked
      exact .inr ⟨c', rfl, ⟨hc', hold⟩, fun x hx => htouch x hx y rfl⟩
  · rintro (⟨hsub, hlinked⟩ | ⟨c', rfl, ⟨hsub, hlinked⟩, htouch⟩)
    · exact ⟨hsub.trans (List.sublist_append_left _ _), hlinked⟩
    · refine ⟨hsub.append (List.Sublist.refl _), ?_⟩
      refine List.isChain_append.mpr ⟨hlinked, .singleton _, fun x hx u hu => ?_⟩
      obtain rfl := Option.some.inj hu
      exact htouch x hx

theorem lengths_concat : lengths places (items ++ [y]) top = lengths places items top ∪
    {n | top y ∧ ∃ m ∈ lengths places items (Touches places · y), m + 1 = n} := by
  ext n
  constructor
  · rintro ⟨c, hc, htop, rfl⟩
    rcases tower_concat_iff.mp hc with hc | ⟨c', rfl, hc', htouch⟩
    · exact .inl ⟨c, hc, htop, rfl⟩
    · exact .inr ⟨htop y (by simp), c'.length, ⟨c', hc', htouch, rfl⟩, by simp⟩
  · rintro (⟨c, hc, htop, rfl⟩ | ⟨hy, _, ⟨c, hc, htouch, rfl⟩, rfl⟩)
    · exact ⟨c, tower_concat_iff.mpr (.inl hc), htop, rfl⟩
    · exact ⟨c ++ [y], tower_concat_iff.mpr (.inr ⟨c, rfl, hc, htouch⟩), by simp [hy], by simp⟩

section Stacking

variable [DecidableEq ω]

/-- The level of an item over places of these heights. -/
def levelOver (places : α → List ω) (height : ω → Nat) (x : α) : Nat :=
  ((places x).map height).max?.getD 0 + 1

def put (places : α → List ω) (height : ω → Nat) (x : α) (w : ω) : Nat :=
  if w ∈ places x then levelOver places height x else height w

/-- How high some items reach at each place. -/
def heights (places : α → List ω) (items : List α) : ω → Nat :=
  items.foldl (put places) fun _ => 0

def levelsOver (places : α → List ω) (height : ω → Nat) : List α → List Nat
  | [] => []
  | x :: items => levelOver places height x :: levelsOver places (put places height x) items

def levels (places : α → List ω) (items : List α) : List Nat :=
  levelsOver places (fun _ => 0) items

theorem heights_concat : heights places (items ++ [x]) = put places (heights places items) x := by
  rw [heights, List.foldl_append]
  rfl

theorem levelsOver_concat (height : ω → Nat) (items : List α) (x : α) :
    levelsOver places height (items ++ [x]) =
      levelsOver places height items ++ [levelOver places (items.foldl (put places) height) x] := by
  induction items generalizing height with
  | nil => rfl
  | cons y items ih => exact congrArg (levelOver places height y :: ·) (ih _)

theorem levels_concat : levels places (items ++ [x]) =
    levels places items ++ [levelOver places (heights places items) x] :=
  levelsOver_concat _ items x

omit [DecidableEq ω] in
theorem isGreatest_levelOver (hx : places x ≠ []) (height : ω → Nat) :
    IsGreatest {n | ∃ w ∈ places x, n = height w + 1} (levelOver places height x) := by
  cases hm : ((places x).map height).max? with
  | none => exact absurd (List.map_eq_nil_iff.mp (List.max?_eq_none_iff.mp hm)) hx
  | some m =>
    obtain ⟨hmem, hle⟩ := List.max?_eq_some_iff.mp hm
    obtain ⟨w, hw, rfl⟩ := List.mem_map.mp hmem
    rw [levelOver, hm]
    refine ⟨⟨w, hw, rfl⟩, ?_⟩
    rintro _ ⟨w', hw', rfl⟩
    exact Nat.succ_le_succ (hle _ (List.mem_map_of_mem hw'))

omit [DecidableEq ω] in
theorem lt_levelOver (hw : w ∈ places x) (height : ω → Nat) :
    height w < levelOver places height x :=
  (isGreatest_levelOver (List.ne_nil_of_mem hw) height).2 ⟨w, hw, rfl⟩

omit [DecidableEq ω] in
theorem levelOver_cases (places : α → List ω) (height : ω → Nat) (x : α) :
    levelOver places height x = 1 ∨ ∃ w ∈ places x, levelOver places height x = height w + 1 := by
  by_cases hx : places x = []
  · exact .inl (by simp [levelOver, hx])
  · exact .inr (isGreatest_levelOver hx height).1

theorem isGreatest_levelOver_heights
    (h : ∀ w, IsGreatest (lengths places items (w ∈ places ·)) (heights places items w)) (y : α) :
    IsGreatest {n | ∃ m ∈ lengths places items (Touches places · y), m + 1 = n}
      (levelOver places (heights places items) y) := by
  constructor
  · rcases levelOver_cases places (heights places items) y with he | ⟨w, hw, he⟩
    · exact ⟨0, zero_mem_lengths, he.symm⟩
    · obtain ⟨c, hc, htop, hlen⟩ := (h w).1
      exact ⟨_, ⟨c, hc, fun x hx => ⟨w, htop x hx, hw⟩, hlen⟩, he.symm⟩
  · rintro _ ⟨_, ⟨c, hc, htouch, rfl⟩, rfl⟩
    cases hlast : c.getLast? with
    | none =>
      rw [List.getLast?_eq_none_iff.mp hlast]
      exact Nat.succ_le_succ (Nat.zero_le _)
    | some x =>
      obtain ⟨w, hx, hy⟩ := htouch x hlast
      have htop : ∀ x ∈ c.getLast?, w ∈ places x := fun x' hx' => by
        obtain rfl := Option.some.inj (hlast.symm.trans hx')
        exact hx
      exact ((h w).2 ⟨c, hc, htop, rfl⟩).trans_lt (lt_levelOver hy _)

/-- At each place the items reach as high as the highest tower with an item at this place on top. -/
theorem isGreatest_heights (items : List α) (w : ω) :
    IsGreatest (lengths places items (w ∈ places ·)) (heights places items w) := by
  induction items using List.reverseRecOn generalizing w with
  | nil =>
    rw [lengths_nil]
    exact isGreatest_singleton
  | append_singleton items y ih =>
    have hy := isGreatest_levelOver_heights ih y
    rw [heights_concat, put, lengths_concat]
    split_ifs with hw
    · have hunion := (ih w).union hy
      rw [max_eq_right (lt_levelOver hw _).le] at hunion
      simpa [hw] using hunion
    · simpa [hw] using ih w

/-- The greatest level of some items is the greatest length of a tower of them. -/
theorem isGreatest_levels (items : List α) :
    IsGreatest {n | ∃ c, Tower places items c ∧ c.length = n}
      ((levels places items).foldl max 0) := by
  have hgreatest : IsGreatest (lengths places items fun _ => True)
      ((levels places items).foldl max 0) := by
    induction items using List.reverseRecOn with
    | nil =>
      rw [lengths_nil]
      exact isGreatest_singleton
    | append_singleton items y ih =>
      rw [levels_concat, List.foldl_append, lengths_concat]
      simpa using ih.union (isGreatest_levelOver_heights (isGreatest_heights items) y)
  simpa [lengths] using hgreatest

end Stacking

end Stack

end CircuitForms
