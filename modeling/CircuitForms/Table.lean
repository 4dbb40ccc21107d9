/-! # Tables

A table has one value at most for a key. A new key comes last, and the value of
a key that is there gives way to the new one.
-/

namespace CircuitForms

section Write

variable {κ ν : Type} [DecidableEq κ]

/-- A row of keys and values with a value for one key. -/
def write (k : κ) (v : ν) : List (κ × ν) → List (κ × ν)
  | [] => [(k, v)]
  | entry :: rest => if entry.1 = k then (k, v) :: rest else entry :: write k v rest

theorem map_fst_write (k : κ) (v : ν) (l : List (κ × ν)) : (write k v l).map Prod.fst =
    if k ∈ l.map Prod.fst then l.map Prod.fst else l.map Prod.fst ++ [k] := by
  induction l with
  | nil => simp [write]
  | cons entry rest ih =>
    by_cases h : entry.1 = k
    · simp [write, h]
    · have hmem : k ∈ (entry :: rest).map Prod.fst ↔ k ∈ rest.map Prod.fst :=
        List.mem_cons.trans (or_iff_right (Ne.symm h))
      rw [write, if_neg h, List.map_cons, ih]
      simp only [hmem]
      split <;> rfl

theorem find?_write (k k' : κ) (v : ν) (l : List (κ × ν)) :
    ((write k v l).find? (·.1 = k')).map Prod.snd =
      if k' = k then some v else (l.find? (·.1 = k')).map Prod.snd := by
  induction l with
  | nil => by_cases h : k' = k <;> simp [write, h, Ne.symm]
  | cons entry rest ih =>
    by_cases h : entry.1 = k
    · by_cases h' : k = k'
      · simp [write, h, h']
      · simp [write, h, h', Ne.symm h']
    · by_cases h' : entry.1 = k'
      · have hk : k' ≠ k := h' ▸ h
        simp [write, h', hk]
      · simp [write, h, h', ih]

end Write

structure Table (κ ν : Type) where
  entries : List (κ × ν) := []
  nodup : (entries.map Prod.fst).Nodup := by exact List.nodup_nil
  deriving DecidableEq

namespace Table

variable {κ ν : Type} [DecidableEq κ]

def keys (t : Table κ ν) : List κ :=
  t.entries.map Prod.fst

def size (t : Table κ ν) : Nat :=
  t.entries.length

def get? (t : Table κ ν) (k : κ) : Option ν :=
  (t.entries.find? (·.1 = k)).map Prod.snd

def insert (t : Table κ ν) (k : κ) (v : ν) : Table κ ν where
  entries := write k v t.entries
  nodup := by
    rw [map_fst_write]
    split
    · exact t.nodup
    · rename_i h
      refine List.nodup_append.mpr ⟨t.nodup, by simp, fun a ha b hb hab => h ?_⟩
      rwa [← List.mem_singleton.mp hb, ← hab]

theorem isSome_get?_iff {t : Table κ ν} {k : κ} : (t.get? k).isSome ↔ k ∈ t.keys := by
  simp [get?, keys]

theorem get?_eq_some_iff {t : Table κ ν} {k : κ} {v : ν} :
    t.get? k = some v ↔ (k, v) ∈ t.entries := by
  have hone : ∀ {l : List (κ × ν)}, (l.map Prod.fst).Nodup →
      ((l.find? (·.1 = k)).map Prod.snd = some v ↔ (k, v) ∈ l) := by
    intro l hn
    induction l with
    | nil => simp
    | cons entry rest ih =>
      obtain ⟨hnot, hn⟩ := List.nodup_cons.mp hn
      by_cases h : entry.1 = k
      · subst h
        have hrest : (entry.1, v) ∉ rest := fun hm => hnot (List.mem_map.mpr ⟨_, hm, rfl⟩)
        simp [hrest, Prod.ext_iff, eq_comm]
      · have hne : (k, v) ≠ entry := fun he => h (he ▸ rfl)
        simp [h, hne, ih hn]
  exact hone t.nodup

theorem get?_insert (t : Table κ ν) (k k' : κ) (v : ν) :
    (t.insert k v).get? k' = if k' = k then some v else t.get? k' :=
  find?_write k k' v t.entries

theorem keys_insert (t : Table κ ν) (k : κ) (v : ν) :
    (t.insert k v).keys = if k ∈ t.keys then t.keys else t.keys ++ [k] :=
  map_fst_write k v t.entries

end Table

end CircuitForms
