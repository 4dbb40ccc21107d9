import CircuitForms.Text.Blank
import CircuitForms.Text.Split
import Mathlib

/-! # Trimming and cutting

A text is what is left of it between white space, and it is its pieces with separators between
them. White space that is added around a text is taken off again, and pieces without a separator
are cut out as they were put in.
-/

namespace CircuitForms.Text

variable {cs space as bs : List Char} {c sep : Char}

def Blank (cs : List Char) : Prop :=
  ∀ c ∈ cs, isBlank c

-- the members are gone through, not all characters there are
instance : DecidablePred Blank := fun cs =>
  List.decidableBAll (isBlank ·) cs

theorem strip_eq (cs : List Char) : strip cs = (cs.dropWhile isBlank).rdropWhile isBlank :=
  rfl

theorem rdropWhile_append_blank (h : Blank space) :
    (cs ++ space).rdropWhile isBlank = cs.rdropWhile isBlank := by
  have h : ∀ c ∈ space.reverse, isBlank c := fun c hc => h c (List.mem_reverse.mp hc)
  unfold List.rdropWhile
  rw [List.reverse_append, List.dropWhile_append_of_pos h]

theorem strip_blank_append (h : Blank space) : strip (space ++ cs) = strip cs := by
  rw [strip_eq, List.dropWhile_append_of_pos h, strip_eq]

theorem strip_append_blank (h : Blank space) : strip (cs ++ space) = strip cs := by
  rw [strip_eq, strip_eq, List.dropWhile_append]
  split_ifs with hcs
  · rw [List.dropWhile_eq_nil_iff.mpr h, List.isEmpty_iff.mp hcs]
  · exact rdropWhile_append_blank h

theorem strip_eq_self (h : ∀ c ∈ cs, isBlank c = false) : strip cs = cs := by
  have hleft : cs.dropWhile isBlank = cs := by
    cases cs with
    | nil => rfl
    | cons c cs => simp [h c List.mem_cons_self]
  rw [strip_eq, hleft, List.rdropWhile_eq_self_iff]
  intro hne
  simp [h _ (List.getLast_mem hne)]

theorem exists_eq_append_strip (cs : List Char) :
    ∃ before after, Blank before ∧ Blank after ∧ cs = before ++ strip cs ++ after := by
  refine ⟨cs.takeWhile isBlank, (cs.dropWhile isBlank).rtakeWhile isBlank, ?_, ?_, ?_⟩
  · exact fun c hc => List.mem_takeWhile_imp hc
  · exact fun c hc => List.mem_rtakeWhile_imp hc
  · rw [strip_eq, List.append_assoc, List.rdropWhile_append_rtakeWhile,
      List.takeWhile_append_dropWhile]

theorem strip_eq_nil_iff : strip cs = [] ↔ Blank cs := by
  constructor
  · intro h
    obtain ⟨before, after, hb, ha, he⟩ := exists_eq_append_strip cs
    rw [he, h, List.append_nil]
    exact fun c hc => (List.mem_append.mp hc).elim (hb c) (ha c)
  · intro h
    rw [strip_eq, List.dropWhile_eq_nil_iff.mpr h, List.rdropWhile_nil]

theorem dropWhile_append_cons (hc : isBlank c = false) :
    (as ++ c :: bs).dropWhile isBlank = as.dropWhile isBlank ++ c :: bs := by
  rw [List.dropWhile_append]
  split_ifs with has
  · simp [List.isEmpty_iff.mp has, hc]
  · rfl

theorem strip_append_cons (hc : isBlank c = false) :
    strip (as ++ c :: bs) = as.dropWhile isBlank ++ c :: bs.rdropWhile isBlank := by
  rw [strip_eq, dropWhile_append_cons hc, List.rdropWhile, List.reverse_append, List.reverse_cons,
    List.append_assoc, List.singleton_append, dropWhile_append_cons hc]
  simp [List.rdropWhile]

theorem strip_dropWhile (as : List Char) : strip (as.dropWhile isBlank) = strip as := by
  rw [strip_eq, List.dropWhile_idempotent, strip_eq]

theorem strip_rdropWhile (bs : List Char) : strip (bs.rdropWhile isBlank) = strip bs := by
  have hblank : Blank (bs.rtakeWhile isBlank) := fun c hc => List.mem_rtakeWhile_imp hc
  rw [← strip_append_blank hblank, List.rdropWhile_append_rtakeWhile]

/-- A text with a property, with white space around it. -/
def Padded (P : List Char → Prop) (cs : List Char) : Prop :=
  ∃ before core after, cs = before ++ core ++ after ∧ Blank before ∧ Blank after ∧ P core

theorem padded_iff {P : List Char → Prop} (hP : ∀ core, P core → ∀ c ∈ core, isBlank c = false) :
    Padded P cs ↔ P (strip cs) := by
  constructor
  · rintro ⟨before, core, after, rfl, hb, ha, hcore⟩
    rwa [strip_append_blank ha, strip_blank_append hb, strip_eq_self (hP core hcore)]
  · intro h
    obtain ⟨before, after, hb, ha, he⟩ := exists_eq_append_strip cs
    exact ⟨before, strip cs, after, he, hb, ha, h⟩

/-- A text is cut where the separator first stands. -/
theorem firstCut_eq_some_iff :
    firstCut sep cs = some (as, bs) ↔ cs = as ++ sep :: bs ∧ sep ∉ as := by
  induction cs generalizing as with
  | nil => simp [firstCut]
  | cons c cs ih =>
    unfold firstCut
    by_cases hc : c = sep
    · cases as with
      | nil => simp [hc]
      | cons a as => simp +contextual [hc]
    · cases as with
      | nil => simp [hc]
      | cons a as =>
        obtain rfl | ha := eq_or_ne c a
        · simp [hc, ih, Ne.symm hc]
        · simp [hc, ha]

end CircuitForms.Text
