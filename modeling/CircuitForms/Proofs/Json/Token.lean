import CircuitForms.Json.Parser
import CircuitForms.Json.Printer
import Mathlib

/-! # Strings and numerals

What is written between quotes is read back as it was, and so is a plain row of
digits without a needless zero at its head.
-/

namespace CircuitForms.Json

open Number Text

theorem hexNumber?_hexOctet : ∀ n < 0x20, hexNumber? ('0' :: '0' :: hexOctet n) = some n := by
  decide

theorem units_escape (c : Char) (rest : List Char) :
    units (escape c ++ rest) = (units rest).map fun (ns, rest) => (c.toNat :: ns, rest) := by
  unfold escape
  split_ifs with hq hb h8 hf hn hr ht hlow
  · subst hq; simp [units, unescape?]
  · subst hb; simp [units, unescape?]
  · subst h8; simp [units, unescape?]
  · subst hf; simp [units, unescape?]
  · subst hn; simp [units, unescape?]
  · subst hr; simp [units, unescape?]
  · subst ht; simp [units, unescape?]
  · have hx := hexNumber?_hexOctet c.toNat hlow
    simp only [hexOctet, List.cons_append, List.nil_append] at hx ⊢
    rw [units, hx]
  · rw [List.singleton_append, units]
    · rw [if_neg hlow]
    · exact hq
    · exact fun _ _ _ _ _ h => absurd h hb
    · exact fun _ _ h => absurd h hb

theorem units_flatMap_escape (cs rest : List Char) :
    units (cs.flatMap escape ++ '"' :: rest) = some (cs.map Char.toNat, rest) := by
  induction cs with
  | nil => simp [units]
  | cons c cs ih => rw [List.flatMap_cons, List.append_assoc, units_escape, ih]; rfl

theorem isLeading_toNat (c : Char) : isLeading c.toNat = false := by
  have hv : c.toNat.isValidChar := c.valid
  simp only [isLeading, Bool.and_eq_false_iff, decide_eq_false_iff_not]
  omega

theorem isTrailing_toNat (c : Char) : isTrailing c.toNat = false := by
  have hv : c.toNat.isValidChar := c.valid
  simp only [isTrailing, Bool.and_eq_false_iff, decide_eq_false_iff_not]
  omega

theorem ofUnits_map_toNat (cs : List Char) : ofUnits (cs.map Char.toNat) = some cs := by
  induction cs with
  | nil => rfl
  | cons c cs ih =>
    cases cs with
    | nil => simp [ofUnits, isLeading_toNat, isTrailing_toNat]
    | cons c' cs =>
      rw [List.map_cons, List.map_cons] at *
      simp [ofUnits, isLeading_toNat, isTrailing_toNat, ih]

/-- What is written between quotes is read back. -/
theorem stringBody?_quote (s : String) (rest : List Char) :
    stringBody? (s.toList.flatMap escape ++ '"' :: rest) = some (some s, rest) := by
  rw [stringBody?, units_flatMap_escape, Option.map_some]
  dsimp only
  rw [ofUnits_map_toNat, Option.map_some, String.ofList_toList]

theorem toList_quote (s : String) (rest : List Char) :
    (quote s).toList ++ rest = '"' :: (s.toList.flatMap escape ++ '"' :: rest) := by
  simp [quote]

/-- What follows a number: nothing that could go on with it. -/
def Ends (rest : List Char) : Prop :=
  ∀ c ∈ rest.head?, c.isDigit = false ∧ c ≠ '.' ∧ c ≠ 'e' ∧ c ≠ 'E'

theorem ends_cons {c : Char} {rest : List Char}
    (h : c.isDigit = false ∧ c ≠ '.' ∧ c ≠ 'e' ∧ c ≠ 'E') : Ends (c :: rest) := by
  intro c' hc
  obtain rfl := Option.some.inj hc
  exact h

theorem ofDigits_toDigits (n : Nat) : ofDigits (Nat.toDigits 10 n) = n :=
  Nat.ofDigitChars_ten_toDigits

theorem head?_toDigits_ne {n : Nat} (hn : 0 < n) : (Nat.toDigits 10 n).head? ≠ some '0' := by
  induction n using Nat.strongRecOn with
  | ind n ih =>
    rcases Nat.lt_or_ge n 10 with hlt | hge
    · rw [Nat.toDigits_of_lt_base hlt]
      have hall : ∀ k < 10, 0 < k → [k.digitChar].head? ≠ some '0' := by decide
      exact hall n hlt hn
    · have hq : 0 < n / 10 := by omega
      have hne := ih (n / 10) (by omega) hq
      rw [Nat.toDigits_of_base_le (by omega) hge, List.head?_append]
      cases hh : (Nat.toDigits 10 (n / 10)).head? with
      | none => exact absurd (List.head?_eq_none_iff.mp hh) Nat.toDigits_ne_nil
      | some c => rwa [Option.some_or, ← hh]

theorem digits?_append {ds rest : List Char} (hne : ds ≠ []) (hds : ∀ c ∈ ds, c.isDigit)
    (hr : ∀ c ∈ rest.head?, c.isDigit = false) : digits? (ds ++ rest) = some (ds, rest) := by
  have hspan : (ds ++ rest).span Char.isDigit = (ds, rest) := by
    have hrest : rest.takeWhile Char.isDigit = [] ∧ rest.dropWhile Char.isDigit = rest := by
      cases rest with
      | nil => exact ⟨rfl, rfl⟩
      | cons c rest => simp [hr c rfl]
    rw [List.span_eq_takeWhile_dropWhile, List.takeWhile_append_of_pos hds,
      List.dropWhile_append_of_pos hds, hrest.1, hrest.2, List.append_nil]
  rw [digits?, hspan]
  cases ds with
  | nil => exact absurd rfl hne
  | cons d ds => rfl

theorem exponent?_of_ends {rest : List Char} (hr : Ends rest) :
    exponent? rest = some (none, rest) := by
  cases rest with
  | nil => rfl
  | cons c rest =>
    unfold exponent?
    refine if_neg ?_
    rintro (h | h)
    · exact (hr c rfl).2.2.1 h
    · exact (hr c rfl).2.2.2 h

theorem isDigit_of_mem_toDigits {n : Nat} : ∀ c ∈ Nat.toDigits 10 n, c.isDigit :=
  fun _ hc => Nat.isDigit_of_mem_toDigits (by decide) (by decide) hc

end CircuitForms.Json
