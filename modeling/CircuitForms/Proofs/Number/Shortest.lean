import CircuitForms.Number.Shortest
import Mathlib

/-! # Shortest decimals are found

A grid no coarser than a quarter of the last place has a point that rounds to a double, and
the finest of the grids that are tried is that fine. So the shortest decimal of a double that
is not zero is not zero either.
-/

namespace CircuitForms.Number.Binary

variable {b : Binary} {tie : Tie} {k : Int} {d tries : Nat} {x : Float}

/-- Quarters of the last place, in a unit of which a grid has whole numbers too. -/
def quarters (b : Binary) (k : Int) (n : Nat) : Nat :=
  (n <<< (b.exponent - 2).toNat) * Nat.pow 10 (-k).toNat

def width (b : Binary) (k : Int) : Nat :=
  Nat.pow 10 k.toNat <<< (-(b.exponent - 2)).toNat

def rounds (b : Binary) (k : Int) (point : Nat) : Bool :=
  if b.significand % 2 = 0 then b.quarters k b.lower ≤ point && point ≤ b.quarters k b.upper
  else b.quarters k b.lower < point && point < b.quarters k b.upper

theorem quarters_eq (b : Binary) (k : Int) (n : Nat) : b.quarters k n = n * b.quarters k 1 := by
  simp only [quarters, Nat.shiftLeft_eq, Nat.one_mul]
  exact Nat.mul_assoc _ _ _

theorem quarters_one_pos (b : Binary) (k : Int) : 0 < b.quarters k 1 := by
  simp only [quarters, Nat.shiftLeft_eq, Nat.one_mul]
  exact Nat.mul_pos (by positivity) (Nat.pow_pos (by decide))

theorem width_pos (b : Binary) (k : Int) : 0 < b.width k := by
  rw [width, Nat.shiftLeft_eq]
  exact Nat.mul_pos (Nat.pow_pos (by decide)) (by positivity)

theorem onGrid?_cases (tie : Tie) (b : Binary) (k : Int) :
    b.onGrid? tie k = none ∧
        b.rounds k (b.quarters k (4 * b.significand) / b.width k * b.width k) = false ∨
      ∃ d, b.onGrid? tie k = some d ∧ b.rounds k (d * b.width k) = true := by
  have hboth : ∀ d e, e = d ∨ e = d + 1 → b.rounds k (d * b.width k) →
      b.rounds k ((d + 1) * b.width k) → b.rounds k (e * b.width k) := by
    rintro d e (rfl | rfl) h₀ h₁
    · exact h₀
    · exact h₁
  unfold onGrid?
  dsimp only
  split
  · rename_i h₀ h₁
    exact .inl ⟨rfl, h₀⟩
  · rename_i h₀ h₁
    exact .inr ⟨_, rfl, h₀⟩
  · rename_i h₀ h₁
    exact .inr ⟨_, rfl, h₁⟩
  · rename_i h₀ h₁
    refine .inr ?_
    cases tie <;> dsimp only <;> split_ifs <;> exact ⟨_, rfl, hboth _ _ (by omega) h₀ h₁⟩

theorem pos_of_rounds (hs : 0 < b.significand) (h : b.rounds k (d * b.width k)) : 0 < d := by
  refine Nat.pos_of_ne_zero fun hd => ?_
  have hlower : 0 < b.quarters k b.lower := by
    have hpos : 0 < b.lower := by
      rw [lower]
      split <;> omega
    rw [quarters_eq]
    exact Nat.mul_pos hpos (quarters_one_pos b k)
  rw [hd, Nat.zero_mul, rounds] at h
  split_ifs at h
  · simp only [Bool.and_eq_true, decide_eq_true_eq] at h
    omega
  · simp only [Bool.and_eq_true, decide_eq_true_eq] at h
    omega

theorem rounds_of_width_le (hs : 0 < b.significand) (h : b.width k ≤ b.quarters k 1) :
    b.rounds k (b.quarters k (4 * b.significand) / b.width k * b.width k) := by
  have hle := Nat.div_mul_le_self (b.quarters k (4 * b.significand)) (b.width k)
  have hlt := Nat.lt_div_mul_add (a := b.quarters k (4 * b.significand)) (width_pos b k)
  generalize b.quarters k (4 * b.significand) / b.width k * b.width k = point at hle hlt
  have hlower : b.quarters k b.lower + b.quarters k 1 ≤ b.quarters k (4 * b.significand) := by
    rw [quarters_eq b k b.lower, quarters_eq b k (4 * b.significand), ← Nat.succ_mul]
    refine Nat.mul_le_mul_right _ ?_
    rw [lower]
    split <;> omega
  have hupper : b.quarters k (4 * b.significand) < b.quarters k b.upper := by
    rw [quarters_eq b k b.upper, quarters_eq b k (4 * b.significand)]
    exact Nat.mul_lt_mul_of_pos_right (by rw [upper]; omega) (quarters_one_pos b k)
  rw [rounds]
  split_ifs
  · simp only [Bool.and_eq_true, decide_eq_true_eq]
    omega
  · simp only [Bool.and_eq_true, decide_eq_true_eq]
    omega

theorem exists_onGrid? (hs : 0 < b.significand) (h : b.width k ≤ b.quarters k 1) (tie : Tie) :
    ∃ d, b.onGrid? tie k = some d := by
  rcases onGrid?_cases tie b k with ⟨-, hnot⟩ | ⟨d, hd, -⟩
  · rw [rounds_of_width_le hs h] at hnot
    cases hnot
  · exact ⟨d, hd⟩

theorem search_pos (hs : 0 < b.significand) {j : Nat} (hj : j < tries)
    (h : b.width (k - j) ≤ b.quarters (k - j) 1) : 0 < (b.search tie tries k).digits := by
  induction tries generalizing k j with
  | zero => omega
  | succ tries ih =>
    rw [search]
    rcases onGrid?_cases tie b k with ⟨hnone, -⟩ | ⟨d, hd, hr⟩
    · rw [hnone]
      cases j with
      | zero =>
        obtain ⟨d, hd⟩ := exists_onGrid? hs (by simpa using h) tie
        cases hnone.symm.trans hd
      | succ j =>
        have hk : k - (j + 1 : Nat) = k - 1 - j := by omega
        exact ih (Nat.lt_of_succ_lt_succ hj) (hk ▸ h)
    · rw [hd]
      exact pos_of_rounds hs hr

theorem bounds_of_binary? (h : binary? x = some b) :
    b.significand < 2 ^ 53 ∧ -1074 ≤ b.exponent ∧ b.exponent ≤ 971 := by
  have hfield := Nat.mod_lt (x.toBits.toNat >>> 52) (show 0 < 1 <<< 11 by decide)
  have hfraction := Nat.mod_lt x.toBits.toNat (show 0 < 1 <<< 52 by decide)
  simp only [binary?] at h
  generalize (x.toBits.toNat >>> 52) % (1 <<< 11) = field at h hfield
  generalize x.toBits.toNat % (1 <<< 52) = fraction at h hfraction
  split_ifs at h
  · obtain rfl := Option.some.inj h
    dsimp only
    omega
  · obtain rfl := Option.some.inj h
    have hcast : Int.ofNat field = (field : Int) := rfl
    dsimp only
    omega

/-- A power of ten is no more than a quarter of the last place if it lies low enough: `10 ^ 3` is
less than `2 ^ 10`, and `10 ^ 28` is more than `2 ^ 93`. -/
theorem width_le_quarters (hup : 10 * k ≤ 3 * (b.exponent - 2))
    (hdown : 93 * k ≤ 28 * (b.exponent - 2)) : b.width k ≤ b.quarters k 1 := by
  rw [width, quarters, Nat.shiftLeft_eq, Nat.shiftLeft_eq, Nat.one_mul]
  change 10 ^ k.toNat * 2 ^ (-(b.exponent - 2)).toNat ≤ 2 ^ (b.exponent - 2).toNat * 10 ^ (-k).toNat
  generalize b.exponent - 2 = place at hup hdown
  -- Up, `10 ^ 3 ≤ 2 ^ 10` is enough; down, `2 ^ 93 ≤ 10 ^ 28` is.
  rcases le_total 0 k with hk | hk
  · have hcube : (10 ^ k.toNat) ^ 3 ≤ (2 ^ place.toNat) ^ 3 :=
      calc (10 ^ k.toNat) ^ 3 = (10 ^ 3) ^ k.toNat := by rw [← pow_mul, mul_comm, pow_mul]
        _ ≤ (2 ^ 10) ^ k.toNat := Nat.pow_le_pow_left (by decide) _
        _ = 2 ^ (10 * k.toNat) := by rw [pow_mul]
        _ ≤ 2 ^ (place.toNat * 3) := Nat.pow_le_pow_right (by decide) (by omega)
        _ = (2 ^ place.toNat) ^ 3 := by rw [pow_mul]
    have hle := (Nat.pow_le_pow_iff_left (by decide)).mp hcube
    have hplace : (-place).toNat = 0 := by omega
    have hneg : (-k).toNat = 0 := by omega
    rwa [hplace, hneg, pow_zero, pow_zero, mul_one, mul_one]
  · have hroot : (2 ^ (-place).toNat) ^ 28 ≤ (2 ^ place.toNat * 10 ^ (-k).toNat) ^ 28 :=
      calc (2 ^ (-place).toNat) ^ 28 = 2 ^ ((-place).toNat * 28) := by rw [pow_mul]
        _ ≤ 2 ^ (93 * (-k).toNat) := Nat.pow_le_pow_right (by decide) (by omega)
        _ = (2 ^ 93) ^ (-k).toNat := by rw [pow_mul]
        _ ≤ (10 ^ 28) ^ (-k).toNat := Nat.pow_le_pow_left (by decide) _
        _ = (10 ^ (-k).toNat) ^ 28 := by rw [← pow_mul, mul_comm, pow_mul]
        _ ≤ (2 ^ place.toNat * 10 ^ (-k).toNat) ^ 28 :=
          Nat.pow_le_pow_left (Nat.le_mul_of_pos_left _ (by positivity)) _
    have hle := (Nat.pow_le_pow_iff_left (by decide)).mp hroot
    have hpos : k.toNat = 0 := by omega
    rwa [hpos, pow_zero, one_mul]

/-- The shortest decimal of a double that is not zero is not zero. -/
theorem shortest_pos (h : binary? x = some b) (hs : 0 < b.significand) (tie : Tie) :
    0 < (b.shortest tie).digits := by
  obtain ⟨hlt, hlow, hhigh⟩ := bounds_of_binary? h
  have hlog : b.significand.log2 ≤ 52 :=
    Nat.le_of_lt_succ ((Nat.log2_lt hs.ne').mpr hlt)
  refine search_pos (j := 23) hs (by decide) (width_le_quarters ?_ ?_)
  · rw [coarsest]
    omega
  · rw [coarsest]
    omega

end CircuitForms.Number.Binary
