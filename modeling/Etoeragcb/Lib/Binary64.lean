import Mathlib.Algebra.Order.Field.Power
import Mathlib.Data.Int.Log
import Mathlib.Data.Rat.Floor
import Mathlib.Tactic.Linarith
import Mathlib.Tactic.NormNum
import Mathlib.Tactic.Positivity
import Mathlib.Tactic.Ring

/-!
# Rounding to doubles

A floating-point operation yields the double that is nearest to its exact result, and of two such ones the one with an
even significand. The exact results are rational numbers, and none of them is so large that it overflows.
-/

namespace Etoeragcb.Lib

/-! ## The nearest integer -/

/-- The nearest integer, and of two such ones the even one. -/
def roundEven (q : ℚ) : ℤ :=
  if q - q.floor < 1 / 2 ∨ (q - q.floor = 1 / 2 ∧ q.floor % 2 = 0) then q.floor else q.floor + 1

variable {q r : ℚ}

theorem roundEven_spec (q : ℚ) : 2 * q - 1 ≤ 2 * roundEven q ∧ 2 * (roundEven q : ℚ) ≤ 2 * q + 1 := by
  have hlo : (q.floor : ℚ) ≤ q := Rat.floor_le q
  have hhi : q < q.floor + 1 := by exact_mod_cast Rat.lt_floor_add_one q
  unfold roundEven
  split
  · rename_i h
    refine ⟨?_, by linarith⟩
    rcases h with h | ⟨h, -⟩ <;> linarith
  · rename_i h
    rw [not_or, not_lt] at h
    push_cast
    exact ⟨by linarith, by linarith [h.1]⟩

@[simp]
theorem roundEven_intCast (n : ℤ) : roundEven n = n := by
  rw [roundEven, Rat.floor_intCast, sub_self, if_pos (Or.inl (by norm_num))]

theorem roundEven_of_near {n : ℤ} (h : 2 * |q - n| < 1) : roundEven q = n := by
  obtain ⟨hlo, hhi⟩ := roundEven_spec q
  obtain ⟨hn, hn'⟩ := abs_lt.mp (show |q - n| < 1 / 2 by linarith)
  have h₁ : (n : ℚ) - 1 < roundEven q := by linarith
  have h₂ : (roundEven q : ℚ) < n + 1 := by linarith
  have h₁' : n - 1 < roundEven q := by exact_mod_cast h₁
  have h₂' : roundEven q < n + 1 := by exact_mod_cast h₂
  omega

theorem roundEven_mono (h : q ≤ r) : roundEven q ≤ roundEven r := by
  have hfloor := Rat.floor_monotone h
  rcases hfloor.lt_or_eq with hlt | heq
  · -- there is an integer between the two
    have h₁ : roundEven q ≤ q.floor + 1 := by
      unfold roundEven
      split <;> omega
    have h₂ : r.floor ≤ roundEven r := by
      unfold roundEven
      split <;> omega
    omega
  · unfold roundEven
    rw [← heq]
    split
    · split <;> omega
    · rename_i hup
      rw [if_neg]
      intro hdown
      rw [not_or, not_lt, not_and] at hup
      rcases hdown with hdown | ⟨hhalf, heven⟩
      · linarith [hup.1]
      · exact hup.2 (le_antisymm (by linarith) hup.1) heven

theorem roundEven_le {n : ℤ} (h : q ≤ n) : roundEven q ≤ n := by
  have hmono := roundEven_mono h
  rwa [roundEven_intCast] at hmono

theorem le_roundEven {n : ℤ} (h : n ≤ q) : n ≤ roundEven q := by
  have hmono := roundEven_mono h
  rwa [roundEven_intCast] at hmono

namespace Binary64

/-! ## Doubles -/

/-- The exponent of the last place of a value. -/
def lastPlace (q : ℚ) : ℤ := max (Int.log 2 |q| - 52) (-1074)

/-- The double that is nearest to a value. -/
def round (q : ℚ) : ℚ := roundEven (q / 2 ^ lastPlace q) * 2 ^ lastPlace q

/-- A value with a significand of 53 bits. -/
def IsDouble (q : ℚ) : Prop := ∃ k m : ℤ, |k| ≤ 2 ^ 53 ∧ -1074 ≤ m ∧ q = k * 2 ^ m

theorem two_zpow_pos (m : ℤ) : (0 : ℚ) < 2 ^ m := zpow_pos zero_lt_two m

theorem two_zpow_le {m n : ℤ} : (2 : ℚ) ^ m ≤ 2 ^ n ↔ m ≤ n := zpow_le_zpow_iff_right₀ one_lt_two

theorem two_zpow_add (m n : ℤ) : (2 : ℚ) ^ (m + n) = 2 ^ m * 2 ^ n := zpow_add₀ two_ne_zero m n

theorem lt_lastPlace (q : ℚ) : |q| < 2 ^ 53 * 2 ^ lastPlace q := by
  have hlog : |q| < 2 ^ (Int.log 2 |q| + 1) := Int.lt_zpow_succ_log_self one_lt_two |q|
  have hle : Int.log 2 |q| + 1 ≤ lastPlace q + 53 := by
    unfold lastPlace
    omega
  rw [mul_comm, ← zpow_natCast, ← two_zpow_add]
  exact hlog.trans_le (two_zpow_le.mpr hle)

theorem lastPlace_le (h : -1074 < lastPlace q) (hq : q ≠ 0) : 2 ^ 52 * 2 ^ lastPlace q ≤ |q| := by
  have hlog : 2 ^ Int.log 2 |q| ≤ |q| := Int.zpow_log_le_self one_lt_two (abs_pos.mpr hq)
  have hplace : lastPlace q + 52 = Int.log 2 |q| := by
    unfold lastPlace at h ⊢
    omega
  rw [mul_comm, ← zpow_natCast, ← two_zpow_add]
  exact hplace ▸ hlog

@[simp]
theorem round_zero : round 0 = 0 := by
  have h := roundEven_intCast 0
  rw [Int.cast_zero] at h
  rw [round, zero_div, h, Int.cast_zero, zero_mul]

theorem round_of_multiple {k : ℤ} (h : q = k * 2 ^ lastPlace q) : round q = q := by
  have hdiv : q / 2 ^ lastPlace q = k := by
    rw [div_eq_iff (two_zpow_pos _).ne']
    exact h
  rw [round, hdiv, roundEven_intCast, ← h]

theorem round_of_isDouble (h : IsDouble q) : round q = q := by
  obtain ⟨k, m, hk, hm, he⟩ := h
  by_cases hq : q = 0
  · rw [hq, round_zero]
  have hmultiple : ∀ {n : ℕ}, m = lastPlace q + n → round q = q := by
    intro n hn
    refine round_of_multiple (k := k * 2 ^ n) ?_
    rw [hn, two_zpow_add, zpow_natCast] at he
    push_cast
    rw [mul_assoc, mul_comm (2 ^ n), ← he]
  have habs : |q| = |k| * 2 ^ m := by rw [he, abs_mul, abs_of_pos (two_zpow_pos m), Int.cast_abs]
  have hk' : ((|k| : ℤ) : ℚ) ≤ 2 ^ 53 := by exact_mod_cast hk
  by_cases hplace : lastPlace q ≤ m
  · exact hmultiple (n := (m - lastPlace q).toNat) (by omega)
  · -- only a power of two reaches the next place
    have hle := lastPlace_le (by omega) hq
    have hnext : (2 : ℚ) ^ (m + 1) ≤ 2 ^ lastPlace q := two_zpow_le.mpr (by omega)
    rw [two_zpow_add, zpow_one] at hnext
    have hpos := two_zpow_pos m
    have hupper : |q| ≤ 2 ^ 53 * 2 ^ m := by
      rw [habs]
      exact mul_le_mul_of_nonneg_right hk' hpos.le
    have hplace' : (2 : ℚ) ^ lastPlace q = 2 ^ m * 2 := by linarith
    have hfull : ((|k| : ℤ) : ℚ) = 2 ^ 53 := by
      refine le_antisymm hk' (le_of_mul_le_mul_right ?_ hpos)
      rw [← habs]
      linarith
    have hfull' : |k| = 2 ^ 53 := by exact_mod_cast hfull
    obtain ⟨half, rfl⟩ : ∃ half, k = half * 2 := by
      rcases abs_eq (by norm_num : (0 : ℤ) ≤ 2 ^ 53) |>.mp hfull' with rfl | rfl
      · exact ⟨2 ^ 52, by norm_num⟩
      · exact ⟨-2 ^ 52, by norm_num⟩
    refine round_of_multiple (k := half) ?_
    rw [hplace', he]
    push_cast
    ring

theorem isDouble_round (q : ℚ) : IsDouble (round q) := by
  refine ⟨roundEven (q / 2 ^ lastPlace q), lastPlace q, ?_, le_max_right _ _, rfl⟩
  have hlt : |q / 2 ^ lastPlace q| ≤ 2 ^ 53 := by
    rw [abs_div, abs_of_pos (two_zpow_pos _), div_le_iff₀ (two_zpow_pos _)]
    exact (lt_lastPlace q).le
  obtain ⟨hlo, hhi⟩ := abs_le.mp hlt
  exact abs_le.mpr ⟨le_roundEven (by push_cast; exact hlo), roundEven_le (by push_cast; exact hhi)⟩

theorem isDouble_two_mul (h : IsDouble q) : IsDouble (2 * q) := by
  obtain ⟨k, m, hk, hm, rfl⟩ := h
  refine ⟨k, m + 1, hk, by omega, ?_⟩
  rw [two_zpow_add, zpow_one]
  ring

theorem isDouble_intCast {n : ℤ} (h : |n| ≤ 2 ^ 53) : IsDouble n := ⟨n, 0, h, by norm_num, by rw [zpow_zero, mul_one]⟩

theorem isDouble_zero : IsDouble 0 := by
  have h := isDouble_intCast (n := 0) (by norm_num)
  rwa [Int.cast_zero] at h

@[simp]
theorem round_one : round 1 = 1 := by
  have h := round_of_isDouble (isDouble_intCast (n := 1) (by norm_num))
  rwa [Int.cast_one] at h

/-! ## Order and error -/

theorem round_mono (hq : 0 ≤ q) (h : q ≤ r) : round q ≤ round r := by
  rcases hq.eq_or_lt with rfl | hpos
  · rw [round_zero]
    have hnonneg : 0 ≤ roundEven (r / 2 ^ lastPlace r) :=
      le_roundEven (by rw [Int.cast_zero]; exact div_nonneg h (two_zpow_pos _).le)
    exact mul_nonneg (by exact_mod_cast hnonneg) (two_zpow_pos _).le
  have hpos' : 0 < r := hpos.trans_le h
  have hplace : lastPlace q ≤ lastPlace r := by
    have hlog : Int.log 2 |q| ≤ Int.log 2 |r| := by
      rw [abs_of_pos hpos, abs_of_pos hpos']
      exact Int.log_mono_right hpos h
    unfold lastPlace
    omega
  rcases hplace.lt_or_eq with hlt | heq
  · -- a power of two lies between the two
    have hup : round q ≤ 2 ^ 53 * 2 ^ lastPlace q := by
      have hlt' := (lt_lastPlace q).le
      rw [abs_of_pos hpos, ← div_le_iff₀ (two_zpow_pos _)] at hlt'
      have hround : roundEven (q / 2 ^ lastPlace q) ≤ 2 ^ 53 := roundEven_le (by push_cast; exact hlt')
      exact mul_le_mul_of_nonneg_right (by exact_mod_cast hround) (two_zpow_pos _).le
    have hdown : 2 ^ 52 * 2 ^ lastPlace r ≤ round r := by
      have hmin : -1074 ≤ lastPlace q := le_max_right _ _
      have hle := lastPlace_le (by omega) hpos'.ne'
      rw [abs_of_pos hpos', ← le_div_iff₀ (two_zpow_pos _)] at hle
      have hround : 2 ^ 52 ≤ roundEven (r / 2 ^ lastPlace r) := le_roundEven (by push_cast; exact hle)
      exact mul_le_mul_of_nonneg_right (by exact_mod_cast hround) (two_zpow_pos _).le
    have hnext : (2 : ℚ) ^ (lastPlace q + 1) ≤ 2 ^ lastPlace r := two_zpow_le.mpr (by omega)
    rw [two_zpow_add, zpow_one] at hnext
    linarith
  · rw [round, round, ← heq]
    refine mul_le_mul_of_nonneg_right ?_ (two_zpow_pos _).le
    exact_mod_cast roundEven_mono (div_le_div_of_nonneg_right h (two_zpow_pos _).le)

theorem round_nonneg (h : 0 ≤ q) : 0 ≤ round q := by
  have hround := round_mono le_rfl h
  rwa [round_zero] at hround

theorem round_le_one (h : 0 ≤ q) (h' : q ≤ 1) : round q ≤ 1 := by
  have hround := round_mono h h'
  rwa [round_one] at hround

theorem abs_round_sub_le (q : ℚ) : |round q - q| ≤ 2 ^ lastPlace q / 2 := by
  have hpos := two_zpow_pos (lastPlace q)
  obtain ⟨hlo, hhi⟩ := roundEven_spec (q / 2 ^ lastPlace q)
  have hq : q = q / 2 ^ lastPlace q * 2 ^ lastPlace q := (div_mul_cancel₀ q hpos.ne').symm
  have herror : |(roundEven (q / 2 ^ lastPlace q) : ℚ) - q / 2 ^ lastPlace q| ≤ 1 / 2 :=
    abs_le.mpr ⟨by linarith, by linarith⟩
  calc |round q - q| = |((roundEven (q / 2 ^ lastPlace q) : ℚ) - q / 2 ^ lastPlace q) * 2 ^ lastPlace q| := by
        rw [sub_mul, ← hq, round]
    _ = |(roundEven (q / 2 ^ lastPlace q) : ℚ) - q / 2 ^ lastPlace q| * 2 ^ lastPlace q := by
        rw [abs_mul, abs_of_pos hpos]
    _ ≤ 1 / 2 * 2 ^ lastPlace q := mul_le_mul_of_nonneg_right herror hpos.le
    _ = 2 ^ lastPlace q / 2 := by ring

theorem abs_round_sub_le_of_le_two (h : 0 ≤ q) (h' : q ≤ 2) : |round q - q| ≤ 1 / 2 ^ 53 := by
  rcases h'.eq_or_lt with rfl | hlt
  · have htwo := round_of_isDouble (isDouble_intCast (n := 2) (by norm_num))
    rw [Int.cast_ofNat] at htwo
    rw [htwo, sub_self, abs_zero]
    positivity
  · have hlog : Int.log 2 |q| ≤ 0 := by
      rcases h.eq_or_lt with rfl | hpos
      · rw [abs_zero, Int.log_zero_right]
      · rw [abs_of_pos hpos, ← Int.lt_add_one_iff, zero_add]
        exact (Int.lt_zpow_iff_log_lt one_lt_two hpos).mp (by rw [zpow_one]; exact hlt)
    have hplace : lastPlace q ≤ -52 := by
      unfold lastPlace
      omega
    have hpow : (2 : ℚ) ^ lastPlace q ≤ 2 ^ (-52 : ℤ) := two_zpow_le.mpr hplace
    refine (abs_round_sub_le q).trans ?_
    norm_num at hpow ⊢
    linarith

end Binary64

end Etoeragcb.Lib
