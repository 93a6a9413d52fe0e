import Marketplace.Binary64
import Mathlib.Data.Nat.Log

/-!
# Doubles

The rounding of `Binary64.nearest` with the bounds that the exponent of a double has: below
`2 ^ (-1022)` the last place stays where it is, and what is rounded to `2 ^ 1024` or more is
no finite double.

The decimals that a double is written with are the fewest that are read back as it
(`shortest`). Here that is done for integers, where it means to end with as many zeros as
possible.
-/

namespace Marketplace.Binary64

/-- The finite double closest to `x`, ties to even; none where it is beyond all of them. -/
def double (x : ℚ) : Option ℚ :=
  let y : ℚ :=
    if |x| < 2 ^ (-1022 : ℤ) then roundEven (x / 2 ^ (-1074 : ℤ)) * 2 ^ (-1074 : ℤ)
    else nearest x
  if |y| < 2 ^ (1024 : ℤ) then some y else none

/-- A natural number that is a double. -/
def Representable (n : ℕ) : Prop := double n = some (n : ℚ)

instance (n : ℕ) : Decidable (Representable n) :=
  inferInstanceAs (Decidable (double n = some (n : ℚ)))

theorem double_zero : double 0 = some 0 := by
  have hsmall : |(0 : ℚ)| < 2 ^ (-1022 : ℤ) := by
    rw [abs_zero]
    exact two_zpow_pos _
  have hround : roundEven 0 = 0 := roundEven_intCast 0
  have hbound : |(0 : ℚ)| < 2 ^ (1024 : ℤ) := by
    rw [abs_zero]
    exact two_zpow_pos _
  simp only [double, if_pos hsmall, zero_div, hround, Int.cast_zero, zero_mul, if_pos hbound]

/-- From `1` on nothing is small. -/
theorem not_small {x : ℚ} (h : 1 ≤ |x|) : ¬ |x| < 2 ^ (-1022 : ℤ) := by
  have hone : (2 : ℚ) ^ (-1022 : ℤ) ≤ 1 := zpow_le_one_of_nonpos₀ (by norm_num) (by norm_num)
  exact not_lt.mpr (hone.trans h)

/-- Natural numbers up to `2 ^ 53` are doubles. -/
theorem representable_of_lt {n : ℕ} (h : n < 2 ^ 53) : Representable n := by
  rcases n.eq_zero_or_pos with rfl | hpos
  · rw [Representable, Nat.cast_zero, double_zero]
  · have hone : (1 : ℚ) ≤ |(n : ℚ)| := by
      rw [Nat.abs_cast]
      exact_mod_cast hpos
    have hlog : Int.log 2 |(n : ℚ)| ≤ 52 := by
      have hlt : (n : ℚ) < ((2 : ℕ) : ℚ) ^ (53 : ℤ) := by exact_mod_cast h
      have := (Int.lt_zpow_iff_log_lt (b := 2) (by norm_num)
        (show (0 : ℚ) < n by exact_mod_cast hpos)).mp hlt
      rw [Nat.abs_cast]
      omega
    obtain ⟨d, hd⟩ : ∃ d : ℕ, ulpExp (n : ℚ) = -d := ⟨(-ulpExp (n : ℚ)).toNat, by
      rw [ulpExp]
      omega⟩
    have hself : nearest (n : ℚ) = n := by
      refine nearest_eq_self (k := n * 2 ^ d) ?_
      rw [hd, zpow_neg, zpow_natCast]
      push_cast
      rw [mul_assoc, mul_inv_cancel₀ (pow_ne_zero d (by norm_num)), mul_one]
    have hbound : |(n : ℚ)| < 2 ^ (1024 : ℤ) := by
      rw [Nat.abs_cast]
      calc (n : ℚ) < 2 ^ 53 := by exact_mod_cast h
        _ = 2 ^ (53 : ℤ) := by norm_num
        _ ≤ 2 ^ (1024 : ℤ) := zpow_le_zpow_right₀ (by norm_num) (by norm_num)
    simp only [Representable, double, if_neg (not_small hone), hself, if_pos hbound]

/-- What is small stays below `1`. -/
theorem small_lt_one {x : ℚ} (h : |x| < 2 ^ (-1022 : ℤ)) :
    |(roundEven (x / 2 ^ (-1074 : ℤ)) : ℚ) * 2 ^ (-1074 : ℤ)| < 1 := by
  have hu : (0 : ℚ) < 2 ^ (-1074 : ℤ) := two_zpow_pos _
  have hround : |(roundEven (x / 2 ^ (-1074 : ℤ)) : ℚ)| ≤ |x / 2 ^ (-1074 : ℤ)| + 1 / 2 := by
    have htriangle := abs_abs_sub_abs_le (roundEven (x / 2 ^ (-1074 : ℤ)) : ℚ) (x / 2 ^ (-1074 : ℤ))
    have hclose := abs_le.mp (htriangle.trans (abs_roundEven_sub_le _))
    linarith [hclose.2]
  calc |(roundEven (x / 2 ^ (-1074 : ℤ)) : ℚ) * 2 ^ (-1074 : ℤ)|
      = |(roundEven (x / 2 ^ (-1074 : ℤ)) : ℚ)| * 2 ^ (-1074 : ℤ) := by
        rw [abs_mul, abs_of_pos hu]
    _ ≤ (|x / 2 ^ (-1074 : ℤ)| + 1 / 2) * 2 ^ (-1074 : ℤ) :=
        mul_le_mul_of_nonneg_right hround hu.le
    _ = |x| + 1 / 2 * 2 ^ (-1074 : ℤ) := by
        rw [abs_div, abs_of_pos hu, add_mul, div_mul_cancel₀ _ hu.ne']
    _ < 2 ^ (-1 : ℤ) + 1 / 2 * 2 ^ (0 : ℤ) := by
        have hx : |x| < 2 ^ (-1 : ℤ) :=
          h.trans_le (zpow_le_zpow_right₀ (by norm_num) (by norm_num))
        have hlast : (2 : ℚ) ^ (-1074 : ℤ) ≤ 2 ^ (0 : ℤ) :=
          zpow_le_zpow_right₀ (by norm_num) (by norm_num)
        exact add_lt_add_of_lt_of_le hx (mul_le_mul_of_nonneg_left hlast (by norm_num))
    _ = 1 := by norm_num

/-- What a number is rounded to, if it is natural, is a double. -/
theorem representable_of_double {x : ℚ} {n : ℕ} (h : double x = some (n : ℚ)) :
    Representable n := by
  rcases n.eq_zero_or_pos with rfl | hpos
  · exact representable_of_lt (by norm_num)
  · have hone : (1 : ℚ) ≤ |(n : ℚ)| := by
      rw [Nat.abs_cast]
      exact_mod_cast hpos
    have hx : ¬ |x| < 2 ^ (-1022 : ℤ) := by
      intro hsmall
      simp only [double, if_pos hsmall] at h
      split_ifs at h
      have hlt := small_lt_one hsmall
      rw [Option.some.inj h] at hlt
      exact absurd hlt (not_lt.mpr hone)
    simp only [double, if_neg hx] at h
    split_ifs at h with hbound
    have hn : nearest x = n := Option.some.inj h
    have hself : nearest (n : ℚ) = n := by rw [← hn, nearest_nearest]
    simp only [Representable, double, if_neg (not_small hone), hself, if_pos (hn ▸ hbound)]

/-! ## The fewest decimals -/

/-- The last of the multiples of `10 ^ 0, …, 10 ^ e` next to `v` that is read back as `v`. -/
def shortestFrom (v : ℕ) : ℕ → ℕ
  | 0 => v
  | e + 1 =>
    let low := v / 10 ^ (e + 1) * 10 ^ (e + 1)
    let high := low + 10 ^ (e + 1)
    if double low = some (v : ℚ) ∧ (v - low ≤ high - v ∨ double high ≠ some (v : ℚ)) then low
    else if double high = some (v : ℚ) then high
    else shortestFrom v e

/-- Of the numbers that are read back as `v` the one with the most zeros at its end. -/
def shortest (v : ℕ) : ℕ := shortestFrom v (Nat.log 10 v + 1)

/-- **It is read back.** -/
theorem double_shortest {v : ℕ} (h : Representable v) : double (shortest v) = some (v : ℚ) := by
  rw [shortest]
  induction Nat.log 10 v + 1 with
  | zero => exact h
  | succ e ih =>
    rw [shortestFrom]
    split_ifs with hlow hhigh
    · exact hlow.1
    · exact hhigh
    · exact ih

example : shortest (2 ^ 60) = 1152921504606847000 := by decide +kernel

end Marketplace.Binary64
