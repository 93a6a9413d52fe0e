import Mathlib.Algebra.Order.Round
import Mathlib.Data.Int.Log
import Mathlib.Data.Rat.Floor
import Mathlib.Tactic.FieldSimp
import Mathlib.Tactic.Linarith
import Mathlib.Tactic.Positivity
import Mathlib.Tactic.Ring

/-!
# Binary64 rounding over the rationals

`nearest x` is the 53-bit binary floating-point number closest to `x`, ties to
the even significand. The exponent is unbounded: the results are those of IEEE
binary64 as long as no value overflows or is subnormal, which amounts of money
between a cent and `2 ^ 65` never are.

Three facts are used elsewhere: the relative error of one rounding is at most
`2 ^ (-53)` (`abs_nearest_sub_le`), rounding a number of the format gives it
back (`nearest_nearest`), and rounding keeps the order (`nearest_mono`).
-/

namespace Marketplace

namespace Binary64

/-- The nearest integer, ties to even. -/
def roundEven (x : ℚ) : ℤ :=
  if x - ⌊x⌋ = 1 / 2 ∧ ⌊x⌋ % 2 = 0 then ⌊x⌋ else round x

theorem abs_roundEven_sub_le (x : ℚ) : |(roundEven x : ℚ) - x| ≤ 1 / 2 := by
  unfold roundEven
  split_ifs with h
  · have : (⌊x⌋ : ℚ) - x = -(1 / 2) := by linarith [h.1]
    rw [this, abs_neg, abs_of_nonneg (by norm_num)]
  · rw [abs_sub_comm]
    exact abs_sub_round x

@[simp] theorem roundEven_intCast (n : ℤ) : roundEven (n : ℚ) = n := by
  unfold roundEven
  rw [Int.floor_intCast, sub_self, if_neg (by norm_num), round_intCast]

/-- The exponent of the last place of the significand of `x`. -/
def ulpExp (x : ℚ) : ℤ := Int.log 2 |x| - 52

/-- The binary64 number closest to `x`, ties to even. -/
def nearest (x : ℚ) : ℚ :=
  if x = 0 then 0 else roundEven (x / 2 ^ ulpExp x) * 2 ^ ulpExp x

@[simp] theorem nearest_zero : nearest 0 = 0 := if_pos rfl

theorem two_zpow_pos (e : ℤ) : (0 : ℚ) < 2 ^ e := zpow_pos (by norm_num) e

/-- The last place of `x` is at most `2 ^ (-52)` of it. -/
theorem ulp_le {x : ℚ} (hx : x ≠ 0) : (2 : ℚ) ^ ulpExp x ≤ |x| / 2 ^ (52 : ℤ) := by
  rw [ulpExp, zpow_sub₀ (by norm_num)]
  have hlog : ((2 : ℕ) : ℚ) ^ Int.log 2 |x| ≤ |x| :=
    Int.zpow_log_le_self (by norm_num) (abs_pos.mpr hx)
  push_cast at hlog
  gcongr

/-- **One rounding**: the relative error is at most `2 ^ (-53)`. -/
theorem abs_nearest_sub_le (x : ℚ) : |nearest x - x| ≤ |x| / 2 ^ (53 : ℤ) := by
  by_cases hx : x = 0
  · subst hx
    norm_num
  · have hu := two_zpow_pos (ulpExp x)
    have hsplit : nearest x - x
        = ((roundEven (x / 2 ^ ulpExp x) : ℚ) - x / 2 ^ ulpExp x) * 2 ^ ulpExp x := by
      rw [nearest, if_neg hx, sub_mul, div_mul_cancel₀ _ hu.ne']
    calc |nearest x - x|
        = |(roundEven (x / 2 ^ ulpExp x) : ℚ) - x / 2 ^ ulpExp x| * 2 ^ ulpExp x := by
          rw [hsplit, abs_mul, abs_of_pos hu]
      _ ≤ 1 / 2 * (|x| / 2 ^ (52 : ℤ)) := by
          gcongr
          · exact abs_roundEven_sub_le _
          · exact ulp_le hx
      _ = |x| / 2 ^ (53 : ℤ) := by norm_num; ring

/-- The rounding of a non-negative number is non-negative. -/
theorem nearest_nonneg {x : ℚ} (hx : 0 ≤ x) : 0 ≤ nearest x := by
  have h := abs_le.mp (abs_nearest_sub_le x)
  rw [abs_of_nonneg hx] at h
  have hsmall : x / 2 ^ (53 : ℤ) ≤ x := by
    apply div_le_self hx
    norm_num
  linarith [h.1]

/-- A number whose last place divides it is rounded to itself. -/
theorem nearest_eq_self {x : ℚ} {k : ℤ} (h : x = k * 2 ^ ulpExp x) : nearest x = x := by
  by_cases hx : x = 0
  · rw [hx, nearest_zero]
  · have hk : x / 2 ^ ulpExp x = k := by
      rw [div_eq_iff (two_zpow_pos _).ne']
      exact h
    rw [nearest, if_neg hx, hk, roundEven_intCast]
    exact h.symm

/-! ### Rounding twice -/

theorem log_eq_of_le_of_lt {r : ℚ} {z : ℤ} (h₁ : 2 ^ z ≤ r) (h₂ : r < 2 ^ (z + 1)) :
    Int.log 2 r = z := by
  have hr : 0 < r := lt_of_lt_of_le (two_zpow_pos z) h₁
  apply le_antisymm
  · have := (Int.lt_zpow_iff_log_lt (b := 2) (by norm_num) hr).mp (by exact_mod_cast h₂)
    omega
  · exact (Int.zpow_le_iff_le_log (b := 2) (by norm_num) hr).mp (by exact_mod_cast h₁)

/-- The significand lies in `[2 ^ 52, 2 ^ 53]`: rounding up may carry. -/
theorem significand_bounds {x : ℚ} (hx : x ≠ 0) :
    2 ^ 52 ≤ |roundEven (x / 2 ^ ulpExp x)| ∧ |roundEven (x / 2 ^ ulpExp x)| ≤ 2 ^ 53 := by
  set y := x / 2 ^ ulpExp x with hy
  have hu := two_zpow_pos (ulpExp x)
  have hpos : 0 < |x| := abs_pos.mpr hx
  have hlo : (2 : ℚ) ^ 52 ≤ |y| := by
    rw [hy, abs_div, abs_of_pos hu, le_div_iff₀ hu]
    calc (2 : ℚ) ^ 52 * 2 ^ ulpExp x = 2 ^ Int.log 2 |x| := by
          rw [ulpExp, zpow_sub₀ (by norm_num)]
          norm_num
          ring
      _ ≤ |x| := by exact_mod_cast Int.zpow_log_le_self (b := 2) (by norm_num) hpos
  have hhi : |y| < (2 : ℚ) ^ 53 := by
    rw [hy, abs_div, abs_of_pos hu, div_lt_iff₀ hu]
    calc |x| < 2 ^ (Int.log 2 |x| + 1) := by
          exact_mod_cast Int.lt_zpow_succ_log_self (b := 2) (by norm_num) |x|
      _ = (2 : ℚ) ^ 53 * 2 ^ ulpExp x := by
          rw [ulpExp, zpow_sub₀ (by norm_num), zpow_add₀ (by norm_num)]
          norm_num
          ring
  -- the quotient has 53 bits, and rounding it moves it by half a unit at most
  have herr := abs_le.mp (abs_roundEven_sub_le y)
  have hround : |(roundEven y : ℚ)| ≤ |y| + 1 / 2 ∧ |y| - 1 / 2 ≤ |(roundEven y : ℚ)| := by
    have h₁ := abs_abs_sub_abs_le (roundEven y : ℚ) y
    have h₂ := abs_le.mp (h₁.trans (abs_roundEven_sub_le y))
    constructor <;> linarith [h₂.1, h₂.2]
  constructor
  · have : (2 : ℚ) ^ 52 - 1 < |(roundEven y : ℚ)| := by linarith [hround.2]
    have hcast : (2 ^ 52 - 1 : ℤ) < |roundEven y| := by exact_mod_cast this
    omega
  · have : |(roundEven y : ℚ)| < (2 : ℚ) ^ 53 + 1 := by linarith [hround.1]
    have hcast : |roundEven y| < (2 ^ 53 + 1 : ℤ) := by exact_mod_cast this
    omega

/-- A number of the format is rounded to itself. -/
@[simp] theorem nearest_nearest (x : ℚ) : nearest (nearest x) = nearest x := by
  by_cases hx : x = 0
  · rw [hx, nearest_zero, nearest_zero]
  · set m := roundEven (x / 2 ^ ulpExp x) with hm
    set e := ulpExp x with he
    have hval : nearest x = m * 2 ^ e := by
      rw [nearest, if_neg hx]
    have hu := two_zpow_pos e
    obtain ⟨hlo, hhi⟩ := significand_bounds hx
    rw [← he, ← hm] at hlo hhi
    have habs : |nearest x| = (|m| : ℤ) * 2 ^ e := by
      rw [hval, abs_mul, abs_of_pos hu, Int.cast_abs]
    have hloq : ((2 : ℚ) ^ 52) ≤ ((|m| : ℤ) : ℚ) := by exact_mod_cast hlo
    rcases eq_or_lt_of_le hhi with hcarry | hlt
    · -- the significand carried: the last place moved up by one
      have hulp : ulpExp (nearest x) = e + 1 := by
        rw [ulpExp, log_eq_of_le_of_lt (z := e + 53)]
        · ring
        · rw [habs, hcarry, zpow_add₀ (by norm_num)]
          push_cast
          linarith
        · rw [habs, hcarry, show e + 53 + 1 = e + 54 by ring, zpow_add₀ (by norm_num)]
          push_cast
          nlinarith [hu]
      have hhalf : ∃ k : ℤ, m = 2 * k := by
        rcases abs_eq (by norm_num : (0 : ℤ) ≤ 2 ^ 53) |>.mp hcarry with h | h
        · exact ⟨2 ^ 52, by rw [h]; norm_num⟩
        · exact ⟨-2 ^ 52, by rw [h]; norm_num⟩
      obtain ⟨k, hk⟩ := hhalf
      apply nearest_eq_self (k := k)
      rw [hulp, hval, hk, zpow_add₀ (by norm_num)]
      push_cast
      ring
    · have hltq : ((|m| : ℤ) : ℚ) < (2 : ℚ) ^ 53 := by exact_mod_cast hlt
      have hulp : ulpExp (nearest x) = e := by
        rw [ulpExp, log_eq_of_le_of_lt (z := e + 52)]
        · ring
        · rw [habs, zpow_add₀ (by norm_num), mul_comm]
          norm_num at hloq ⊢
          exact mul_le_mul_of_nonneg_right hloq hu.le
        · rw [habs, show e + 52 + 1 = e + 53 by ring, zpow_add₀ (by norm_num), mul_comm]
          norm_num at hltq ⊢
          exact mul_lt_mul_of_pos_left hltq hu
      apply nearest_eq_self (k := m)
      rw [hulp, hval]

/-! ### Rounding keeps the order -/

theorem floor_le_roundEven (x : ℚ) : ⌊x⌋ ≤ roundEven x ∧ roundEven x ≤ ⌊x⌋ + 1 := by
  obtain ⟨hlo, hhi⟩ := abs_le.mp (abs_roundEven_sub_le x)
  have hfloor := Int.floor_le x
  have hceil := Int.lt_floor_add_one x
  have h₁ : ((⌊x⌋ : ℤ) : ℚ) < roundEven x + 1 := by linarith
  have h₂ : (roundEven x : ℚ) < ((⌊x⌋ + 2 : ℤ) : ℚ) := by
    push_cast
    linarith
  have h₁' : ⌊x⌋ < roundEven x + 1 := by exact_mod_cast h₁
  have h₂' : roundEven x < ⌊x⌋ + 2 := by exact_mod_cast h₂
  omega

theorem roundEven_mono {x y : ℚ} (h : x ≤ y) : roundEven x ≤ roundEven y := by
  rcases (Int.floor_mono h).eq_or_lt with hfloor | hfloor
  · by_cases hy : y - ⌊y⌋ = 1 / 2 ∧ ⌊y⌋ % 2 = 0
    · -- the larger one is a tie that goes down
      have hround : roundEven y = ⌊y⌋ := if_pos hy
      rw [hround, ← hfloor]
      by_cases hx : x - ⌊x⌋ = 1 / 2 ∧ ⌊x⌋ % 2 = 0
      · exact (if_pos hx).le
      · have hlt : x - ⌊x⌋ < 1 / 2 := by
          refine lt_of_le_of_ne ?_ fun heq => hx ⟨heq, hfloor ▸ hy.2⟩
          rw [hfloor]
          linarith [hy.1]
        have hclose : (roundEven x : ℚ) < ((⌊x⌋ + 1 : ℤ) : ℚ) := by
          have herr := (abs_le.mp (abs_roundEven_sub_le x)).2
          push_cast
          linarith
        have hcast : roundEven x < ⌊x⌋ + 1 := by exact_mod_cast hclose
        omega
    · have hround : roundEven y = round y := if_neg hy
      rw [hround]
      unfold roundEven
      split_ifs with hx
      · rw [hfloor, round_eq]
        exact Int.floor_mono (by linarith)
      · rw [round_eq, round_eq]
        exact Int.floor_mono (by linarith)
  · have hx := (floor_le_roundEven x).2
    have hy := (floor_le_roundEven y).1
    omega

/-- **Rounding keeps the order.** -/
theorem nearest_mono {x y : ℚ} (hx : 0 ≤ x) (h : x ≤ y) : nearest x ≤ nearest y := by
  rcases hx.eq_or_lt with rfl | hx
  · rw [nearest_zero]
    exact nearest_nonneg h
  have hy : 0 < y := hx.trans_le h
  have hlog : Int.log 2 |x| ≤ Int.log 2 |y| := by
    rw [abs_of_pos hx, abs_of_pos hy]
    exact Int.log_mono_right hx h
  have hval : ∀ {z : ℚ}, 0 < z → nearest z = roundEven (z / 2 ^ ulpExp z) * 2 ^ ulpExp z :=
    fun hz => if_neg hz.ne'
  rw [hval hx, hval hy]
  rcases hlog.eq_or_lt with heq | hlt
  · -- the same last place
    have hulp : ulpExp x = ulpExp y := by rw [ulpExp, ulpExp, heq]
    rw [hulp]
    have hpos := two_zpow_pos (ulpExp y)
    have hround : roundEven (x / 2 ^ ulpExp y) ≤ roundEven (y / 2 ^ ulpExp y) :=
      roundEven_mono ((div_le_div_iff_of_pos_right hpos).mpr h)
    exact mul_le_mul_of_nonneg_right (by exact_mod_cast hround) hpos.le
  · -- a power of two lies between them
    have hstep : ulpExp x + 53 ≤ ulpExp y + 52 := by
      rw [ulpExp, ulpExp]
      omega
    have hup := (le_abs_self _).trans (significand_bounds hx.ne').2
    have hlow : 2 ^ 52 ≤ roundEven (y / 2 ^ ulpExp y) := by
      have hnonneg : 0 ≤ roundEven (y / 2 ^ ulpExp y) :=
        (Int.floor_nonneg.mpr (div_nonneg hy.le (two_zpow_pos _).le)).trans
          (floor_le_roundEven _).1
      have hbound := (significand_bounds hy.ne').1
      rwa [abs_of_nonneg hnonneg] at hbound
    have hupq : (roundEven (x / 2 ^ ulpExp x) : ℚ) ≤ 2 ^ (53 : ℤ) := by exact_mod_cast hup
    have hlowq : (2 : ℚ) ^ (52 : ℤ) ≤ roundEven (y / 2 ^ ulpExp y) := by exact_mod_cast hlow
    calc (roundEven (x / 2 ^ ulpExp x) : ℚ) * 2 ^ ulpExp x
        ≤ 2 ^ (53 : ℤ) * 2 ^ ulpExp x :=
          mul_le_mul_of_nonneg_right hupq (two_zpow_pos _).le
      _ = 2 ^ (ulpExp x + 53) := by rw [zpow_add₀ (by norm_num), mul_comm]
      _ ≤ 2 ^ (ulpExp y + 52) := zpow_le_zpow_right₀ (by norm_num) hstep
      _ = 2 ^ (52 : ℤ) * 2 ^ ulpExp y := by rw [zpow_add₀ (by norm_num), mul_comm]
      _ ≤ roundEven (y / 2 ^ ulpExp y) * 2 ^ ulpExp y :=
          mul_le_mul_of_nonneg_right hlowq (two_zpow_pos _).le

end Binary64

end Marketplace
