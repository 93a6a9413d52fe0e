import Mathlib.Algebra.BigOperators.Group.List.Basic
import Mathlib.Algebra.Order.Floor.Div
import Marketplace.Binary64
import Marketplace.Limits

/-!
# The part plan

The parts of a multipart upload partition the file within the limits of S3, for every
size up to `MAX_OBJECT`.

Everything follows from two facts about ceilings: `ceilDiv a b ≤ c` says `a ≤ c * b`
(`ceilDiv_le_iff`), so the three nested ceilings are three comparisons; and the lengths of
the first `k` parts sum to `min (k * partSize) size` (`sum_partLength_take`). The
quotients under the ceilings are binary64 numbers in the source; at these sizes their
ceilings are the exact ones (`ceil_nearest_div`).
-/

namespace Marketplace

variable {a b c k n p size : ℕ}

/-! ## Ceilings -/

theorem ceilDiv_eq (hb : 0 < b) : ceilDiv a b = a ⌈/⌉ b := by
  cases a with
  | zero => exact (zero_ceilDiv b).symm
  | succ a =>
    rw [ceilDiv, Nat.ceilDiv_eq_add_pred_div, Nat.succ_add_sub_one, Nat.add_div_right _ hb]

theorem ceilDiv_le_iff (hb : 0 < b) : ceilDiv a b ≤ c ↔ a ≤ c * b := by
  rw [ceilDiv_eq hb, ceilDiv_le_iff_le_mul hb, Nat.mul_comm]

theorem lt_ceilDiv_iff (hb : 0 < b) : c < ceilDiv a b ↔ c * b < a := by
  rw [ceilDiv_eq hb, (gc_mul_ceilDiv hb).lt_iff_lt, Nat.mul_comm]

theorem le_ceilDiv_mul (hb : 0 < b) : a ≤ ceilDiv a b * b :=
  (ceilDiv_le_iff hb).mp (Nat.le_refl _)

/-- An integer of at most 53 bits is a binary64 number. -/
theorem nearest_natCast (h : a < 2 ^ 53) : Binary64.nearest (a : ℚ) = a := by
  rcases Nat.eq_zero_or_pos a with rfl | hpos
  · exact_mod_cast Binary64.nearest_zero
  · have habs : |(a : ℚ)| = a := abs_of_nonneg (Nat.cast_nonneg a)
    have hulp : Binary64.ulpExp (a : ℚ) ≤ 0 := by
      have hlog : Int.log 2 (a : ℚ) < 53 := by
        refine (Int.lt_zpow_iff_log_lt (b := 2) (by norm_num) (by exact_mod_cast hpos)).mp ?_
        exact_mod_cast h
      rw [Binary64.ulpExp, habs]
      omega
    obtain ⟨e, he⟩ := Int.eq_ofNat_of_zero_le (neg_nonneg.mpr hulp)
    refine Binary64.nearest_eq_self (k := a * 2 ^ e) ?_
    have hexp : Binary64.ulpExp (a : ℚ) = -(e : ℤ) := by
      rw [← neg_neg (Binary64.ulpExp (a : ℚ)), he]
    rw [hexp, zpow_neg, zpow_natCast]
    push_cast
    rw [mul_inv_cancel_right₀ (by positivity)]

/-- **`Math.ceil(a / b)`** is exact: a quotient of integers that is no integer is further from the
next one than it is moved by rounding. -/
theorem ceil_nearest_div (ha : a < 2 ^ 53) (hb : 0 < b) :
    ⌈Binary64.nearest ((a : ℚ) / b)⌉ = ceilDiv a b := by
  rcases Nat.eq_zero_or_pos a with rfl | hpos
  · simp [ceilDiv]
  have hbq : (0 : ℚ) < b := by exact_mod_cast hb
  have haq : (0 : ℚ) < a := by exact_mod_cast hpos
  have hupper : a ≤ ceilDiv a b * b := le_ceilDiv_mul hb
  rcases hupper.eq_or_lt with heq | hlt
  · have hquotient : (a : ℚ) / b = (ceilDiv a b : ℕ) := by
      rw [div_eq_iff hbq.ne']
      exact_mod_cast heq
    have hsmall : ceilDiv a b < 2 ^ 53 := by
      refine lt_of_le_of_lt ?_ ha
      calc ceilDiv a b ≤ ceilDiv a b * b := Nat.le_mul_of_pos_right _ hb
        _ = a := heq.symm
    rw [hquotient, nearest_natCast hsmall, Int.ceil_natCast]
  · obtain ⟨c, hc⟩ : ∃ c, ceilDiv a b = c + 1 := by
      refine ⟨ceilDiv a b - 1, (Nat.sub_add_cancel ?_).symm⟩
      exact (lt_ceilDiv_iff hb).mpr (by omega)
    have hlower : c * b < a := (lt_ceilDiv_iff hb).mp (by omega)
    rw [hc] at hlt ⊢
    have hmoved : (a : ℚ) / b / 2 ^ (53 : ℤ) < 1 / b := by
      have hbits : (a : ℚ) < 2 ^ (53 : ℤ) := by exact_mod_cast ha
      rw [div_div, div_lt_div_iff₀ (by positivity) hbq, one_mul, mul_comm (b : ℚ)]
      exact mul_lt_mul_of_pos_right hbits hbq
    have hover : (c : ℚ) + 1 / b ≤ a / b := by
      rw [← sub_nonneg]
      have h : (c : ℚ) * b + 1 ≤ a := by exact_mod_cast hlower
      have hsplit : (a : ℚ) / b - (c + 1 / b) = (a - (c * b + 1)) / b := by
        field_simp
      rw [hsplit]
      exact div_nonneg (sub_nonneg.mpr h) hbq.le
    have hunder : (a : ℚ) / b ≤ c + 1 - 1 / b := by
      rw [← sub_nonneg]
      have h : (a : ℚ) + 1 ≤ (c + 1) * b := by exact_mod_cast hlt
      have hsplit : (c : ℚ) + 1 - 1 / b - a / b = ((c + 1) * b - (a + 1)) / b := by
        field_simp
        ring
      rw [hsplit]
      exact div_nonneg (sub_nonneg.mpr h) hbq.le
    have herr := abs_le.mp (Binary64.abs_nearest_sub_le ((a : ℚ) / b))
    rw [abs_of_pos (div_pos haq hbq)] at herr
    rw [Int.ceil_eq_iff]
    push_cast
    constructor <;> linarith [herr.1, herr.2]

/-! ## The plan -/

/-- What S3 asks of a plan, and what makes it a partition of the file. -/
structure PartPlan (size partSize : ℕ) : Prop where
  count : 1 ≤ partCount size partSize ∧ partCount size partSize ≤ maxParts
  bounds : minPart ≤ partSize ∧ partSize ≤ maxPart
  whole : mib ∣ partSize
  full : ∀ n, 1 ≤ n → n < partCount size partSize → partLength size partSize n = partSize
  last : 0 < partLength size partSize (partCount size partSize) ∧
    partLength size partSize (partCount size partSize) ≤ partSize
  sum : ((partNumbers size partSize).map (partLength size partSize)).sum = size
  beyond : ∀ n, partCount size partSize < n → partLength size partSize n ≤ 0
  least : ∀ p, mib ∣ p → minPart ≤ p → partCount size p ≤ maxParts → partSize ≤ p

/-- A part that ends within the file is full. -/
theorem partLength_eq (h : n * p ≤ size) : partLength size p n = p := by
  rw [partLength]
  have hcast : (n * p : ℤ) ≤ size := by exact_mod_cast h
  refine min_eq_left ?_
  linarith

/-- The first `k` parts. -/
theorem sum_partLength_take (hp : 0 < p) (hk : k ≤ partCount size p) :
    ((List.range' 1 k).map (partLength size p)).sum = min (k * p : ℤ) size := by
  induction k with
  | zero => simp
  | succ k ih =>
    have hlt : k * p < size := (lt_ceilDiv_iff hp).mp hk
    have hcast : (k * p : ℤ) ≤ size := by exact_mod_cast hlt.le
    rw [List.range'_1_concat, List.map_append, List.sum_append, ih (Nat.le_of_succ_le hk),
      min_eq_left hcast, List.map_singleton, List.sum_singleton, partLength]
    push_cast
    rw [← min_add_add_left]
    ring_nf

/-- The computed part size is the least one that S3 allows. -/
theorem computePartSize_spec (hmax : size ≤ maxObject) :
    ∃ partSize, computePartSize size = some partSize ∧ minPart ≤ partSize ∧ partSize ≤ maxPart ∧
      mib ∣ partSize ∧ partCount size partSize ≤ maxParts ∧
      ∀ p, mib ∣ p → minPart ≤ p → partCount size p ≤ maxParts → partSize ≤ p := by
  have hmib : 0 < mib := by decide
  set needed := ceilDiv size maxParts with hneeded
  set part := max minPart (mib * ceilDiv needed mib) with hpart
  have hfits : part ≤ maxPart := by
    have hbound : needed ≤ 549755814 := by
      refine (ceilDiv_le_iff (by decide)).mpr (hmax.trans ?_)
      decide
    have hmibs : ceilDiv needed mib ≤ 525 := (ceilDiv_le_iff hmib).mpr (hbound.trans (by decide))
    refine max_le (by decide) ?_
    calc mib * ceilDiv needed mib ≤ mib * 525 := Nat.mul_le_mul_left mib hmibs
      _ ≤ maxPart := by decide
  have hpos : 0 < part := lt_of_lt_of_le (by decide) (le_max_left ..)
  -- at most `MAX_PARTS` parts means that a part holds `needed` bytes
  have hparts : ∀ p, 0 < p → (partCount size p ≤ maxParts ↔ needed ≤ p) := by
    intro p hp
    rw [partCount, ceilDiv_le_iff hp, hneeded, ceilDiv_le_iff (by decide), Nat.mul_comm]
  refine ⟨part, ?_, le_max_left .., hfits, ?_, ?_, ?_⟩
  · simp only [computePartSize, ← hneeded, ← hpart, if_neg hfits.not_gt]
  · rw [hpart]
    rcases max_choice minPart (mib * ceilDiv needed mib) with h | h <;> rw [h]
    · exact ⟨5, Nat.mul_comm ..⟩
    · exact Nat.dvd_mul_right ..
  · refine (hparts part hpos).mpr ((le_ceilDiv_mul hmib).trans ?_)
    rw [Nat.mul_comm]
    exact le_max_right ..
  · rintro p ⟨q, rfl⟩ hmin hcount
    have hp : 0 < mib * q := lt_of_lt_of_le (by decide) hmin
    refine max_le hmin (Nat.mul_le_mul_left mib ((ceilDiv_le_iff hmib).mpr ?_))
    rw [Nat.mul_comm]
    exact (hparts _ hp).mp hcount

/-- **The parts partition the file.** -/
theorem computePartSize_plan (hpos : 1 ≤ size) (hmax : size ≤ maxObject) :
    ∃ partSize, computePartSize size = some partSize ∧ PartPlan size partSize := by
  obtain ⟨partSize, hsize, hmin, hmaxPart, hwhole, hcount, hleast⟩ := computePartSize_spec hmax
  have hp : 0 < partSize := lt_of_lt_of_le (by decide) hmin
  have hupper : (size : ℤ) ≤ partCount size partSize * partSize := by
    exact_mod_cast le_ceilDiv_mul hp
  have hcount₁ : 0 < partCount size partSize := (lt_ceilDiv_iff hp).mpr (by omega)
  refine ⟨partSize, hsize, ⟨hcount₁, hcount⟩, ⟨hmin, hmaxPart⟩, hwhole, ?_, ⟨?_, min_le_left ..⟩,
    ?_, ?_, hleast⟩
  · intro n _ hn
    exact partLength_eq ((lt_ceilDiv_iff hp).mp hn).le
  · have hlower : (partCount size partSize - 1) * partSize < size :=
      (lt_ceilDiv_iff hp).mp (Nat.sub_one_lt_of_lt hcount₁)
    have hcast : ((partCount size partSize : ℤ) - 1) * partSize < size := by
      have h : (((partCount size partSize - 1 : ℕ) : ℤ)) * partSize < size := by
        exact_mod_cast hlower
      rwa [Nat.cast_sub hcount₁, Nat.cast_one] at h
    rw [partLength]
    refine lt_min (by exact_mod_cast hp) ?_
    linarith
  · rw [partNumbers, sum_partLength_take hp le_rfl, min_eq_right hupper]
  · intro n hn
    refine (min_le_right ..).trans ?_
    have hle : (partCount size partSize : ℤ) ≤ n - 1 := by
      have h : (partCount size partSize : ℤ) < n := by exact_mod_cast hn
      omega
    have hmul : (partCount size partSize : ℤ) * partSize ≤ (n - 1) * partSize :=
      mul_le_mul_of_nonneg_right hle (by positivity)
    linarith

/-- 11 MiB is 5 + 5 + 1. -/
example : (computePartSize (11 * mib)).map (fun p => (partNumbers (11 * mib) p).map
    (partLength (11 * mib) p)) = some [5 * 1048576, 5 * 1048576, 1048576] := by decide +kernel

/-- The largest file: parts of 524 MiB would be more than 10 000. -/
theorem maxObject_plan : computePartSize maxObject = some (525 * mib) ∧
    ∃ partSize, computePartSize maxObject = some partSize ∧ PartPlan maxObject partSize :=
  ⟨by decide +kernel, computePartSize_plan (by decide) le_rfl⟩

end Marketplace
