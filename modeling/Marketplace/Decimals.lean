import Marketplace.Texts
import Mathlib.Data.Nat.Prime.Basic

/-!
# The fewest decimals of a double

`Number.prototype.toString`: of the decimals that are read back as a double, those with the
fewest digits, and of these the closest. A double is a whole number of some power of two, so
it has an exact decimal (`exact_units`), and the search for fewer digits never comes away
empty: what it finds is read back (`double_fewest`).

The digits are written in one of four ways, by where the point stands. Each is a *numeral*:
digits without a useless zero before them, maybe a point and digits, maybe an exponent. That
a numeral is read as what it stands for is proved of numerals once (`Numeral.decimal`).
-/

namespace Marketplace

/-- A decimal: its digits, and the power of ten that the last of them counts. -/
structure Decimal where
  digits : ℕ
  exponent : ℤ
  deriving DecidableEq

/-- The number that a decimal is. -/
def Decimal.value (d : Decimal) : ℚ := d.digits * 10 ^ d.exponent

namespace Binary64

/-! ## The exact decimal -/

/-- A double is a whole number of some power of two. -/
theorem dyadic_of_double {x y : ℚ} (h : double y = some x) : ∃ k e : ℤ, x = k * 2 ^ e := by
  unfold double at h
  by_cases hsmall : |y| < 2 ^ (-1022 : ℤ)
  · simp only [if_pos hsmall] at h
    split_ifs at h
    exact ⟨_, _, (Option.some.inj h).symm⟩
  · simp only [if_neg hsmall] at h
    split_ifs at h
    rw [← Option.some.inj h, nearest]
    split_ifs
    · exact ⟨0, 0, by norm_num⟩
    · exact ⟨_, _, rfl⟩

/-- Such a number has a power of two below the line. -/
theorem den_of_dyadic (k e : ℤ) : ∃ p : ℕ, ((k : ℚ) * 2 ^ e).den = 2 ^ p := by
  rcases e with n | n
  · refine ⟨0, ?_⟩
    have hint : (k : ℚ) * 2 ^ (Int.ofNat n) = ((k * 2 ^ n : ℤ) : ℚ) := by
      push_cast
      rw [Int.ofNat_eq_natCast, zpow_natCast]
    rw [hint, Rat.den_intCast, pow_zero]
  · have hdiv : (k : ℚ) * 2 ^ (Int.negSucc n) = Rat.divInt k ((2 ^ (n + 1) : ℕ) : ℤ) := by
      rw [Rat.divInt_eq_div, zpow_negSucc, div_eq_mul_inv]
      push_cast
      rfl
    have hdvd : ((k : ℚ) * 2 ^ (Int.negSucc n)).den ∣ 2 ^ (n + 1) := by
      rw [hdiv]
      exact_mod_cast Rat.den_dvd k ((2 ^ (n + 1) : ℕ) : ℤ)
    obtain ⟨p, _, hp⟩ := (Nat.dvd_prime_pow Nat.prime_two).mp hdvd
    exact ⟨p, hp⟩

/-- The decimal places that a fraction of a power of two has. -/
def places (x : ℚ) : ℕ := Nat.log 2 x.den

/-- The number in units of its last decimal place. -/
def units (x : ℚ) : ℕ := ⌊x * 10 ^ places x⌋₊

/-- **The exact decimal** of a double. -/
theorem exact_units {x y : ℚ} (hx : 0 ≤ x) (h : double y = some x) :
    (⟨units x, -(places x : ℤ)⟩ : Decimal).value = x := by
  obtain ⟨k, e, hke⟩ := dyadic_of_double h
  obtain ⟨p, hp⟩ := den_of_dyadic k e
  rw [← hke] at hp
  have hplaces : places x = p := by rw [places, hp, Nat.log_pow (by norm_num)]
  have hwhole : x * 10 ^ p = ((x.num.toNat * 5 ^ p : ℕ) : ℚ) := by
    have hnum : ((x.num.toNat : ℕ) : ℚ) = (x.num : ℚ) := by
      exact_mod_cast Int.toNat_of_nonneg (Rat.num_nonneg.mpr hx)
    have hdiv : (x.num : ℚ) = x * 2 ^ p := by
      have := Rat.mul_den_eq_num x
      rw [hp] at this
      exact_mod_cast this.symm
    push_cast
    rw [hnum, hdiv, mul_assoc, ← mul_pow]
    norm_num
  rw [Decimal.value, units, hplaces, hwhole, Nat.floor_natCast, ← hwhole, zpow_neg,
    zpow_natCast, mul_assoc, mul_inv_cancel₀ (pow_ne_zero p (by norm_num)), mul_one]

/-! ## The fewest digits -/

/-- The decimal is read back as `x`. -/
def ReadAs (x : ℚ) (d : Decimal) : Prop := double d.value = some x

instance (x : ℚ) (d : Decimal) : Decidable (ReadAs x d) :=
  inferInstanceAs (Decidable (double d.value = some x))

/-- The first of the multiples of `10 ^ e, 10 ^ (e - 1), …` next to `v` that is read back as
`x`; of two the closer one, of two as close the even one. Units are of the given place. -/
def fewestFrom (x : ℚ) (place : ℤ) (v : ℕ) : ℕ → Decimal
  | 0 => ⟨v, place⟩
  | e + 1 =>
    let low : Decimal := ⟨v / 10 ^ (e + 1), place + (e + 1)⟩
    let high : Decimal := ⟨v / 10 ^ (e + 1) + 1, place + (e + 1)⟩
    let rest := 2 * (v % 10 ^ (e + 1))
    if ReadAs x low ∧
        (rest < 10 ^ (e + 1) ∨ rest = 10 ^ (e + 1) ∧ low.digits % 2 = 0 ∨ ¬ ReadAs x high)
      then low
    else if ReadAs x high then high
    else fewestFrom x place v e

/-- The decimal with the fewest digits that is read back as the double `x`. -/
def fewest (x : ℚ) : Decimal := fewestFrom x (-(places x : ℤ)) (units x) (Nat.log 10 (units x) + 1)

/-- **It is read back.** -/
theorem double_fewest {x y : ℚ} (hx : 0 ≤ x) (h : double y = some x) (hself : double x = some x) :
    double (fewest x).value = some x := by
  rw [fewest]
  induction Nat.log 10 (units x) + 1 with
  | zero =>
    rw [fewestFrom, exact_units hx h]
    exact hself
  | succ e ih =>
    simp only [fewestFrom]
    split_ifs with hlow hhigh
    · exact hlow.1
    · exact hhigh
    · exact ih

end Binary64

/-! ## Numerals -/

namespace NumericLiteral

/-- Digits before a point: at least one, and no useless zero. -/
structure Whole (cs : List Char) : Prop where
  ne_nil : cs ≠ []
  digits : ∀ c ∈ cs, c.isDigit = true
  zero : cs.head? = some '0' → cs = ['0']

/-- A numeral, and the number that it stands for. -/
inductive Numeral : List Char → ℚ → Prop
  | plain {whole part : List Char} (hwhole : Whole whole)
    (hpart : ∀ c ∈ part, c.isDigit = true) : Numeral (whole ++ point part) (pointed whole part)
  | scientific {whole part : List Char} (hwhole : Whole whole)
    (hpart : ∀ c ∈ part, c.isDigit = true) (n : ℤ) :
    Numeral (whole ++ point part ++ exponentText n) (pointed whole part * 10 ^ n)

/-- **A numeral is read** as what it stands for. -/
theorem Numeral.decimal {cs : List Char} {x : ℚ} (h : Numeral cs x) :
    NumericLiteral.decimal cs = some x := by
  cases h with
  | plain hwhole hpart => exact decimal_point hwhole.digits hpart hwhole.ne_nil
  | scientific hwhole hpart n => exact decimal_exponentText hwhole.digits hpart hwhole.ne_nil n

/-- The characters of a numeral. -/
theorem Numeral.mem {cs : List Char} {x : ℚ} (h : Numeral cs x) {c : Char} (hc : c ∈ cs) :
    c.isDigit = true ∨ c ∈ ['.', 'e', '+', '-'] := by
  cases h with
  | plain hwhole hpart =>
    rcases mem_point hwhole.digits hpart hc with hdigit | rfl
    · exact .inl hdigit
    · exact .inr (by simp)
  | scientific hwhole hpart n =>
    rcases List.mem_append.mp hc with hc | hc
    · rcases mem_point hwhole.digits hpart hc with hdigit | rfl
      · exact .inl hdigit
      · exact .inr (by simp)
    · exact (mem_exponentText hc).imp_right (List.mem_cons_of_mem _)

/-- A numeral begins with a digit. -/
theorem Numeral.first {cs : List Char} {x : ℚ} (h : Numeral cs x) :
    ∃ c rest, cs = c :: rest ∧ c.isDigit = true := by
  have hfirst : ∀ {whole : List Char} (rest : List Char), Whole whole →
      ∃ c rest', whole ++ rest = c :: rest' ∧ c.isDigit = true := by
    intro whole rest hwhole
    obtain ⟨c, cs, rfl⟩ := List.exists_cons_of_ne_nil hwhole.ne_nil
    exact ⟨c, cs ++ rest, rfl, hwhole.digits c (List.mem_cons_self ..)⟩
  cases h with
  | plain hwhole hpart => exact hfirst _ hwhole
  | scientific hwhole hpart n =>
    rw [List.append_assoc]
    exact hfirst _ hwhole

/-! ## Writing a decimal -/

/-- Decimals do not begin with a zero. -/
theorem head_toDigits {n : ℕ} (h : 0 < n) : (Nat.toDigits 10 n).head? ≠ some '0' := by
  induction n using Nat.strong_induction_on with
  | _ n ih =>
    rcases lt_or_ge n 10 with hlt | hge
    · rw [Nat.toDigits_of_lt_base hlt, List.head?_cons]
      intro hzero
      have hall : ∀ n < 10, Nat.digitChar n = '0' → n = 0 := by decide
      exact absurd (hall n hlt (Option.some.inj hzero)) h.ne'
    · rw [Nat.toDigits_of_base_le (by norm_num) hge,
        List.head?_append_of_ne_nil _ Nat.toDigits_ne_nil]
      exact ih (n / 10) (by omega) (by omega)

end NumericLiteral

namespace Decimal

open NumericLiteral

/-- `Number::toString`, by where the point stands. -/
def text (d : Decimal) : List Char :=
  let ds := Nat.toDigits 10 d.digits
  let n : ℤ := ds.length + d.exponent
  if 0 ≤ d.exponent ∧ n ≤ 21 then ds ++ List.replicate d.exponent.toNat '0'
  else if 0 < n ∧ n ≤ 21 then ds.take n.toNat ++ '.' :: ds.drop n.toNat
  else if -6 < n ∧ n ≤ 0 then '0' :: '.' :: (List.replicate (-n).toNat '0' ++ ds)
  else ds.take 1 ++ point (ds.drop 1) ++ exponentText (n - 1)

/-- **What is written is a numeral** of the decimal. -/
theorem text_numeral {d : Decimal} (h : 0 < d.digits) : Numeral d.text d.value := by
  have hdigits : ∀ c ∈ Nat.toDigits 10 d.digits, c.isDigit = true := isDigit_of_mem_toDigits
  have hvalue : Nat.ofDigitChars 10 (Nat.toDigits 10 d.digits) 0 = d.digits :=
    Nat.ofDigitChars_ten_toDigits
  have hhead := head_toDigits h
  have hne : Nat.toDigits 10 d.digits ≠ [] := Nat.toDigits_ne_nil
  rw [text, Decimal.value]
  generalize Nat.toDigits 10 d.digits = ds at hdigits hvalue hhead hne
  rw [← hvalue]
  have hten : (10 : ℚ) ≠ 0 := by norm_num
  -- some of the digits, from the first one on, before the point
  have hwhole : ∀ k, 0 < k → Whole (ds.take k) := by
    intro k hk
    refine ⟨?_, fun c hc => hdigits c (List.mem_of_mem_take hc), ?_⟩
    · rw [Ne, List.take_eq_nil_iff]
      exact not_or.mpr ⟨hk.ne', hne⟩
    · intro hzero
      rw [List.head?_take, if_neg hk.ne'] at hzero
      exact absurd hzero hhead
  split_ifs with hint hmiddle hsmall
  · obtain ⟨hnonneg, -⟩ := hint
    have hzeros : ∀ c ∈ List.replicate d.exponent.toNat '0', c.isDigit = true := by
      intro c hc
      rw [List.eq_of_mem_replicate hc]
      rfl
    have hnum : Numeral (ds ++ List.replicate d.exponent.toNat '0' ++ point [])
        (pointed (ds ++ List.replicate d.exponent.toNat '0') []) := by
      refine .plain ⟨?_, ?_, ?_⟩ fun c hc => by cases hc
      · exact List.append_ne_nil_of_left_ne_nil hne _
      · intro c hc
        exact (List.mem_append.mp hc).elim (hdigits c) (hzeros c)
      · intro hzero
        rw [List.head?_append_of_ne_nil _ hne] at hzero
        exact absurd hzero hhead
    have hpow : (10 : ℚ) ^ d.exponent = 10 ^ d.exponent.toNat := by
      rw [← zpow_natCast, Int.toNat_of_nonneg hnonneg]
    have hval : pointed (ds ++ List.replicate d.exponent.toNat '0') [] =
        (Nat.ofDigitChars 10 ds 0 : ℕ) * (10 : ℚ) ^ d.exponent := by
      rw [pointed_eq, List.append_nil, List.length_nil, pow_zero, div_one,
        Nat.ofDigitChars_append, Nat.ofDigitChars_replicate_zero, hpow]
      push_cast
      ring
    rwa [hval, point, if_pos rfl, List.append_nil] at hnum
  · obtain ⟨hpos, hle⟩ := hmiddle
    generalize hk : ((ds.length : ℤ) + d.exponent).toNat = k
    have hkpos : 0 < k := by omega
    have hnil : ds.drop k ≠ [] := by
      rw [Ne, List.drop_eq_nil_iff]
      omega
    have hnum : Numeral (ds.take k ++ point (ds.drop k)) (pointed (ds.take k) (ds.drop k)) :=
      .plain (hwhole k hkpos) fun c hc => hdigits c (List.mem_of_mem_drop hc)
    have hval : pointed (ds.take k) (ds.drop k) =
        (Nat.ofDigitChars 10 ds 0 : ℕ) * (10 : ℚ) ^ d.exponent := by
      have hexp : d.exponent = -((ds.drop k).length : ℤ) := by
        rw [List.length_drop]
        omega
      rw [pointed_eq, List.take_append_drop, hexp, zpow_neg, zpow_natCast, div_eq_mul_inv]
    rwa [hval, point, if_neg hnil] at hnum
  · obtain ⟨-, hnonpos⟩ := hsmall
    generalize hk : (-((ds.length : ℤ) + d.exponent)).toNat = k
    have hnil : List.replicate k '0' ++ ds ≠ [] := List.append_ne_nil_of_right_ne_nil _ hne
    have hnum : Numeral (['0'] ++ point (List.replicate k '0' ++ ds))
        (pointed ['0'] (List.replicate k '0' ++ ds)) := by
      refine .plain ⟨List.cons_ne_nil _ _, ?_, fun _ => rfl⟩ ?_
      · intro c hc
        rw [List.mem_singleton.mp hc]
        rfl
      · intro c hc
        rcases List.mem_append.mp hc with hc | hc
        · rw [List.eq_of_mem_replicate hc]
          rfl
        · exact hdigits c hc
    have hval : pointed ['0'] (List.replicate k '0' ++ ds) =
        (Nat.ofDigitChars 10 ds 0 : ℕ) * (10 : ℚ) ^ d.exponent := by
      have hexp : d.exponent = -((List.replicate k '0' ++ ds).length : ℤ) := by
        rw [List.length_append, List.length_replicate]
        omega
      have hzeros : Nat.ofDigitChars 10 (['0'] ++ (List.replicate k '0' ++ ds)) 0 =
          Nat.ofDigitChars 10 ds 0 := by
        rw [Nat.ofDigitChars_append, Nat.ofDigitChars_append, Nat.ofDigitChars_replicate_zero]
        rfl
      rw [pointed_eq, hzeros, hexp, zpow_neg, zpow_natCast, div_eq_mul_inv]
    rwa [hval, point, if_neg hnil] at hnum
  · have hnum : Numeral (ds.take 1 ++ point (ds.drop 1) ++
        exponentText ((ds.length : ℤ) + d.exponent - 1))
        (pointed (ds.take 1) (ds.drop 1) * 10 ^ ((ds.length : ℤ) + d.exponent - 1)) :=
      .scientific (hwhole 1 one_pos) (fun c hc => hdigits c (List.mem_of_mem_drop hc)) _
    have hval : pointed (ds.take 1) (ds.drop 1) * 10 ^ ((ds.length : ℤ) + d.exponent - 1) =
        (Nat.ofDigitChars 10 ds 0 : ℕ) * (10 : ℚ) ^ d.exponent := by
      have hlength : ((ds.drop 1).length : ℤ) = ds.length - 1 := by
        rw [List.length_drop]
        have := List.length_pos_iff.mpr hne
        omega
      have hexp : (ds.length : ℤ) + d.exponent - 1 = (ds.drop 1).length + d.exponent := by
        rw [hlength]
        ring
      rw [pointed_eq, List.take_append_drop, hexp, zpow_add₀ hten, zpow_natCast]
      field_simp
    rwa [hval] at hnum

end Decimal

/-- `Number::toString` of a double that is not negative. -/
def numberText (x : ℚ) : List Char := if x = 0 then ['0'] else (Binary64.fewest x).text

/-- **A number is read back** from its text, which is a numeral. -/
theorem numberText_numeral {x : ℚ} (hx : 0 ≤ x) (h : Binary64.double x = some x) :
    ∃ y, NumericLiteral.Numeral (numberText x) y ∧ Binary64.double y = some x := by
  rw [numberText]
  split_ifs with hzero
  · have hnum : NumericLiteral.Numeral (['0'] ++ NumericLiteral.point [])
        (NumericLiteral.pointed ['0'] []) := by
      refine .plain ⟨List.cons_ne_nil _ _, ?_, fun _ => rfl⟩ fun c hc => by cases hc
      intro c hc
      rw [List.mem_singleton.mp hc]
      rfl
    refine ⟨_, hnum, ?_⟩
    · have hval : NumericLiteral.pointed ['0'] [] = 0 := by
        rw [NumericLiteral.pointed_eq]
        norm_num [Nat.ofDigitChars_cons]
      rw [hval, hzero, Binary64.double_zero]
  · have hback := Binary64.double_fewest hx h h
    refine ⟨_, Decimal.text_numeral ?_, hback⟩
    rw [Nat.pos_iff_ne_zero]
    intro hdigits
    rw [Decimal.value, hdigits, Nat.cast_zero, zero_mul, Binary64.double_zero] at hback
    exact hzero (Option.some.inj hback).symm

end Marketplace
