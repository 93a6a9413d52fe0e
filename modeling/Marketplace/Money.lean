import Marketplace.Binary64

/-!
# Money: `numeric(12,2)` columns and JavaScript numbers

An amount lives in two worlds. In Postgres it is a `numeric(12,2)`: a whole
number of cents below `10 ^ 12`, and what is stored is rounded to cents, half
away from zero. In `checkout` it is a JavaScript number: the price arrives as a
string and goes through `Number(…)`, is multiplied, and goes back to Postgres
as the decimal the number prints as.

`Arith` names the three JavaScript operations, so that the program is modelled
once and read with exact arithmetic (`Arith.exact`) or with binary64
(`Printer.arith`). What the ledger needs of an arithmetic is `Arith.Accurate`:
an order total that a balance can pay is less than half a cent off. Binary64
has it (`Printer.accurate`).
-/

namespace Marketplace

/-! ## `numeric(12,2)` -/

/-- The amount, in currency units, of a whole number of cents. -/
def amount (cents : ℤ) : ℚ := cents / 100

/-- Store an amount in a `numeric(12,2)` column: whole cents, half away from
zero. -/
def roundCents (x : ℚ) : ℤ :=
  if 0 ≤ x then ⌊100 * x + 1 / 2⌋ else -⌊-(100 * x) + 1 / 2⌋

/-- The column overflows (22003) from `10 ^ 10` currency units on. -/
def FitsNumeric (cents : ℤ) : Prop := |cents| < 10 ^ 12

instance (cents : ℤ) : Decidable (FitsNumeric cents) :=
  inferInstanceAs (Decidable (|cents| < 10 ^ 12))

/-- An amount less than half a cent from whole cents is stored as these. -/
theorem roundCents_eq {x : ℚ} {n : ℤ} (h : |100 * x - n| < 1 / 2) : roundCents x = n := by
  obtain ⟨h₁, h₂⟩ := abs_lt.mp h
  unfold roundCents
  split_ifs
  · rw [Int.floor_eq_iff]
    constructor <;> linarith
  · rw [neg_eq_iff_eq_neg, Int.floor_eq_iff]
    push_cast
    constructor <;> linarith

@[simp] theorem roundCents_amount (n : ℤ) : roundCents (amount n) = n := by
  apply roundCents_eq
  rw [amount, mul_div_cancel₀ _ (by norm_num), sub_self, abs_zero]
  norm_num

/-- Subtracting from whole cents and rounding is subtracting what is rounded. -/
theorem roundCents_amount_sub {x : ℚ} {n b : ℤ} (h : |100 * x - n| < 1 / 2) :
    roundCents (amount b - x) = b - n := by
  apply roundCents_eq
  have hsplit : 100 * (amount b - x) - ((b - n : ℤ) : ℚ) = -(100 * x - n) := by
    rw [amount]
    push_cast
    ring
  rw [hsplit, abs_neg]
  exact h

/-! ## JavaScript arithmetic -/

/-- What `checkout` does with amounts in JavaScript. -/
structure Arith where
  /-- `Number(s)` of a decimal string -/
  number : ℚ → ℚ
  /-- `a * b` -/
  mul : ℚ → ℚ → ℚ
  /-- the decimal a number is sent to Postgres as -/
  text : ℚ → ℚ

namespace Arith

/-- `unitPrice * quantity`, as Postgres receives it. -/
def lineTotal (A : Arith) (price quantity : ℤ) : ℚ :=
  A.text (A.mul (A.number (amount price)) quantity)

/-- Exact arithmetic: no rounding anywhere. -/
def exact : Arith := ⟨id, (· * ·), id⟩

/-- Every payable total is less than half a cent from price times quantity. -/
def Accurate (A : Arith) : Prop :=
  ∀ price quantity : ℤ, 0 ≤ price → 0 < quantity →
    A.lineTotal price quantity ≤ 10 ^ 10 →
      |100 * A.lineTotal price quantity - (price * quantity : ℤ)| < 1 / 2

theorem exact_lineTotal (price quantity : ℤ) :
    exact.lineTotal price quantity = amount (price * quantity) := by
  simp only [lineTotal, exact, id, amount]
  push_cast
  ring

theorem exact_accurate : exact.Accurate := by
  intro price quantity _ _ _
  rw [exact_lineTotal, amount, mul_div_cancel₀ _ (by norm_num), sub_self, abs_zero]
  norm_num

end Arith

/-- How numbers are printed. JavaScript prints the shortest decimal that reads
back as the same number; only that it does read back matters here. -/
structure Printer where
  /-- the decimal of a number -/
  text : ℚ → ℚ
  /-- the decimal of a binary64 number reads back as it -/
  reads : ∀ x, Binary64.nearest (text (Binary64.nearest x)) = Binary64.nearest x

namespace Printer

/-- Printing all digits reads back. -/
def allDigits : Printer := ⟨id, fun x => Binary64.nearest_nearest x⟩

/-- JavaScript numbers: binary64, with some way of printing them. -/
def arith (P : Printer) : Arith :=
  ⟨Binary64.nearest, fun a b => Binary64.nearest (a * b), P.text⟩

/-- A printed number is relatively close to the number. -/
theorem abs_text_sub_le (P : Printer) (x : ℚ) :
    |Binary64.nearest x - P.text (Binary64.nearest x)|
      ≤ |P.text (Binary64.nearest x)| / 2 ^ (53 : ℤ) := by
  have h := Binary64.abs_nearest_sub_le (P.text (Binary64.nearest x))
  rwa [P.reads x] at h

/-- What a number that is not negative prints as is not negative. -/
theorem text_nonneg (P : Printer) {x : ℚ} (hx : 0 ≤ x) : 0 ≤ P.text (Binary64.nearest x) := by
  have herr := abs_le.mp (P.abs_text_sub_le x)
  have hnearest := Binary64.nearest_nonneg hx
  by_contra hneg
  rw [abs_of_neg (not_le.mp hneg)] at herr
  norm_num at herr
  linarith [herr.2]

/-- **Comparing a printed number** with a decimal: as the numbers compare, and if they are the
same, as it is printed. -/
theorem text_le_iff (P : Printer) {x y : ℚ} (hx : 0 ≤ x) (hy : 0 ≤ y) :
    P.text (Binary64.nearest x) ≤ y ↔
      Binary64.nearest x < Binary64.nearest y ∨
        (Binary64.nearest x = Binary64.nearest y ∧ P.text (Binary64.nearest y) ≤ y) := by
  have htext := P.text_nonneg hx
  constructor
  · intro hle
    have hmono := Binary64.nearest_mono htext hle
    rw [P.reads x] at hmono
    rcases hmono.lt_or_eq with hlt | heq
    · exact .inl hlt
    · exact .inr ⟨heq, heq ▸ hle⟩
  · rintro (hlt | ⟨heq, hle⟩)
    · by_contra hgt
      have hmono := Binary64.nearest_mono hy (not_le.mp hgt).le
      rw [P.reads x] at hmono
      exact absurd hlt (not_lt.mpr hmono)
    · rw [heq]
      exact hle

theorem amount_mul (price quantity : ℤ) :
    amount (price * quantity) = amount price * (quantity : ℚ) := by
  rw [amount, amount]
  push_cast
  ring

/-- **The error of a total**: reading the price and multiplying are two roundings of relative
size `2 ^ (-53)`, and printing is a third. -/
theorem total_error (P : Printer) {price quantity : ℤ} (hprice : 0 ≤ price)
    (hquantity : 0 < quantity) :
    |Binary64.nearest (Binary64.nearest (amount price) * quantity) - amount (price * quantity)|
        ≤ amount (price * quantity) / 2 ^ (51 : ℤ) ∧
      |P.arith.lineTotal price quantity - amount (price * quantity)|
        ≤ amount (price * quantity) / 2 ^ (51 : ℤ) := by
  set p : ℚ := amount price with hp
  set q : ℚ := (quantity : ℚ) with hq
  set p' := Binary64.nearest p with hp'
  set t := Binary64.nearest (p' * q) with ht
  set d := P.text t with hd
  have hline : P.arith.lineTotal price quantity = d := rfl
  have hp0 : 0 ≤ p := by
    rw [hp, amount]
    positivity
  have hq0 : 0 < q := Int.cast_pos.mpr hquantity
  have hp'0 : 0 ≤ p' := Binary64.nearest_nonneg hp0
  have hpq0 : 0 ≤ p' * q := mul_nonneg hp'0 hq0.le
  have ht0 : 0 ≤ t := Binary64.nearest_nonneg hpq0
  -- the three roundings
  have h₁ := abs_le.mp (Binary64.abs_nearest_sub_le p)
  have h₂ := abs_le.mp (Binary64.abs_nearest_sub_le (p' * q))
  have h₃ := abs_le.mp (P.abs_text_sub_le (p' * q))
  rw [← hp', abs_of_nonneg hp0] at h₁
  rw [← ht, abs_of_nonneg hpq0] at h₂
  rw [← ht, ← hd] at h₃
  norm_num at h₁ h₂ h₃
  have hd0 : 0 ≤ d := P.text_nonneg hpq0
  rw [abs_of_nonneg hd0] at h₃
  -- the price error, times the quantity
  have h₁q : -(p * q / 9007199254740992) ≤ p' * q - p * q
      ∧ p' * q - p * q ≤ p * q / 9007199254740992 := by
    constructor
    · have := mul_le_mul_of_nonneg_right h₁.1 hq0.le
      linarith
    · have := mul_le_mul_of_nonneg_right h₁.2 hq0.le
      linarith
  have hnonneg : 0 ≤ p * q := mul_nonneg hp0 hq0.le
  rw [amount_mul, ← hp, hline]
  constructor
  · rw [abs_le]
    norm_num
    constructor <;> linarith [h₂.1, h₂.2, h₁q.1, h₁q.2]
  · rw [abs_le]
    norm_num
    constructor <;> linarith [h₂.1, h₂.2, h₃.1, h₃.2, h₁q.1, h₁q.2]

/-- **Binary64 totals are accurate**, below `10 ^ 10`. -/
theorem accurate (P : Printer) : P.arith.Accurate := by
  intro price quantity hprice hquantity hle
  have herr := abs_le.mp (P.total_error hprice hquantity).2
  have hcents : 100 * amount (price * quantity) = (price * quantity : ℤ) := by
    rw [amount, mul_div_cancel₀ _ (by norm_num)]
  norm_num at herr
  rw [← hcents, abs_lt]
  constructor <;> linarith [herr.1, herr.2]

end Printer

end Marketplace
