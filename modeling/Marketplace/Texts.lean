import Marketplace.Doubles
import Mathlib.Data.List.DropRight
import Mathlib.Data.List.TakeWhile

/-!
# Bytes and numbers as text

Two textual forms, each with the law that reading undoes writing.

* base64url: three bytes are four *sextets*, and each sextet is a character. Reading is
  lenient: it looks at the low bytes of the UTF-16 units only, accepts both alphabets, passes
  over what is in neither, and stops at `=`.
* the numeric literals of JavaScript, as `Number(text)` reads them: blanks around, a
  sign, a fraction and an exponent, or a hexadecimal, octal or binary integer. The exact
  value is rounded to a double; a text that is no literal of a finite one has none.
  `String` writes an integer with the fewest decimals that are read back as it, and with
  an exponent when it is large.
-/

namespace Marketplace

/-! ## base64url -/

namespace Base64Url

/-- The bits of the bytes, six at a time; the last sextet is filled up with zeros. -/
def sextets : List UInt8 → List ℕ
  | [] => []
  | [a] => [a.toNat / 4, a.toNat % 4 * 16]
  | [a, b] => [a.toNat / 4, a.toNat % 4 * 16 + b.toNat / 16, b.toNat % 16 * 4]
  | a :: b :: c :: rest =>
    a.toNat / 4 :: (a.toNat % 4 * 16 + b.toNat / 16) :: (b.toNat % 16 * 4 + c.toNat / 64) ::
      c.toNat % 64 :: sextets rest

/-- The bits of the sextets, eight at a time; what is left over is dropped. -/
def octets : List ℕ → List UInt8
  | p :: q :: r :: t :: rest =>
    .ofNat (p * 4 + q / 16) :: .ofNat (q % 16 * 16 + r / 4) :: .ofNat (r % 4 * 64 + t) ::
      octets rest
  | [p, q, r] => [.ofNat (p * 4 + q / 16), .ofNat (q % 16 * 16 + r / 4)]
  | [p, q] => [.ofNat (p * 4 + q / 16)]
  | _ => []

/-- A byte put together from its bits. -/
theorem ofNat_eq {n : ℕ} {a : UInt8} (h : n = a.toNat) : UInt8.ofNat n = a := by
  rw [h]
  exact UInt8.ofNat_toNat

/-- Sextets lose no bits. -/
theorem octets_sextets (bytes : List UInt8) : octets (sextets bytes) = bytes := by
  induction bytes using sextets.induct with
  | case1 => rfl
  | case2 a =>
    have ha := a.toNat_lt
    simp only [sextets, octets]
    rw [ofNat_eq (a := a) (by omega)]
  | case3 a b =>
    have ha := a.toNat_lt
    have hb := b.toNat_lt
    simp only [sextets, octets]
    rw [ofNat_eq (a := a) (by omega), ofNat_eq (a := b) (by omega)]
  | case4 a b c rest ih =>
    have ha := a.toNat_lt
    have hb := b.toNat_lt
    have hc := c.toNat_lt
    simp only [sextets, octets]
    rw [ofNat_eq (a := a) (by omega), ofNat_eq (a := b) (by omega), ofNat_eq (a := c) (by omega),
      ih]

/-- Sextets are below 64. -/
theorem sextets_lt (bytes : List UInt8) : ∀ n ∈ sextets bytes, n < 64 := by
  induction bytes using sextets.induct with
  | case1 => exact fun n hn => absurd hn List.not_mem_nil
  | case2 a =>
    have ha := a.toNat_lt
    simp only [sextets, List.mem_cons, List.not_mem_nil, or_false]
    omega
  | case3 a b =>
    have ha := a.toNat_lt
    have hb := b.toNat_lt
    simp only [sextets, List.mem_cons, List.not_mem_nil, or_false]
    omega
  | case4 a b c rest ih =>
    have ha := a.toNat_lt
    have hb := b.toNat_lt
    have hc := c.toNat_lt
    simp only [sextets, List.mem_cons]
    rintro n (h | h | h | h | h)
    · omega
    · omega
    · omega
    · omega
    · exact ih n h

/-- The characters of the sextets. -/
def alphabet : List Char :=
  "ABCDEFGHIJKLMNOPQRSTUVWXYZabcdefghijklmnopqrstuvwxyz0123456789-_".toList

/-- The character of a sextet. -/
def digit (n : ℕ) : Char := (alphabet[n]?).getD 'A'

/-- The sextet of a character; `+` and `/` are those of the other alphabet. -/
def value (c : Char) : Option ℕ :=
  if c = '+' then some 62
  else if c = '/' then some 63
  else alphabet.findIdx? fun d => d = c

theorem value_digit {n : ℕ} (h : n < 64) : value (digit n) = some n := by
  have hall : ∀ n < 64, value (digit n) = some n := by decide +kernel
  exact hall n h

theorem value_lt {c : Char} {n : ℕ} (h : value c = some n) : n < 64 := by
  unfold value at h
  split_ifs at h
  · obtain rfl := Option.some.inj h
    decide
  · obtain rfl := Option.some.inj h
    decide
  · exact (List.findIdx?_eq_some_iff_findIdx_eq.mp h).1

theorem digit_ne {n : ℕ} (h : n < 64) : digit n ≠ '=' := by
  have hall : ∀ n < 64, digit n ≠ '=' := by decide +kernel
  exact hall n h

/-- What is read of a character: the low byte of its UTF-16 unit, or of each of the two. -/
def lowBytes (c : Char) : List Char :=
  if c.toNat < 0x10000 then [.ofNat (c.toNat % 256)]
  else [.ofNat ((0xd800 + (c.toNat - 0x10000) / 1024) % 256),
    .ofNat ((0xdc00 + (c.toNat - 0x10000) % 1024) % 256)]

theorem lowBytes_digit {n : ℕ} (h : n < 64) : lowBytes (digit n) = [digit n] := by
  have hall : ∀ n < 64, lowBytes (digit n) = [digit n] := by decide +kernel
  exact hall n h

/-- `buffer.toString('base64url')` -/
def encode (bytes : List UInt8) : String := String.ofList ((sextets bytes).map digit)

/-- The sextets that a text holds. -/
def held (text : String) : List ℕ :=
  ((text.toList.flatMap lowBytes).takeWhile fun c => c ≠ '=').filterMap value

/-- `Buffer.from(text, 'base64url')` -/
def decode (text : String) : List UInt8 := octets (held text)

/-- **Reading undoes writing.** -/
theorem decode_encode (bytes : List UInt8) : decode (encode bytes) = bytes := by
  have hlt := sextets_lt bytes
  have hlow : ((sextets bytes).map digit).flatMap lowBytes = (sextets bytes).map digit := by
    rw [List.flatMap_map]
    exact (List.flatMap_congr fun n hn => lowBytes_digit (hlt n hn)).trans
      List.map_eq_flatMap.symm
  have htake : ((sextets bytes).map digit).takeWhile (fun c => decide (c ≠ '=')) =
      (sextets bytes).map digit := by
    rw [List.takeWhile_eq_self_iff]
    intro c hc
    obtain ⟨n, hn, rfl⟩ := List.mem_map.mp hc
    exact decide_eq_true (digit_ne (hlt n hn))
  have hvalues : ((sextets bytes).map digit).filterMap value = sextets bytes := by
    rw [List.filterMap_map]
    refine (List.filterMap_congr fun n hn => ?_).trans List.filterMap_some
    exact value_digit (hlt n hn)
  rw [decode, held, encode, String.toList_ofList, hlow, htake, hvalues, octets_sextets]

theorem encode_ne_empty {bytes : List UInt8} (h : bytes ≠ []) : encode bytes ≠ "" := by
  intro he
  have hback := decode_encode bytes
  rw [he] at hback
  exact h hback.symm

end Base64Url

/-! ## Numeric literals -/

namespace NumericLiteral

/-- The blanks that `Number` passes over. -/
def isBlank (c : Char) : Bool :=
  ['\t', '\n', '\x0b', '\x0c', '\r', ' ', '\u00a0', '\u1680', '\u2028', '\u2029', '\u202f',
    '\u205f', '\u3000', '\ufeff'].contains c || ('\u2000' ≤ c && c ≤ '\u200a')

/-- The text without the blanks around it. -/
def trim (cs : List Char) : List Char :=
  ((cs.dropWhile isBlank).reverse.dropWhile isBlank).reverse

/-- Decimal digits, maybe none, and their value. -/
def digits (cs : List Char) : Option ℕ :=
  if cs.all Char.isDigit then some (Nat.ofDigitChars 10 cs 0) else none

/-- The value of a digit in a base above ten. -/
def digitIn (base : ℕ) (c : Char) : Option ℕ :=
  let n := if c.isDigit then c.toNat - '0'.toNat else c.toLower.toNat - 'a'.toNat + 10
  if c.isAlphanum ∧ n < base then some n else none

/-- Digits in a base, at least one. -/
def integerIn (base : ℕ) (cs : List Char) : Option ℚ :=
  if cs = [] then none
  else (cs.mapM (digitIn base)).map fun ds => ((ds.foldl (fun n d => n * base + d) 0 : ℕ) : ℚ)

/-- An exponent: a sign, and digits. -/
def exponent : List Char → Option ℤ
  | '+' :: cs => if cs = [] then none else (digits cs).map Int.ofNat
  | '-' :: cs => if cs = [] then none else (digits cs).map fun n : ℕ => -(n : ℤ)
  | cs => if cs = [] then none else (digits cs).map Int.ofNat

/-- A decimal without exponent: digits before and after the point, some of them. -/
def mantissa (cs : List Char) : Option ℚ :=
  let whole := cs.takeWhile fun c => c ≠ '.'
  match cs.dropWhile fun c => c ≠ '.' with
  | [] => if whole = [] then none else (digits whole).map fun n : ℕ => (n : ℚ)
  | _ :: part =>
    if whole = [] ∧ part = [] then none
    else do
      let n ← digits whole
      let m ← digits part
      return n + m / 10 ^ part.length

/-- A decimal without a sign. -/
def decimal (cs : List Char) : Option ℚ :=
  let m := cs.takeWhile fun c => c ≠ 'e' ∧ c ≠ 'E'
  match cs.dropWhile fun c => c ≠ 'e' ∧ c ≠ 'E' with
  | [] => mantissa m
  | _ :: e => do return (← mantissa m) * 10 ^ (← exponent e)

/-- A literal with no blanks around it; an empty one is zero. -/
def literal : List Char → Option ℚ
  | [] => some 0
  | '0' :: 'x' :: cs | '0' :: 'X' :: cs => integerIn 16 cs
  | '0' :: 'o' :: cs | '0' :: 'O' :: cs => integerIn 8 cs
  | '0' :: 'b' :: cs | '0' :: 'B' :: cs => integerIn 2 cs
  | '+' :: cs => decimal cs
  | '-' :: cs => (decimal cs).map fun x => -x
  | cs => decimal cs

/-- `Number(text)`, if it is a finite number. -/
def number (text : String) : Option ℚ := (literal (trim text.toList)).bind Binary64.double

/-- Decimals with an exponent: the first one, a point, the others up to the zeros at the end. -/
def scientific : List Char → List Char
  | [] => []
  | d :: ds =>
    let part := ds.rdropWhile fun c => c = '0'
    (d :: if part = [] then [] else '.' :: part) ++ 'e' :: '+' :: Nat.toDigits 10 ds.length

/-- `String(v)` of a natural number that is a double. -/
def text (v : ℕ) : String :=
  let decimals := Nat.toDigits 10 (Binary64.shortest v)
  .ofList (if decimals.length ≤ 21 then decimals else scientific decimals)

/-! ### Natural numbers -/

section Digits

variable {cs : List Char} {c : Char}

theorem isBlank_of_isAlphanum (h : c.isAlphanum = true) : isBlank c = false := by
  have hle : c ≤ 'z' := by
    rcases Bool.or_eq_true_iff.mp h with halpha | hdigit
    · rcases Bool.or_eq_true_iff.mp halpha with hupper | hlower
      · have hupto : c ≤ 'Z' := (of_decide_eq_true hupper).2
        exact Char.le_trans hupto (by decide)
      · exact of_decide_eq_true (Bool.and_eq_true_iff.mp hlower).2
    · have hupto : c ≤ '9' := of_decide_eq_true (Bool.and_eq_true_iff.mp hdigit).2
      exact Char.le_trans hupto (by decide)
  rw [← Bool.not_eq_true]
  intro hblank
  -- a blank is one of the list, or in the range of spaces above all letters and digits
  rcases (Bool.or_eq_true _ _).mp hblank with hmem | hrange
  · have hnone : (['\t', '\n', '\x0b', '\x0c', '\r', ' ', '\u00a0', '\u1680', '\u2028', '\u2029',
        '\u202f', '\u205f', '\u3000', '\ufeff'].all fun b => !b.isAlphanum) = true := by
      decide
    have halnum := List.all_eq_true.mp hnone c (List.contains_iff_mem.mp hmem)
    rw [h] at halnum
    cases halnum
  · obtain ⟨hlow, -⟩ := (Bool.and_eq_true _ _).mp hrange
    have habove : ¬ '\u2000' ≤ 'z' := by decide
    exact habove (Char.le_trans (of_decide_eq_true hlow) hle)

theorem isBlank_of_isDigit (h : c.isDigit = true) : isBlank c = false :=
  isBlank_of_isAlphanum (by rw [Char.isAlphanum, h, Bool.or_true])

/-- Without blanks there is nothing to trim. -/
theorem trim_of_no_blank (h : ∀ c ∈ cs, isBlank c = false) : trim cs = cs := by
  have hdrop : ∀ ds : List Char, (∀ c ∈ ds, isBlank c = false) → ds.dropWhile isBlank = ds := by
    intro ds hds
    rw [List.dropWhile_eq_self_iff]
    intro hlt
    rw [hds _ (List.getElem_mem hlt)]
    exact Bool.false_ne_true
  rw [trim, hdrop cs h, hdrop cs.reverse fun c hc => h c (List.mem_reverse.mp hc),
    List.reverse_reverse]

/-- A literal without a sign is a decimal, unless its base is named. -/
theorem literal_eq_decimal (hsign : c ∉ ['+', '-'])
    (hbase : ∀ d ∈ ['x', 'X', 'o', 'O', 'b', 'B'], d ∉ cs) :
    literal (c :: cs) = decimal (c :: cs) := by
  unfold literal
  split
  · rename_i heq
    cases heq
  all_goals rename_i heq
  · exact absurd (by rw [(List.cons.inj heq).2]; simp) (hbase 'x' (by decide))
  · exact absurd (by rw [(List.cons.inj heq).2]; simp) (hbase 'X' (by decide))
  · exact absurd (by rw [(List.cons.inj heq).2]; simp) (hbase 'o' (by decide))
  · exact absurd (by rw [(List.cons.inj heq).2]; simp) (hbase 'O' (by decide))
  · exact absurd (by rw [(List.cons.inj heq).2]; simp) (hbase 'b' (by decide))
  · exact absurd (by rw [(List.cons.inj heq).2]; simp) (hbase 'B' (by decide))
  · exact absurd (by rw [(List.cons.inj heq).1]; simp) hsign
  · exact absurd (by rw [(List.cons.inj heq).1]; simp) hsign
  · rfl

theorem not_sign_of_isDigit (h : c.isDigit = true) : c ∉ ['+', '-'] := by
  have hnone : (['+', '-'].all fun c => !c.isDigit) = true := by decide
  intro hmem
  have hdigit := List.all_eq_true.mp hnone c hmem
  rw [h] at hdigit
  cases hdigit

variable (hdigits : ∀ c ∈ cs, c.isDigit = true)

include hdigits

/-- Digits have no blanks around them. -/
theorem trim_digits : trim cs = cs :=
  trim_of_no_blank fun c hc => isBlank_of_isDigit (hdigits c hc)

/-- No character that is not a digit is among digits. -/
theorem ne_of_digits {d : Char} (hd : d.isDigit = false) : ∀ c ∈ cs, c ≠ d := by
  rintro c hc rfl
  rw [hdigits c hc] at hd
  cases hd

end Digits

theorem isDigit_of_mem_toDigits {n : ℕ} : ∀ c ∈ Nat.toDigits 10 n, c.isDigit = true :=
  fun _ hc => Nat.isDigit_of_mem_toDigits (by decide) (by decide) hc

/-! ### Points and exponents -/

/-- A point and the digits after it, if there are any. -/
def point (part : List Char) : List Char := if part = [] then [] else '.' :: part

/-- The number with these digits before and after its point. -/
def pointed (whole part : List Char) : ℚ :=
  (Nat.ofDigitChars 10 whole 0 : ℕ) + (Nat.ofDigitChars 10 part 0 : ℕ) / 10 ^ part.length

/-- An exponent with its sign. -/
def exponentText (n : ℤ) : List Char :=
  'e' :: (if n < 0 then '-' else '+') :: Nat.toDigits 10 n.natAbs

section Parts

variable {whole part : List Char} (hwhole : ∀ c ∈ whole, c.isDigit = true)
  (hpart : ∀ c ∈ part, c.isDigit = true)

include hwhole hpart

theorem mem_point {c : Char} (hc : c ∈ whole ++ point part) : c.isDigit = true ∨ c = '.' := by
  rcases List.mem_append.mp hc with hc | hc
  · exact .inl (hwhole c hc)
  · unfold point at hc
    split_ifs at hc
    · cases hc
    · rcases List.mem_cons.mp hc with rfl | hc
      · exact .inr rfl
      · exact .inl (hpart c hc)

theorem mantissa_point (hne : whole ≠ []) :
    mantissa (whole ++ point part) = some (pointed whole part) := by
  have hplain : ∀ c ∈ whole, decide (c ≠ '.') = true := fun c hc =>
    decide_eq_true (ne_of_digits hwhole (d := '.') rfl c hc)
  unfold point
  split_ifs with hnil
  · rw [mantissa, List.append_nil, List.takeWhile_eq_self_iff.mpr hplain,
      List.dropWhile_eq_nil_iff.mpr hplain]
    simp only [if_neg hne, digits, List.all_eq_true.mpr hwhole, if_true, pointed, hnil,
      Nat.ofDigitChars_nil, Nat.cast_zero, zero_div, add_zero]
    rfl
  · rw [mantissa, List.takeWhile_append_of_pos hplain, List.dropWhile_append_of_pos hplain,
      List.takeWhile_cons_of_neg (by decide), List.dropWhile_cons_of_neg (by decide),
      List.append_nil]
    simp only [hne, false_and, if_false, digits, List.all_eq_true.mpr hwhole,
      List.all_eq_true.mpr hpart, if_true]
    rfl

theorem plain_point : ∀ c ∈ whole ++ point part, decide (c ≠ 'e' ∧ c ≠ 'E') = true := by
  intro c hc
  refine decide_eq_true ⟨?_, ?_⟩
  · rintro rfl
    rcases mem_point hwhole hpart hc with h | h <;> cases h
  · rintro rfl
    rcases mem_point hwhole hpart hc with h | h <;> cases h

theorem decimal_point (hne : whole ≠ []) :
    decimal (whole ++ point part) = some (pointed whole part) := by
  have hplain := plain_point hwhole hpart
  rw [decimal, List.takeWhile_eq_self_iff.mpr hplain, List.dropWhile_eq_nil_iff.mpr hplain]
  exact mantissa_point hwhole hpart hne

end Parts

theorem exponent_text (n : ℤ) : exponent ((exponentText n).drop 1) = some n := by
  have hdigits : digits (Nat.toDigits 10 n.natAbs) = some n.natAbs := by
    rw [digits, if_pos (List.all_eq_true.mpr isDigit_of_mem_toDigits),
      Nat.ofDigitChars_ten_toDigits]
  rw [exponentText, List.drop_one, List.tail_cons]
  split_ifs with hneg
  · rw [exponent, if_neg Nat.toDigits_ne_nil, hdigits]
    have hself : -((n.natAbs : ℕ) : ℤ) = n := by omega
    exact congrArg some hself
  · rw [exponent, if_neg Nat.toDigits_ne_nil, hdigits]
    have hself : Int.ofNat n.natAbs = n := Int.natAbs_of_nonneg (not_lt.mp hneg)
    exact congrArg some hself

theorem mem_exponentText {n : ℤ} {c : Char} (hc : c ∈ exponentText n) :
    c.isDigit = true ∨ c ∈ ['e', '+', '-'] := by
  rw [exponentText] at hc
  rcases List.mem_cons.mp hc with rfl | hc
  · exact .inr (by simp)
  · rcases List.mem_cons.mp hc with rfl | hc
    · refine .inr ?_
      split_ifs <;> simp
    · exact .inl (isDigit_of_mem_toDigits c hc)

theorem decimal_exponentText {whole part : List Char} (hwhole : ∀ c ∈ whole, c.isDigit = true)
    (hpart : ∀ c ∈ part, c.isDigit = true) (hne : whole ≠ []) (n : ℤ) :
    decimal (whole ++ point part ++ exponentText n) = some (pointed whole part * 10 ^ n) := by
  have hplain := plain_point hwhole hpart
  rw [decimal, List.takeWhile_append_of_pos hplain, List.dropWhile_append_of_pos hplain]
  have htake : (exponentText n).takeWhile (fun c => decide (c ≠ 'e' ∧ c ≠ 'E')) = [] := by
    rw [exponentText, List.takeWhile_cons_of_neg (by decide)]
  have hdrop : (exponentText n).dropWhile (fun c => decide (c ≠ 'e' ∧ c ≠ 'E')) =
      'e' :: (exponentText n).drop 1 := by
    rw [exponentText, List.dropWhile_cons_of_neg (by decide)]
    rfl
  rw [htake, hdrop, List.append_nil]
  simp only [mantissa_point hwhole hpart hne, exponent_text]
  rfl

/-- A point among the digits divides by a power of ten. -/
theorem pointed_eq (whole part : List Char) :
    pointed whole part = (Nat.ofDigitChars 10 (whole ++ part) 0 : ℕ) / 10 ^ part.length := by
  rw [pointed, Nat.ofDigitChars_append,
    @Nat.ofDigitChars_eq_ofDigitChars_zero part (Nat.ofDigitChars 10 whole 0)]
  push_cast
  rw [add_div, mul_div_cancel_left₀ _ (pow_ne_zero _ (by norm_num))]

/-! ### Decimals of natural numbers -/

theorem literal_digits {cs : List Char} (hdigits : ∀ c ∈ cs, c.isDigit = true) (hne : cs ≠ []) :
    literal cs = some ((Nat.ofDigitChars 10 cs 0 : ℕ) : ℚ) := by
  obtain ⟨c, rest, rfl⟩ := List.exists_cons_of_ne_nil hne
  have hdecimal : decimal ((c :: rest) ++ point []) = some (pointed (c :: rest) []) :=
    decimal_point hdigits (fun c hc => by cases hc) hne
  rw [pointed_eq, point, if_pos rfl, List.append_nil, List.length_nil, pow_zero,
    div_one] at hdecimal
  rw [literal_eq_decimal (not_sign_of_isDigit (hdigits c (List.mem_cons_self ..))), hdecimal]
  intro d hd hmem
  have hnone : ∀ d ∈ ['x', 'X', 'o', 'O', 'b', 'B'], d.isDigit = false := by simp
  exact Bool.false_ne_true ((hnone d hd).symm.trans (hdigits d (List.mem_cons_of_mem _ hmem)))

/-- The decimals of a number are a literal of it. -/
theorem literal_toDigits (n : ℕ) : literal (trim (Nat.toDigits 10 n)) = some (n : ℚ) := by
  rw [trim_digits isDigit_of_mem_toDigits,
    literal_digits isDigit_of_mem_toDigits Nat.toDigits_ne_nil, Nat.ofDigitChars_ten_toDigits]

/-- The decimals of two numbers differ. -/
theorem toString_injective {m n : ℕ} (h : toString m = toString n) : m = n := by
  rw [Nat.toString_eq_ofList_toDigits, Nat.toString_eq_ofList_toDigits] at h
  have hdigits := congrArg (fun t : String => literal (trim t.toList)) h
  simp only [String.toList_ofList, literal_toDigits] at hdigits
  exact_mod_cast Option.some.inj hdigits

/-! ### Zeros at the end -/

/-- Decimals with an exponent are a literal of the same number. -/
theorem literal_scientific {ds : List Char} (hds : ∀ c ∈ ds, c.isDigit = true) (hne : ds ≠ []) :
    literal (trim (scientific ds)) = some ((Nat.ofDigitChars 10 ds 0 : ℕ) : ℚ) := by
  obtain ⟨d, ds, rfl⟩ := List.exists_cons_of_ne_nil hne
  have hd := hds d (List.mem_cons_self ..)
  rw [scientific]
  generalize hpart : ds.rdropWhile (fun c => decide (c = '0')) = part
  generalize hzeros : ds.rtakeWhile (fun c => decide (c = '0')) = zeros
  have hsplit : ds = part ++ zeros := by rw [← hpart, ← hzeros, List.rdropWhile_append_rtakeWhile]
  have hzero : zeros = List.replicate zeros.length '0' := by
    rw [List.eq_replicate_iff]
    refine ⟨rfl, fun c hc => ?_⟩
    rw [← hzeros] at hc
    exact of_decide_eq_true (List.mem_rtakeWhile_imp (p := fun c => decide (c = '0')) hc)
  have hdigits : ∀ c ∈ part, c.isDigit = true := fun c hc =>
    hds c (List.mem_cons_of_mem _ (hsplit ▸ List.mem_append_left _ hc))
  -- the zeros at the end are a power of ten
  have hvalue : Nat.ofDigitChars 10 (d :: ds) 0 =
      10 ^ zeros.length * Nat.ofDigitChars 10 ([d] ++ part) 0 := by
    rw [hsplit, hzero, ← List.cons_append, Nat.ofDigitChars_append,
      Nat.ofDigitChars_replicate_zero, List.length_replicate]
    rfl
  have hwhole : ∀ c ∈ [d], c.isDigit = true := fun c hc => List.mem_singleton.mp hc ▸ hd
  have htext : (d :: if part = [] then [] else '.' :: part) ++
      'e' :: '+' :: Nat.toDigits 10 ds.length =
        d :: (point part ++ exponentText (ds.length : ℤ)) := rfl
  have hblank : ∀ c ∈ ['.', 'e', '+', '-'], isBlank c = false := by simp [isBlank]
  have hbase : ∀ c ∈ ['x', 'X', 'o', 'O', 'b', 'B'],
      ¬ (c.isDigit = true ∨ c ∈ ['.', 'e', '+', '-']) := by
    simp
  -- no blank and no letter of a base is in the text
  have hchars : ∀ c ∈ d :: (point part ++ exponentText (ds.length : ℤ)),
      c.isDigit = true ∨ c ∈ ['.', 'e', '+', '-'] := by
    intro c hc
    rw [← List.cons_append] at hc
    rcases List.mem_append.mp hc with hc | hc
    · rcases mem_point hwhole hdigits hc with hdigit | rfl
      · exact .inl hdigit
      · exact .inr (by simp)
    · exact (mem_exponentText hc).imp_right (List.mem_cons_of_mem _)
  rw [htext, trim_of_no_blank fun c hc => (hchars c hc).elim isBlank_of_isDigit (hblank c),
    literal_eq_decimal (not_sign_of_isDigit hd) fun c hc hmem =>
      hbase c hc (hchars c (List.mem_cons_of_mem _ hmem)),
    ← List.cons_append, ← List.singleton_append, List.append_assoc, ← List.append_assoc,
    decimal_exponentText hwhole hdigits (List.cons_ne_nil _ _), pointed_eq, hvalue]
  congr 1
  have hlength : ds.length = part.length + zeros.length := by rw [hsplit, List.length_append]
  -- the point divides by what the exponent has too much
  have hten : (10 : ℚ) ^ part.length ≠ 0 := pow_ne_zero _ (by norm_num)
  rw [hlength, zpow_natCast, pow_add]
  push_cast
  field_simp

theorem text_ne_empty (v : ℕ) : text v ≠ "" := by
  intro hempty
  have hnil := congrArg String.toList hempty
  rw [text, String.toList_ofList] at hnil
  generalize hdecimals : Nat.toDigits 10 (Binary64.shortest v) = decimals at hnil
  rcases decimals with _ | ⟨d, ds⟩
  · exact Nat.toDigits_ne_nil hdecimals
  · split_ifs at hnil
    · cases hnil
    · cases hnil

/-- **`Number` undoes `String`** on the natural numbers that are doubles. -/
theorem number_text {v : ℕ} (h : Binary64.Representable v) : number (text v) = some (v : ℚ) := by
  rw [number, text, String.toList_ofList]
  split_ifs
  · rw [literal_toDigits]
    exact Binary64.double_shortest h
  · rw [literal_scientific isDigit_of_mem_toDigits Nat.toDigits_ne_nil,
      Nat.ofDigitChars_ten_toDigits]
    exact Binary64.double_shortest h

example : text (10 ^ 23 - 8388608) = "1e+23" := by decide +kernel

end NumericLiteral

end Marketplace
