import Marketplace.Transducer
import Mathlib.Tactic.Common

/-!
# UTF-8, read leniently

A decoder that never fails. It is a machine between two bytes: either a new character
begins, or one is pending, and the next byte must lie in a range. Where UTF-8 breaks off,
the replacement character stands for what was pending, and for each byte that begins
nothing.

* A text that is written and read is itself (`decode_encode`), read by whatever pieces end
  between its characters.
* A boundary inside a character costs it: instead of it at least two replacement characters
  are read (`Cut`).
-/

namespace Marketplace.Utf8

/-- What stands for bytes that are no UTF-8. -/
def replacement : Char := '\ufffd'

/-- A character that is not complete: how many bytes it needs, between what the next one must
lie, and its bits so far. -/
structure Pending where
  need : ℕ
  lower : ℕ
  upper : ℕ
  point : ℕ
  deriving DecidableEq

/-- A byte where a character begins. -/
def first (b : UInt8) : List Char × Option Pending :=
  let n := b.toNat
  if n ≤ 0x7f then ([Char.ofNat n], none)
  else if n < 0xc2 then ([replacement], none)
  else if n ≤ 0xdf then ([], some ⟨1, 0x80, 0xbf, n % 32⟩)
  else if n ≤ 0xef then
    ([], some ⟨2, if n = 0xe0 then 0xa0 else 0x80, if n = 0xed then 0x9f else 0xbf, n % 16⟩)
  else if n ≤ 0xf4 then
    ([], some ⟨3, if n = 0xf0 then 0x90 else 0x80, if n = 0xf4 then 0x8f else 0xbf, n % 8⟩)
  else ([replacement], none)

/-- A byte that continues a character, or breaks it off. -/
def next (p : Pending) (b : UInt8) : List Char × Option Pending :=
  if p.lower ≤ b.toNat ∧ b.toNat ≤ p.upper then
    let point := p.point * 64 + b.toNat % 64
    if p.need = 1 then ([Char.ofNat point], none) else ([], some ⟨p.need - 1, 0x80, 0xbf, point⟩)
  else (replacement :: (first b).1, (first b).2)

/-- The decoder. -/
def decoder : Transducer (Option Pending) UInt8 Char where
  step
    | none, b => first b
    | some p, b => next p b

/-- A byte that UTF-8 has in this place. -/
def Fits : Option Pending → UInt8 → Prop
  | none, b => b.toNat ≤ 0x7f ∨ (0xc2 ≤ b.toNat ∧ b.toNat ≤ 0xf4)
  | some p, b => p.lower ≤ b.toNat ∧ b.toNat ≤ p.upper

instance (s : Option Pending) (b : UInt8) : Decidable (Fits s b) :=
  match s with
  | none => inferInstanceAs (Decidable (b.toNat ≤ 0x7f ∨ (0xc2 ≤ b.toNat ∧ b.toNat ≤ 0xf4)))
  | some p => inferInstanceAs (Decidable (p.lower ≤ b.toNat ∧ b.toNat ≤ p.upper))

/-- What is read at the end of the bytes. -/
def flush : Option Pending → List Char
  | none => []
  | some _ => [replacement]

/-- The text that the bytes are read as. -/
def decode (bytes : List UInt8) : List Char :=
  (decoder.feed none bytes).1 ++ flush (decoder.feed none bytes).2

/-- The bytes of a text. -/
def encode (text : List Char) : List UInt8 := text.flatMap String.utf8EncodeChar

@[simp] theorem encode_nil : encode [] = [] := rfl

theorem encode_cons (c : Char) (text : List Char) :
    encode (c :: text) = String.utf8EncodeChar c ++ encode text := List.flatMap_cons ..

theorem encode_append (a b : List Char) : encode (a ++ b) = encode a ++ encode b :=
  List.flatMap_append ..

/-- The bytes of one character. -/
inductive Shape (c : Char) : List UInt8 → Prop
  | one (h : c.toNat ≤ 0x7f) : Shape c [.ofNat c.toNat]
  | two (h : 0x7f < c.toNat) (h' : c.toNat ≤ 0x7ff) :
    Shape c [.ofNat (c.toNat / 64 % 32 + 0xc0), .ofNat (c.toNat % 64 + 0x80)]
  | three (h : 0x7ff < c.toNat) (h' : c.toNat ≤ 0xffff) :
    Shape c [.ofNat (c.toNat / 4096 % 16 + 0xe0), .ofNat (c.toNat / 64 % 64 + 0x80),
      .ofNat (c.toNat % 64 + 0x80)]
  | four (h : 0xffff < c.toNat) :
    Shape c [.ofNat (c.toNat / 262144 % 8 + 0xf0), .ofNat (c.toNat / 4096 % 64 + 0x80),
      .ofNat (c.toNat / 64 % 64 + 0x80), .ofNat (c.toNat % 64 + 0x80)]

theorem shape (c : Char) : Shape c (String.utf8EncodeChar c) := by
  unfold String.utf8EncodeChar
  change Shape c (if c.toNat ≤ 0x7f then _ else if c.toNat ≤ 0x7ff then _
    else if c.toNat ≤ 0xffff then _ else _)
  split_ifs with h₁ h₂ h₃
  · exact .one h₁
  · exact .two (by omega) h₂
  · exact .three (by omega) h₃
  · exact .four (by omega)

theorem encodeChar_one {c : Char} (h : c.toNat ≤ 0x7f) :
    String.utf8EncodeChar c = [.ofNat c.toNat] := by
  have hshape := shape c
  generalize String.utf8EncodeChar c = bytes at hshape
  cases hshape <;> first | rfl | omega

theorem encodeChar_two {c : Char} (h : 0x7f < c.toNat) (h' : c.toNat ≤ 0x7ff) :
    String.utf8EncodeChar c =
      [.ofNat (c.toNat / 64 % 32 + 0xc0), .ofNat (c.toNat % 64 + 0x80)] := by
  have hshape := shape c
  generalize String.utf8EncodeChar c = bytes at hshape
  cases hshape <;> first | rfl | omega

theorem encodeChar_three {c : Char} (h : 0x7ff < c.toNat) (h' : c.toNat ≤ 0xffff) :
    String.utf8EncodeChar c = [.ofNat (c.toNat / 4096 % 16 + 0xe0),
      .ofNat (c.toNat / 64 % 64 + 0x80), .ofNat (c.toNat % 64 + 0x80)] := by
  have hshape := shape c
  generalize String.utf8EncodeChar c = bytes at hshape
  cases hshape <;> first | rfl | omega

theorem encodeChar_four {c : Char} (h : 0xffff < c.toNat) :
    String.utf8EncodeChar c = [.ofNat (c.toNat / 262144 % 8 + 0xf0),
      .ofNat (c.toNat / 4096 % 64 + 0x80), .ofNat (c.toNat / 64 % 64 + 0x80),
      .ofNat (c.toNat % 64 + 0x80)] := by
  have hshape := shape c
  generalize String.utf8EncodeChar c = bytes at hshape
  cases hshape <;> first | rfl | omega

/-! ## One character -/

theorem toNat_byte {n : ℕ} (h : n < 256) : (UInt8.ofNat n).toNat = n := UInt8.toNat_ofNat_of_lt' h

theorem first_byte {n : ℕ} (h : n < 256) : first (.ofNat n) =
    if n ≤ 0x7f then ([Char.ofNat n], none)
    else if n < 0xc2 then ([replacement], none)
    else if n ≤ 0xdf then ([], some ⟨1, 0x80, 0xbf, n % 32⟩)
    else if n ≤ 0xef then
      ([], some ⟨2, if n = 0xe0 then 0xa0 else 0x80, if n = 0xed then 0x9f else 0xbf, n % 16⟩)
    else if n ≤ 0xf4 then
      ([], some ⟨3, if n = 0xf0 then 0x90 else 0x80, if n = 0xf4 then 0x8f else 0xbf, n % 8⟩)
    else ([replacement], none) := by
  rw [first, toNat_byte h]

/-- A byte that fits is not read as a replacement. -/
theorem step_fits {p : Pending} {b : UInt8} (hb : Fits (some p) b) : decoder.step (some p) b =
    if p.need = 1 then ([Char.ofNat (p.point * 64 + b.toNat % 64)], none)
    else ([], some ⟨p.need - 1, 0x80, 0xbf, p.point * 64 + b.toNat % 64⟩) := by
  change next _ _ = _
  rw [next, if_pos (show p.lower ≤ b.toNat ∧ b.toNat ≤ p.upper from hb)]

/-- The last byte of a character. -/
theorem step_last {lower upper point : ℕ} {b : UInt8}
    (hb : Fits (some ⟨1, lower, upper, point⟩) b) :
    decoder.step (some ⟨1, lower, upper, point⟩) b =
      ([Char.ofNat (point * 64 + b.toNat % 64)], none) := step_fits hb

/-- A byte of a character that is not the last one. -/
theorem step_more {need lower upper point : ℕ} {b : UInt8}
    (hb : Fits (some ⟨need + 2, lower, upper, point⟩) b) :
    decoder.step (some ⟨need + 2, lower, upper, point⟩) b =
      ([], some ⟨need + 1, 0x80, 0xbf, point * 64 + b.toNat % 64⟩) := step_fits hb

theorem toNat_valid (c : Char) : c.toNat < 0xd800 ∨ (0xdfff < c.toNat ∧ c.toNat < 0x110000) :=
  c.valid

theorem fits_first {n : ℕ} (h : n < 256) (hn : n ≤ 0x7f ∨ (0xc2 ≤ n ∧ n ≤ 0xf4)) :
    Fits none (.ofNat n) := by
  rw [Fits, toNat_byte h]
  exact hn

theorem fits_next {p : Pending} {n : ℕ} (h : n < 256) (hlow : p.lower ≤ n) (hup : n ≤ p.upper) :
    Fits (some p) (.ofNat n) := by
  rw [Fits, toNat_byte h]
  exact ⟨hlow, hup⟩

/-- A byte that fits where a character begins is one, or begins one. -/
theorem step_first {b : UInt8} (hb : Fits none b) :
    (∃ c, decoder.step none b = ([c], none)) ∨ ∃ p, decoder.step none b = ([], some p) := by
  change (∃ c, first b = ([c], none)) ∨ ∃ p, first b = ([], some p)
  change b.toNat ≤ 0x7f ∨ (0xc2 ≤ b.toNat ∧ b.toNat ≤ 0xf4) at hb
  by_cases h₁ : b.toNat ≤ 0x7f
  · exact .inl ⟨_, if_pos h₁⟩
  · rw [first, if_neg h₁, if_neg (by omega)]
    by_cases h₂ : b.toNat ≤ 0xdf
    · exact .inr ⟨_, if_pos h₂⟩
    · by_cases h₃ : b.toNat ≤ 0xef
      · exact .inr ⟨_, by rw [if_neg h₂, if_pos h₃]⟩
      · exact .inr ⟨_, by rw [if_neg h₂, if_neg h₃, if_pos (by omega)]⟩

/-- From a state, the decoder reads one character from these bytes, and nothing before the last. -/
inductive Reads (c : Char) : Option Pending → List UInt8 → Prop
  | last {s : Option Pending} {b : UInt8} (hb : Fits s b) (h : decoder.step s b = ([c], none)) :
    Reads c s [b]
  | more {s : Option Pending} {b : UInt8} {p : Pending} {bs : List UInt8} (hb : Fits s b)
    (h : decoder.step s b = ([], some p)) (rest : Reads c (some p) bs) : Reads c s (b :: bs)

theorem Shape.reads {c : Char} {bs : List UInt8} (hbs : Shape c bs) : Reads c none bs := by
  have hc : Char.ofNat c.toNat = c := Char.ofNat_toNat c
  have hvalid := toNat_valid c
  cases hbs with
  | one h =>
    generalize c.toNat = n at *
    refine .last (fits_first (by omega) (by omega)) ?_
    change first _ = _
    rw [first_byte (by omega), if_pos h, hc]
  | two h h' =>
    generalize c.toNat = n at *
    refine .more (p := ⟨1, 0x80, 0xbf, (n / 64 % 32 + 0xc0) % 32⟩)
      (fits_first (by omega) (by omega)) ?_
      (.last (fits_next (by omega) (by simp only; omega) (by simp only; omega)) ?_)
    · change first _ = _
      rw [first_byte (by omega), if_neg (by omega), if_neg (by omega), if_pos (by omega)]
    · rw [step_last (fits_next (by omega) (by simp only; omega) (by simp only; omega)),
        toNat_byte (by omega),
        show (n / 64 % 32 + 0xc0) % 32 * 64 + (n % 64 + 0x80) % 64 = n by omega, hc]
  | three h h' =>
    generalize c.toNat = n at *
    -- the second byte is bounded by the first: `e0` begins nothing shorter, `ed` no surrogate
    have hlow : (if n / 4096 % 16 + 0xe0 = 0xe0 then 0xa0 else 0x80) ≤ n / 64 % 64 + 0x80 := by
      split_ifs <;> omega
    have hup : n / 64 % 64 + 0x80 ≤ if n / 4096 % 16 + 0xe0 = 0xed then 0x9f else 0xbf := by
      split_ifs <;> omega
    refine .more (p := ⟨2, if n / 4096 % 16 + 0xe0 = 0xe0 then 0xa0 else 0x80,
        if n / 4096 % 16 + 0xe0 = 0xed then 0x9f else 0xbf, (n / 4096 % 16 + 0xe0) % 16⟩)
      (fits_first (by omega) (by omega)) ?_
      (.more (p := ⟨1, 0x80, 0xbf,
        (n / 4096 % 16 + 0xe0) % 16 * 64 + (n / 64 % 64 + 0x80) % 64⟩)
        (fits_next (by omega) hlow hup) ?_
      (.last (fits_next (by omega) (by simp only; omega) (by simp only; omega)) ?_))
    · change first _ = _
      rw [first_byte (by omega), if_neg (by omega), if_neg (by omega), if_neg (by omega),
        if_pos (by omega)]
    · refine (step_more (fits_next (by omega) hlow hup)).trans ?_
      rw [toNat_byte (by omega)]
    · rw [step_last (fits_next (by omega) (by simp only; omega) (by simp only; omega)),
        toNat_byte (by omega),
        show ((n / 4096 % 16 + 0xe0) % 16 * 64 + (n / 64 % 64 + 0x80) % 64) * 64 +
          (n % 64 + 0x80) % 64 = n by omega, hc]
  | four h =>
    generalize c.toNat = n at *
    -- `f0` begins nothing shorter, and `f4` nothing above the last code point
    have hlow : (if n / 262144 % 8 + 0xf0 = 0xf0 then 0x90 else 0x80) ≤ n / 4096 % 64 + 0x80 := by
      split_ifs <;> omega
    have hup : n / 4096 % 64 + 0x80 ≤ if n / 262144 % 8 + 0xf0 = 0xf4 then 0x8f else 0xbf := by
      split_ifs <;> omega
    refine .more (p := ⟨3, if n / 262144 % 8 + 0xf0 = 0xf0 then 0x90 else 0x80,
        if n / 262144 % 8 + 0xf0 = 0xf4 then 0x8f else 0xbf, (n / 262144 % 8 + 0xf0) % 8⟩)
      (fits_first (by omega) (by omega)) ?_
      (.more (p := ⟨2, 0x80, 0xbf,
        (n / 262144 % 8 + 0xf0) % 8 * 64 + (n / 4096 % 64 + 0x80) % 64⟩)
        (fits_next (by omega) hlow hup) ?_
      (.more (p := ⟨1, 0x80, 0xbf, ((n / 262144 % 8 + 0xf0) % 8 * 64 +
        (n / 4096 % 64 + 0x80) % 64) * 64 + (n / 64 % 64 + 0x80) % 64⟩)
        (fits_next (by omega) (by simp only; omega) (by simp only; omega)) ?_
      (.last (fits_next (by omega) (by simp only; omega) (by simp only; omega)) ?_)))
    · change first _ = _
      rw [first_byte (by omega), if_neg (by omega), if_neg (by omega), if_neg (by omega),
        if_neg (by omega), if_pos (by omega)]
    · refine (step_more (fits_next (by omega) hlow hup)).trans ?_
      rw [toNat_byte (by omega)]
    · rw [step_more (fits_next (by omega) (by simp only; omega) (by simp only; omega)),
        toNat_byte (by omega)]
    · rw [step_last (fits_next (by omega) (by simp only; omega) (by simp only; omega)),
        toNat_byte (by omega),
        show (((n / 262144 % 8 + 0xf0) % 8 * 64 + (n / 4096 % 64 + 0x80) % 64) * 64 +
          (n / 64 % 64 + 0x80) % 64) * 64 + (n % 64 + 0x80) % 64 = n by omega, hc]

/-- **A character is read from its bytes.** -/
theorem reads_char (c : Char) : Reads c none (String.utf8EncodeChar c) := (shape c).reads

/-- The bytes of a character after its first begin no character. -/
theorem Shape.continues {c : Char} {bs : List UInt8} (hbs : Shape c bs) :
    ∀ b ∈ bs.tail, 0x80 ≤ b.toNat ∧ b.toNat < 0xc2 := by
  cases hbs <;> simp only [List.tail_cons, List.mem_cons, List.not_mem_nil, or_false] <;>
    rintro b hb
  · cases hb
  · obtain rfl := hb
    rw [toNat_byte (by omega)]
    omega
  · obtain rfl | rfl := hb <;> rw [toNat_byte (by omega)] <;> omega
  · obtain rfl | rfl | rfl := hb <;> rw [toNat_byte (by omega)] <;> omega

section Reads

variable {c : Char} {s : Option Pending} {bs : List UInt8}

theorem Reads.feed (h : Reads c s bs) : decoder.feed s bs = ([c], none) := by
  induction h with
  | last _ h => rw [Transducer.feed_cons, h, Transducer.feed_nil]; rfl
  | more _ h _ ih => rw [Transducer.feed_cons, h, ih]; rfl

/-- A beginning of the bytes gives nothing yet. -/
theorem Reads.begin (h : Reads c s bs) {p q : List UInt8} (hpq : bs = p ++ q) (hp : p ≠ [])
    (hq : q ≠ []) : ∃ s', decoder.feed s p = ([], some s') := by
  induction h generalizing p with
  | last _ h =>
    obtain ⟨b, p, rfl⟩ := List.exists_cons_of_ne_nil hp
    -- the last byte is all there is, so nothing is left of it
    have hnil := (List.append_eq_nil_iff.mp (List.cons.inj hpq).2.symm).2
    exact absurd hnil hq
  | @more s b p' bs _ h rest ih =>
    obtain ⟨b', p, rfl⟩ := List.exists_cons_of_ne_nil hp
    obtain ⟨rfl, hrest⟩ := List.cons.inj hpq
    rw [Transducer.feed_cons, h]
    by_cases hp' : p = []
    · subst hp'
      exact ⟨p', rfl⟩
    · obtain ⟨s', hs'⟩ := ih hrest hp'
      exact ⟨s', by rw [hs']; rfl⟩

/-- The last byte that is read. -/
theorem Reads.inv_last {lower upper point : ℕ} (h : Reads c (some ⟨1, lower, upper, point⟩) bs) :
    ∃ b, bs = [b] ∧ lower ≤ b.toNat ∧ b.toNat ≤ upper ∧
      c = Char.ofNat (point * 64 + b.toNat % 64) := by
  cases h with
  | @last _ b hb h =>
    rw [step_last hb] at h
    exact ⟨b, rfl, hb.1, hb.2, (List.cons.inj (Prod.mk.inj h).1).1.symm⟩
  | more hb h rest =>
    rw [step_last hb] at h
    cases h

/-- A byte that is read before the last one. -/
theorem Reads.inv_more {need lower upper point : ℕ}
    (h : Reads c (some ⟨need + 2, lower, upper, point⟩) bs) :
    ∃ b bs', bs = b :: bs' ∧ lower ≤ b.toNat ∧ b.toNat ≤ upper ∧
      Reads c (some ⟨need + 1, 0x80, 0xbf, point * 64 + b.toNat % 64⟩) bs' := by
  cases h with
  | last hb h =>
    rw [step_more hb] at h
    cases h
  | @more _ b p bs' hb h rest =>
    rw [step_more hb] at h
    obtain rfl := Option.some.inj (Prod.mk.inj h).2
    exact ⟨b, bs', rfl, hb.1, hb.2, rest⟩

/-- The first byte of a character, and what must come after it. -/
theorem Reads.inv_first (h : Reads c none bs) : ∃ b bs', bs = b :: bs' ∧
    ((b.toNat ≤ 0x7f ∧ bs' = [] ∧ c = Char.ofNat b.toNat) ∨
      (0xc2 ≤ b.toNat ∧ b.toNat ≤ 0xdf ∧ Reads c (some ⟨1, 0x80, 0xbf, b.toNat % 32⟩) bs') ∨
      (0xe0 ≤ b.toNat ∧ b.toNat ≤ 0xef ∧ Reads c (some ⟨2, if b.toNat = 0xe0 then 0xa0 else 0x80,
        if b.toNat = 0xed then 0x9f else 0xbf, b.toNat % 16⟩) bs') ∨
      (0xf0 ≤ b.toNat ∧ b.toNat ≤ 0xf4 ∧ Reads c (some ⟨3, if b.toNat = 0xf0 then 0x90 else 0x80,
        if b.toNat = 0xf4 then 0x8f else 0xbf, b.toNat % 8⟩) bs')) := by
  cases h with
  | @last _ b hb h =>
    refine ⟨b, [], rfl, .inl ?_⟩
    change b.toNat ≤ 0x7f ∨ (0xc2 ≤ b.toNat ∧ b.toNat ≤ 0xf4) at hb
    change first b = _ at h
    rw [first] at h
    split_ifs at h with h₁ h₂ h₃ h₄ h₅ <;> first | omega | cases h
    exact ⟨h₁, rfl, rfl⟩
  | @more _ b p bs' hb h rest =>
    refine ⟨b, bs', rfl, .inr ?_⟩
    change first b = _ at h
    rw [first] at h
    by_cases h₁ : b.toNat ≤ 0x7f
    · rw [if_pos h₁] at h
      cases h
    by_cases h₂ : b.toNat < 0xc2
    · rw [if_neg h₁, if_pos h₂] at h
      cases h
    rw [if_neg h₁, if_neg h₂] at h
    by_cases h₃ : b.toNat ≤ 0xdf
    · rw [if_pos h₃] at h
      obtain rfl := Option.some.inj (Prod.mk.inj h).2
      exact .inl ⟨by omega, h₃, rest⟩
    by_cases h₄ : b.toNat ≤ 0xef
    · rw [if_neg h₃, if_pos h₄] at h
      obtain rfl := Option.some.inj (Prod.mk.inj h).2
      exact .inr (.inl ⟨by omega, h₄, rest⟩)
    by_cases h₅ : b.toNat ≤ 0xf4
    · rw [if_neg h₃, if_neg h₄, if_pos h₅] at h
      obtain rfl := Option.some.inj (Prod.mk.inj h).2
      exact .inr (.inr ⟨by omega, h₅, rest⟩)
    · rw [if_neg h₃, if_neg h₄, if_neg h₅] at h
      cases h

theorem byte_eq {n : ℕ} {b : UInt8} (h : b.toNat = n) : b = .ofNat n := by
  rw [← h, UInt8.ofNat_toNat]

theorem toNat_ofNat {n : ℕ} (h : n < 0xd800 ∨ (0xdfff < n ∧ n < 0x110000)) :
    (Char.ofNat n).toNat = n := by
  rw [Char.ofNat, dif_pos h]
  rfl

/-- **What is read as one character** are the bytes of it. -/
theorem Reads.eq (h : Reads c none bs) : bs = String.utf8EncodeChar c := by
  obtain ⟨b, bs, rfl, ⟨hb, rfl, rfl⟩ | ⟨hlow, hup, h⟩ | ⟨hlow, hup, h⟩ | ⟨hlow, hup, h⟩⟩ :=
    h.inv_first
  · have hn := toNat_ofNat (n := b.toNat) (by omega)
    rw [encodeChar_one (by omega), hn, UInt8.ofNat_toNat]
  · obtain ⟨b', rfl, hlow', hup', rfl⟩ := h.inv_last
    have hn := toNat_ofNat (n := b.toNat % 32 * 64 + b'.toNat % 64) (by omega)
    rw [encodeChar_two (by omega) (by omega), hn]
    exact congrArg₂ List.cons (byte_eq (by omega)) (congrArg₂ List.cons (byte_eq (by omega)) rfl)
  · obtain ⟨b₁, _, rfl, hlow₁, hup₁, h⟩ := h.inv_more
    obtain ⟨b₂, rfl, hlow₂, hup₂, rfl⟩ := h.inv_last
    have hleast : 0x80 ≤ b₁.toNat ∧ (b.toNat = 0xe0 → 0xa0 ≤ b₁.toNat) := by
      split_ifs at hlow₁ <;> omega
    have hmost : b₁.toNat ≤ 0xbf ∧ (b.toNat = 0xed → b₁.toNat ≤ 0x9f) := by
      split_ifs at hup₁ <;> omega
    have hn := toNat_ofNat (n := (b.toNat % 16 * 64 + b₁.toNat % 64) * 64 + b₂.toNat % 64)
      (by omega)
    rw [encodeChar_three (by omega) (by omega), hn]
    exact congrArg₂ List.cons (byte_eq (by omega)) (congrArg₂ List.cons (byte_eq (by omega))
      (congrArg₂ List.cons (byte_eq (by omega)) rfl))
  · obtain ⟨b₁, _, rfl, hlow₁, hup₁, h⟩ := h.inv_more
    obtain ⟨b₂, _, rfl, hlow₂, hup₂, h⟩ := h.inv_more
    obtain ⟨b₃, rfl, hlow₃, hup₃, rfl⟩ := h.inv_last
    have hleast : 0x80 ≤ b₁.toNat ∧ (b.toNat = 0xf0 → 0x90 ≤ b₁.toNat) := by
      split_ifs at hlow₁ <;> omega
    have hmost : b₁.toNat ≤ 0xbf ∧ (b.toNat = 0xf4 → b₁.toNat ≤ 0x8f) := by
      split_ifs at hup₁ <;> omega
    have hn := toNat_ofNat (n := ((b.toNat % 8 * 64 + b₁.toNat % 64) * 64 + b₂.toNat % 64) * 64 +
      b₃.toNat % 64) (by omega)
    rw [encodeChar_four (by omega), hn]
    exact congrArg₂ List.cons (byte_eq (by omega)) (congrArg₂ List.cons (byte_eq (by omega))
      (congrArg₂ List.cons (byte_eq (by omega)) (congrArg₂ List.cons (byte_eq (by omega)) rfl)))

end Reads

/-- Bytes that begin no character are read as replacement characters. -/
theorem feed_broken {bs : List UInt8} (h : ∀ b ∈ bs, 0x80 ≤ b.toNat ∧ b.toNat < 0xc2) :
    decoder.feed none bs = (List.replicate bs.length replacement, none) := by
  have hstep : ∀ b ∈ bs, decoder.step none b = ([replacement], none) := by
    intro b hb
    obtain ⟨hlow, hup⟩ := h b hb
    change first b = _
    rw [first, if_neg (by omega), if_pos hup]
  rw [decoder.feed_stay hstep, ← List.map_eq_flatMap, List.map_const']

/-- **A text that is written and read is itself**, whatever comes after it. -/
theorem feed_encode (text : List Char) : decoder.feed none (encode text) = (text, none) := by
  induction text with
  | nil => rfl
  | cons c text ih => rw [encode_cons, Transducer.feed_append, (reads_char c).feed, ih]; rfl

theorem decode_encode (text : List Char) : decode (encode text) = text := by
  rw [decode, feed_encode, flush, List.append_nil]

/-- What the decoder reads from a state on, to the end. -/
def decodeFrom (s : Option Pending) (bytes : List UInt8) : List Char :=
  (decoder.feed s bytes).1 ++ flush (decoder.feed s bytes).2

theorem decodeFrom_cons (s : Option Pending) (b : UInt8) (bytes : List UInt8) :
    decodeFrom s (b :: bytes) =
      (decoder.step s b).1 ++ decodeFrom (decoder.step s b).2 bytes := by
  rw [decodeFrom, Transducer.feed_cons, decodeFrom, List.append_assoc]

/-- What is read of bytes that stand for a text, from a state on. -/
def Stands (text : List Char) : Option Pending → List UInt8 → Prop
  | none, bytes => bytes = encode text
  | some p, bytes => ∃ c rest start, text = c :: rest ∧ Reads c (some p) start ∧
      bytes = start ++ encode rest

/-- A byte that does not fit is read as a replacement. -/
theorem step_of_not_fits {s : Option Pending} {b : UInt8} (h : ¬ Fits s b) :
    replacement ∈ (decoder.step s b).1 := by
  rcases s with _ | p
  · change ¬ (b.toNat ≤ 0x7f ∨ (0xc2 ≤ b.toNat ∧ b.toNat ≤ 0xf4)) at h
    change replacement ∈ (first b).1
    rw [first, if_neg (by omega)]
    by_cases hlow : b.toNat < 0xc2
    · rw [if_pos hlow]
      exact List.mem_singleton_self _
    · rw [if_neg hlow, if_neg (by omega), if_neg (by omega), if_neg (by omega)]
      exact List.mem_singleton_self _
  · change replacement ∈ (next p b).1
    rw [next, if_neg (show ¬ (p.lower ≤ b.toNat ∧ b.toNat ≤ p.upper) from h)]
    exact List.mem_cons_self ..

/-- A byte that fits completes a character, or more bytes of it are needed. -/
theorem step_of_fits {s : Option Pending} {b : UInt8} (h : Fits s b) :
    (∃ c, decoder.step s b = ([c], none)) ∨ ∃ p, decoder.step s b = ([], some p) := by
  rcases s with _ | p
  · exact step_first h
  · rw [step_fits h]
    split_ifs
    · exact .inl ⟨_, rfl⟩
    · exact .inr ⟨_, rfl⟩

/-- Where nothing is replaced, the bytes stand for what is read. -/
theorem stands_of_decodeFrom {s : Option Pending} {bytes : List UInt8}
    (h : replacement ∉ decodeFrom s bytes) : Stands (decodeFrom s bytes) s bytes := by
  induction bytes generalizing s with
  | nil =>
    rcases s with _ | p
    · rfl
    · exact absurd (List.mem_singleton_self _) h
  | cons b bytes ih =>
    rw [decodeFrom_cons] at h ⊢
    by_cases hfits : Fits s b
    · rcases step_of_fits hfits with ⟨c, hstep⟩ | ⟨p, hstep⟩
      · -- the byte is the last one of a character
        rw [hstep] at h ⊢
        have hrest : bytes = encode (decodeFrom none bytes) :=
          ih fun hmem => h (List.mem_cons_of_mem _ hmem)
        have hreads : Reads c s [b] := .last hfits hstep
        rcases s with _ | p
        · change b :: bytes = encode (c :: decodeFrom none bytes)
          rw [encode_cons, ← hreads.eq, ← hrest]
          rfl
        · exact ⟨c, decodeFrom none bytes, [b], rfl, hreads, congrArg (List.cons b) hrest⟩
      · rw [hstep] at h ⊢
        obtain ⟨c, rest, start, htext, hreads, hbytes⟩ := ih h
        have hmore : Reads c s (b :: start) := .more hfits hstep hreads
        rcases s with _ | p'
        · change b :: bytes = encode (decodeFrom (some p) bytes)
          rw [htext, encode_cons, ← hmore.eq, hbytes]
          rfl
        · exact ⟨c, rest, b :: start, htext, hmore, congrArg (List.cons b) hbytes⟩
    · exact absurd (List.mem_append_left _ (step_of_not_fits hfits)) h

/-- **Where nothing is replaced, nothing is lost.** -/
theorem encode_decode {bytes : List UInt8} (h : replacement ∉ decode bytes) :
    encode (decode bytes) = bytes := (stands_of_decodeFrom (s := none) h).symm

/-- The bytes of a text determine it. -/
theorem encode_injective {a b : List Char} (h : encode a = encode b) : a = b := by
  rw [← decode_encode a, h, decode_encode]

/-! ## Texts in pieces -/

/-- The second text is the first with some of its characters cut: at least two replacement
characters are in the place of each of these, and ASCII characters are never cut. -/
inductive Cut : List Char → List Char → Prop
  | nil : Cut [] []
  | keep (c : Char) {a b : List Char} (h : Cut a b) : Cut (c :: a) (c :: b)
  | cut (c : Char) (hc : 0x7f < c.toNat) {k : ℕ} (hk : 2 ≤ k) {a b : List Char} (h : Cut a b) :
    Cut (c :: a) (List.replicate k replacement ++ b)

/-- What is put before both. -/
theorem Cut.after (x : List Char) {a b : List Char} (h : Cut a b) : Cut (x ++ a) (x ++ b) := by
  induction x with
  | nil => exact h
  | cons c x ih => exact .keep c ih

/-- A cut leaves more replacement characters than there were. -/
theorem Cut.count_le {a b : List Char} (h : Cut a b) :
    a.count replacement ≤ b.count replacement ∧
      (a.count replacement = b.count replacement → a = b) := by
  induction h with
  | nil => exact ⟨Nat.le_refl _, fun _ => rfl⟩
  | keep c h ih =>
    obtain ⟨hle, heq⟩ := ih
    rw [List.count_cons, List.count_cons]
    exact ⟨by omega, fun hcount => congrArg _ (heq (by omega))⟩
  | cut c hc hk h ih =>
    obtain ⟨hle, -⟩ := ih
    rw [List.count_append, List.count_replicate_self, List.count_cons]
    have hone : (if (c == replacement) = true then 1 else 0) ≤ 1 := by split_ifs <;> omega
    exact ⟨by omega, fun hcount => absurd hcount (by omega)⟩

/-- Bytes that are a text by themselves. -/
def WellFormed (bytes : List UInt8) : Prop := ∃ text, bytes = encode text

theorem encodeChar_ne_nil (c : Char) : String.utf8EncodeChar c ≠ [] := by
  have h := reads_char c
  intro hnil
  rw [hnil] at h
  cases h

theorem encode_eq_nil {text : List Char} (h : encode text = []) : text = [] := by
  cases text with
  | nil => rfl
  | cons c text =>
    rw [encode_cons] at h
    exact absurd (List.append_eq_nil_iff.mp h).1 (encodeChar_ne_nil c)

/-- Where the bytes of a text are split: between its characters, or inside of one. -/
inductive Split (text : List Char) : List UInt8 → List UInt8 → Prop
  | between (x y : List Char) (htext : text = x ++ y) : Split text (encode x) (encode y)
  | inside (x y : List Char) (c : Char) (p q : List UInt8) (htext : text = x ++ c :: y)
    (hc : String.utf8EncodeChar c = p ++ q) (hp : p ≠ []) (hq : q ≠ []) :
    Split text (encode x ++ p) (q ++ encode y)

theorem split_of_append {text : List Char} {l r : List UInt8} (h : encode text = l ++ r) :
    Split text l r := by
  induction text generalizing l with
  | nil =>
    obtain ⟨rfl, rfl⟩ := List.append_eq_nil_iff.mp h.symm
    exact .between [] [] rfl
  | cons c text ih =>
    rw [encode_cons] at h
    rcases List.append_eq_append_iff.mp h with ⟨l', rfl, hl⟩ | ⟨q, hq, rfl⟩
    · cases ih hl with
      | between x y htext =>
        rw [← encode_cons]
        exact .between (c :: x) y (by rw [htext]; rfl)
      | inside x y d p q htext hd hp hq =>
        rw [← List.append_assoc, ← encode_cons]
        exact .inside (c :: x) y d p q (by rw [htext]; rfl) hd hp hq
    · by_cases hq' : q = []
      · subst hq'
        rw [List.append_nil] at hq
        have hchar : l = encode [c] := by rw [encode_cons, encode_nil, List.append_nil, hq]
        rw [hchar, List.nil_append]
        exact .between [c] text rfl
      · by_cases hl : l = []
        · subst hl
          rw [List.nil_append] at hq
          rw [← hq, ← encode_cons]
          exact .between [] (c :: text) rfl
        · exact .inside [] text c l q rfl hq hl hq'

/-- The rest of a character that was begun. -/
def Broken (bytes : List UInt8) : Prop := ∀ b ∈ bytes, 0x80 ≤ b.toNat ∧ b.toNat < 0xc2

theorem broken_nil : Broken [] := fun _ h => absurd h List.not_mem_nil

theorem broken_of_char {c : Char} {p q : List UInt8} (h : String.utf8EncodeChar c = p ++ q)
    (hp : p ≠ []) : Broken q := by
  obtain ⟨b, p, rfl⟩ := List.exists_cons_of_ne_nil hp
  have hall := (shape c).continues
  rw [h] at hall
  exact fun b hb => hall b (List.mem_append_right _ hb)

/-- Broken bytes, and then a text. -/
theorem feed_broken_encode {bs : List UInt8} (h : Broken bs) (x : List Char) :
    decoder.feed none (bs ++ encode x) = (List.replicate bs.length replacement ++ x, none) := by
  rw [Transducer.feed_append, feed_broken h, feed_encode]

/-- What is read when the last character breaks off. -/
theorem decode_inside {bs : List UInt8} (h : Broken bs) (x : List Char) {c : Char}
    {p q : List UInt8} (hc : String.utf8EncodeChar c = p ++ q) (hp : p ≠ []) (hq : q ≠ []) :
    decode (bs ++ (encode x ++ p)) =
      List.replicate bs.length replacement ++ (x ++ [replacement]) := by
  obtain ⟨s, hs⟩ := (reads_char c).begin hc hp hq
  rw [decode, ← List.append_assoc, Transducer.feed_append, feed_broken_encode h, hs]
  simp only [flush, List.append_nil, List.append_assoc]

/-- **Pieces of a text**, of which the first may begin inside a character. -/
theorem cut_from {chunks : List (List UInt8)} {bs : List UInt8} {text : List Char} (hbs : Broken bs)
    (h : chunks.flatten = bs ++ encode text) : ∃ text',
      chunks.flatMap decode = List.replicate bs.length replacement ++ text' ∧ Cut text text' := by
  induction chunks generalizing bs text with
  | nil =>
    obtain ⟨rfl, hnil⟩ := List.append_eq_nil_iff.mp h.symm
    obtain rfl := encode_eq_nil hnil
    exact ⟨[], rfl, .nil⟩
  | cons chunk chunks ih =>
    rw [List.flatten_cons] at h
    rw [List.flatMap_cons]
    rcases List.append_eq_append_iff.mp h with ⟨rest, rfl, hrest⟩ | ⟨l, rfl, hl⟩
    · -- the piece ends before the character does
      obtain ⟨text', hdecode, hcut⟩ := ih (fun b hb => hbs b (List.mem_append_right _ hb)) hrest
      have hchunk := feed_broken fun b hb => hbs b (List.mem_append_left _ hb)
      refine ⟨text', ?_, hcut⟩
      rw [hdecode, decode, hchunk, flush, List.append_nil, List.length_append, List.replicate_add,
        List.append_assoc]
    · generalize hr : chunks.flatten = r at hl
      cases split_of_append hl with
      | between x y htext =>
        obtain ⟨text', hdecode, hcut⟩ := ih broken_nil hr
        refine ⟨x ++ text', ?_, htext ▸ hcut.after x⟩
        rw [hdecode, decode, feed_broken_encode hbs, flush, List.append_nil, List.append_assoc]
        rfl
      | inside x y c p q htext hc hp hq =>
        obtain ⟨text', hdecode, hcut⟩ := ih (broken_of_char hc hp) hr
        have hlength := List.length_pos_of_ne_nil hq
        refine ⟨x ++ (List.replicate (q.length + 1) replacement ++ text'), ?_, ?_⟩
        · rw [hdecode, decode_inside hbs x hc hp hq, List.replicate_succ]
          simp only [List.append_assoc, List.cons_append, List.nil_append]
        · rw [htext]
          refine (Cut.cut c ?_ (by omega) hcut).after x
          by_contra hascii
          rw [encodeChar_one (by omega)] at hc
          obtain ⟨b, p, rfl⟩ := List.exists_cons_of_ne_nil hp
          exact hq (List.append_eq_nil_iff.mp (List.cons.inj hc).2.symm).2

/-- If all pieces are texts, so is the whole. -/
theorem decode_wellFormed {chunks : List (List UInt8)} (h : ∀ chunk ∈ chunks, WellFormed chunk) :
    chunks.flatten = encode (chunks.flatMap decode) := by
  induction chunks with
  | nil => rfl
  | cons chunk chunks ih =>
    obtain ⟨x, rfl⟩ := h chunk (List.mem_cons_self ..)
    rw [List.flatten_cons, List.flatMap_cons, encode_append, decode_encode,
      ih fun c hc => h c (List.mem_cons_of_mem _ hc)]

/-- Otherwise there are more replacement characters than there were. -/
theorem wellFormed_or_more {chunks : List (List UInt8)} {text : List Char}
    (h : chunks.flatten = encode text) : (∀ chunk ∈ chunks, WellFormed chunk) ∨
      text.count replacement < (chunks.flatMap decode).count replacement := by
  induction chunks generalizing text with
  | nil => exact .inl fun chunk hchunk => by cases hchunk
  | cons chunk chunks ih =>
    rw [List.flatten_cons] at h
    rw [List.flatMap_cons, List.count_append]
    generalize hr : chunks.flatten = r at h
    cases split_of_append h.symm with
    | between x y htext =>
      rw [htext, decode_encode, List.count_append]
      rcases ih hr with hall | hmore
      · exact .inl (List.forall_mem_cons.mpr ⟨⟨x, rfl⟩, hall⟩)
      · exact .inr (by omega)
    | inside x y c p q htext hc hp hq =>
      obtain ⟨text', hdecode, hcut⟩ := cut_from (broken_of_char hc hp) hr
      have hchunk := decode_inside broken_nil x hc hp hq
      have hlength := List.length_pos_of_ne_nil hq
      have hle := hcut.count_le.1
      have hone : (if (c == replacement) = true then 1 else 0) ≤ 1 := by split_ifs <;> omega
      simp only [List.nil_append, List.length_nil, List.replicate_zero] at hchunk
      refine .inr ?_
      rw [htext, hchunk, hdecode, List.count_append, List.count_append, List.count_append,
        List.count_cons, List.count_cons, List.count_nil, List.count_replicate_self]
      simp only [beq_self_eq_true, if_true]
      omega

/-- **A text in pieces**: cut where pieces end inside a character, and only there. -/
theorem cut_pieces {chunks : List (List UInt8)} {text : List Char}
    (h : chunks.flatten = encode text) : Cut text (chunks.flatMap decode) ∧
      (chunks.flatMap decode = text ↔ ∀ chunk ∈ chunks, WellFormed chunk) := by
  refine ⟨?_, fun htext => ?_, fun hall => ?_⟩
  · obtain ⟨text', hdecode, hcut⟩ := cut_from broken_nil h
    rw [hdecode]
    exact hcut
  · rcases wellFormed_or_more h with hall | hmore
    · exact hall
    · rw [htext] at hmore
      exact absurd hmore (Nat.lt_irrefl _)
  · exact encode_injective ((decode_wellFormed hall).symm.trans h)

end Marketplace.Utf8
