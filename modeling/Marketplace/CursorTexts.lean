import Marketplace.CursorWalk
import Marketplace.Grammars

/-!
# Texts that pass for cursors

The client is not to make cursors; but what it makes is not told from what the server
made. A cursor is read in two steps, and both are lenient. base64url looks at low bytes,
passes over what is in no alphabet, stops at `=`, and drops the bits that are left over;
`Number` takes blanks, signs, zeros in front, fractions, exponents and other bases, and for
it nothing is zero. So one offset has many texts, of which the server writes one.

A text is *canonical* if it holds no numeral of an offset, or holds the decimals that
`String` writes, as base64url writes them. For canonical texts, and for no others, it makes
no difference that reading is lenient.
-/

namespace Marketplace.Api

open NumericLiteral Binary64

/-- The page that is cut at an offset. -/
def pageAt {α : Type} (all : List α) (limit offset : ℕ) : Page α :=
  let items := (all.drop offset).take limit
  ⟨items, if offset + items.length < all.length then some (encodeCursor (offset + items.length))
    else none⟩

/-- With this cursor, `paginate` is as if only what the server made were accepted. -/
structure OnlyIssued {α : Type} (all : List α) (limit : ℕ) (cursor : String) : Prop where
  issued : ∀ k, Representable k → cursor = encodeCursor k →
    paginate all limit (some cursor) = .ok (pageAt all limit k)
  others : (∀ k, Representable k → cursor ≠ encodeCursor k) →
    paginate all limit (some cursor) = .error badCursor

/-- The numeral of a natural number that the text holds, if any, is the one that `String`
writes, and the text is what base64url makes of it. -/
def Canonical (cursor : String) : Prop :=
  ∀ (numeral : List Char) (k : ℕ), Spells numeral k →
    Base64Url.Holds cursor (Utf8.encode numeral) →
    numeral = (text k).toList ∧ cursor = Base64Url.encode (Utf8.encode numeral)

section Reading

variable {cursor : String}

/-- What a cursor says is the numeral that it holds. -/
theorem number_cursorText_iff {x : ℚ} : number (cursorText cursor) = some x ↔
    ∃ numeral, Spells numeral x ∧ Base64Url.Holds cursor (Utf8.encode numeral) := by
  rw [number_eq_iff, cursorText, String.toList_ofList]
  constructor
  · intro h
    refine ⟨_, h, Base64Url.decode_eq_iff.mp ?_⟩
    -- a numeral has no replacement character, so all the bytes are in it
    exact (Utf8.encode_decode (h.not_mem (by decide) (by decide) (by decide))).symm
  · rintro ⟨numeral, hnumeral, hholds⟩
    rwa [Base64Url.decode_eq_iff.mpr hholds, Utf8.decode_encode]

/-- A cursor says a natural number that is a double, or it is refused. -/
theorem decodeCursor_cases (cursor : String) :
    (∃ k : ℕ, Representable k ∧ number (cursorText cursor) = some (k : ℚ)) ∨
      decodeCursor cursor = .error badCursor := by
  rcases hnumber : number (cursorText cursor) with _ | x
  · refine .inr ?_
    rw [decodeCursor, hnumber]
    rfl
  · by_cases hx : x.den = 1 ∧ 0 ≤ x
    · refine .inl ⟨x.num.toNat, ?_⟩
      have hnum : 0 ≤ x.num := Rat.num_nonneg.mpr hx.2
      have hk : ((x.num.toNat : ℕ) : ℚ) = x := by
        rw [← Int.cast_natCast, Int.toNat_of_nonneg hnum]
        exact Rat.coe_int_num_of_den_eq_one hx.1
      rw [hk]
      refine ⟨?_, rfl⟩
      obtain ⟨exact, -, hround⟩ := Option.bind_eq_some_iff.mp hnumber
      exact representable_of_double (hround.trans (congrArg some hk.symm))
    · refine .inr ?_
      rw [decodeCursor, hnumber]
      simp only [if_neg hx]
      rfl

/-- What is not empty is read by `decodeCursor`. -/
theorem offsetOf_some (hne : cursor ≠ "") : offsetOf (some cursor) = decodeCursor cursor :=
  if_neg hne

/-- The page of a cursor that says an offset. -/
theorem paginate_of_number {α : Type} (all : List α) (limit : ℕ) (hne : cursor ≠ "") {k : ℕ}
    (hk : number (cursorText cursor) = some (k : ℚ)) :
    paginate all limit (some cursor) = .ok (pageAt all limit k) :=
  paginate_eq ((offsetOf_some hne).trans (decodeCursor_eq hk))

/-- A canonical text that says an offset is the cursor of it. -/
theorem Canonical.eq (h : Canonical cursor) {k : ℕ}
    (hk : number (cursorText cursor) = some (k : ℚ)) : cursor = encodeCursor k := by
  obtain ⟨numeral, hnumeral, hholds⟩ := number_cursorText_iff.mp hk
  obtain ⟨rfl, hcursor⟩ := h numeral k hnumeral hholds
  exact hcursor

/-- What the server makes is canonical. -/
theorem canonical_encodeCursor {k : ℕ} (h : Representable k) : Canonical (encodeCursor k) := by
  intro numeral j hnumeral hholds
  have hbytes := Base64Url.decode_eq_iff.mpr hholds
  rw [encodeCursor, Base64Url.decode_encode] at hbytes
  obtain rfl := Utf8.encode_injective hbytes
  have hj := number_eq_iff.mpr hnumeral
  rw [number_text h] at hj
  obtain rfl : k = j := by exact_mod_cast Option.some.inj hj
  exact ⟨rfl, rfl⟩

/-- If only what the server made is accepted, the text is canonical: one that says an offset
is accepted. -/
theorem OnlyIssued.canonical {α : Type} {all : List α} {limit : ℕ}
    (h : OnlyIssued all limit cursor) (hne : cursor ≠ "") : Canonical cursor := by
  intro numeral k hnumeral hholds
  by_cases hissued : ∃ j, Representable j ∧ cursor = encodeCursor j
  · obtain ⟨j, hj, rfl⟩ := hissued
    exact canonical_encodeCursor hj numeral k hnumeral hholds
  · have hrefused := h.others fun j hj heq => hissued ⟨j, hj, heq⟩
    rw [paginate_of_number all limit hne (number_cursorText_iff.mpr ⟨numeral, hnumeral, hholds⟩)]
      at hrefused
    cases hrefused

end Reading

/-- **Only cursors of the server are accepted, exactly as far as texts are canonical.** -/
theorem only_issued_iff {cursor : String} (hne : cursor ≠ "") {α : Type} (all : List α)
    (limit : ℕ) : OnlyIssued all limit cursor ↔ Canonical cursor := by
  refine ⟨fun h => h.canonical hne, fun h => ⟨?_, fun hothers => ?_⟩⟩
  · rintro k hk rfl
    exact paginate_eq (offsetOf_encodeCursor hk)
  · rcases decodeCursor_cases cursor with ⟨k, hk, hnumber⟩ | herror
    · exact absurd (h.eq hnumber) (hothers k hk)
    · rw [paginate, offsetOf_some hne, herror]
      rfl

/-- The cursor that the server makes of the offset 20. -/
theorem demoCursor_only_issued : OnlyIssued [1, 2, 3] 2 "MjA" := by
  have hmade : encodeCursor 20 = "MjA" := by decide +kernel
  have hcanonical := canonical_encodeCursor (k := 20) (representable_of_lt (by norm_num))
  rw [hmade] at hcanonical
  exact (only_issued_iff (by decide) _ _).mpr hcanonical

/-- **Texts that no server made are accepted**: with nothing in them, with a blank, another
base, an exponent or a fraction in them, with a `=` behind a good one, and with a character
that has only the low byte of a good one. -/
theorem made_up_cursors_accepted :
    (∀ cursor ∈ ["!", "IA", "MHgx", "MWUw", "MS4w", "MQ==", "MR", "ōQ"], ∃ k < 2,
      paginate [1, 2, 3] 2 (some cursor) = .ok (pageAt [1, 2, 3] 2 k) ∧ cursor ≠ encodeCursor k) ∧
    paginate [1, 2, 3] 2 (some "!") = .ok ⟨[1, 2], some "Mg"⟩ ∧
    paginate (List.range 20) 2 (some "ōTE") = .ok ⟨[11, 12], some "MTM"⟩ ∧
    ¬ OnlyIssued [1, 2, 3] 2 "!" := by
  refine ⟨by decide +kernel, by decide +kernel, by decide +kernel, fun h => ?_⟩
  have hissued := (h.canonical (by decide)).eq (k := 0) (by decide +kernel)
  revert hissued
  decide +kernel

end Marketplace.Api
