import Marketplace.Texts
import Marketplace.Utf8

/-!
# Percent encoding

`decodeURIComponent` reads a text in which `%` and two hexadecimal digits stand for a byte,
and these bytes for characters in UTF-8. Unlike a decoder of bodies it is strict: where an
escape is no escape, or the bytes no UTF-8, it throws.

The texts that it takes have a grammar (`Escaped`): characters other than `%`, and whole
characters with all of their bytes escaped. Whatever is not of this form is thrown at the
caller (`decodeURIComponent_eq_some_iff`).
-/

namespace Marketplace.Percent

/-- A character that stands for itself, or a byte that is escaped. -/
inductive Piece where
  | plain (c : Char)
  | octet (b : UInt8)
  deriving DecidableEq

/-- The byte of two hexadecimal digits. -/
def octet (hi lo : Char) : Option UInt8 := do
  return .ofNat ((← NumericLiteral.digitIn 16 hi) * 16 + (← NumericLiteral.digitIn 16 lo))

/-- Find the escapes. -/
def pieces : List Char → Option (List Piece)
  | [] => some []
  | c :: cs =>
    if c = '%' then
      match cs with
      | hi :: lo :: cs => do return .octet (← octet hi lo) :: (← pieces cs)
      | _ => none
    else do return .plain c :: (← pieces cs)

/-- Put characters together from their bytes, and let the others stand. -/
def join : Option Utf8.Pending → List Piece → Option (List Char)
  | none, [] => some []
  | some _, [] => none
  | none, .plain c :: ps => (join none ps).map (c :: ·)
  | some _, .plain _ :: _ => none
  | s, .octet b :: ps =>
    if Utf8.Fits s b then
      (join (Utf8.decoder.step s b).2 ps).map ((Utf8.decoder.step s b).1 ++ ·)
    else none

/-- `decodeURIComponent`; none where it throws. -/
def decodeURIComponent (text : List Char) : Option (List Char) := (pieces text).bind (join none)

/-! ## The texts it takes -/

/-- The escapes of some bytes. -/
inductive Spells : List Char → List UInt8 → Prop
  | nil : Spells [] []
  | cons {hi lo : Char} {b : UInt8} {cs : List Char} {bs : List UInt8} (hb : octet hi lo = some b)
    (h : Spells cs bs) : Spells ('%' :: hi :: lo :: cs) (b :: bs)

/-- The first text is the second with some of its characters escaped. -/
inductive Escaped : List Char → List Char → Prop
  | nil : Escaped [] []
  | plain (c : Char) (hc : c ≠ '%') {cs text : List Char} (h : Escaped cs text) :
    Escaped (c :: cs) (c :: text)
  | escape (c : Char) {es : List Char} (hes : Spells es (String.utf8EncodeChar c))
    {cs text : List Char} (h : Escaped cs text) : Escaped (es ++ cs) (c :: text)

section Spelling

variable {es cs text : List Char} {bs : List UInt8} {ps : List Piece}

theorem pieces_plain {c : Char} (hc : c ≠ '%') (cs : List Char) :
    pieces (c :: cs) = (pieces cs).map (.plain c :: ·) := by
  rw [pieces.eq_def]
  simp only [if_neg hc]
  rcases pieces cs with _ | ps <;> rfl

theorem pieces_octet (hi lo : Char) (cs : List Char) : pieces ('%' :: hi :: lo :: cs) =
    (octet hi lo).bind fun b => (pieces cs).map (.octet b :: ·) := by
  rw [pieces.eq_def]
  simp only [if_true]
  rcases octet hi lo with _ | b
  · rfl
  · rcases pieces cs with _ | ps <;> rfl

/-- What a text begins with, of which the pieces are found. -/
theorem pieces_cases {p : Piece} (h : pieces cs = some (p :: ps)) :
    (∃ c cs', p = .plain c ∧ cs = c :: cs' ∧ c ≠ '%' ∧ pieces cs' = some ps) ∨
      ∃ hi lo b cs', p = .octet b ∧ cs = '%' :: hi :: lo :: cs' ∧ octet hi lo = some b ∧
        pieces cs' = some ps := by
  rcases cs with _ | ⟨c, cs⟩
  · cases h
  · by_cases hc : c = '%'
    · subst hc
      rcases cs with _ | ⟨hi, _ | ⟨lo, cs⟩⟩
      · cases h
      · cases h
      · rw [pieces_octet] at h
        obtain ⟨b, hb, hmap⟩ := Option.bind_eq_some_iff.mp h
        obtain ⟨ps', hps, heq⟩ := Option.map_eq_some_iff.mp hmap
        obtain ⟨rfl, rfl⟩ := List.cons.inj heq
        exact .inr ⟨hi, lo, b, cs, rfl, rfl, hb, hps⟩
    · rw [pieces_plain hc] at h
      obtain ⟨ps', hps, heq⟩ := Option.map_eq_some_iff.mp h
      obtain ⟨rfl, rfl⟩ := List.cons.inj heq
      exact .inl ⟨c, cs, rfl, rfl, hc, hps⟩

theorem pieces_eq_nil (h : pieces cs = some []) : cs = [] := by
  rcases cs with _ | ⟨c, cs⟩
  · rfl
  · by_cases hc : c = '%'
    · subst hc
      rcases cs with _ | ⟨hi, _ | ⟨lo, cs⟩⟩
      · cases h
      · cases h
      · rw [pieces_octet] at h
        obtain ⟨b, -, hmap⟩ := Option.bind_eq_some_iff.mp h
        obtain ⟨ps', -, heq⟩ := Option.map_eq_some_iff.mp hmap
        cases heq
    · rw [pieces_plain hc] at h
      obtain ⟨ps', -, heq⟩ := Option.map_eq_some_iff.mp h
      cases heq

/-- Escapes give bytes. -/
theorem pieces_of_spells (h : Spells es bs) (cs : List Char) :
    pieces (es ++ cs) = (pieces cs).map (bs.map .octet ++ ·) := by
  induction h with
  | nil => exact Option.map_id'.symm
  | @cons hi lo b es bs hb _ ih =>
    change pieces ('%' :: hi :: lo :: (es ++ cs)) = _
    rw [pieces_octet, hb, Option.bind_some, ih, Option.map_map]
    rfl

/-- Escaped bytes come from escapes. -/
theorem spells_of_pieces (h : pieces cs = some (bs.map .octet ++ ps)) :
    ∃ es cs', cs = es ++ cs' ∧ Spells es bs ∧ pieces cs' = some ps := by
  induction bs generalizing cs with
  | nil => exact ⟨[], cs, rfl, .nil, h⟩
  | cons b bs ih =>
    rcases pieces_cases h with ⟨c, -, heq, -⟩ | ⟨hi, lo, b', cs', heq, rfl, hb, hrest⟩
    · cases heq
    · obtain rfl := Piece.octet.inj heq
      obtain ⟨es, cs'', rfl, hes, hps⟩ := ih hrest
      exact ⟨'%' :: hi :: lo :: es, cs'', rfl, .cons hb hes, hps⟩

/-- The bytes of a character are joined to it. -/
theorem join_reads {c : Char} {s : Option Utf8.Pending} (h : Utf8.Reads c s bs) (ps : List Piece) :
    join s (bs.map .octet ++ ps) = (join none ps).map (c :: ·) := by
  induction h with
  | last hb h =>
    change join _ (.octet _ :: ps) = _
    rw [join, if_pos hb, h]
    rfl
  | @more s b p bs hb h _ ih =>
    change join s (.octet b :: (bs.map .octet ++ ps)) = _
    rw [join, if_pos hb, h, ih]
    exact Option.map_id'

/-- What is joined while a character is pending begins with the rest of its bytes. -/
theorem reads_of_join {p : Utf8.Pending} (h : join (some p) ps = some text) :
    ∃ c bs ps' text', Utf8.Reads c (some p) bs ∧ ps = bs.map .octet ++ ps' ∧
      text = c :: text' ∧ join none ps' = some text' := by
  induction ps generalizing p text with
  | nil => cases h
  | cons q ps ih =>
    rcases q with c | b
    · cases h
    · rw [join] at h
      split_ifs at h with hb
      obtain ⟨rest, hrest, rfl⟩ := Option.map_eq_some_iff.mp h
      have hstep := Utf8.step_fits hb
      split_ifs at hstep
      · rw [hstep] at hrest ⊢
        exact ⟨_, [b], ps, rest, .last hb hstep, rfl, rfl, hrest⟩
      · rw [hstep] at hrest ⊢
        obtain ⟨c, bs, ps', text', hreads, rfl, rfl, hjoin⟩ := ih hrest
        exact ⟨c, b :: bs, ps', text', .more hb hstep hreads, rfl, rfl, hjoin⟩

/-- What is joined begins with a plain character or with all the bytes of one. -/
theorem join_cases {c : Char} (h : join none ps = some (c :: text)) :
    (∃ ps', ps = .plain c :: ps' ∧ join none ps' = some text) ∨
      ∃ ps', ps = (String.utf8EncodeChar c).map .octet ++ ps' ∧ join none ps' = some text := by
  rcases ps with _ | ⟨d | b, ps⟩
  · cases h
  · rw [join] at h
    obtain ⟨rest, hrest, heq⟩ := Option.map_eq_some_iff.mp h
    obtain ⟨rfl, rfl⟩ := List.cons.inj heq
    exact .inl ⟨ps, rfl, hrest⟩
  · refine .inr ?_
    rw [join] at h
    split_ifs at h with hb
    obtain ⟨rest, hrest, heq⟩ := Option.map_eq_some_iff.mp h
    rcases Utf8.step_first hb with ⟨d, hstep⟩ | ⟨p, hstep⟩
    · rw [hstep] at hrest heq
      obtain ⟨rfl, rfl⟩ := List.cons.inj heq
      rw [← (Utf8.Reads.last hb hstep).eq]
      exact ⟨ps, rfl, hrest⟩
    · rw [hstep] at hrest heq
      -- the rest of the character is read with the bytes still owed
      obtain ⟨d, bs, ps', text', hreads, rfl, rfl, hjoin⟩ := reads_of_join hrest
      obtain ⟨rfl, rfl⟩ := List.cons.inj heq
      rw [← (Utf8.Reads.more hb hstep hreads).eq]
      exact ⟨ps', rfl, hjoin⟩

theorem join_eq_nil (h : join none ps = some []) : ps = [] := by
  rcases ps with _ | ⟨d | b, ps⟩
  · rfl
  · rw [join] at h
    obtain ⟨rest, -, heq⟩ := Option.map_eq_some_iff.mp h
    cases heq
  · rw [join] at h
    split_ifs at h with hb
    obtain ⟨rest, hrest, heq⟩ := Option.map_eq_some_iff.mp h
    rcases Utf8.step_first hb with ⟨d, hstep⟩ | ⟨p, hstep⟩
    · rw [hstep] at heq
      cases heq
    · rw [hstep] at hrest heq
      obtain ⟨d, bs, ps', text', -, -, rfl, -⟩ := reads_of_join hrest
      cases heq

end Spelling

/-- **`decodeURIComponent` takes the texts with whole characters escaped**, and no others. -/
theorem decodeURIComponent_eq_some_iff {cs text : List Char} :
    decodeURIComponent cs = some text ↔ Escaped cs text := by
  constructor
  · intro h
    obtain ⟨ps, hps, hjoin⟩ := Option.bind_eq_some_iff.mp h
    -- one character of the text at a time, plain or spelled in escapes
    clear h
    induction text generalizing cs ps with
    | nil =>
      obtain rfl := join_eq_nil hjoin
      obtain rfl := pieces_eq_nil hps
      exact .nil
    | cons c text ih =>
      rcases join_cases hjoin with ⟨ps', rfl, hrest⟩ | ⟨ps', rfl, hrest⟩
      · rcases pieces_cases hps with ⟨d, cs', heq, rfl, hd, hps'⟩ | ⟨_, _, _, _, heq, -⟩
        · obtain rfl := Piece.plain.inj heq
          exact .plain c hd (ih ps' hps' hrest)
        · cases heq
      · obtain ⟨es, cs', rfl, hes, hps'⟩ := spells_of_pieces hps
        exact .escape c hes (ih ps' hps' hrest)
  · intro h
    induction h with
    | nil => rfl
    | plain c hc _ ih =>
      obtain ⟨ps, hps, hjoin⟩ := Option.bind_eq_some_iff.mp ih
      rw [decodeURIComponent, pieces_plain hc, hps]
      -- a plain character is a piece of its own
      change join none (.plain c :: ps) = _
      rw [join, hjoin]
      rfl
    | escape c hes _ ih =>
      obtain ⟨ps, hps, hjoin⟩ := Option.bind_eq_some_iff.mp ih
      rw [decodeURIComponent, pieces_of_spells hes, hps]
      change join none (_ ++ ps) = _
      rw [join_reads (Utf8.reads_char c), hjoin]
      rfl

example : decodeURIComponent "%D1%94-1%2f".toList = some "є-1/".toList := by decide +kernel

end Marketplace.Percent
