import Marketplace.Json
import Marketplace.Utf8

/-!
# Strings of UTF-16 units

A JavaScript string is a sequence of units, and any sequence will do: half a pair may stand
alone. Cut into *pieces*, each a character or a lone half, it is what is written of it:
nothing is lost (`join_pieces`), and the units of a text are the pieces of that text
(`pieces_encode`). Where a string has to become a text, the replacement character stands for
each lone half (`decode`).
-/

namespace Marketplace.Utf16

open Json

/-- The first half of a pair. -/
def IsHigh (u : UInt16) : Prop := 0xd800 ≤ u.toNat ∧ u.toNat < 0xdc00

/-- The second half of a pair. -/
def IsLow (u : UInt16) : Prop := 0xdc00 ≤ u.toNat ∧ u.toNat < 0xe000

instance (u : UInt16) : Decidable (IsHigh u) :=
  inferInstanceAs (Decidable (0xd800 ≤ u.toNat ∧ u.toNat < 0xdc00))

instance (u : UInt16) : Decidable (IsLow u) :=
  inferInstanceAs (Decidable (0xdc00 ≤ u.toNat ∧ u.toNat < 0xe000))

/-- A piece of a string. -/
inductive Piece where
  | char (c : Char)
  /-- half a pair, without the other half -/
  | lone (u : UInt16)
  deriving DecidableEq

/-- The character of a pair. -/
def pair (u v : UInt16) : Char :=
  .ofNat (0x10000 + (u.toNat - 0xd800) * 1024 + (v.toNat - 0xdc00))

/-- A unit that is not the first half of a pair. -/
def single (u : UInt16) : Piece :=
  if IsHigh u ∨ IsLow u then .lone u else .char (.ofNat u.toNat)

/-- The pieces of a string. -/
def pieces : Units → List Piece
  | [] => []
  | [u] => [single u]
  | u :: v :: rest =>
    if IsHigh u ∧ IsLow v then .char (pair u v) :: pieces rest
    else single u :: pieces (v :: rest)

/-- The units of a piece. -/
def Piece.units : Piece → Units
  | .char c => Json.units c
  | .lone u => [u]

/-- The units of a text. -/
def encode (text : List Char) : Units := text.flatMap Json.units

/-- The text of a string. -/
def decode (s : Units) : List Char :=
  (pieces s).map fun
    | .char c => c
    | .lone _ => Utf8.replacement

@[simp] theorem encode_nil : encode [] = [] := rfl

theorem encode_cons (c : Char) (text : List Char) :
    encode (c :: text) = Json.units c ++ encode text := rfl

theorem encode_append (a b : List Char) : encode (a ++ b) = encode a ++ encode b :=
  List.flatMap_append

/-- A unit that stands for itself. -/
theorem units_ofNat {u : UInt16} (h : ¬ (IsHigh u ∨ IsLow u)) :
    Json.units (.ofNat u.toNat) = [u] := by
  have hlt := u.toNat_lt
  have hvalid : u.toNat < 0xd800 ∨ (0xdfff < u.toNat ∧ u.toNat < 0x110000) := by
    simp only [IsHigh, IsLow] at h
    omega
  rw [Json.units, Utf8.toNat_ofNat hvalid, if_pos (by omega), UInt16.ofNat_toNat]

/-- The units of a pair are the two halves. -/
theorem units_pair {u v : UInt16} (hu : IsHigh u) (hv : IsLow v) :
    Json.units (pair u v) = [u, v] := by
  obtain ⟨hu, hu'⟩ := hu
  obtain ⟨hv, hv'⟩ := hv
  have hhigh : ∀ {n : ℕ} {w : UInt16}, n = w.toNat → UInt16.ofNat n = w := by
    rintro n w rfl
    exact UInt16.ofNat_toNat
  rw [pair, Json.units, Utf8.toNat_ofNat (by omega), if_neg (by omega), hhigh (w := u) (by omega),
    hhigh (w := v) (by omega)]

theorem single_units (u : UInt16) : (single u).units = [u] := by
  unfold single
  split_ifs with h
  · rfl
  · exact units_ofNat h

/-- **Nothing is lost.** -/
theorem join_pieces (s : Units) : (pieces s).flatMap Piece.units = s := by
  induction s using pieces.induct with
  | case1 => rfl
  | case2 u => rw [pieces, List.flatMap_singleton, single_units]
  | case3 u v rest h ih =>
    rw [pieces, if_pos h, List.flatMap_cons, ih]
    exact congrArg (· ++ rest) (units_pair h.1 h.2)
  | case4 u v rest h ih =>
    rw [pieces, if_neg h, List.flatMap_cons, ih, single_units]
    rfl

/-- A character below the pairs is one unit, which is no half. -/
theorem units_small {c : Char} (h : c.toNat < 0x10000) :
    ∃ u : UInt16, Json.units c = [u] ∧ u.toNat = c.toNat ∧ ¬ IsHigh u ∧ ¬ IsLow u := by
  have hnat : (UInt16.ofNat c.toNat).toNat = c.toNat := UInt16.toNat_ofNat_of_lt' h
  have hvalid := Utf8.toNat_valid c
  refine ⟨.ofNat c.toNat, by rw [Json.units, if_pos h], hnat, ?_, ?_⟩
  · rw [IsHigh, hnat]
    omega
  · rw [IsLow, hnat]
    omega

/-- Any other character is a pair. -/
theorem units_large {c : Char} (h : ¬ c.toNat < 0x10000) :
    ∃ u v : UInt16, Json.units c = [u, v] ∧ IsHigh u ∧ IsLow v ∧ pair u v = c := by
  have hvalid := Utf8.toNat_valid c
  have hhigh : (UInt16.ofNat (0xd800 + (c.toNat - 0x10000) / 1024)).toNat =
      0xd800 + (c.toNat - 0x10000) / 1024 :=
    UInt16.toNat_ofNat_of_lt' (show _ < 2 ^ 16 by omega)
  have hlow : (UInt16.ofNat (0xdc00 + (c.toNat - 0x10000) % 1024)).toNat =
      0xdc00 + (c.toNat - 0x10000) % 1024 :=
    UInt16.toNat_ofNat_of_lt' (show _ < 2 ^ 16 by omega)
  refine ⟨_, _, by rw [Json.units, if_neg h], ?_, ?_, ?_⟩
  · rw [IsHigh, hhigh]
    omega
  · rw [IsLow, hlow]
    omega
  · rw [pair, hhigh, hlow]
    have hself : 0x10000 + (0xd800 + (c.toNat - 0x10000) / 1024 - 0xd800) * 1024 +
        (0xdc00 + (c.toNat - 0x10000) % 1024 - 0xdc00) = c.toNat := by omega
    rw [hself, Char.ofNat_toNat]

/-- A unit that is no first half is a piece of its own. -/
theorem pieces_cons {u : UInt16} (h : ¬ IsHigh u) (s : Units) :
    pieces (u :: s) = single u :: pieces s := by
  rcases s with _ | ⟨v, rest⟩
  · rfl
  · rw [pieces, if_neg fun hpair => h hpair.1]

theorem pieces_units_append (c : Char) (s : Units) :
    pieces (Json.units c ++ s) = .char c :: pieces s := by
  by_cases hc : c.toNat < 0x10000
  · obtain ⟨u, hunits, hnat, hhigh, hlow⟩ := units_small hc
    rw [hunits, List.singleton_append, pieces_cons hhigh, single, if_neg (not_or.mpr ⟨hhigh, hlow⟩),
      hnat, Char.ofNat_toNat]
  · obtain ⟨u, v, hunits, hhigh, hlow, hpair⟩ := units_large hc
    rw [hunits, List.cons_append, List.singleton_append, pieces, if_pos ⟨hhigh, hlow⟩, hpair]

/-- **The pieces of a text** are its characters. -/
theorem pieces_encode (text : List Char) : pieces (encode text) = text.map .char := by
  induction text with
  | nil => rfl
  | cons c text ih => rw [encode_cons, pieces_units_append, ih, List.map_cons]

@[simp] theorem decode_encode (text : List Char) : decode (encode text) = text := by
  rw [decode, pieces_encode, List.map_map]
  exact List.map_id'' (fun _ => rfl) text

theorem encode_injective {a b : List Char} (h : encode a = encode b) : a = b := by
  rw [← decode_encode a, h, decode_encode]

end Marketplace.Utf16
