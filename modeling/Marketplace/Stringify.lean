import Marketplace.Decimals
import Marketplace.JsonTrees
import Marketplace.Utf16

/-!
# Writing JSON

`JSON.stringify`, of a tree: characters that a string may not have are escaped, and so are
lone halves of pairs; numbers are written as everywhere else. There may be a gap after each
comma and each colon, as other writers leave it. What is written is read back
(`parse_write`).

The first machine of `JSON.parse` has read a text *through* if it is between two tokens
then. It need not be: a word at the end is a token only when something comes after it. So
there are texts that are read through (`Lexes`) and texts that anything but a word may
follow (`Reads`), and each way of putting texts together makes one kind of others.
-/

namespace Marketplace.Json

open Utf16

/-! ## Strings -/

/-- `\u` and four hexadecimal digits. -/
def unicodeEscape (u : UInt16) : List Char :=
  ['\\', 'u', (u.toNat / 4096).digitChar, (u.toNat / 256 % 16).digitChar,
    (u.toNat / 16 % 16).digitChar, (u.toNat % 16).digitChar]

/-- A character of a string. -/
def quoteChar (c : Char) : List Char :=
  if c = '"' then ['\\', '"']
  else if c = '\\' then ['\\', '\\']
  else if c = '\x08' then ['\\', 'b']
  else if c = '\x0c' then ['\\', 'f']
  else if c = '\n' then ['\\', 'n']
  else if c = '\r' then ['\\', 'r']
  else if c = '\t' then ['\\', 't']
  else if c.toNat < 0x20 then unicodeEscape (.ofNat c.toNat)
  else [c]

/-- A piece of a string. -/
def quotePiece : Piece → List Char
  | .char c => quoteChar c
  | .lone u => unicodeEscape u

/-- A string in quotation marks. -/
def quote (s : Units) : List Char := '"' :: ((pieces s).flatMap quotePiece ++ ['"'])

section Strings

variable (s : Units)

theorem feed_escape {c : Char} {u : UInt16} (hc : c ≠ 'u') (h : escaped c = some u) :
    lexer.feed (.text s) ['\\', c] = ([], .text (s ++ [u])) := by
  have hbackslash : lexer.step (.text s) '\\' = ([], .escape s) := rfl
  have hchar : lexer.step (.escape s) c = ([], .text (s ++ [u])) := by
    simp only [lexer, if_neg hc, h]
  rw [Transducer.feed_cons, hbackslash, Transducer.feed_cons, hchar]
  rfl

theorem feed_unicodeEscape (u : UInt16) :
    lexer.feed (.text s) (unicodeEscape u) = ([], .text (s ++ [u])) := by
  have hdigit : ∀ d < 16, NumericLiteral.digitIn 16 d.digitChar = some d := by decide
  have hmore : ∀ left n d, left ≠ 1 → d < 16 →
      lexer.step (.hex s left n) d.digitChar = ([], .hex s (left - 1) (n * 16 + d)) := by
    intro left n d hleft hd
    simp only [lexer, hdigit d hd, if_neg hleft]
  have hlast : ∀ n d, d < 16 →
      lexer.step (.hex s 1 n) d.digitChar = ([], .text (s ++ [.ofNat (n * 16 + d)])) := by
    intro n d hd
    simp only [lexer, hdigit d hd, if_true]
  have hbackslash : lexer.step (.text s) '\\' = ([], .escape s) := rfl
  have hu : lexer.step (.escape s) 'u' = ([], .hex s 4 0) := rfl
  -- the four digits together are the unit
  have hlt := u.toNat_lt
  have hself : (((0 * 16 + u.toNat / 4096) * 16 + u.toNat / 256 % 16) * 16 +
      u.toNat / 16 % 16) * 16 + u.toNat % 16 = u.toNat := by omega
  rw [unicodeEscape, Transducer.feed_cons, hbackslash, Transducer.feed_cons, hu,
    Transducer.feed_cons, hmore 4 _ _ (by norm_num) (by omega), Transducer.feed_cons,
    hmore 3 _ _ (by norm_num) (by omega), Transducer.feed_cons,
    hmore 2 _ _ (by norm_num) (by omega), Transducer.feed_cons, hlast _ _ (by omega), hself,
    UInt16.ofNat_toNat]
  rfl

theorem feed_quoteChar (c : Char) :
    lexer.feed (.text s) (quoteChar c) = ([], .text (s ++ units c)) := by
  by_cases h₁ : c = '"'
  · subst h₁
    exact feed_escape s (by decide) rfl
  by_cases h₂ : c = '\\'
  · subst h₂
    exact feed_escape s (by decide) rfl
  by_cases h₃ : c = '\x08'
  · subst h₃
    exact feed_escape s (by decide) rfl
  by_cases h₄ : c = '\x0c'
  · subst h₄
    exact feed_escape s (by decide) rfl
  by_cases h₅ : c = '\n'
  · subst h₅
    exact feed_escape s (by decide) rfl
  by_cases h₆ : c = '\r'
  · subst h₆
    exact feed_escape s (by decide) rfl
  by_cases h₇ : c = '\t'
  · subst h₇
    exact feed_escape s (by decide) rfl
  -- a control character without a letter of its own, or a character that stands for itself
  rw [quoteChar, if_neg h₁, if_neg h₂, if_neg h₃, if_neg h₄, if_neg h₅, if_neg h₆, if_neg h₇]
  split_ifs with hcontrol
  · rw [feed_unicodeEscape, units, if_pos (by omega)]
  · have hstep : lexer.step (.text s) c = ([], .text (s ++ units c)) := by
      simp only [lexer, if_neg h₁, if_neg h₂, if_neg hcontrol]
    rw [Transducer.feed_cons, hstep]
    rfl

/-- The pieces of a string are read one after the other. -/
theorem feed_pieces (ps : List Piece) : lexer.feed (.text s) (ps.flatMap quotePiece) =
    ([], .text (s ++ ps.flatMap Piece.units)) := by
  induction ps generalizing s with
  | nil => rw [List.flatMap_nil, List.flatMap_nil, List.append_nil, Transducer.feed_nil]
  | cons p ps ih =>
    have hpiece : lexer.feed (.text s) (quotePiece p) = ([], .text (s ++ p.units)) := by
      cases p with
      | char c => exact feed_quoteChar s c
      | lone u => exact feed_unicodeEscape s u
    rw [List.flatMap_cons, List.flatMap_cons, Transducer.feed_append, hpiece, ih,
      List.append_assoc]
    rfl

/-- **A string is read back.** -/
theorem feed_quote : lexer.feed .ground (quote s) = ([.string s], .ground) := by
  have hopen : lexer.step .ground '"' = ([], .text []) := rfl
  have hclose : lexer.feed (.text s) ['"'] = ([.string s], .ground) := rfl
  rw [quote, Transducer.feed_cons, hopen, Transducer.feed_append, feed_pieces, join_pieces]
  simp only [List.nil_append, hclose]

end Strings

/-! ## Words -/

/-- The word of a scalar. -/
def word : Scalar → List Char
  | .null => "null".toList
  | .bool true => "true".toList
  | .bool false => "false".toList
  | .number _ none => "null".toList
  | .number negative (some x) =>
    if negative = true ∧ x ≠ 0 then '-' :: numberText x else numberText x

/-- The scalar is no number, or a double that is written as it is: finite, and not `-0`. -/
def Scalar.Plain : Scalar → Prop
  | .number _ none => False
  | .number negative (some x) =>
    0 ≤ x ∧ Binary64.double x = some x ∧ (negative = true → x ≠ 0)
  | _ => True

section Words

open NumericLiteral

variable {cs : List Char} {x : ℚ}

theorem isWordChar_of_isDigit {c : Char} (h : c.isDigit = true) : isWordChar c = true := by
  have halphanum : c.isAlphanum = true := (Bool.or_eq_true _ _).mpr (.inr h)
  simp only [isWordChar, halphanum, Bool.true_or]

/-- A numeral is a word. -/
theorem isWordChar_of_numeral (h : Numeral cs x) : ∀ c ∈ cs, Json.isWordChar c = true := by
  intro c hc
  rcases h.mem hc with hdigit | hmem
  · exact isWordChar_of_isDigit hdigit
  · have hall : ∀ d ∈ ['.', 'e', '+', '-'], Json.isWordChar d = true := by simp [Json.isWordChar]
    exact hall c hmem

section Parts

variable {whole part : List Char}

/-- The digits before the point end there. -/
theorem takeWhile_point (hwhole : Whole whole) :
    (whole ++ point part).takeWhile (fun c => decide (c ≠ '.')) = whole := by
  have hno : ∀ c ∈ whole, decide (c ≠ '.') = true := fun c hc =>
    decide_eq_true (ne_of_digits hwhole.digits (d := '.') rfl c hc)
  rw [List.takeWhile_append_of_pos hno, point]
  split_ifs
  · rw [List.takeWhile_nil, List.append_nil]
  · rw [List.takeWhile_cons_of_neg (by decide), List.append_nil]

/-- A point is followed by digits. -/
theorem getLast?_point (hwhole : Whole whole) (hpart : ∀ c ∈ part, c.isDigit = true) :
    (whole ++ point part).getLast? ≠ some '.' := by
  intro hdot
  obtain ⟨front, hfront⟩ := List.getLast?_eq_some_iff.mp hdot
  rw [point] at hfront
  split_ifs at hfront with hnil
  · rw [List.append_nil] at hfront
    have hdigit := hwhole.digits '.' (by rw [hfront]; simp)
    cases hdigit
  · obtain ⟨ds, d, rfl⟩ := (List.eq_nil_or_concat part).resolve_left hnil
    rw [List.concat_eq_append] at hfront hpart
    -- the fraction would end with the point
    have hd : d = '.' := by
      have hsplit : (whole ++ '.' :: ds) ++ [d] = front ++ ['.'] := by
        rw [← hfront, List.append_assoc]
        rfl
      exact (List.cons.inj (List.append_inj_right' hsplit rfl)).1
    have hdigit := hpart d (by simp)
    rw [hd] at hdigit
    cases hdigit

/-- What comes after the fraction begins with the letter of the exponent. -/
theorem isUnsigned_point (hwhole : Whole whole) (hpart : ∀ c ∈ part, c.isDigit = true)
    {rest : List Char} (hrest : rest = [] ∨ rest.head? = some 'e') :
    isUnsigned (whole ++ point part ++ rest) = true := by
  have htake : (whole ++ point part ++ rest).takeWhile
      (fun c => decide (c ≠ 'e' ∧ c ≠ 'E')) = whole ++ point part := by
    rw [List.takeWhile_append_of_pos (plain_point hwhole.digits hpart)]
    rcases hrest with rfl | hrest
    · rw [List.takeWhile_nil, List.append_nil]
    · obtain ⟨tail, rfl⟩ := List.head?_eq_some_iff.mp hrest
      rw [List.takeWhile_cons_of_neg (by decide), List.append_nil]
  rw [isUnsigned]
  simp only [htake, takeWhile_point hwhole]
  exact decide_eq_true ⟨hwhole.ne_nil, hwhole.zero, getLast?_point hwhole hpart⟩

end Parts

/-- A numeral is one of JSON. -/
theorem isUnsigned_of_numeral (h : Numeral cs x) : isUnsigned cs = true := by
  cases h with
  | plain hwhole hpart =>
    have hplain := @isUnsigned_point _ _ hwhole hpart [] (.inl rfl)
    rwa [List.append_nil] at hplain
  | scientific hwhole hpart n => exact isUnsigned_point hwhole hpart (.inr rfl)

/-- **The word of a scalar** is one, and is read back. -/
theorem scalar_word {a : Scalar} (h : a.Plain) : scalar (word a) = some a ∧
    (∀ c ∈ word a, isWordChar c = true) ∧ word a ≠ [] := by
  cases a with
  | null => exact ⟨by decide, by simp [word, isWordChar], by simp [word]⟩
  | bool b =>
    cases b with
    | true => exact ⟨by decide, by simp [word, isWordChar], by simp [word]⟩
    | false => exact ⟨by decide, by simp [word, isWordChar], by simp [word]⟩
  | number negative magnitude =>
    rcases magnitude with _ | x
    · cases h
    obtain ⟨hx, hself, hsign⟩ := h
    obtain ⟨y, hnumeral, hy⟩ := numberText_numeral hx hself
    have hmagnitude : magnitude (numberText x) = some (some x) := by
      rw [Json.magnitude, if_pos (isUnsigned_of_numeral hnumeral), hnumeral.decimal,
        Option.map_some, hy]
    -- a numeral begins with a digit, so it is none of the three words
    have hwords := isWordChar_of_numeral hnumeral
    obtain ⟨c, rest, htext, hc⟩ := hnumeral.first
    have hne : ∀ ds : List Char, ds.head?.any Char.isDigit = false → numberText x ≠ ds := by
      intro ds hds heq
      rw [← heq, htext, List.head?_cons, Option.any_some, hc] at hds
      cases hds
    cases negative with
    | true =>
      have hword : word (.number true (some x)) = '-' :: numberText x := by
        rw [word, if_pos ⟨rfl, hsign rfl⟩]
      rw [hword]
      refine ⟨?_, ?_, List.cons_ne_nil _ _⟩
      · have hscalar : scalar ('-' :: numberText x) =
            (magnitude (numberText x)).map (.number true) := by
          rw [scalar, if_neg, if_neg, if_neg]
          all_goals exact fun heq => absurd (List.cons.inj heq).1 (by decide)
        rw [hscalar, hmagnitude]
        rfl
      · intro d hd
        rcases List.mem_cons.mp hd with rfl | hd
        · rfl
        · exact hwords d hd
    | false =>
      have hword : word (.number false (some x)) = numberText x := by
        rw [word, if_neg fun hneg => Bool.false_ne_true hneg.1]
      rw [hword]
      refine ⟨?_, hwords, ?_⟩
      · have hscalar : scalar (numberText x) =
            (magnitude (numberText x)).map (.number false) := by
          unfold scalar
          rw [if_neg (hne _ rfl), if_neg (hne _ rfl), if_neg (hne _ rfl)]
          split
          · rename_i heq
            exact absurd heq (hne _ rfl)
          · rfl
        rw [hscalar, hmagnitude]
        rfl
      · rw [htext]
        exact List.cons_ne_nil _ _

end Words

/-! ## Trees -/

section Trees

mutual

/-- The text of a tree, with a gap after each comma and each colon. -/
def Tree.write (gap : List Char) : Tree Units → List Char
  | .scalar a => word a
  | .string s => quote s
  | .array items => '[' :: ((',' :: gap).intercalate (itemTexts gap items) ++ [']'])
  | .object members => '{' :: ((',' :: gap).intercalate (memberTexts gap members) ++ ['}'])

def itemTexts (gap : List Char) : List (Tree Units) → List (List Char)
  | [] => []
  | t :: ts => t.write gap :: itemTexts gap ts

def memberTexts (gap : List Char) : List (Units × Tree Units) → List (List Char)
  | [] => []
  | (key, t) :: ms => (quote key ++ ':' :: (gap ++ t.write gap)) :: memberTexts gap ms

end

/-- `JSON.stringify` -/
def stringify (t : Tree Units) : List Char := t.write []

mutual

/-- The tokens of a tree. -/
def Tree.tokens : Tree Units → List (Token Units)
  | .scalar a => [.scalar a]
  | .string s => [.string s]
  | .array items => .openArray :: ([Token.comma].intercalate (itemTokens items) ++ [.closeArray])
  | .object members =>
    .openObject :: ([Token.comma].intercalate (memberTokens members) ++ [.closeObject])

def itemTokens : List (Tree Units) → List (List (Token Units))
  | [] => []
  | t :: ts => t.tokens :: itemTokens ts

def memberTokens : List (Units × Tree Units) → List (List (Token Units))
  | [] => []
  | (key, t) :: ms => (.string key :: .colon :: t.tokens) :: memberTokens ms

end

mutual

/-- All numbers in the tree are written as they are. -/
def Tree.Plain : Tree Units → Prop
  | .scalar a => a.Plain
  | .string _ => True
  | .array items => PlainItems items
  | .object members => PlainMembers members

def PlainItems : List (Tree Units) → Prop
  | [] => True
  | t :: ts => t.Plain ∧ PlainItems ts

def PlainMembers : List (Units × Tree Units) → Prop
  | [] => True
  | (_, t) :: ms => t.Plain ∧ PlainMembers ms

end

theorem plainItems_iff {items : List (Tree Units)} :
    PlainItems items ↔ ∀ t ∈ items, t.Plain := by
  induction items with
  | nil => exact iff_of_true trivial fun t ht => by cases ht
  | cons t ts ih => rw [PlainItems, ih, List.forall_mem_cons]

theorem plainMembers_iff {members : List (Units × Tree Units)} :
    PlainMembers members ↔ ∀ m ∈ members, m.2.Plain := by
  induction members with
  | nil => exact iff_of_true trivial fun t ht => by cases ht
  | cons m ms ih => rw [PlainMembers, ih, List.forall_mem_cons]

end Trees

/-! ## The first machine -/

section Lexing

variable {a b gap : List Char} {ts us : List (Token Units)} {c : Char}

/-- The text is read through, as these tokens. -/
def Lexes (text : List Char) (ts : List (Token Units)) : Prop :=
  lexer.feed .ground text = (ts, .ground)

/-- The text is read as these tokens, if it ends there or something else than a word follows. -/
def Reads (text : List Char) (ts : List (Token Units)) : Prop :=
  Lexes text ts ∨ ∃ us w x, lexer.feed .ground text = (us, .word w) ∧ scalar w = some x ∧
    ts = us ++ [.scalar x]

theorem Lexes.append (ha : Lexes a ts) (hb : Lexes b us) : Lexes (a ++ b) (ts ++ us) := by
  rw [Lexes, Transducer.feed_append, ha, hb]

theorem Lexes.reads (ha : Lexes a ts) (hb : Reads b us) : Reads (a ++ b) (ts ++ us) := by
  rcases hb with hb | ⟨vs, w, x, hb, hw, rfl⟩
  · exact .inl (ha.append hb)
  · refine .inr ⟨ts ++ vs, w, x, ?_, hw, (List.append_assoc ..).symm⟩
    rw [Transducer.feed_append, ha, hb]

/-- Something else than a word follows. -/
theorem Reads.close (ha : Reads a ts) (hc : isWordChar c = false)
    (hground : ground c = (us, .ground)) :
    Lexes (a ++ [c]) (ts ++ us) := by
  rcases ha with ha | ⟨vs, w, x, ha, hw, rfl⟩
  · refine ha.append ?_
    rw [Lexes, Transducer.feed_cons]
    simp only [lexer, hground, Transducer.feed_nil, List.append_nil]
  · have hstep : lexer.step (.word w) c = (.scalar x :: us, .ground) := by
      simp only [lexer, hc, Bool.false_eq_true, if_false, hw, hground]
    rw [Lexes, Transducer.feed_append, ha, Transducer.feed_cons, hstep]
    simp only [Transducer.feed_nil, List.append_nil, List.append_assoc, List.cons_append,
      List.nil_append]

/-- The text ends. -/
theorem Reads.tokens (ha : Reads a ts) : tokens a = some ts := by
  rcases ha with ha | ⟨vs, w, x, ha, hw, rfl⟩
  · rw [Json.tokens, ha]
    simp only [lastTokens, Option.map_some, List.append_nil]
  · rw [Json.tokens, ha]
    simp only [lastTokens, hw, Option.map_some]

theorem lexes_gap (hgap : ∀ c ∈ gap, isSpace c = true) : Lexes gap [] := by
  have hstay : ∀ c ∈ gap, lexer.step .ground c = ([], .ground) := by
    intro c hc
    simp only [lexer, ground, hgap c hc, if_true]
  rw [Lexes, lexer.feed_stay hstay, List.flatMap_eq_nil_iff.mpr fun _ _ => rfl]

theorem ground_wordChar (hc : isWordChar c = true) : ground c = ([], .word [c]) := by
  have hne : ∀ d, isWordChar d = false → c ≠ d := by
    rintro d hd rfl
    exact Bool.false_ne_true (hd.symm.trans hc)
  simp [ground, isSpace, punctuation, hc, hne ' ' rfl, hne '\t' rfl, hne '\n' rfl, hne '\r' rfl,
    hne '"' rfl, hne '[' rfl, hne ']' rfl, hne '{' rfl, hne '}' rfl, hne ',' rfl, hne ':' rfl]

theorem feed_word {w : List Char} (hw : ∀ c ∈ w, isWordChar c = true) (front : List Char) :
    lexer.feed (.word front) w = ([], .word (front ++ w)) := by
  induction w generalizing front with
  | nil => rw [List.append_nil, Transducer.feed_nil]
  | cons c w ih =>
    have hstep : lexer.step (.word front) c = ([], .word (front ++ [c])) := by
      simp only [lexer, hw c (List.mem_cons_self ..), if_true]
    rw [Transducer.feed_cons, hstep, ih fun d hd => hw d (List.mem_cons_of_mem _ hd)]
    simp only [List.append_assoc, List.cons_append, List.nil_append]

theorem reads_word {x : Scalar} (hx : x.Plain) : Reads (word x) [.scalar x] := by
  -- the word is still open at the end of the text
  obtain ⟨hscalar, hword, hne⟩ := scalar_word hx
  obtain ⟨c, w, heq⟩ := List.exists_cons_of_ne_nil hne
  have hc : isWordChar c = true := hword c (heq ▸ List.mem_cons_self ..)
  have hground : ground c = ([], .word [c]) := ground_wordChar hc
  refine .inr ⟨[], word x, x, ?_, hscalar, rfl⟩
  have hrest := feed_word (fun d hd => hword d (heq ▸ List.mem_cons_of_mem c hd)) [c]
  rw [heq, Transducer.feed_cons]
  simp only [lexer, hground] at hrest ⊢
  rw [hrest]
  rfl

/-- Texts with commas between them. -/
theorem reads_intercalate (hgap : ∀ c ∈ gap, isSpace c = true) {texts : List (List Char)}
    {tokens : List (List (Token Units))} (h : List.Forall₂ Reads texts tokens) :
    Reads ((',' :: gap).intercalate texts) ([Token.comma].intercalate tokens) := by
  induction h with
  | nil => exact .inl rfl
  | @cons a ts texts tokens ha h ih =>
    cases h with
    | nil =>
      rw [List.intercalate_singleton, List.intercalate_singleton]
      exact ha
    | cons hb h =>
      rw [List.intercalate_cons_cons, List.intercalate_cons_cons]
      -- the comma ends a word that is still open
      have hcomma : Lexes (a ++ [','] ++ gap) (ts ++ [.comma] ++ []) :=
        (ha.close rfl rfl).append (lexes_gap hgap)
      rw [List.append_nil, List.append_assoc] at hcomma
      exact hcomma.reads ih

theorem itemTexts_eq (gap : List Char) (items : List (Tree Units)) :
    itemTexts gap items = items.map (Tree.write gap) := by
  induction items with
  | nil => rfl
  | cons t ts ih => rw [itemTexts, ih, List.map_cons]

theorem itemTokens_eq (items : List (Tree Units)) : itemTokens items = items.map Tree.tokens := by
  induction items with
  | nil => rfl
  | cons t ts ih => rw [itemTokens, ih, List.map_cons]

theorem memberTexts_eq (gap : List Char) (members : List (Units × Tree Units)) :
    memberTexts gap members =
      members.map fun m => quote m.1 ++ ':' :: (gap ++ m.2.write gap) := by
  induction members with
  | nil => rfl
  | cons m ms ih => rw [memberTexts, ih, List.map_cons]

theorem memberTokens_eq (members : List (Units × Tree Units)) :
    memberTokens members = members.map fun m => .string m.1 :: .colon :: m.2.tokens := by
  induction members with
  | nil => rfl
  | cons m ms ih => rw [memberTokens, ih, List.map_cons]

/-- **The first machine** reads what is written. -/
theorem reads_write (hgap : ∀ c ∈ gap, isSpace c = true) {t : Tree Units} (ht : t.Plain) :
    Reads (t.write gap) t.tokens := by
  induction t using Tree.induct with
  | scalar a => exact reads_word ht
  | string s => exact .inl (feed_quote s)
  | array items ih =>
    have hitems : List.Forall₂ Reads (itemTexts gap items) (itemTokens items) := by
      rw [itemTexts_eq, itemTokens_eq, List.forall₂_map_left_iff, List.forall₂_map_right_iff,
        List.forall₂_same]
      exact fun t hmem => ih t hmem (plainItems_iff.mp ht t hmem)
    have hopen : Lexes ['['] [.openArray] := rfl
    rw [Tree.write, Tree.tokens]
    exact .inl (hopen.append ((reads_intercalate hgap hitems).close rfl rfl))
  | object members ih =>
    have hmembers : List.Forall₂ Reads (memberTexts gap members) (memberTokens members) := by
      rw [memberTexts_eq, memberTokens_eq, List.forall₂_map_left_iff, List.forall₂_map_right_iff,
        List.forall₂_same]
      intro m hmem
      have hkey : Lexes (quote m.1) [.string m.1] := feed_quote m.1
      have hcolon : Lexes [':'] [.colon] := rfl
      exact hkey.reads (hcolon.reads ((lexes_gap hgap).reads
        (ih m hmem (plainMembers_iff.mp ht m hmem))))
    have hopen : Lexes ['{'] [.openObject] := rfl
    rw [Tree.write, Tree.tokens]
    exact .inl (hopen.append ((reads_intercalate hgap hmembers).close rfl rfl))

end Lexing

/-! ## The second machine -/

section Parsing

variable {t : Tree Units} {items : List (Tree Units)} {members : List (Units × Tree Units)}

/-- From where a value must come, the machine has read the tree after its tokens. -/
def Parses (t : Tree Units) : Prop :=
  ∀ stack rest, parseFrom (.value stack) (t.tokens ++ rest) = parseFrom (.after t stack) rest

/-- The items of an array, from the next on. -/
theorem parseFrom_items (h : ∀ t ∈ items, Parses t) (hne : items ≠ []) (done : List (Tree Units))
    (stack : List (Frame Units)) (rest : List (Token Units)) :
    parseFrom (.value (.items done :: stack))
        ([Token.comma].intercalate (itemTokens items) ++ .closeArray :: rest) =
      parseFrom (.after (.array (done ++ items)) stack) rest := by
  induction items generalizing done with
  | nil => exact absurd rfl hne
  | cons t ts ih =>
    have ht := h t (List.mem_cons_self ..)
    cases ts with
    | nil =>
      rw [itemTokens, itemTokens, List.intercalate_singleton, ht, parseFrom_cons]
      rfl
    | cons u us =>
      have hrec := ih (fun v hv => h v (List.mem_cons_of_mem _ hv)) (List.cons_ne_nil _ _)
        (done ++ [t])
      rw [List.append_assoc] at hrec
      rw [itemTokens, itemTokens, List.intercalate_cons_cons, ← itemTokens, List.append_assoc,
        List.append_assoc, ht, List.cons_append, parseFrom_cons]
      exact hrec

/-- The first item is like the others. -/
theorem firstItem_eq (t : Tree Units) (stack : List (Frame Units)) (rest : List (Token Units)) :
    parseFrom (.firstItem stack) (t.tokens ++ rest) =
      parseFrom (.value (.items [] :: stack)) (t.tokens ++ rest) := by
  cases t <;> rw [Tree.tokens, List.cons_append, parseFrom_cons, parseFrom_cons] <;> rfl

/-- The members of an object, from the next on. -/
theorem parseFrom_members (h : ∀ m ∈ members, Parses m.2) (hne : members ≠ [])
    (done : List (Units × Tree Units)) (stack : List (Frame Units)) (rest : List (Token Units)) :
    parseFrom (.member done stack)
        ([Token.comma].intercalate (memberTokens members) ++ .closeObject :: rest) =
      parseFrom (.after (.object (done ++ members)) stack) rest := by
  induction members generalizing done with
  | nil => exact absurd rfl hne
  | cons m ms ih =>
    obtain ⟨key, t⟩ := m
    have hmember : ∀ rest, parseFrom (.member done stack)
        (.string key :: .colon :: t.tokens ++ rest) =
          parseFrom (.after t (.members done key :: stack)) rest := fun rest =>
      h (key, t) (List.mem_cons_self ..) (.members done key :: stack) rest
    cases ms with
    | nil =>
      rw [memberTokens, memberTokens, List.intercalate_singleton, hmember, parseFrom_cons]
      rfl
    | cons m' ms =>
      have hrec := ih (fun v hv => h v (List.mem_cons_of_mem _ hv)) (List.cons_ne_nil _ _)
        (done ++ [(key, t)])
      rw [List.append_assoc] at hrec
      rw [memberTokens, memberTokens, List.intercalate_cons_cons, ← memberTokens,
        List.append_assoc, List.append_assoc, hmember, List.cons_append, parseFrom_cons]
      exact hrec

/-- **The second machine** reads the tokens of a tree as the tree. -/
theorem parses_tokens (t : Tree Units) : Parses t := by
  induction t using Tree.induct with
  | scalar a => exact fun _ _ => rfl
  | string s => exact fun _ _ => rfl
  | array items ih =>
    intro stack rest
    rw [Tree.tokens, List.cons_append, parseFrom_cons, List.append_assoc]
    cases items with
    | nil => rfl
    | cons t ts =>
      -- only the first item may be left out, so the machine has a state of its own for it
      have hloop := parseFrom_items ih (List.cons_ne_nil t ts) [] stack rest
      rw [List.nil_append] at hloop
      rw [← hloop]
      cases ts with
      | nil =>
        rw [itemTokens, itemTokens, List.intercalate_singleton]
        exact firstItem_eq t stack _
      | cons u us =>
        rw [itemTokens, itemTokens, List.intercalate_cons_cons]
        simp only [List.append_assoc, List.cons_append, List.nil_append]
        exact firstItem_eq t stack _
  | object members ih =>
    intro stack rest
    rw [Tree.tokens, List.cons_append, parseFrom_cons, List.append_assoc]
    cases members with
    | nil => rfl
    | cons m ms =>
      have hloop := parseFrom_members ih (List.cons_ne_nil m ms) [] stack rest
      rw [List.nil_append] at hloop
      rw [← hloop]
      cases ms with
      | nil =>
        rw [memberTokens, memberTokens, List.intercalate_singleton]
        rfl
      | cons m' ms =>
        rw [memberTokens, memberTokens, List.intercalate_cons_cons]
        rfl

/-- **What is written is read back.** -/
theorem parse_write {gap : List Char} (hgap : ∀ c ∈ gap, isSpace c = true) (ht : t.Plain) :
    parse (t.write gap) = some t := by
  have hparses := parses_tokens t [] []
  rw [List.append_nil] at hparses
  rw [parse, (reads_write hgap ht).tokens, Option.bind_some, hparses]
  rfl

theorem parse_stringify (ht : t.Plain) : parse (stringify t) = some t :=
  parse_write (fun _ hc => by cases hc) ht

end Parsing

end Marketplace.Json
