import Marketplace.JsonTrees
import Marketplace.Utf8

/-!
# Bodies in chunks

The body of a request arrives in chunks. Each is decoded by itself, the texts are put one
behind the other, and the whole is parsed. A chunk that ends inside a character decodes to
replacement characters, and so does the rest of the character in the next one.

In a JSON text characters beyond ASCII are in strings only. So a text with such cuts is
still read, and its tree is that of the text with other strings: strings in which there are
more replacement characters than before (`parse_cut`). The value is then another one,
unless what was cut does not get into it, as the value of a name that is repeated later.
-/

namespace Marketplace.Json

/-! ## Reading the body -/

/-- What `JSON.parse` throws. -/
inductive Failure where
  | syntaxError
  deriving DecidableEq

/-- `readJson`; none is `undefined`. -/
def readJson (chunks : List (List UInt8)) : Except Failure (Option Value) :=
  let raw := chunks.foldl (fun raw chunk => raw ++ Utf8.decode chunk) []
  if raw = [] then .ok none
  else
    match jsonParse raw with
    | some v => .ok (some v)
    | none => .error .syntaxError

theorem readJson_eq (chunks : List (List UInt8)) : readJson chunks =
    if chunks.flatMap Utf8.decode = [] then .ok none
    else
      match jsonParse (chunks.flatMap Utf8.decode) with
      | some v => .ok (some v)
      | none => .error .syntaxError := by
  have hraw : ∀ (raw : List Char) (chunks : List (List UInt8)),
      chunks.foldl (fun raw chunk => raw ++ Utf8.decode chunk) raw =
        raw ++ chunks.flatMap Utf8.decode := by
    intro raw chunks
    induction chunks generalizing raw with
    | nil => exact (List.append_nil _).symm
    | cons chunk chunks ih => rw [List.foldl_cons, ih, List.flatMap_cons, List.append_assoc]
  rw [readJson, hraw, List.nil_append]

/-! ## The first machine on a text with cuts -/

/-- How many replacement characters are in a string. -/
def marks (s : Units) : ℕ := s.count 0xfffd

/-- Where the machine is in a text and in the same text with cuts. -/
inductive Like : Mode → Mode → Prop
  | ground : Like .ground .ground
  | word (w : List Char) : Like (.word w) (.word w)
  | text {s s' : Units} (h : Heavier marks (s, s')) : Like (.text s) (.text s')
  | escape {s s' : Units} (h : Heavier marks (s, s')) : Like (.escape s) (.escape s')
  | hex {s s' : Units} (left n : ℕ) (h : Heavier marks (s, s')) :
    Like (.hex s left n) (.hex s' left n)
  | bad : Like .bad .bad

/-- Tokens that differ in their strings, and these in replacement characters. -/
def LikeTokens (a b : List (Token Units)) : Prop :=
  ∃ z : List (Token (Units × Units)), a = z.map (Token.map Prod.fst) ∧
    b = z.map (Token.map Prod.snd) ∧ ∀ p ∈ z.flatMap Token.strings, Heavier marks p

section Lexer

variable {m m' : Mode} {c : Char} {s s' : Units} {a b a' b' : List (Token Units)}

theorem LikeTokens.append (h : LikeTokens a b) (h' : LikeTokens a' b') :
    LikeTokens (a ++ a') (b ++ b') := by
  obtain ⟨z, rfl, rfl, hz⟩ := h
  obtain ⟨z', rfl, rfl, hz'⟩ := h'
  refine ⟨z ++ z', List.map_append.symm, List.map_append.symm, fun p hp => ?_⟩
  rw [List.flatMap_append] at hp
  exact (List.mem_append.mp hp).elim (hz p) (hz' p)

theorem LikeTokens.length_eq (h : LikeTokens a b) : a.length = b.length := by
  obtain ⟨z, rfl, rfl, -⟩ := h
  rw [List.length_map, List.length_map]

theorem heavier_refl (s : Units) : Heavier marks (s, s) := ⟨le_rfl, fun _ => rfl⟩

theorem LikeTokens.refl (a : List (Token Units)) : LikeTokens a a := by
  have hback : ∀ (f : Units × Units → Units), (∀ s, f (s, s) = s) →
      a = (a.map (Token.map fun s => (s, s))).map (Token.map f) := by
    intro f hf
    rw [List.map_map]
    refine (List.map_id'' (fun token => ?_) a).symm
    cases token with
    | string s => exact congrArg Token.string (hf s)
    | _ => rfl
  refine ⟨a.map (Token.map fun s => (s, s)), hback _ fun _ => rfl, hback _ fun _ => rfl, ?_⟩
  intro p hp
  obtain ⟨token, htoken, hp⟩ := List.mem_flatMap.mp hp
  obtain ⟨token, -, rfl⟩ := List.mem_map.mp htoken
  cases token with
  | string s =>
    obtain rfl := List.mem_singleton.mp hp
    exact heavier_refl s
  | _ => cases hp

theorem LikeTokens.string (h : Heavier marks (s, s')) : LikeTokens [.string s] [.string s'] :=
  ⟨[.string (s, s')], rfl, rfl, fun _ hp => List.mem_singleton.mp hp ▸ h⟩

/-- The same units behind both strings. -/
theorem heavier_append (h : Heavier marks (s, s')) (u : Units) :
    Heavier marks (s ++ u, s' ++ u) := by
  obtain ⟨hle, heq⟩ := h
  simp only [Heavier, marks, List.count_append] at hle heq ⊢
  exact ⟨by omega, fun hcount => by rw [heq (by omega)]⟩

/-- **One character** in both texts. -/
theorem step_like (h : Like m m') (c : Char) :
    LikeTokens (lexer.step m c).1 (lexer.step m' c).1 ∧
      Like (lexer.step m c).2 (lexer.step m' c).2 := by
  have hself : ∀ m, Like m m := by
    intro m
    cases m with
    | ground => exact .ground
    | word w => exact .word w
    | text s => exact .text (heavier_refl s)
    | escape s => exact .escape (heavier_refl s)
    | hex s left n => exact .hex left n (heavier_refl s)
    | bad => exact .bad
  cases h with
  | ground => exact ⟨.refl _, hself _⟩
  | word w => exact ⟨.refl _, hself _⟩
  | bad => exact ⟨.refl _, hself _⟩
  | text h =>
    simp only [lexer]
    split_ifs
    · exact ⟨.string h, .ground⟩
    · exact ⟨.refl _, .escape h⟩
    · exact ⟨.refl _, .bad⟩
    · exact ⟨.refl _, .text (heavier_append h _)⟩
  | escape h =>
    simp only [lexer]
    split_ifs
    · exact ⟨.refl _, .hex 4 0 h⟩
    · rcases escaped c with _ | u
      · exact ⟨.refl _, .bad⟩
      · exact ⟨.refl _, .text (heavier_append h _)⟩
  | hex left n h =>
    simp only [lexer]
    rcases NumericLiteral.digitIn 16 c with _ | d
    · exact ⟨.refl _, .bad⟩
    · simp only
      split_ifs
      · exact ⟨.refl _, .text (heavier_append h _)⟩
      · exact ⟨.refl _, .hex _ _ h⟩

/-- After one character the machine knows where it was. -/
theorem step_back (h : Like m m') (hstep : lexer.step m c = lexer.step m' c)
    (hbad : (lexer.step m c).2 ≠ .bad) : m = m' := by
  cases h with
  | ground | word w | bad => rfl
  | text h =>
    simp only [lexer] at hstep hbad
    split_ifs at hstep hbad
    · rw [Token.string.inj (List.cons.inj (Prod.mk.inj hstep).1).1]
    · rw [Mode.escape.inj (Prod.mk.inj hstep).2]
    · exact absurd rfl hbad
    · rw [List.append_cancel_right (Mode.text.inj (Prod.mk.inj hstep).2)]
  | escape h =>
    simp only [lexer] at hstep hbad
    split_ifs at hstep hbad
    · rw [(Mode.hex.inj (Prod.mk.inj hstep).2).1]
    · rcases hu : escaped c with _ | u
      · rw [hu] at hbad
        exact absurd rfl hbad
      · rw [hu] at hstep
        rw [List.append_cancel_right (Mode.text.inj (Prod.mk.inj hstep).2)]
  | hex left n h =>
    simp only [lexer] at hstep hbad
    rcases hd : NumericLiteral.digitIn 16 c with _ | d
    · rw [hd] at hbad
      exact absurd rfl hbad
    · rw [hd] at hstep
      simp only at hstep
      split_ifs at hstep
      · rw [List.append_cancel_right (Mode.text.inj (Prod.mk.inj hstep).2)]
      · rw [(Mode.hex.inj (Prod.mk.inj hstep).2).1]

/-! ### Characters beyond ASCII -/

theorem ne_of_beyond (hc : 0x7f < c.toNat) {d : Char} (hd : d.toNat ≤ 0x7f) : c ≠ d := by
  rintro rfl
  omega

theorem ne_of_mem_ascii (hc : 0x7f < c.toNat) {ds : List Char}
    (hds : ∀ d ∈ ds, d.toNat ≤ 0x7f) : ∀ d ∈ ds, c ≠ d :=
  fun d hd => ne_of_beyond hc (hds d hd)

theorem not_alphanum (hc : 0x7f < c.toNat) : c.isAlphanum = false := by
  rw [← Bool.not_eq_true]
  intro h
  change (decide ('A'.val ≤ c.val ∧ c.val ≤ 'Z'.val) ||
    decide ('a'.val ≤ c.val) && decide (c.val ≤ 'z'.val) ||
    decide ('0'.val ≤ c.val) && decide (c.val ≤ '9'.val)) = true at h
  simp only [Bool.or_eq_true, Bool.and_eq_true, decide_eq_true_eq, UInt32.le_iff_toNat_le] at h
  change ((65 ≤ c.toNat ∧ c.toNat ≤ 90) ∨ (97 ≤ c.toNat ∧ c.toNat ≤ 122)) ∨
    (48 ≤ c.toNat ∧ c.toNat ≤ 57) at h
  omega

theorem not_wordChar (hc : 0x7f < c.toNat) : isWordChar c = false := by
  have hne : ∀ d ∈ ['-', '+', '.'], c ≠ d := ne_of_mem_ascii hc (by simp)
  simp [isWordChar, not_alphanum hc, hne '-', hne '+', hne '.']

theorem ground_beyond (hc : 0x7f < c.toNat) : ground c = ([], .bad) := by
  have hne : ∀ d ∈ [' ', '\t', '\n', '\r', '"', '[', ']', '{', '}', ',', ':'], c ≠ d :=
    ne_of_mem_ascii hc (by simp)
  simp [ground, isSpace, punctuation, not_wordChar hc, hne ' ', hne '\t', hne '\n', hne '\r',
    hne '"', hne '[', hne ']', hne '{', hne '}', hne ',', hne ':']

/-- The word that ends. -/
def lastWord : Mode → List (Token Units)
  | .word w => ((scalar w).map Token.scalar).toList
  | _ => []

/-- Beyond ASCII no token begins. -/
theorem step_beyond (hc : 0x7f < c.toNat) (hm : ∀ s, m ≠ .text s) :
    lexer.step m c = (lastWord m, .bad) := by
  have hne : ∀ d ∈ ['u', '"', '\\', '/', 'b', 'f', 'n', 'r', 't'], c ≠ d :=
    ne_of_mem_ascii hc (by simp)
  cases m with
  | ground => exact ground_beyond hc
  | word w =>
    simp only [lexer, not_wordChar hc, ground_beyond hc, lastWord]
    rcases scalar w with _ | a <;> rfl
  | text s => exact absurd rfl (hm s)
  | escape s =>
    simp [lexer, lastWord, escaped, hne 'u', hne '"', hne '\\', hne '/', hne 'b', hne 'f', hne 'n',
      hne 'r', hne 't']
  | hex s left n =>
    have hdigit : NumericLiteral.digitIn 16 c = none := by
      simp [NumericLiteral.digitIn, not_alphanum hc]
    simp only [lexer, hdigit, lastWord]
  | bad => rfl

/-- In a string every character beyond ASCII stands for itself. -/
theorem step_text (hc : 0x7f < c.toNat) (s : Units) :
    lexer.step (.text s) c = ([], .text (s ++ units c)) := by
  have hquote : c ≠ '"' := ne_of_beyond hc (by decide)
  have hescape : c ≠ '\\' := ne_of_beyond hc (by decide)
  simp only [lexer, if_neg hquote, if_neg hescape, if_neg (show ¬ c.toNat < 0x20 by omega)]

/-- Replacement characters in a string. -/
theorem feed_text (s : Units) (k : ℕ) :
    lexer.feed (.text s) (List.replicate k Utf8.replacement) =
      ([], .text (s ++ List.replicate k 0xfffd)) := by
  induction k generalizing s with
  | zero => rw [List.replicate_zero, List.replicate_zero, List.append_nil]; rfl
  | succ k ih =>
    have hunits : units Utf8.replacement = [0xfffd] := by decide
    rw [List.replicate_succ, Transducer.feed_cons, step_text (by decide), ih, hunits,
      List.replicate_succ, List.append_assoc]
    rfl

theorem feed_bad (cs : List Char) : lexer.feed .bad cs = ([], .bad) := by
  have hstay : ∀ c ∈ cs, lexer.step .bad c = ((fun _ => []) c, .bad) := fun _ _ => rfl
  rw [lexer.feed_stay hstay, List.flatMap_eq_nil_iff.mpr fun _ _ => rfl]

/-- A character is one replacement character at most. -/
theorem marks_units_le (c : Char) : marks (units c) ≤ 1 := by
  have hvalid := Utf8.toNat_valid c
  rw [marks, units]
  split_ifs with hc
  · exact List.count_le_length
  · have hne : ∀ n, n < 0xe000 → UInt16.ofNat n ≠ 0xfffd := by
      intro n hn heq
      have hnat := congrArg UInt16.toNat heq
      rw [UInt16.toNat_ofNat_of_lt' (show n < 2 ^ 16 by omega)] at hnat
      change n = 0xfffd at hnat
      omega
    rw [List.count_cons_of_ne (hne _ (by omega)), List.count_cons_of_ne (hne _ (by omega))]
    exact Nat.zero_le _

/-- A cut in both texts: the first reads a character, the second what is in its place. -/
theorem cut_like (hm : Like m m') (hc : 0x7f < c.toNat) {k : ℕ} (hk : 2 ≤ k) :
    (∃ s s', m = .text s ∧ m' = .text s' ∧ lexer.step m c = ([], .text (s ++ units c)) ∧
      lexer.feed m' (List.replicate k Utf8.replacement) =
        ([], .text (s' ++ List.replicate k 0xfffd)) ∧
      marks (s ++ units c) < marks (s' ++ List.replicate k 0xfffd)) ∨
    ∃ out, lexer.step m c = (out, .bad) ∧
      lexer.feed m' (List.replicate k Utf8.replacement) = (out, .bad) := by
  obtain ⟨k, rfl⟩ : ∃ j, k = j + 1 := ⟨k - 1, by omega⟩
  have hreplacement : 0x7f < Utf8.replacement.toNat := by decide
  have helse : (∀ s, m ≠ .text s) → (∀ s, m' ≠ .text s) → lastWord m = lastWord m' →
      ∃ out, lexer.step m c = (out, .bad) ∧
        lexer.feed m' (List.replicate (k + 1) Utf8.replacement) = (out, .bad) := by
    intro h h' hword
    refine ⟨lastWord m, step_beyond hc h, ?_⟩
    rw [List.replicate_succ, Transducer.feed_cons, step_beyond hreplacement h', feed_bad, hword,
      List.append_nil]
  cases hm with
  | @text s s' h =>
    refine .inl ⟨s, s', rfl, rfl, step_text hc s, feed_text s' (k + 1), ?_⟩
    have hle := h.1
    -- the character has at most one mark in it, and it is replaced by two or more
    have hone := marks_units_le c
    simp only [marks, List.count_append, List.count_replicate_self] at hle hone ⊢
    omega
  | ground | word w | escape h | hex left n h | bad =>
    exact .inr (helse (fun _ h => by cases h) (fun _ h => by cases h) rfl)

/-- **A text and the text with cuts** give tokens that differ in their strings only. -/
theorem feed_like {t d : List Char} (h : Utf8.Cut t d) (hm : Like m m') :
    LikeTokens (lexer.feed m t).1 (lexer.feed m' d).1 ∧
      Like (lexer.feed m t).2 (lexer.feed m' d).2 := by
  induction h generalizing m m' with
  | nil => exact ⟨.refl _, hm⟩
  | keep c h ih =>
    obtain ⟨htokens, hmodes⟩ := step_like hm c
    obtain ⟨htokens', hmodes'⟩ := ih hmodes
    exact ⟨htokens.append htokens', hmodes'⟩
  | cut c hc hk h ih =>
    rw [Transducer.feed_cons, Transducer.feed_append]
    rcases cut_like hm hc hk with ⟨s, s', -, -, hstep, hfeed, hlt⟩ | ⟨out, hstep, hfeed⟩
    · rw [hstep, hfeed]
      have hheavier : Heavier marks (s ++ units c, s' ++ List.replicate _ 0xfffd) :=
        ⟨hlt.le, fun heq => absurd heq hlt.ne⟩
      exact ih (.text hheavier)
    · rw [hstep, hfeed]
      simp only [feed_bad, List.append_nil]
      exact ⟨.refl _, .bad⟩

/-- If the tokens are the same, so are the texts. -/
theorem feed_back {t d : List Char} (h : Utf8.Cut t d) (hm : Like m m')
    (hfeed : lexer.feed m t = lexer.feed m' d) (hbad : (lexer.feed m t).2 ≠ .bad) :
    m = m' ∧ t = d := by
  induction h generalizing m m' with
  | nil => exact ⟨(Prod.mk.inj hfeed).2, rfl⟩
  | keep c h ih =>
    obtain ⟨htokens, hmodes⟩ := step_like hm c
    rw [Transducer.feed_cons] at hbad
    rw [Transducer.feed_cons, Transducer.feed_cons] at hfeed
    obtain ⟨hout, hmode⟩ := Prod.mk.inj hfeed
    obtain ⟨hfirst, hrest⟩ := List.append_inj hout htokens.length_eq
    obtain ⟨hstep, rfl⟩ := ih hmodes (Prod.ext hrest hmode) hbad
    refine ⟨step_back hm (Prod.ext hfirst hstep) fun hstuck => ?_, rfl⟩
    rw [hstuck, feed_bad] at hbad
    exact hbad rfl
  | cut c hc hk h ih =>
    rw [Transducer.feed_cons] at hbad
    rw [Transducer.feed_cons, Transducer.feed_append] at hfeed
    rcases cut_like hm hc hk with ⟨s, s', -, -, hstep, hrun, hlt⟩ | ⟨out, hstep, hrun⟩
    · rw [hstep] at hbad
      rw [hstep, hrun] at hfeed
      have hheavier : Heavier marks (s ++ units c, s' ++ List.replicate _ 0xfffd) :=
        ⟨hlt.le, fun heq => absurd heq hlt.ne⟩
      obtain ⟨hsame, -⟩ := ih (.text hheavier) hfeed hbad
      rw [Mode.text.inj hsame] at hlt
      exact absurd hlt (Nat.lt_irrefl _)
    · rw [hstep, feed_bad] at hbad
      exact absurd rfl hbad

end Lexer

/-! ## A JSON text with cuts -/

/-- Where a text may end, the machine is in no string. -/
theorem Like.eq_of_lastTokens {m m' : Mode} (h : Like m m') {last : List (Token Units)}
    (hlast : lastTokens m = some last) : m = m' ∧ m ≠ .bad := by
  cases h with
  | ground | word w => exact ⟨rfl, fun h => by cases h⟩
  | _ => cases hlast

/-- **A text with cuts is read as the text is**, with more replacement characters in those of its
strings where the cuts are. -/
theorem parse_cut {text cut : List Char} (hcut : Utf8.Cut text cut) {t : Tree Units}
    (ht : parse text = some t) : ∃ z : Tree (Units × Units), t = z.map Prod.fst ∧
      parse cut = some (z.map Prod.snd) ∧ (∀ p ∈ z.strings, Heavier marks p) ∧
      ((∀ p ∈ z.strings, p.1 = p.2) → text = cut) := by
  obtain ⟨ts, hts, hparse⟩ := Option.bind_eq_some_iff.mp ht
  obtain ⟨last, hlast, rfl⟩ := Option.map_eq_some_iff.mp hts
  obtain ⟨hlike, hmodes⟩ := feed_like hcut .ground
  obtain ⟨hmode, hbad⟩ := hmodes.eq_of_lastTokens hlast
  obtain ⟨z, hz, hz', hheavier⟩ := hlike.append (.refl last)
  have hother : tokens cut = some (z.map (Token.map Prod.snd)) := by
    rw [tokens, ← hmode, hlast, ← hz']
    rfl
  rw [hz] at hparse
  -- both texts have the shape of one tree of pairs of strings
  have hfirst := parseFrom_map Prod.fst (.value []) z
  have hsecond := parseFrom_map Prod.snd (.value []) z
  change parseFrom (.value []) _ = _ at hfirst hsecond
  rw [hparse] at hfirst
  obtain ⟨tree, htree, rfl⟩ := Option.map_eq_some_iff.mp hfirst.symm
  have hstrings := parseFrom_strings htree
  rw [htree] at hsecond
  refine ⟨tree, rfl, ?_, fun p hp => ?_, fun hsame => ?_⟩
  · rw [parse, hother]
    exact hsecond
  · rw [hstrings] at hp
    exact hheavier p hp
  · -- if no string differs, no token does
    have htokens : z.map (Token.map Prod.fst) = z.map (Token.map Prod.snd) := by
      refine List.map_inj_left.mpr fun token htoken => ?_
      cases token with
      | string s =>
        refine congrArg Token.string (hsame s ?_)
        rw [hstrings]
        exact List.mem_append_right _
          (List.mem_flatMap.mpr ⟨.string s, htoken, List.mem_singleton_self s⟩)
      | _ => rfl
    rw [← hz, ← hz'] at htokens
    have hout := List.append_cancel_right htokens
    exact (feed_back hcut .ground (Prod.ext hout hmode) hbad).2

theorem parse_ne_nil {text : List Char} {t : Tree Units} (h : parse text = some t) : text ≠ [] := by
  rintro rfl
  cases h

/-- What is read of a body, if it is not empty. -/
theorem readJson_of_parse {chunks : List (List UInt8)} {t : Tree Units}
    (h : parse (chunks.flatMap Utf8.decode) = some t) : readJson chunks = .ok (some t.value) := by
  rw [readJson_eq, if_neg (parse_ne_nil h), jsonParse, h]
  rfl

/-- **How a body is read**, in whatever chunks it arrives: an empty one as `undefined`; a JSON
text in one chunk as its value; and in chunks that are texts themselves as the same value. If
no object in the text repeats a name, only in such chunks. -/
theorem readJson_chunks (chunks : List (List UInt8)) :
    (chunks.flatten = [] → readJson chunks = .ok none) ∧
    ∀ text t, parse text = some t → chunks.flatten = Utf8.encode text →
      readJson [chunks.flatten] = .ok (some t.value) ∧
      ((∀ chunk ∈ chunks, Utf8.WellFormed chunk) → readJson chunks = .ok (some t.value)) ∧
      (t.Distinct →
        (readJson chunks = .ok (some t.value) ↔ ∀ chunk ∈ chunks, Utf8.WellFormed chunk)) := by
  refine ⟨fun hempty => ?_, fun text t ht htext => ?_⟩
  · have hdecode : chunks.flatMap Utf8.decode = [] := by
      refine List.flatMap_eq_nil_iff.mpr fun chunk hchunk => ?_
      rw [List.flatten_eq_nil_iff.mp hempty chunk hchunk]
      rfl
    rw [readJson_eq, if_pos hdecode]
  · obtain ⟨hcut, hwhole⟩ := Utf8.cut_pieces htext
    have hgood : (∀ chunk ∈ chunks, Utf8.WellFormed chunk) →
        readJson chunks = .ok (some t.value) := by
      intro hall
      refine readJson_of_parse ?_
      rw [hwhole.mpr hall, ht]
    refine ⟨?_, hgood, fun hdistinct => ⟨fun hsame => ?_, hgood⟩⟩
    · refine readJson_of_parse ?_
      rw [List.flatMap_singleton, htext, Utf8.decode_encode, ht]
    · obtain ⟨z, rfl, hz, hheavier, hback⟩ := parse_cut hcut ht
      rw [readJson_of_parse hz] at hsame
      -- a chunk that ends inside a character changes a string of the value
      have hvalue := Option.some.inj (Except.ok.inj hsame)
      exact hwhole.mp (hback (strings_eq_of_value_eq hheavier hdistinct hvalue.symm)).symm

/-- A text with a character beyond ASCII. -/
def demoText : List Char := "\x7b\"є\":1\x7d".toList

/-- Its bytes in two chunks. -/
def demoBody (boundary : ℕ) : List (List UInt8) :=
  [(Utf8.encode demoText).take boundary, (Utf8.encode demoText).drop boundary]

/-- An object with one member, of this name. -/
def demoTree (name : Units) : Tree Units := .object [(name, .scalar (.number false (some 1)))]

theorem demoText_parse : parse demoText = some (demoTree [0x454]) := by
  have htokens : tokens demoText = some [.openObject, .string [0x454], .colon,
      .scalar (.number false (some 1)), .closeObject] := by
    decide +kernel
  rw [parse, htokens]
  rfl

theorem demoBody_read : readJson (demoBody 4) = .ok (some (demoTree [0x454]).value) := by
  obtain ⟨-, hbody⟩ := readJson_chunks (demoBody 4)
  obtain ⟨-, hgood, -⟩ := hbody demoText _ demoText_parse (by decide +kernel)
  refine hgood fun chunk hchunk => ?_
  rcases List.mem_pair.mp hchunk with rfl | rfl
  · exact ⟨"\x7b\"є".toList, by decide +kernel⟩
  · exact ⟨"\":1\x7d".toList, by decide +kernel⟩

/-- **A body that is split inside a character** is read as another value: its member has
another name. -/
theorem split_character_changes_value :
    (demoBody 3).flatten = Utf8.encode demoText ∧
    readJson [(demoBody 3).flatten] = .ok (some (demoTree [0x454]).value) ∧
    readJson (demoBody 3) = .ok (some (demoTree [0xfffd, 0xfffd]).value) ∧
    readJson (demoBody 3) ≠ readJson [(demoBody 3).flatten] := by
  have hbytes : (demoBody 3).flatten = Utf8.encode demoText := by decide +kernel
  have hwhole : readJson [(demoBody 3).flatten] = .ok (some (demoTree [0x454]).value) := by
    refine readJson_of_parse ?_
    rw [List.flatMap_singleton, hbytes, Utf8.decode_encode, demoText_parse]
  have hsplit : readJson (demoBody 3) = .ok (some (demoTree [0xfffd, 0xfffd]).value) := by
    have htokens : tokens ((demoBody 3).flatMap Utf8.decode) = some [.openObject,
        .string [0xfffd, 0xfffd], .colon, .scalar (.number false (some 1)), .closeObject] := by
      decide +kernel
    refine readJson_of_parse ?_
    rw [parse, htokens]
    rfl
  refine ⟨hbytes, hwhole, hsplit, fun h => ?_⟩
  rw [hsplit, hwhole] at h
  have hname := congrFun (Value.object.inj (Option.some.inj (Except.ok.inj h))) [0x454]
  change none = some _ at hname
  cases hname

end Marketplace.Json
