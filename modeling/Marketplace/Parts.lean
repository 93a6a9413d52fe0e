import Mathlib.Algebra.BigOperators.Ring.Finset
import Marketplace.Files
import Marketplace.PartPlan

/-!
# Listed parts

S3 keeps the parts of an upload in *ascending* order, one of each number, so a page of
`ListParts` is exactly the parts between two markers, whatever its size.

What `parts` and `commit` make of a list of parts is a function of the lengths alone: a planned
part is missing unless the length stored for its number is the planned one (`missingOf`), and
the others are the good parts. When nothing is missing, the good parts are the plan.
-/

namespace Marketplace

/-! ## Pages -/

/-- One part of each number, in ascending order. -/
def Ascending (parts : List S3Part) : Prop := parts.Pairwise fun p q => p.partNumber < q.partNumber

variable {parts out page : List S3Part} {p q : S3Part} {marker m n size partSize : ℕ}

theorem Ascending.filter (h : Ascending parts) (f : S3Part → Bool) : Ascending (parts.filter f) :=
  List.Pairwise.filter f h

/-- A number has one part. -/
theorem Ascending.eq_of_partNumber (h : Ascending parts) (hp : p ∈ parts) (hq : q ∈ parts)
    (heq : p.partNumber = q.partNumber) : p = q := by
  by_contra hne
  have hdiffer := List.Pairwise.forall_of_forall_of_flip (R := fun a b : S3Part =>
    a ≠ b → a.partNumber ≠ b.partNumber) (fun a _ hself => absurd rfl hself)
    (h.imp fun hlt _ => hlt.ne) (h.imp fun hlt _ => hlt.ne')
  exact hdiffer hp hq hne heq

/-- A part that is new goes to its place. -/
theorem ascending_orderedInsert (h : Ascending parts)
    (hnew : ∀ q ∈ parts, q.partNumber ≠ p.partNumber) :
    Ascending (parts.orderedInsert S3.before p) := by
  induction parts with
  | nil => exact List.pairwise_singleton ..
  | cons q parts ih =>
    obtain ⟨hq, hparts⟩ := List.pairwise_cons.mp h
    by_cases hpq : S3.before p q
    · rw [List.orderedInsert_cons_of_le _ _ hpq]
      have hlt : p.partNumber < q.partNumber :=
        lt_of_le_of_ne hpq (hnew q (List.mem_cons_self ..)).symm
      refine List.pairwise_cons.mpr ⟨fun r hr => ?_, h⟩
      rcases List.mem_cons.mp hr with rfl | hr
      · exact hlt
      · exact hlt.trans (hq r hr)
    · rw [List.orderedInsert_of_not_le _ _ hpq]
      refine List.pairwise_cons.mpr
        ⟨fun r hr => ?_, ih hparts fun r hr => hnew r (List.mem_cons_of_mem _ hr)⟩
      rcases (List.mem_orderedInsert ..).mp hr with rfl | hr
      · exact not_le.mp hpq
      · exact hq r hr

/-- A part in place of the one with its number. -/
theorem ascending_replace (h : Ascending parts) :
    Ascending ((parts.filter fun q => q.partNumber ≠ p.partNumber).orderedInsert S3.before p) := by
  refine ascending_orderedInsert (h.filter _) fun q hq => ?_
  exact of_decide_eq_true (List.mem_filter.mp hq).2

theorem mem_replace : q ∈ (parts.filter fun q => q.partNumber ≠ p.partNumber).orderedInsert
    S3.before p ↔ q = p ∨ q ∈ parts ∧ q.partNumber ≠ p.partNumber := by
  rw [List.mem_orderedInsert, List.mem_filter, decide_eq_true_eq]

/-- The pages of an ascending list, up to the marker of the next one. -/
theorem mem_take_iff (h : Ascending parts) {last : S3Part}
    (hlast : (parts.take n).getLast? = some last) :
    p ∈ parts.take n ↔ p ∈ parts ∧ p.partNumber ≤ last.partNumber := by
  have hsplit : Ascending (parts.take n ++ parts.drop n) := by rwa [List.take_append_drop]
  obtain ⟨htake, -, hbeyond⟩ := List.pairwise_append.mp hsplit
  have hmem : last ∈ parts.take n := List.mem_of_getLast? hlast
  constructor
  · intro hp
    refine ⟨List.mem_of_mem_take hp, ?_⟩
    obtain ⟨front, heq⟩ := List.getLast?_eq_some_iff.mp hlast
    rw [heq] at hp htake
    obtain ⟨-, -, hfront⟩ := List.pairwise_append.mp htake
    rcases List.mem_append.mp hp with hp | hp
    · exact (hfront p hp last (List.mem_singleton_self _)).le
    · exact le_of_eq (congrArg S3Part.partNumber (List.mem_singleton.mp hp))
  · rintro ⟨hp, hle⟩
    rw [← List.take_append_drop n parts] at hp
    rcases List.mem_append.mp hp with hp | hp
    · exact hp
    · exact absurd hle (not_le.mpr (hbeyond last hmem p hp))

section Listing

variable {s : S3} {key : String} {u : UploadId} {x : Upload}

theorem listParts_eq_ok {truncated : Bool}
    (h : s.listParts key u marker n = .ok (page, truncated)) :
    ∃ x, s.find key u = some x ∧ page = (x.parts.filter fun p => marker < p.partNumber).take n ∧
      truncated = decide (n < (x.parts.filter fun p => marker < p.partNumber).length) := by
  unfold S3.listParts at h
  split at h
  · cases h
  · rename_i x hx
    obtain ⟨rfl, rfl⟩ := Prod.mk.inj (Except.ok.inj h)
    exact ⟨x, hx, rfl, rfl⟩

/-- **A page that is not the last** has the parts up to the marker of the next one. -/
theorem mem_page_iff (hn : 0 < n) (h : s.listParts key u marker n = .ok (page, true))
    (hx : s.find key u = some x) (hparts : Ascending x.parts)
    (hm : m = (page.getLast?.map S3Part.partNumber).getD 0) :
    Ascending page ∧ marker < m ∧
      ∀ p, p ∈ page ↔ p ∈ x.parts ∧ marker < p.partNumber ∧ p.partNumber ≤ m := by
  obtain ⟨x', hx', hpage, hmore⟩ := listParts_eq_ok h
  obtain rfl := Option.some.inj (hx.symm.trans hx')
  set rest := x.parts.filter fun p => marker < p.partNumber with hrest
  have hmore : n < rest.length := of_decide_eq_true hmore.symm
  have hasc : Ascending rest := hparts.filter _
  have hmem : ∀ p, p ∈ rest ↔ p ∈ x.parts ∧ marker < p.partNumber := by
    intro p
    rw [hrest, List.mem_filter, decide_eq_true_eq]
  -- there is more than a page, so the page is not empty
  obtain ⟨last, hlast⟩ : ∃ last, (rest.take n).getLast? = some last := by
    refine Option.ne_none_iff_exists'.mp fun hnone => ?_
    have hlength := congrArg List.length (List.getLast?_eq_none_iff.mp hnone)
    rw [List.length_take, List.length_nil] at hlength
    omega
  subst hpage
  obtain rfl : m = last.partNumber := by
    rw [hm, hlast]
    rfl
  refine ⟨List.Pairwise.sublist (List.take_sublist ..) hasc, ?_, fun p => ?_⟩
  · exact ((hmem last).mp (List.mem_of_mem_take (List.mem_of_getLast? hlast))).2
  · rw [mem_take_iff hasc hlast, hmem, and_assoc]

/-- **The last page** has the rest. -/
theorem mem_lastPage_iff (h : s.listParts key u marker n = .ok (page, false))
    (hx : s.find key u = some x) (hparts : Ascending x.parts) :
    Ascending page ∧ ∀ p, p ∈ page ↔ p ∈ x.parts ∧ marker < p.partNumber := by
  obtain ⟨x', hx', hpage, hmore⟩ := listParts_eq_ok h
  obtain rfl := Option.some.inj (hx.symm.trans hx')
  have hle := not_lt.mp (of_decide_eq_false hmore.symm)
  rw [List.take_of_length_le hle] at hpage
  subst hpage
  refine ⟨hparts.filter _, fun p => ?_⟩
  rw [List.mem_filter, decide_eq_true_eq]

end Listing

/-! ## What is missing -/

/-- The length listed for a number. -/
def lengthOf (out : List S3Part) (n : ℕ) : Option ℕ :=
  (out.find? fun p => p.partNumber = n).map S3Part.size

/-- There is a part, and its length is the one planned for its number. -/
def asPlanned (size partSize : ℕ) (stored : ℕ → Option ℕ) (n : ℕ) : Bool :=
  (stored n).any fun l : ℕ => decide ((l : ℤ) = partLength size partSize n)

/-- The planned parts whose length is not the planned one. -/
def missingOf (size partSize : ℕ) (stored : ℕ → Option ℕ) : List ℕ :=
  (partNumbers size partSize).filter fun n => !asPlanned size partSize stored n

/-- The numbers that are planned. -/
theorem mem_partNumbers : n ∈ partNumbers size partSize ↔ 1 ≤ n ∧ n ≤ partCount size partSize := by
  rw [partNumbers, List.mem_range'_1]
  omega

theorem lengthOf_eq_some (h : Ascending out) {l : ℕ} :
    lengthOf out n = some l ↔ ∃ p ∈ out, p.partNumber = n ∧ p.size = l := by
  rw [lengthOf, Option.map_eq_some_iff]
  constructor
  · rintro ⟨p, hp, hl⟩
    have hnumber := List.find?_some hp
    exact ⟨p, List.mem_of_find?_eq_some hp, of_decide_eq_true hnumber, hl⟩
  · rintro ⟨p, hp, hn, hl⟩
    rcases hfind : out.find? fun p => p.partNumber = n with _ | q
    · exact absurd (decide_eq_true hn) (List.find?_eq_none.mp hfind p hp)
    · have hnumber := List.find?_some hfind
      have hq : q.partNumber = n := of_decide_eq_true hnumber
      have heq := h.eq_of_partNumber (List.mem_of_find?_eq_some hfind) hp (hq.trans hn.symm)
      exact ⟨q, hfind, heq ▸ hl⟩

/-- Lists with the same parts of a number. -/
theorem lengthOf_congr (h : Ascending out) (h' : Ascending parts)
    (hsame : ∀ p, p.partNumber = n → (p ∈ out ↔ p ∈ parts)) :
    lengthOf out n = lengthOf parts n := by
  refine Option.ext fun l => ?_
  rw [lengthOf_eq_some h, lengthOf_eq_some h']
  constructor
  · rintro ⟨p, hp, hn, hl⟩
    exact ⟨p, (hsame p hn).mp hp, hn, hl⟩
  · rintro ⟨p, hp, hn, hl⟩
    exact ⟨p, (hsame p hn).mpr hp, hn, hl⟩

/-- The part that was put has its length, and the others keep theirs. -/
theorem lengthOf_replace (h : Ascending parts) :
    lengthOf ((parts.filter fun q => q.partNumber ≠ p.partNumber).orderedInsert S3.before p) n =
      if n = p.partNumber then some p.size else lengthOf parts n := by
  have hreplaced := ascending_replace (p := p) h
  split_ifs with hn
  · exact (lengthOf_eq_some hreplaced).mpr ⟨p, mem_replace.mpr (.inl rfl), hn.symm, rfl⟩
  · refine lengthOf_congr hreplaced h fun q hq => ?_
    rw [mem_replace]
    constructor
    · rintro (rfl | ⟨hq, -⟩)
      · exact absurd hq.symm hn
      · exact hq
    · exact fun hmem => .inr ⟨hmem, hq ▸ hn⟩

/-- The good parts have the numbers whose length is the planned one. -/
theorem mem_goodParts_numbers (h : Ascending out) :
    n ∈ (goodParts size partSize out).map S3Part.partNumber ↔
      asPlanned size partSize (lengthOf out) n = true := by
  simp only [List.mem_map, goodParts, List.mem_filter, decide_eq_true_eq, asPlanned,
    Option.any_eq_true]
  constructor
  · rintro ⟨p, ⟨hp, hlength⟩, rfl⟩
    exact ⟨p.size, (lengthOf_eq_some h).mpr ⟨p, hp, rfl, rfl⟩, hlength⟩
  · rintro ⟨l, hl, hlength⟩
    obtain ⟨p, hp, rfl, rfl⟩ := (lengthOf_eq_some h).mp hl
    exact ⟨p, ⟨hp, hlength⟩, rfl⟩

/-- **What is missing** depends on the listed lengths only. -/
theorem missingParts_goodParts (h : Ascending out) :
    missingParts size partSize (goodParts size partSize out) =
      missingOf size partSize (lengthOf out) := by
  refine List.filter_congr fun n _ => ?_
  rw [Bool.eq_iff_iff, decide_eq_true_eq, mem_goodParts_numbers h, Bool.not_eq_true',
    Bool.not_eq_true]

end Marketplace
