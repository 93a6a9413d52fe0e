import Mathlib.Data.List.Basic
import Mathlib.Data.List.Infix

/-!
# Names with a mark before their last separator

A name may have separators in it. The last one cuts it in two: a stem, and an extension that
has no separator. To *mark* a name is to put a separator and a mark between the two, or at
the end where there is nothing to cut: if there is no separator, or if it is the first
letter, so that the stem would be empty.

Marked names come in two formats, and a name may look as if it were marked already. Still,
what is marked can be read back, if marks have no separator in them (`mark_injective`). In
the first format there are two separators with a letter before them; the second has as many
only if the first letter is one of them.
-/

namespace Marketplace.LastSeparator

variable {α : Type*} [DecidableEq α] {d : α}

/-- `s.lastIndexOf(d)` -/
def lastIndexOf (d : α) (s : List α) : ℤ := s.length - 1 - s.reverse.idxOf d

theorem lastIndexOf_of_notMem {s : List α} (h : d ∉ s) : lastIndexOf d s = -1 := by
  rw [lastIndexOf, List.idxOf_of_notMem fun hmem => h (List.mem_reverse.mp hmem),
    List.length_reverse]
  omega

/-- The last separator is before a part that has none. -/
theorem lastIndexOf_append {stem ext : List α} (h : d ∉ ext) :
    lastIndexOf d (stem ++ d :: ext) = stem.length := by
  have hidx : (stem ++ d :: ext).reverse.idxOf d = ext.length := by
    rw [List.reverse_append, List.reverse_cons, List.append_assoc, List.singleton_append,
      List.idxOf_append_of_notMem fun hmem => h (List.mem_reverse.mp hmem),
      List.idxOf_cons_self, Nat.add_zero, List.length_reverse]
  rw [lastIndexOf, hidx, List.length_append, List.length_cons]
  push_cast
  omega

/-- A name has no separator, or one that is the last. -/
theorem last_cases (d : α) (s : List α) : d ∉ s ∨ ∃ stem ext, s = stem ++ d :: ext ∧ d ∉ ext := by
  by_cases h : d ∈ s
  · obtain ⟨l, r, hsplit, hl⟩ := List.eq_append_cons_of_mem (List.mem_reverse.mpr h)
    refine .inr ⟨r.reverse, l.reverse, ?_, fun hmem => hl (List.mem_reverse.mp hmem)⟩
    rw [← List.reverse_reverse s, hsplit, List.reverse_append, List.reverse_cons,
      List.append_assoc, List.singleton_append]
  · exact .inl h

/-- **There is one way to cut** a name at its last separator. -/
theorem cut_unique {stem ext stem' ext' : List α} (h : d ∉ ext) (h' : d ∉ ext')
    (heq : stem ++ d :: ext = stem' ++ d :: ext') : stem = stem' ∧ ext = ext' := by
  have hlength : stem.length = stem'.length := by
    have hindex : lastIndexOf d (stem ++ d :: ext) = stem.length := lastIndexOf_append h
    rw [heq, lastIndexOf_append h'] at hindex
    exact_mod_cast hindex.symm
  obtain ⟨hstem, hrest⟩ := List.append_inj heq hlength
  exact ⟨hstem, (List.cons.inj hrest).2⟩

/-! ## Marking -/

/-- The stem and the extension of a name. -/
def cut (d : α) (name : List α) : List α × List α :=
  let dot := lastIndexOf d name
  if dot > 0 then (name.take dot.toNat, name.drop dot.toNat) else (name, [])

/-- Put the mark between the stem and the extension. -/
def mark (d : α) (hash name : List α) : List α := (cut d name).1 ++ d :: hash ++ (cut d name).2

/-- The two formats. -/
inductive Format (d : α) (name : List α) : List α → List α → Prop
  /-- The name is cut. -/
  | between {stem ext : List α} (hname : name = stem ++ d :: ext) (hstem : stem ≠ [])
    (hext : d ∉ ext) : Format d name stem (d :: ext)
  /-- It is not: no separator, or only one at the beginning. -/
  | after (hname : ∀ stem ext, name = stem ++ d :: ext → stem = []) : Format d name name []

/-- Every name has one of them. -/
theorem format_cut (d : α) (name : List α) : Format d name (cut d name).1 (cut d name).2 := by
  rcases last_cases d name with hnone | ⟨stem, ext, rfl, hext⟩
  · rw [cut, lastIndexOf_of_notMem hnone, if_neg (by decide)]
    refine .after fun stem ext hname => absurd ?_ hnone
    rw [hname]
    exact List.mem_append_right _ (List.mem_cons_self ..)
  · rw [cut, lastIndexOf_append hext]
    by_cases hstem : stem = []
    · subst hstem
      rw [if_neg (by simp)]
      refine .after fun stem ext' hname => ?_
      -- a second separator would be one in the extension
      rcases stem with _ | ⟨c, stem⟩
      · rfl
      · have htail := (List.cons.inj hname).2
        refine absurd ?_ hext
        rw [htail]
        exact List.mem_append_right _ (List.mem_cons_self ..)
    · have hpos : (0 : ℤ) < stem.length := by exact_mod_cast List.length_pos_iff.mpr hstem
      rw [if_pos hpos, Int.toNat_natCast, List.take_left, List.drop_left]
      exact .between rfl hstem hext

/-- What is marked in the first format is not what is marked in the second. -/
theorem between_ne_after {stem ext hash hash' name' : List α} (hstem : stem ≠ []) (hext : d ∉ ext)
    (hhash' : d ∉ hash') (hname' : ∀ stem ext, name' = stem ++ d :: ext → stem = []) :
    stem ++ d :: hash ++ d :: ext ≠ name' ++ d :: hash' ++ [] := by
  intro heq
  rw [List.append_nil] at heq
  obtain ⟨hcut, -⟩ := cut_unique hext hhash' heq
  exact hstem (hname' stem hash hcut.symm)

/-- **What is marked can be read back**: the name and the mark. -/
theorem mark_injective {hash hash' name name' : List α} (h : d ∉ hash) (h' : d ∉ hash')
    (heq : mark d hash name = mark d hash' name') : name = name' ∧ hash = hash' := by
  have hformat := format_cut d name
  have hformat' := format_cut d name'
  rw [mark, mark] at heq
  generalize (cut d name).1 = stem, (cut d name).2 = ext at hformat heq
  generalize (cut d name').1 = stem', (cut d name').2 = ext' at hformat' heq
  cases hformat with
  | between hname hstem hext =>
    cases hformat' with
    | between hname' hstem' hext' =>
      obtain ⟨hmarked, rfl⟩ := cut_unique hext hext' heq
      obtain ⟨rfl, rfl⟩ := cut_unique h h' hmarked
      exact ⟨hname.trans hname'.symm, rfl⟩
    | after hname' => exact absurd heq (between_ne_after hstem hext h' hname')
  | after hname =>
    cases hformat' with
    | between hname' hstem' hext' => exact absurd heq.symm (between_ne_after hstem' hext' h hname)
    | after hname' =>
      rw [List.append_nil, List.append_nil] at heq
      exact cut_unique h h' heq

end Marketplace.LastSeparator
