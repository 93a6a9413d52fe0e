import Mathlib.Algebra.Order.Group.Defs
import Mathlib.Algebra.Order.Hom.Monoid
import Mathlib.Data.List.Basic
import Mathlib.Order.Lattice

/-!
# Sliding windows

Moments of an ordered group, in the order in which they happened. A window of
width `w` that ends at `t` holds the moments in `(t - w, t]`. When each moment is
let in only if the window that ends *at it* holds fewer than `limit` of the
earlier ones, then no window, wherever it ends, holds more than `limit`
(`Admitted.length_within_le`): the last moment inside a window sees all the others
of that window.
-/

namespace Marketplace.SlidingWindow

universe u v

variable {α : Type u} [AddCommGroup α] [LinearOrder α] [IsOrderedAddMonoid α]
variable {limit : ℕ} {w now t a : α} {l : List α}

/-- The moments in `(t - w, t]`. -/
def within (w t : α) (l : List α) : List α :=
  l.filter fun a => decide (t - w < a ∧ a ≤ t)

/-- Each moment came no earlier than those before it, and found fewer than `limit` of
them in its window. -/
inductive Admitted (limit : ℕ) (w : α) : List α → Prop
  | nil : Admitted limit w []
  | snoc (l : List α) (a : α) : Admitted limit w l → (∀ b ∈ l, b ≤ a) →
      (within w a l).length < limit → Admitted limit w (l ++ [a])

omit [IsOrderedAddMonoid α] in
theorem mem_within : a ∈ within w t l ↔ a ∈ l ∧ t - w < a ∧ a ≤ t := by
  simp [within]

omit [IsOrderedAddMonoid α] in
theorem within_append (l l' : List α) : within w t (l ++ l') = within w t l ++ within w t l' := by
  simp [within]

omit [IsOrderedAddMonoid α] in
theorem within_singleton_of_mem (h : t - w < a ∧ a ≤ t) : within w t [a] = [a] := by
  simp [within, h]

omit [IsOrderedAddMonoid α] in
theorem within_singleton_of_notMem (h : ¬ (t - w < a ∧ a ≤ t)) : within w t [a] = [] := by
  simp only [within, List.filter_cons, decide_eq_true_eq, if_neg h, List.filter_nil]

/-- Of the moments up to `a`, a later window holds those of the window that ends at `a` which have
not left it yet. -/
theorem within_later (h : ∀ b ∈ l, b ≤ a) (hat : a ≤ t) :
    within w t l = (within w a l).filter fun b => decide (t - w < b) := by
  rw [within, within, List.filter_filter]
  refine List.filter_congr fun b hb => ?_
  have hba := h b hb
  have hstill : t - w < b → a - w < b := (sub_le_sub_right hat w).trans_lt
  by_cases hin : t - w < b
  · simp [hba, hba.trans hat, hin, hstill hin]
  · simp [hin]

theorem length_within_le_of_le (h : ∀ b ∈ l, b ≤ a) (hat : a ≤ t) :
    (within w t l).length ≤ (within w a l).length := by
  rw [within_later h hat]
  exact List.length_filter_le _ _

/-- As long as the oldest of its moments has not left it, the window stays as full as it was. -/
theorem length_within_ge (h : ∀ b ∈ l, b ≤ a) (hat : a ≤ t) (hmin : ∀ b ∈ within w a l, now ≤ b)
    (hstill : t - w < now) (more : List α) :
    (within w a l).length ≤ (within w t (l ++ more)).length := by
  have hsame : within w t l = within w a l := by
    rw [within_later h hat]
    exact List.filter_eq_self.mpr fun b hb => decide_eq_true (hstill.trans_le (hmin b hb))
  rw [within_append, List.length_append, hsame]
  exact Nat.le_add_right _ _

/-- Once one of its moments has left it, the window has room. -/
theorem length_within_lt (h : ∀ b ∈ l, b ≤ a) (hat : a ≤ t) (hnow : now ∈ within w a l)
    (hleft : now ≤ t - w) : (within w t l).length < (within w a l).length := by
  rw [within_later h hat]
  refine List.length_filter_lt_length_iff_exists.mpr ⟨now, hnow, ?_⟩
  simpa using hleft

omit [IsOrderedAddMonoid α] in
/-- The same moments read in another group, by an embedding that keeps sums and order. -/
theorem Admitted.map {β : Type v} [AddCommGroup β] [LinearOrder β] (f : α →+ β)
    (hf : StrictMono f) (h : Admitted limit w l) : Admitted limit (f w) (l.map f) := by
  have hlength : ∀ t l, (within (f w) (f t) (l.map f)).length = (within w t l).length := by
    intro t l
    simp only [within, List.filter_map, List.length_map, Function.comp_def, ← map_sub,
      hf.lt_iff_lt, hf.le_iff_le]
  induction h with
  | nil => exact .nil
  | snoc l a hl hle hlt ih =>
    rw [List.map_append, List.map_singleton]
    refine .snoc _ _ ih (fun b hb => ?_) ?_
    · obtain ⟨b', hb', rfl⟩ := List.mem_map.mp hb
      exact hf.monotone (hle b' hb')
    · rw [hlength]
      exact hlt

/-- **No window holds more than `limit`.** -/
theorem Admitted.length_within_le (h : Admitted limit w l) (t : α) :
    (within w t l).length ≤ limit := by
  induction h with
  | nil => exact Nat.zero_le _
  | snoc l a hl hle hlt ih =>
    rw [within_append, List.length_append]
    by_cases ha : t - w < a ∧ a ≤ t
    · -- `a` is the last of the window, and has seen the others
      have hmono := length_within_le_of_le (w := w) hle ha.2
      rw [within_singleton_of_mem ha, List.length_singleton]
      omega
    · rw [within_singleton_of_notMem ha, List.length_nil, Nat.add_zero]
      exact ih

end Marketplace.SlidingWindow
