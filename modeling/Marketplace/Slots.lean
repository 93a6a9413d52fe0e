import Mathlib.Data.Option.Basic
import Mathlib.Logic.Function.Basic
import Mathlib.Order.Basic

/-!
# Numbered slots

Calls, workers, followers, jobs: each is found in a slot under its number, and a step writes
one slot. What is found afterwards was written by the step or was there before
(`found_cases`), so what holds of everything that is found is kept if it holds of what is
written (`forall_found`). To write a slot that was free takes nothing away (`found_of_free`).
-/

namespace Marketplace.Slots

section

variable {ι : Type*} {β : Type*} [DecidableEq ι] {f : ι → Option β} {i j : ι} {v : Option β}
  {x y : β}

/-- **What is found** was written, or was there before. -/
theorem found_cases (h : Function.update f i v j = some y) :
    j = i ∧ v = some y ∨ j ≠ i ∧ f j = some y := by
  by_cases hj : j = i
  · subst hj
    rw [Function.update_self] at h
    exact .inl ⟨rfl, h⟩
  · rw [Function.update_of_ne hj] at h
    exact .inr ⟨hj, h⟩

/-- What is found after something was written. -/
theorem found_cases_some (h : Function.update f i (some x) j = some y) :
    j = i ∧ y = x ∨ j ≠ i ∧ f j = some y := by
  rcases found_cases h with ⟨hj, hx⟩ | hold
  · exact .inl ⟨hj, (Option.some.inj hx).symm⟩
  · exact .inr hold

/-- A slot that is free after something was written was free before. -/
theorem free_of_update (h : Function.update f i (some x) j = none) : j ≠ i ∧ f j = none := by
  have hj : j ≠ i := by
    rintro rfl
    rw [Function.update_self] at h
    cases h
  rw [Function.update_of_ne hj] at h
  exact ⟨hj, h⟩

/-- What holds of all that is found is kept. -/
theorem forall_found {P : ι → β → Prop} (h : ∀ j y, f j = some y → P j y)
    (hv : ∀ y, v = some y → P i y) (hj : Function.update f i v j = some y) : P j y := by
  rcases found_cases hj with ⟨rfl, hy⟩ | ⟨-, hold⟩
  · exact hv y hy
  · exact h j y hold

omit [DecidableEq ι] in
theorem ne_of_free (hi : f i = none) (hj : f j = some y) : j ≠ i := by
  rintro rfl
  rw [hi] at hj
  cases hj

/-- What is found is found after a free slot was written. -/
theorem found_of_free (hi : f i = none) (hj : f j = some y) : Function.update f i v j = some y := by
  rw [Function.update_of_ne (ne_of_free hi hj)]
  exact hj

end

/-- Only finitely many slots are ever written. -/
theorem exists_bound_update {β : Type*} {f : ℕ → Option β} (h : ∃ n, ∀ k, n ≤ k → f k = none)
    (i : ℕ) (v : Option β) : ∃ n, ∀ k, n ≤ k → Function.update f i v k = none := by
  obtain ⟨n, hn⟩ := h
  refine ⟨max n (i + 1), fun k hk => ?_⟩
  have hne : k ≠ i := by omega
  rw [Function.update_of_ne hne]
  exact hn k (by omega)

end Marketplace.Slots
