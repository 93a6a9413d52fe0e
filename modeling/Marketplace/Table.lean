import Mathlib.Data.List.Basic
import Mathlib.Data.List.Nodup

/-!
# Tables

A table is the list of its rows in insertion order; some function of a row is
its key. Three operations are enough: look a row up by its key, append a row,
rewrite the rows with a given key.
-/

namespace Marketplace

universe u v

namespace Table

variable {ρ : Type u} {κ : Type v} [DecidableEq κ] (key : ρ → κ)

/-- The first row with the key. -/
def lookup (k : κ) (rows : List ρ) : Option ρ := rows.find? fun r => key r = k

/-- Rewrite the rows with the key. -/
def modify (k : κ) (f : ρ → ρ) (rows : List ρ) : List ρ :=
  rows.map fun r => if key r = k then f r else r

/-- Delete the rows with the key. -/
def remove (k : κ) (rows : List ρ) : List ρ := rows.filter fun r => key r ≠ k

variable {key} {k : κ} {rows : List ρ} {r a : ρ}

/-! ## Lookup -/

theorem key_of_lookup (h : lookup key k rows = some r) : key r = k := by
  simpa using List.find?_some h

theorem mem_of_lookup (h : lookup key k rows = some r) : r ∈ rows :=
  List.mem_of_find?_eq_some h

theorem lookup_eq_none : lookup key k rows = none ↔ ∀ r ∈ rows, key r ≠ k := by
  simp [lookup]

/-- With distinct keys, a row is found by its key. -/
theorem lookup_of_mem (h : (rows.map key).Nodup) (hr : r ∈ rows) :
    lookup key (key r) rows = some r := by
  rcases hl : lookup key (key r) rows with _ | r'
  · exact absurd rfl (lookup_eq_none.mp hl r hr)
  · rw [List.inj_on_of_nodup_map h (mem_of_lookup hl) hr (key_of_lookup hl)]

/-- Appending a row with another key changes no lookup. -/
theorem lookup_append_ne (h : key a ≠ k) : lookup key k (rows ++ [a]) = lookup key k rows := by
  rw [lookup, List.find?_append, List.find?_cons_of_neg (by simpa using h), List.find?_nil,
    Option.or_none]
  rfl

/-- Rewriting the rows with one key changes no lookup of another. -/
theorem lookup_modify_ne {k' : κ} {f : ρ → ρ} (hf : ∀ r, key (f r) = key r) (h : k' ≠ k) :
    lookup key k' (modify key k f rows) = lookup key k' rows := by
  unfold lookup modify
  induction rows with
  | nil => rfl
  | cons r rs ih =>
    rw [List.map_cons, List.find?_cons, List.find?_cons, ih]
    by_cases hr : key r = k
    · have h₁ : ¬ key (f r) = k' := by
        rw [hf, hr]
        exact h.symm
      have h₂ : ¬ key r = k' := by
        rw [hr]
        exact h.symm
      rw [if_pos hr, decide_eq_false h₁, decide_eq_false h₂]
    · rw [if_neg hr]

/-- Rewriting rows without changing their keys. -/
theorem lookup_map {f : ρ → ρ} (hf : ∀ r, key (f r) = key r) :
    lookup key k (rows.map f) = (lookup key k rows).map f := by
  rw [lookup, List.find?_map]
  congr 2
  funext r
  simp only [Function.comp_apply, hf]

/-- Looking a row up among those whose keys satisfy `p`. -/
theorem lookup_filter {p : κ → Bool} :
    lookup key k (rows.filter fun r => p (key r))
      = if p k then lookup key k rows else none := by
  unfold lookup
  rw [List.find?_filter]
  rcases hp : p k with _ | _
  · rw [if_neg Bool.false_ne_true, List.find?_eq_none]
    intro r _ hr
    obtain ⟨hpr, hk⟩ := by simpa using hr
    rw [hk, hp] at hpr
    cases hpr
  · rw [if_pos rfl]
    congr 1
    funext r
    by_cases hr : key r = k
    · simp [hr, hp]
    · simp [hr]

/-- Deleting the rows with one key changes no lookup of another. -/
theorem lookup_remove_ne {k' : κ} (h : k' ≠ k) :
    lookup key k' (remove key k rows) = lookup key k' rows :=
  (lookup_filter (p := fun k₁ => decide (k₁ ≠ k))).trans (if_pos (decide_eq_true h))

/-! ## Modification -/

theorem mem_modify {f : ρ → ρ} :
    a ∈ modify key k f rows ↔ ∃ r ∈ rows, a = if key r = k then f r else r := by
  simp only [modify, List.mem_map, eq_comm]

/-- What does not read the rewritten part is the same for all rows. -/
theorem map_modify {γ : Type*} {g : ρ → γ} {f : ρ → ρ} (hf : ∀ r, g (f r) = g r) :
    (modify key k f rows).map g = rows.map g := by
  unfold modify
  rw [List.map_map]
  refine List.map_congr_left fun r _ => ?_
  simp only [Function.comp_apply]
  split_ifs
  · exact hf r
  · rfl

/-! ## Rows of an owner -/

/-- A new row of another owner is filtered out. -/
theorem filter_append_ne (key : ρ → κ) (h : key a ≠ k) :
    (rows ++ [a]).filter (fun r => key r = k) = rows.filter fun r => key r = k := by
  rw [List.filter_append, List.filter_cons_of_neg (by simpa using h), List.filter_nil,
    List.append_nil]

/-- Of a new owner there is only the new row. -/
theorem filter_append_eq (ha : key a = k) (h : ∀ r ∈ rows, key r ≠ k) :
    (rows ++ [a]).filter (fun r => key r = k) = [a] := by
  have hnil : rows.filter (fun r => key r = k) = [] := by
    rw [List.filter_eq_nil_iff]
    exact fun r hr => by simpa using h r hr
  rw [List.filter_append, hnil, List.nil_append]
  exact List.filter_cons_of_pos (decide_eq_true ha)

end Table

end Marketplace
