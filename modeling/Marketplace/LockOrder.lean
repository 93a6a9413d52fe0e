import Mathlib.Data.List.Basic
import Mathlib.Logic.Function.Basic
import Mathlib.Logic.Relation

/-!
# Locks taken in an order

A lock table: which transaction holds which row in which mode, and which locks each
transaction has still to take, in order. A transaction **waits for** another one if
the lock it asks for next conflicts with a lock that the other one holds. No two
transactions hold locks that conflict (`Exclusive`): waiting is what sees to that.

Rows have a *rank*, transactions a *level* that goes up as they take locks. A request
is in order in one of two ways: it is *covered* by a lock that the transaction has on
the row already, or its row is at the level or above, and every lock held is below it
(`Ordered`). A covered request never waits. So along the waits levels go up
(`Ordered.level_lt`), and with that **nobody waits for himself**, through however
many others (`Ordered.acyclic`), and **whoever waits does so, in the end, for
somebody who does not** (`Ordered.exists_not_waits`).
-/

namespace Marketplace

universe u v w

/-- A lock on a row. -/
structure LockRequest (R : Type v) (M : Type w) where
  row : R
  mode : M
  deriving DecidableEq

/-- The locks that transactions `T` hold, and those they have still to take. -/
structure LockTable (T : Type u) (R : Type v) (M : Type w) where
  held : List (T × LockRequest R M)
  asked : T → List (LockRequest R M)

namespace LockTable

variable {T : Type u} {R : Type v} {M : Type w}

/-- A table without locks. -/
def empty : LockTable T R M := ⟨[], fun _ => []⟩

section Operations

/-- `t` has the locks `as` to take now. -/
def ask [DecidableEq T] (k : LockTable T R M) (t : T) (as : List (LockRequest R M)) :
    LockTable T R M :=
  { k with asked := Function.update k.asked t as }

/-- `t` holds the locks `as` as well. -/
def grant (k : LockTable T R M) (t : T) (as : List (LockRequest R M)) : LockTable T R M :=
  { k with held := as.map (fun a => (t, a)) ++ k.held }

/-- `t` gives up all it holds and all it asks for. -/
def release [DecidableEq T] (k : LockTable T R M) (t : T) : LockTable T R M where
  held := k.held.filter fun g => decide (g.1 ≠ t)
  asked := Function.update k.asked t []

variable {k : LockTable T R M} {t u : T} {as : List (LockRequest R M)} {b : LockRequest R M}

@[simp] theorem grant_asked : (k.grant t as).asked = k.asked := rfl

theorem mem_grant : (u, b) ∈ (k.grant t as).held ↔ (u = t ∧ b ∈ as) ∨ (u, b) ∈ k.held := by
  simp only [grant, List.mem_append, List.mem_map, Prod.mk.injEq]
  constructor
  · rintro (⟨a, ha, rfl, rfl⟩ | h)
    · exact .inl ⟨rfl, ha⟩
    · exact .inr h
  · rintro (⟨rfl, hb⟩ | h)
    · exact .inl ⟨b, hb, rfl, rfl⟩
    · exact .inr h

variable [DecidableEq T]

@[simp] theorem ask_held : (k.ask t as).held = k.held := rfl

@[simp] theorem ask_asked_self : (k.ask t as).asked t = as := Function.update_self ..

theorem ask_asked_ne (h : u ≠ t) : (k.ask t as).asked u = k.asked u := Function.update_of_ne h ..

theorem mem_release : (u, b) ∈ (k.release t).held ↔ (u, b) ∈ k.held ∧ u ≠ t := by
  rw [release, List.mem_filter, decide_eq_true_iff]

@[simp] theorem release_asked_self : (k.release t).asked t = [] := Function.update_self ..

theorem release_asked_ne (h : u ≠ t) : (k.release t).asked u = k.asked u :=
  Function.update_of_ne h ..

end Operations

/-! ## Conflicts -/

section Conflicts

variable (conflicts : M → M → Bool)

/-- Somebody else holds a lock that conflicts with `a`. -/
def blocked [DecidableEq T] [DecidableEq R] (k : LockTable T R M) (t : T)
    (a : LockRequest R M) : Bool :=
  k.held.any fun g => decide (g.1 ≠ t) && decide (g.2.row = a.row) && conflicts a.mode g.2.mode

/-- The lock that `t` asks for next conflicts with one that `u` holds. -/
def Waits (k : LockTable T R M) (t u : T) : Prop :=
  ∃ a rest b, k.asked t = a :: rest ∧ (u, b) ∈ k.held ∧ u ≠ t ∧ b.row = a.row ∧
    conflicts a.mode b.mode = true

/-- No two transactions hold locks that conflict. -/
def Exclusive (k : LockTable T R M) : Prop :=
  ∀ t u a b, (t, a) ∈ k.held → (u, b) ∈ k.held → u ≠ t → b.row = a.row →
    conflicts a.mode b.mode = false

/-- What `t` holds on the row of `a` keeps out whatever `a` would keep out. -/
def Covered (k : LockTable T R M) (t : T) (a : LockRequest R M) : Prop :=
  ∃ b, (t, b) ∈ k.held ∧ b.row = a.row ∧
    ∀ m, conflicts a.mode m = true → conflicts b.mode m = true

variable {conflicts} {k k' : LockTable T R M} {t u v : T} {a b : LockRequest R M}
  {as : List (LockRequest R M)}

theorem Covered.mono (h : k.Covered conflicts t a)
    (hheld : ∀ b, (t, b) ∈ k.held → (t, b) ∈ k'.held) : k'.Covered conflicts t a := by
  obtain ⟨b, hb, hrow, hmode⟩ := h
  exact ⟨b, hheld b hb, hrow, hmode⟩

theorem blocked_eq_false [DecidableEq T] [DecidableEq R] :
    k.blocked conflicts t a = false ↔
      ∀ u b, (u, b) ∈ k.held → u ≠ t → b.row = a.row → conflicts a.mode b.mode = false := by
  simp only [blocked, List.any_eq_false, Bool.and_eq_true, decide_eq_true_eq, not_and,
    Bool.not_eq_true, and_imp, Prod.forall]

/-- Who does not wait can take the lock it asks for. -/
theorem blocked_of_not_waits [DecidableEq T] [DecidableEq R] {rest : List (LockRequest R M)}
    (hasked : k.asked t = a :: rest) (h : ∀ u, ¬ k.Waits conflicts t u) :
    k.blocked conflicts t a = false := by
  refine blocked_eq_false.mpr fun u b hb hne hrow => ?_
  rw [← Bool.not_eq_true]
  exact fun hconflict => h u ⟨a, rest, b, hasked, hb, hne, hrow, hconflict⟩

theorem exclusive_empty : (empty : LockTable T R M).Exclusive conflicts :=
  fun _ _ _ _ h => absurd h List.not_mem_nil

theorem Exclusive.of_subset (h : k.Exclusive conflicts)
    (hsub : ∀ u b, (u, b) ∈ k'.held → (u, b) ∈ k.held) : k'.Exclusive conflicts :=
  fun t u a b ha hb => h t u a b (hsub t a ha) (hsub u b hb)

/-- A lock that nobody hinders may be taken. -/
theorem Exclusive.grant (hsymm : ∀ m m', conflicts m m' = conflicts m' m)
    (h : k.Exclusive conflicts)
    (hfree : ∀ a ∈ as, ∀ u b, (u, b) ∈ k.held → u ≠ t → b.row = a.row →
      conflicts a.mode b.mode = false) : (k.grant t as).Exclusive conflicts := by
  intro u v a b ha hb hne hrow
  rcases mem_grant.mp ha with ⟨rfl, has⟩ | hold
  · rcases mem_grant.mp hb with ⟨heq, -⟩ | hb
    · exact absurd heq hne
    · exact hfree a has v b hb hne hrow
  · rcases mem_grant.mp hb with ⟨rfl, hbs⟩ | hb
    · rw [hsymm]
      exact hfree b hbs u a hold hne.symm hrow.symm
    · exact h u v a b hold hb hne hrow

/-! ## The order -/

/-- Everybody asks in order. -/
structure Ordered (conflicts : M → M → Bool) (rank : R → ℕ) (level : T → ℕ)
    (k : LockTable T R M) : Prop where
  exclusive : k.Exclusive conflicts
  asks : ∀ t a, a ∈ k.asked t → k.Covered conflicts t a ∨ level t ≤ rank a.row
  below : ∀ t b, k.asked t ≠ [] → (t, b) ∈ k.held → rank b.row < level t

variable {rank : R → ℕ} {level : T → ℕ}

/-- **Levels go up along the waits.** -/
theorem Ordered.level_lt (h : k.Ordered conflicts rank level) (htu : k.Waits conflicts t u)
    (huv : k.Waits conflicts u v) : level t < level u := by
  obtain ⟨a, rest, b, hasked, hb, hne, hrow, hconflict⟩ := htu
  obtain ⟨a', rest', -, hasked', -⟩ := huv
  rcases h.asks t a (by rw [hasked]; exact List.mem_cons_self ..) with hcovered | hlevel
  · -- a covered request does not wait
    obtain ⟨c, hc, hcrow, hmode⟩ := hcovered
    have hfree := h.exclusive t u c b hc hb hne (hrow.trans hcrow.symm)
    rw [hmode _ hconflict] at hfree
    cases hfree
  · refine Nat.lt_of_le_of_lt hlevel ?_
    rw [← hrow]
    refine h.below u b ?_ hb
    rw [hasked']
    exact List.cons_ne_nil _ _

theorem Ordered.level_lt_of_transGen (h : k.Ordered conflicts rank level)
    (htu : Relation.TransGen (k.Waits conflicts) t u) (huv : k.Waits conflicts u v) :
    level t < level u := by
  induction htu generalizing v with
  | single hw => exact h.level_lt hw huv
  | tail _ hw ih => exact Nat.lt_trans (ih hw) (h.level_lt hw huv)

/-- **Nobody waits for himself**, through however many others. -/
theorem Ordered.acyclic (h : k.Ordered conflicts rank level) (t : T) :
    ¬ Relation.TransGen (k.Waits conflicts) t t := by
  intro hcycle
  obtain ⟨u, htu, -⟩ := Relation.TransGen.head'_iff.mp hcycle
  exact Nat.lt_irrefl _ (h.level_lt_of_transGen hcycle htu)

/-- **Whoever waits does so, in the end, for somebody who does not.** -/
theorem Ordered.exists_not_waits (h : k.Ordered conflicts rank level) {n : ℕ}
    (hn : ∀ t, level t ≤ n) (t : T) :
    ∃ u, Relation.ReflTransGen (k.Waits conflicts) t u ∧ ∀ v, ¬ k.Waits conflicts u v := by
  induction hleft : n - level t using Nat.strongRecOn generalizing t with
  | ind left ih =>
    by_cases hwaits : ∃ u, k.Waits conflicts t u
    · obtain ⟨u, htu⟩ := hwaits
      by_cases hagain : ∃ v, k.Waits conflicts u v
      · -- the level of `u` is higher, so less is left of it
        obtain ⟨v, huv⟩ := hagain
        have hlt := h.level_lt htu huv
        have hle := hn u
        obtain ⟨x, hx, hnone⟩ := ih (n - level u) (by omega) u rfl
        exact ⟨x, .head htu hx, hnone⟩
      · exact ⟨u, .single htu, fun v hv => hagain ⟨v, hv⟩⟩
    · exact ⟨t, .refl, fun v hv => hwaits ⟨v, hv⟩⟩

end Conflicts

end LockTable

end Marketplace
