import Mathlib.Logic.Function.Basic
import Mathlib.Order.Basic

/-!
# Transactions at REPEATABLE READ

The engine of `ReadCommitted` takes the view anew for every statement. Here a
transaction reads the committed rows of *one* moment, its first statement's, and
its own changes on top. The price is paid by the updates:

* an update of a row that an open transaction has changed waits for that
  transaction;
* an update of a row that was committed anew after the snapshot fails: the first
  updater wins, and the others have to start again.

Each row remembers in which commit it was last written (`stamp`). From this
follows the law that makes a read followed by a write safe: a transaction that has
updated a row commits over **the very version it has read** (`Sound.row_of_written`).
-/

namespace Marketplace

universe u v w

/-- Rows `V` under keys `K`, with open transactions `T`. -/
structure SnapshotEngine (K : Type u) (V : Type v) (T : Type w) where
  /-- the newest committed version of every row -/
  committed : K → V
  /-- the number of the commit that wrote it -/
  stamp : K → ℕ
  /-- how many commits there were -/
  commits : ℕ
  /-- the rows a transaction reads, and the number of commits they show -/
  snapshot : T → Option ((K → V) × ℕ)
  /-- the rows a transaction has written -/
  writes : T → K → Option V
  /-- who has an uncommitted version of a row -/
  holder : K → Option T

namespace SnapshotEngine

variable {K : Type u} {V : Type v} {T : Type w}

/-- An engine with nothing open. -/
def idle (rows : K → V) : SnapshotEngine K V T :=
  { committed := rows, stamp := fun _ => 0, commits := 0, snapshot := fun _ => none,
    writes := fun _ _ => none, holder := fun _ => none }

/-- `t` has no snapshot, no changes and no locks. -/
structure Quiet (e : SnapshotEngine K V T) (t : T) : Prop where
  snapshot : e.snapshot t = none
  writes : ∀ k, e.writes t k = none
  holder : ∀ k, e.holder k ≠ some t

theorem quiet_idle (rows : K → V) (t : T) : (idle rows : SnapshotEngine K V T).Quiet t :=
  ⟨rfl, fun _ => rfl, fun _ h => absurd h.symm (Option.some_ne_none t)⟩

/-- What `t` reads in a row, once it has a snapshot. -/
def read (e : SnapshotEngine K V T) (t : T) (k : K) : Option V :=
  (e.snapshot t).map fun snap => (e.writes t k).getD (snap.1 k)

variable [DecidableEq T]

/-- `t` need not wait for the row `k`: nobody else has changed it. -/
def free (e : SnapshotEngine K V T) (t : T) (k : K) : Bool :=
  match e.holder k with
  | none => true
  | some t' => decide (t' = t)

theorem holder_of_free {e : SnapshotEngine K V T} {t t' : T} {k : K} (h : e.free t k = true)
    (hheld : e.holder k = some t') : t' = t := by
  unfold free at h
  rw [hheld] at h
  exact of_decide_eq_true h

/-- The row was committed anew after the snapshot of `t`. -/
def conflict (e : SnapshotEngine K V T) (t : T) (k : K) : Bool :=
  (e.snapshot t).any fun snap => decide (snap.2 < e.stamp k)

/-- The first statement of `t` takes its snapshot; the later ones keep it. -/
def snap (e : SnapshotEngine K V T) (t : T) : SnapshotEngine K V T :=
  { e with
    snapshot := Function.update e.snapshot t
      (some ((e.snapshot t).getD (e.committed, e.commits))) }

/-- `t` writes a row (it must be `free`, and not in `conflict`). -/
def update [DecidableEq K] (e : SnapshotEngine K V T) (t : T) (k : K) (v : V) :
    SnapshotEngine K V T :=
  { e with
    writes := Function.update e.writes t (Function.update (e.writes t) k (some v))
    holder := Function.update e.holder k (some t) }

/-- ROLLBACK. -/
def abort (e : SnapshotEngine K V T) (t : T) : SnapshotEngine K V T :=
  { e with
    snapshot := Function.update e.snapshot t none
    writes := Function.update e.writes t fun _ => none
    holder := fun k => if e.holder k = some t then none else e.holder k }

/-- COMMIT: what `t` has written is the newest version now. -/
def commit (e : SnapshotEngine K V T) (t : T) : SnapshotEngine K V T :=
  { e.abort t with
    committed := fun k => (e.writes t k).getD (e.committed k)
    stamp := fun k => if (e.writes t k).isSome then e.commits + 1 else e.stamp k
    commits := e.commits + 1 }

variable {e : SnapshotEngine K V T} {t t' : T} {k : K} {v : V} {rows : K → V} {n : ℕ}

/-! ### What the others see of it -/

theorem snap_snapshot_self :
    (e.snap t).snapshot t = some ((e.snapshot t).getD (e.committed, e.commits)) :=
  Function.update_self ..

theorem update_writes_self [DecidableEq K] :
    (e.update t k v).writes t = Function.update (e.writes t) k (some v) :=
  Function.update_self ..

theorem update_holder [DecidableEq K] :
    (e.update t k v).holder = Function.update e.holder k (some t) :=
  rfl

theorem commit_committed :
    (e.commit t).committed = fun k => (e.writes t k).getD (e.committed k) :=
  rfl

theorem quiet_abort (e : SnapshotEngine K V T) (t : T) : (e.abort t).Quiet t := by
  refine ⟨Function.update_self .., fun k => ?_, fun k => ?_⟩
  · exact congrFun (Function.update_self t _ e.writes) k
  · simp only [abort]
    split_ifs with h
    · intro h'
      cases h'
    · exact h

theorem quiet_commit (e : SnapshotEngine K V T) (t : T) : (e.commit t).Quiet t :=
  ⟨(quiet_abort e t).snapshot, (quiet_abort e t).writes, (quiet_abort e t).holder⟩

/-- What `t'` has open is the same in both engines. -/
structure Same (e e' : SnapshotEngine K V T) (t' : T) : Prop where
  snapshot : e'.snapshot t' = e.snapshot t'
  writes : e'.writes t' = e.writes t'
  holder : ∀ k, e'.holder k = some t' ↔ e.holder k = some t'

omit [DecidableEq T] in
theorem Quiet.of_same {e' : SnapshotEngine K V T} (h : e.Quiet t') (hs : Same e e' t') :
    e'.Quiet t' :=
  ⟨hs.snapshot.trans h.snapshot, fun k => (congrFun hs.writes k).trans (h.writes k),
    fun k hk => h.holder k ((hs.holder k).mp hk)⟩

theorem same_snap (h : t' ≠ t) : Same e (e.snap t) t' := by
  refine ⟨?_, rfl, fun _ => Iff.rfl⟩
  exact Function.update_of_ne h _ e.snapshot

theorem same_abort (h : t' ≠ t) : Same e (e.abort t) t' := by
  refine ⟨Function.update_of_ne h _ e.snapshot, Function.update_of_ne h _ e.writes, fun k => ?_⟩
  simp only [abort]
  split_ifs with hk
  · rw [hk]
    constructor
    · intro h'
      cases h'
    · exact fun h' => absurd (Option.some.inj h').symm h
  · exact Iff.rfl

theorem same_commit (h : t' ≠ t) : Same e (e.commit t) t' :=
  ⟨(same_abort h).snapshot, (same_abort h).writes, (same_abort h).holder⟩

theorem same_update [DecidableEq K] (hfree : e.free t k = true) (h : t' ≠ t) :
    Same e (e.update t k v) t' := by
  refine ⟨rfl, Function.update_of_ne h _ e.writes, fun k' => ?_⟩
  rw [update_holder]
  by_cases hk : k' = k
  · subst hk
    rw [Function.update_self]
    exact ⟨fun h' => absurd (Option.some.inj h').symm h,
      fun h' => absurd (holder_of_free hfree h') h⟩
  · rw [Function.update_of_ne hk]

/-! ### The law -/

/-- Snapshots show the rows as they are, where they were not written since; and what is
written was not written since. -/
structure Sound (e : SnapshotEngine K V T) : Prop where
  stamped : ∀ k, e.stamp k ≤ e.commits
  snapped : ∀ t rows n, e.snapshot t = some (rows, n) →
    n ≤ e.commits ∧ ∀ k, e.stamp k ≤ n → rows k = e.committed k
  written : ∀ t k v, e.writes t k = some v →
    e.holder k = some t ∧ ∃ rows n, e.snapshot t = some (rows, n) ∧ e.stamp k ≤ n

omit [DecidableEq T] in
theorem sound_idle (rows : K → V) : (idle rows : SnapshotEngine K V T).Sound :=
  ⟨fun _ => Nat.le_refl _, fun _ _ _ h => absurd h.symm (Option.some_ne_none _),
    fun _ _ _ h => absurd h.symm (Option.some_ne_none _)⟩

omit [DecidableEq T] in
/-- **First updater wins**: a transaction commits over the version it has read. -/
theorem Sound.row_of_written (h : e.Sound) (hw : e.writes t k = some v)
    (hs : e.snapshot t = some (rows, n)) : rows k = e.committed k := by
  obtain ⟨-, rows', n', hs', hle⟩ := h.written t k v hw
  obtain ⟨rfl, rfl⟩ := Prod.mk.inj (Option.some.inj (hs.symm.trans hs'))
  exact (h.snapped t rows n hs).2 k hle

theorem Sound.snap (h : e.Sound) (t : T) : (e.snap t).Sound := by
  refine ⟨h.stamped, fun t' rows n hs => ?_, fun t' k v hw => ?_⟩
  · by_cases ht : t' = t
    · subst ht
      rw [snap_snapshot_self] at hs
      rcases hold : e.snapshot t' with _ | ⟨rows', n'⟩ <;> rw [hold] at hs
      · obtain ⟨rfl, rfl⟩ := Prod.mk.inj (Option.some.inj hs)
        exact ⟨Nat.le_refl _, fun _ _ => rfl⟩
      · obtain ⟨rfl, rfl⟩ := Prod.mk.inj (Option.some.inj hs)
        exact h.snapped t' _ _ hold
    · rw [(same_snap ht).snapshot] at hs
      exact h.snapped t' rows n hs
  · obtain ⟨hheld, rows, n, hs, hle⟩ := h.written t' k v hw
    refine ⟨hheld, rows, n, ?_, hle⟩
    by_cases ht : t' = t
    · subst ht
      rw [snap_snapshot_self, hs]
      rfl
    · rw [(same_snap ht).snapshot]
      exact hs

theorem Sound.abort (h : e.Sound) (t : T) : (e.abort t).Sound := by
  refine ⟨h.stamped, fun t' rows n hs => ?_, fun t' k v hw => ?_⟩
  · by_cases ht : t' = t
    · subst ht
      rw [(quiet_abort e t').snapshot] at hs
      cases hs
    · rw [(same_abort ht).snapshot] at hs
      exact h.snapped t' rows n hs
  · by_cases ht : t' = t
    · subst ht
      rw [(quiet_abort e t').writes] at hw
      cases hw
    · rw [(same_abort ht).writes] at hw
      obtain ⟨hheld, hs⟩ := h.written t' k v hw
      rw [(same_abort ht).snapshot]
      exact ⟨((same_abort ht).holder k).mpr hheld, hs⟩

/-- An update of a free row that is not in conflict. -/
theorem Sound.update [DecidableEq K] (h : e.Sound) (hfree : e.free t k = true)
    (hs : e.snapshot t = some (rows, n)) (hconflict : e.conflict t k = false) (v : V) :
    (e.update t k v).Sound := by
  have hle : e.stamp k ≤ n := by
    rw [conflict, hs] at hconflict
    exact Nat.not_lt.mp (of_decide_eq_false (p := n < e.stamp k) hconflict)
  refine ⟨h.stamped, h.snapped, fun t' k' v' hw => ?_⟩
  by_cases ht : t' = t
  · subst ht
    by_cases hk : k' = k
    · subst hk
      rw [update_holder, Function.update_self]
      exact ⟨rfl, rows, n, hs, hle⟩
    · rw [update_writes_self, Function.update_of_ne hk] at hw
      rw [update_holder, Function.update_of_ne hk]
      exact h.written t' k' v' hw
  · rw [(same_update hfree ht).writes] at hw
    obtain ⟨hheld, hs'⟩ := h.written t' k' v' hw
    exact ⟨((same_update hfree ht).holder k').mpr hheld, hs'⟩

theorem Sound.commit (h : e.Sound) (t : T) : (e.commit t).Sound := by
  refine ⟨fun k => ?_, fun t' rows n hs => ?_, fun t' k v hw => ?_⟩
  · simp only [SnapshotEngine.commit]
    split_ifs
    · exact Nat.le_refl _
    · exact Nat.le_succ_of_le (h.stamped k)
  · have ht : t' ≠ t := by
      rintro rfl
      rw [(quiet_commit e t').snapshot] at hs
      cases hs
    rw [(same_commit ht).snapshot] at hs
    obtain ⟨hn, hrows⟩ := h.snapped t' rows n hs
    refine ⟨Nat.le_succ_of_le hn, fun k hle => ?_⟩
    -- a row that this commit writes is newer than every snapshot there is
    have hnone : e.writes t k = none := by
      rcases hw : e.writes t k with _ | v
      · rfl
      · simp only [SnapshotEngine.commit, hw, Option.isSome_some, if_true] at hle
        exact absurd (Nat.le_trans hle hn) (Nat.not_succ_le_self _)
    simp only [SnapshotEngine.commit, hnone, Option.isSome_none, Bool.false_eq_true, if_false,
      Option.getD_none] at hle ⊢
    exact hrows k hle
  · have ht : t' ≠ t := by
      rintro rfl
      rw [(quiet_commit e t').writes] at hw
      cases hw
    rw [(same_commit ht).writes] at hw
    obtain ⟨hheld, rows, n, hs, hle⟩ := h.written t' k v hw
    refine ⟨((same_commit ht).holder k).mpr hheld, rows, n, ?_, ?_⟩
    · rw [(same_commit ht).snapshot]
      exact hs
    · have hnone : e.writes t k = none := by
        rcases hw' : e.writes t k with _ | v'
        · rfl
        · have hheld' := (h.written t k v' hw').1
          exact absurd (Option.some.inj (hheld.symm.trans hheld')) ht
      simp only [SnapshotEngine.commit, hnone, Option.isSome_none, Bool.false_eq_true, if_false]
      exact hle

end SnapshotEngine

end Marketplace
