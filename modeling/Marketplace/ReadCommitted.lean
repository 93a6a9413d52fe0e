import Marketplace.Slots
import Mathlib.Data.List.Basic

/-!
# Transactions at READ COMMITTED

A small database engine, in three parts: the committed state, the changes each
open transaction has made so far (its *log*, visible to nobody else), and the
holder of each lockable resource (a row, or a value of a unique index).

* A statement of transaction `t` reads the **view** of `t`: the committed state
  of this moment with the log of `t` redone on top. Taking the view anew for
  every statement is what READ COMMITTED means.
* A statement that needs a resource another transaction holds is not `free`: it
  waits. When it goes on, it reads the newest committed version.
* `commit` publishes the log and releases the locks; `abort` drops both.

What a database *is* stays abstract (`Redo`): a type of states, a type of
changes, and for every resource the row it guards. The one law is that a change
leaves the rows alone that it does not touch. From it follows the fact all
proofs about concurrent statements rest on: **a held lock freezes the committed
row** (`row_commit_of_held`), whatever the other transactions commit.
-/

namespace Marketplace

universe u v w y

/-- Databases `S` changed by `C`, with rows guarded by locks `L`. -/
class Redo (S : Type u) (C : Type v) (L : outParam (Type w)) where
  /-- carry a change out -/
  redo : S → C → S
  /-- the contents of the row a lock guards -/
  Row : L → Type
  /-- read that row -/
  row : S → (l : L) → Row l
  /-- the change writes the row that `l` guards -/
  Touches : C → L → Prop
  /-- a change leaves the rows it does not touch alone -/
  row_redo : ∀ (s : S) (c : C) (l : L), ¬ Touches c l → row (redo s c) l = row s l

/-- A database with its open transactions `T`. -/
structure Engine (S : Type u) (C : Type v) (L : Type w) (T : Type y) where
  /-- the newest committed version of everything -/
  committed : S
  /-- the changes of an open transaction, oldest first -/
  log : T → List C
  /-- who holds a row lock or a unique-index entry -/
  holder : L → Option T

namespace Engine

variable {S : Type u} {C : Type v} {L : Type w} {T : Type y}

/-- An engine with nothing open. -/
def idle (s : S) : Engine S C L T := ⟨s, fun _ => [], fun _ => none⟩

@[simp] theorem idle_committed (s : S) : (idle s : Engine S C L T).committed = s := rfl

@[simp] theorem idle_log (s : S) (t : T) : (idle s : Engine S C L T).log t = [] := rfl

@[simp] theorem idle_holder (s : S) (l : L) :
    (idle s : Engine S C L T).holder l = none := rfl

/-- `t` has nothing open: no changes and no locks. -/
def Quiet (e : Engine S C L T) (t : T) : Prop :=
  e.log t = [] ∧ ∀ l, e.holder l ≠ some t

theorem quiet_idle (s : S) (t : T) : (idle s : Engine S C L T).Quiet t :=
  ⟨rfl, fun _ h => by cases h⟩

/-! ### Locks -/

section Locks

variable [DecidableEq L]

/-- `t` takes the lock `l` (it must be `free`). -/
def acquire (e : Engine S C L T) (t : T) (l : L) : Engine S C L T :=
  { e with holder := Function.update e.holder l (some t) }

@[simp] theorem acquire_committed (e : Engine S C L T) (t : T) (l : L) :
    (e.acquire t l).committed = e.committed := rfl

@[simp] theorem acquire_log (e : Engine S C L T) (t : T) (l : L) :
    (e.acquire t l).log = e.log := rfl

@[simp] theorem acquire_holder_self (e : Engine S C L T) (t : T) (l : L) :
    (e.acquire t l).holder l = some t :=
  Function.update_self ..

theorem acquire_holder_ne (e : Engine S C L T) (t : T) {l l' : L} (h : l' ≠ l) :
    (e.acquire t l).holder l' = e.holder l' :=
  Function.update_of_ne h ..

/-- A transaction other than the one that takes a lock holds what it held. -/
theorem acquire_holder_eq_some {e : Engine S C L T} {t t' : T} {l l' : L}
    (hne : t' ≠ t) (h : (e.acquire t l).holder l' = some t') :
    e.holder l' = some t' := by
  by_cases hl : l' = l
  · subst hl
    rw [acquire_holder_self] at h
    exact absurd (Option.some.inj h).symm hne
  · rw [acquire_holder_ne e t hl] at h
    exact h

theorem Quiet.acquire {e : Engine S C L T} {t t' : T} {l : L} (hq : e.Quiet t')
    (hne : t' ≠ t) : (e.acquire t l).Quiet t' :=
  ⟨hq.1, fun l' h => hq.2 l' (acquire_holder_eq_some hne h)⟩

end Locks

/-! ### Changes and their end -/

section Changes

variable [DecidableEq T]

/-- `t` need not wait for `l`: nobody else holds it. -/
def free (e : Engine S C L T) (t : T) (l : L) : Bool :=
  match e.holder l with
  | none => true
  | some t' => decide (t' = t)

theorem free_iff {e : Engine S C L T} {t : T} {l : L} :
    e.free t l = true ↔ ∀ t', e.holder l = some t' → t' = t := by
  unfold free
  rcases e.holder l with _ | t'
  · simp
  · simp

/-- Taking a free lock never takes one away. -/
theorem acquire_holder_of_held [DecidableEq L] {e : Engine S C L T} {t t' : T} {l l' : L}
    (hfree : e.free t l = true) (h : e.holder l' = some t') :
    (e.acquire t l).holder l' = some t' := by
  by_cases hl : l' = l
  · subst hl
    rw [acquire_holder_self, free_iff.mp hfree t' h]
  · rw [acquire_holder_ne e t hl]
    exact h

theorem free_congr {e e' : Engine S C L T} (h : e'.holder = e.holder) (t : T) (l : L) :
    e'.free t l = e.free t l := by
  unfold free
  rw [h]

/-- A lock that `t` takes is no hindrance to it. -/
theorem free_acquire [DecidableEq L] {e : Engine S C L T} {t : T} {l l' : L}
    (hfree : e.free t l = true) : (e.acquire t l).free t l' = e.free t l' := by
  by_cases hl : l' = l
  · subst hl
    rw [hfree]
    refine free_iff.mpr fun t' ht' => ?_
    rw [acquire_holder_self] at ht'
    exact (Option.some.inj ht').symm
  · unfold free
    rw [acquire_holder_ne e t hl]

/-- `t` makes the change `c`, for itself so far. -/
def write (e : Engine S C L T) (t : T) (c : C) : Engine S C L T :=
  { e with log := Function.update e.log t (e.log t ++ [c]) }

@[simp] theorem write_committed (e : Engine S C L T) (t : T) (c : C) :
    (e.write t c).committed = e.committed := rfl

@[simp] theorem write_holder (e : Engine S C L T) (t : T) (c : C) :
    (e.write t c).holder = e.holder := rfl

@[simp] theorem write_log_self (e : Engine S C L T) (t : T) (c : C) :
    (e.write t c).log t = e.log t ++ [c] :=
  Function.update_self ..

theorem write_log_ne (e : Engine S C L T) {t t' : T} (c : C) (h : t' ≠ t) :
    (e.write t c).log t' = e.log t' :=
  Function.update_of_ne h ..

theorem Quiet.write {e : Engine S C L T} {t t' : T} {c : C} (hq : e.Quiet t')
    (hne : t' ≠ t) : (e.write t c).Quiet t' :=
  ⟨(write_log_ne e c hne).trans hq.1, hq.2⟩

/-- ROLLBACK: the changes are gone and the locks are free. -/
def abort (e : Engine S C L T) (t : T) : Engine S C L T :=
  { e with
    log := Function.update e.log t []
    holder := fun l => if e.holder l = some t then none else e.holder l }

@[simp] theorem abort_committed (e : Engine S C L T) (t : T) :
    (e.abort t).committed = e.committed := rfl

theorem abort_log_ne (e : Engine S C L T) {t t' : T} (h : t' ≠ t) :
    (e.abort t).log t' = e.log t' :=
  Function.update_of_ne h ..

theorem abort_holder_ne (e : Engine S C L T) {t t' : T} (h : t' ≠ t) (l : L) :
    (e.abort t).holder l = some t' ↔ e.holder l = some t' := by
  simp only [abort]
  by_cases hl : e.holder l = some t
  -- a lock of `t` is nobody's afterwards, and was not of `t'`
  · rw [if_pos hl, hl]
    constructor
    · intro h'
      cases h'
    · intro h'
      exact absurd (Option.some.inj h').symm h
  · rw [if_neg hl]

/-- After ROLLBACK the transaction has nothing open. -/
theorem quiet_abort (e : Engine S C L T) (t : T) : (e.abort t).Quiet t := by
  refine ⟨Function.update_self .., ?_⟩
  intro l
  simp only [abort]
  by_cases hl : e.holder l = some t
  · rw [if_pos hl]
    exact fun h => by cases h
  · rw [if_neg hl]
    exact hl

/-- A transaction with nothing open stays so when another one rolls back. -/
theorem Quiet.abort {e : Engine S C L T} {t t' : T} (hq : e.Quiet t') :
    (e.abort t).Quiet t' := by
  by_cases h : t' = t
  · subst h
    exact quiet_abort e t'
  · refine ⟨(abort_log_ne e h).trans hq.1, ?_⟩
    intro l hl
    exact hq.2 l ((abort_holder_ne e h l).mp hl)

end Changes

/-! ### The view and COMMIT -/

section Rows

variable [Redo S C L]

/-- What a statement of `t` reads: the committed state plus its own changes. -/
def view (e : Engine S C L T) (t : T) : S :=
  (e.log t).foldl Redo.redo e.committed

/-- With nothing open, a transaction reads the committed state. -/
theorem Quiet.view {e : Engine S C L T} {t : T} (hq : e.Quiet t) :
    e.view t = e.committed := by
  rw [Engine.view, hq.1]
  rfl

/-- Every change of an open transaction is to rows it has locked. -/
def WellLocked (e : Engine S C L T) : Prop :=
  ∀ t c l, c ∈ e.log t → Redo.Touches S c l → e.holder l = some t

theorem wellLocked_idle (s : S) : (idle s : Engine S C L T).WellLocked := by
  intro t c l hc
  exact absurd hc List.not_mem_nil

/-- Changes that do not touch a row leave it as it is. -/
theorem row_foldl {cs : List C} {l : L} (h : ∀ c ∈ cs, ¬ Redo.Touches S c l) (s : S) :
    Redo.row (C := C) (cs.foldl Redo.redo s) l = Redo.row (C := C) s l := by
  induction cs generalizing s with
  | nil => rfl
  | cons c cs ih =>
    rw [List.foldl_cons, ih fun c' hc' => h c' (List.mem_cons_of_mem _ hc')]
    exact Redo.row_redo s c l (h c (List.mem_cons_self ..))

/-- A row another transaction has locked looks to `t` as it is committed. -/
theorem row_view_of_held {e : Engine S C L T} (h : e.WellLocked) {t t' : T} {l : L}
    (hheld : e.holder l = some t') (hne : t' ≠ t) :
    Redo.row (C := C) (e.view t) l = Redo.row (C := C) e.committed l := by
  apply row_foldl
  intro c hc ht
  have := h t c l hc ht
  -- a change of `t` to the row would need the lock that `t'` holds
  rw [hheld] at this
  exact hne (Option.some.inj this)

variable [DecidableEq T]

/-- COMMIT: the view of `t` becomes the committed state, the locks are free. -/
def commit (e : Engine S C L T) (t : T) : Engine S C L T :=
  { e.abort t with committed := e.view t }

@[simp] theorem commit_committed (e : Engine S C L T) (t : T) :
    (e.commit t).committed = e.view t := rfl

@[simp] theorem commit_log (e : Engine S C L T) (t : T) :
    (e.commit t).log = (e.abort t).log := rfl

@[simp] theorem commit_holder (e : Engine S C L T) (t : T) :
    (e.commit t).holder = (e.abort t).holder := rfl

/-- After COMMIT the transaction has nothing open. -/
theorem quiet_commit (e : Engine S C L T) (t : T) : (e.commit t).Quiet t :=
  quiet_abort e t

theorem Quiet.commit {e : Engine S C L T} {t t' : T} (hq : e.Quiet t') :
    (e.commit t).Quiet t' :=
  hq.abort

/-! ### The lock discipline -/

theorem WellLocked.acquire [DecidableEq L] {e : Engine S C L T} (h : e.WellLocked)
    {t : T} {l : L} (hfree : e.free t l = true) : (e.acquire t l).WellLocked := by
  intro t' c l' hc ht
  exact acquire_holder_of_held hfree (h t' c l' hc ht)

theorem WellLocked.write {e : Engine S C L T} (h : e.WellLocked) {t : T} {c : C}
    (hheld : ∀ l, Redo.Touches S c l → e.holder l = some t) : (e.write t c).WellLocked := by
  intro t' c' l hc ht
  by_cases htt : t' = t
  · subst htt
    rw [write_log_self] at hc
    rcases List.mem_append.mp hc with hc | hc
    · exact h t' c' l hc ht
    · obtain rfl := List.mem_singleton.mp hc
      exact hheld l ht
  · rw [write_log_ne e c htt] at hc
    exact h t' c' l hc ht

theorem WellLocked.abort {e : Engine S C L T} (h : e.WellLocked) (t : T) :
    (e.abort t).WellLocked := by
  intro t' c l hc ht
  by_cases htt : t' = t
  · subst htt
    rw [(quiet_abort e t').1] at hc
    exact absurd hc List.not_mem_nil
  · rw [abort_log_ne e htt] at hc
    exact (abort_holder_ne e htt l).mpr (h t' c l hc ht)

theorem WellLocked.commit {e : Engine S C L T} (h : e.WellLocked) (t : T) :
    (e.commit t).WellLocked :=
  h.abort t

/-- **A held lock freezes the committed row**: the commit of another
transaction does not change it. -/
theorem row_commit_of_held {e : Engine S C L T} (h : e.WellLocked) {t t' : T} {l : L}
    (hheld : e.holder l = some t') (hne : t' ≠ t) :
    Redo.row (C := C) (e.commit t).committed l = Redo.row (C := C) e.committed l :=
  row_view_of_held h hheld hne

/-! ### What a transaction can rely on -/

/-- From `e` to `e'` transaction `t` kept its locks, and the committed rows
under them are the same. -/
structure Keeps (e e' : Engine S C L T) (t : T) : Prop where
  held : ∀ l, e.holder l = some t → e'.holder l = some t
  row : ∀ l, e.holder l = some t →
    Redo.row (C := C) e'.committed l = Redo.row (C := C) e.committed l

omit [DecidableEq T] in
theorem Keeps.trans {e e' e'' : Engine S C L T} {t : T} (h : Keeps e e' t)
    (h' : Keeps e' e'' t) : Keeps e e'' t where
  held := fun l hl => h'.held l (h.held l hl)
  row := fun l hl => (h'.row l (h.held l hl)).trans (h.row l hl)

theorem keeps_acquire [DecidableEq L] {e : Engine S C L T} {t t' : T} {l : L}
    (hfree : e.free t l = true) : Keeps e (e.acquire t l) t' where
  held := fun _ => acquire_holder_of_held hfree
  row := fun _ _ => rfl

theorem keeps_write (e : Engine S C L T) (t t' : T) (c : C) : Keeps e (e.write t c) t' where
  held := fun _ hl => hl
  row := fun _ _ => rfl


/-- From `e` to `e'` transaction `t` did nothing and was not disturbed: its log
and locks are the same, and so are the committed rows it has locked. -/
structure Undisturbed (e e' : Engine S C L T) (t : T) : Prop where
  log : e'.log t = e.log t
  holder : ∀ l, e'.holder l = some t ↔ e.holder l = some t
  row : ∀ l, e.holder l = some t →
    Redo.row (C := C) e'.committed l = Redo.row (C := C) e.committed l

omit [DecidableEq T] in
theorem Undisturbed.keeps {e e' : Engine S C L T} {t : T} (h : Undisturbed e e' t) :
    Keeps e e' t :=
  ⟨fun l => (h.holder l).mpr, h.row⟩

omit [DecidableEq T] in
theorem Undisturbed.refl (e : Engine S C L T) (t : T) : Undisturbed e e t :=
  ⟨rfl, fun _ => Iff.rfl, fun _ _ => rfl⟩

omit [DecidableEq T] in
theorem Undisturbed.trans {e e' e'' : Engine S C L T} {t : T} (h : Undisturbed e e' t)
    (h' : Undisturbed e' e'' t) : Undisturbed e e'' t where
  log := h'.log.trans h.log
  holder := fun l => (h'.holder l).trans (h.holder l)
  row := fun l hl => (h'.row l ((h.holder l).mpr hl)).trans (h.row l hl)

omit [DecidableEq T] in
theorem Undisturbed.quiet {e e' : Engine S C L T} {t : T} (h : Undisturbed e e' t)
    (hq : e.Quiet t) : e'.Quiet t :=
  ⟨h.log.trans hq.1, fun l hl => hq.2 l ((h.holder l).mp hl)⟩

theorem undisturbed_acquire [DecidableEq L] {e : Engine S C L T} {t t' : T} {l : L}
    (hfree : e.free t l = true) (hne : t' ≠ t) : Undisturbed e (e.acquire t l) t' where
  log := rfl
  holder := fun _ => ⟨acquire_holder_eq_some hne, acquire_holder_of_held hfree⟩
  row := fun _ _ => rfl

theorem undisturbed_write (e : Engine S C L T) {t t' : T} (c : C) (hne : t' ≠ t) :
    Undisturbed e (e.write t c) t' where
  log := write_log_ne e c hne
  holder := fun _ => Iff.rfl
  row := fun _ _ => rfl

theorem undisturbed_abort (e : Engine S C L T) {t t' : T} (hne : t' ≠ t) :
    Undisturbed e (e.abort t) t' where
  log := abort_log_ne e hne
  holder := abort_holder_ne e hne
  row := fun _ _ => rfl

theorem undisturbed_commit {e : Engine S C L T} (h : e.WellLocked) {t t' : T}
    (hne : t' ≠ t) : Undisturbed e (e.commit t) t' where
  log := abort_log_ne e hne
  holder := abort_holder_ne e hne
  row := fun _ hl => row_commit_of_held h hl hne

end Rows

end Engine

end Marketplace
