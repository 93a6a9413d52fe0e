import Marketplace.Locking

/-!
# Checkouts never deadlock

The rank of a table is its place in the order in which `checkout.ts` locks the tables,
and the level of a call says which of them it has behind it (`Pc.level`). What makes the
order hold is an invariant (`LockingShop.Inv`) with two halves. Whatever a call asks for
is at its level or above, or on a row that the call has locked already: the foreign keys
point to the buyer it has charged, the product it has sold and the order it has written,
and the key row written last was claimed first. And whatever the engine has locked for a
call, the call holds in the lock table, so that what a statement knows of the engine is
known of the locks.

So the requests are in order (`LockTable.Ordered`), and the waits have no cycle.
-/

namespace Marketplace

variable {rt : Runtime}

/-- The tables that a call has behind it: all it holds at `pc` is of a lower rank. -/
def Pc.level : Pc → ℕ
  | .claimKey _ => 0
  | .selectReplay _ | .rollbackReplay _ | .scanStock | .lockStock _ => 1
  | .scanBalance _ | .lockBalance _ _ => 2
  | .rollbackFailure _ | .selectEmail _ _ | .insertOrder _ _ _ => 3
  | .insertItem _ _ | .insertJob _ _ | .setKeyOrder _ _ | .insertOutbox _ _ => 4
  | .afterOutboxInsert _ _ | .commit _ _ => 5

theorem Pc.level_le (pc : Pc) : pc.level ≤ 5 := by
  cases pc <;> simp [Pc.level]

/-! ## What a statement locks -/

section Statements

variable {p : CheckoutParams} {d : Draw} {pc pc' : Pc} {a : RowLock} {rest : List RowLock}

theorem Pc.locks_cons (h : pc.locks p d = a :: rest) : rest = [] := by
  cases pc with
  | setKeyOrder unitPrice orderId =>
    rcases hkey : p.idempotencyKey with _ | key <;> simp_all [Pc.locks]
  | _ => simp_all [Pc.locks]

theorem Pc.mem_locks (h : a ∈ pc.locks p d) :
    a.mode ≠ .keyShare ∧ ∃ l, a.row = .guarded l := by
  cases pc with
  | setKeyOrder unitPrice orderId =>
    rcases hkey : p.idempotencyKey with _ | key <;> simp_all [Pc.locks]
  | _ => simp_all [Pc.locks]

theorem Pc.mem_inserts {s : Shop} (h : a ∈ pc.inserts s) : a = ⟨.order s.nextOrder, .insert⟩ := by
  cases pc with
  | insertOrder unitPrice buyerId customerEmail => exact List.mem_singleton.mp h
  | _ => exact absurd h List.not_mem_nil

/-- A statement has gone through: the call goes on at `pc'`. The engine has locked for it
what the statement has locked, and nothing that was there before. -/
structure Onward (s s' : Shop) (i : ℕ) (p : CheckoutParams) (d : Draw) (pc pc' : Pc) : Prop where
  calls : s'.calls = Function.update s.calls i (some ⟨p, .running pc'⟩)
  committed : s'.db.committed = s.db.committed
  level : pc.level ≤ pc'.level
  above : ∀ a ∈ pc.locks p d ++ pc.inserts s, a.row.rank < pc'.level
  holder : ∀ l, s'.db.holder l = some (.checkout i) → s.db.holder l = some (.checkout i) ∨
    (∃ a ∈ pc.locks p d, a.row = .guarded l) ∧ s.db.committed.entered (.guarded l) = false
  order : ∀ orderId, pc'.orderId = some orderId → pc.orderId = some orderId ∨
    ⟨.order orderId, .insert⟩ ∈ pc.inserts s
  sequence : s.nextOrder ≤ s'.nextOrder
  drawn : ∀ a ∈ pc.inserts s, ∃ orderId < s'.nextOrder, a = ⟨.order orderId, .insert⟩
  keyed : ∀ unitPrice orderId, pc' = .setKeyOrder unitPrice orderId → p.idempotencyKey ≠ none

variable {s s' s₁ : Shop} {i : ℕ} {c : Change} {l : Lock} {o : Outcome}

/-- Going on without a new lock. -/
theorem onward_goto (hcalls : s₁.calls = s.calls)
    (hcommitted : s₁.db.committed = s.db.committed) (hholder : s₁.db.holder = s.db.holder)
    (hnext : s₁.nextOrder = s.nextOrder) (hlevel : pc.level ≤ pc'.level)
    (habove : ∀ a ∈ pc.locks p d, a.row.rank < pc'.level) (hinserts : pc.inserts s = [])
    (horder : ∀ orderId, pc'.orderId = some orderId → pc.orderId = some orderId)
    (hkeyed : ∀ unitPrice orderId, pc' = .setKeyOrder unitPrice orderId →
      p.idempotencyKey ≠ none) :
    Onward s (s₁.goto i p pc') i p d pc pc' where
  calls := congrArg (Function.update · i _) hcalls
  committed := hcommitted
  level := hlevel
  above := by
    rw [hinserts, List.append_nil]
    exact habove
  holder := fun l hl => .inl ((congrFun hholder l).symm.trans hl)
  order := fun orderId ho => .inl (horder orderId ho)
  sequence := hnext.ge
  drawn := by
    rw [hinserts]
    exact fun a ha => absurd ha List.not_mem_nil
  keyed := hkeyed

/-- Going on with a new lock. -/
theorem onward_lock (hlocks : pc.locks p d = [a]) (hrow : a.row = .guarded l)
    (hnew : s.db.committed.entered (.guarded l) = false) (hlevel : pc.level ≤ pc'.level)
    (habove : a.row.rank < pc'.level) (hinserts : pc.inserts s = [])
    (horder : ∀ orderId, pc'.orderId = some orderId → pc.orderId = some orderId)
    (hkeyed : ∀ unitPrice orderId, pc' = .setKeyOrder unitPrice orderId →
      p.idempotencyKey ≠ none) :
    Onward s (((s.lock i l).write i c).goto i p pc') i p d pc pc' where
  calls := rfl
  committed := rfl
  level := hlevel
  above := by
    rw [hinserts, hlocks, List.append_nil]
    exact fun b hb => List.mem_singleton.mp hb ▸ habove
  holder := by
    intro l' hl'
    by_cases heq : l' = l
    · subst heq
      exact .inr ⟨⟨a, by rw [hlocks]; exact List.mem_singleton_self _, hrow⟩, hnew⟩
    · exact .inl ((Engine.acquire_holder_ne _ _ heq).symm.trans hl')
  order := fun orderId ho => .inl (horder orderId ho)
  sequence := le_rfl
  drawn := by
    rw [hinserts]
    exact fun a ha => absurd ha List.not_mem_nil
  keyed := hkeyed

/-- **What a statement does with locks**: the call goes on, or it ends. -/
theorem onward_exec (h : s.Inv rt) (hc : s.calls i = some ⟨p, .running pc⟩)
    (hs : s.exec rt i p d pc = some s') :
    (∃ pc', Onward s s' i p d pc pc') ∨
      s.nextOrder ≤ s'.nextOrder ∧
        ∃ o, s'.calls = Function.update s.calls i (some ⟨p, .done o⟩) := by
  cases pc with
  | claimKey key =>
    obtain ⟨hkey, hquiet⟩ := h.running hc
    have hview : s.view i = s.db.committed := hquiet.view
    simp only [Shop.exec, hview] at hs
    split_ifs at hs
    split at hs
    · obtain rfl := Option.some.inj hs
      exact .inl ⟨_, onward_goto rfl rfl rfl rfl (by simp [Pc.level])
        (by simp [Pc.level, Pc.locks, LockedRow.rank]) rfl (by simp [Pc.orderId]) (by simp)⟩
    · rename_i hnone
      obtain rfl := Option.some.inj hs
      exact .inl ⟨_, onward_lock rfl rfl (by simp [Database.entered, hnone]) (by simp [Pc.level])
        (by simp [Pc.level, LockedRow.rank]) rfl (by simp [Pc.orderId]) (by simp)⟩
  | selectReplay key =>
    obtain rfl := Option.some.inj hs
    exact .inl ⟨_, onward_goto rfl rfl rfl rfl (by simp [Pc.level]) (by simp [Pc.locks]) rfl
      (by simp [Pc.orderId]) (by simp)⟩
  | rollbackReplay prev =>
    rcases prev with _ | ⟨orderId, total⟩ <;>
      exact .inr (Option.some.inj hs ▸ ⟨le_rfl, _, rfl⟩)
  | scanStock =>
    simp only [Shop.exec] at hs
    split at hs
    · exact .inr (Option.some.inj hs ▸ ⟨le_rfl, _, rfl⟩)
    · split_ifs at hs
      · split at hs <;> obtain rfl := Option.some.inj hs <;>
          exact .inl ⟨_, onward_goto rfl rfl rfl rfl (by simp [Pc.level]) (by simp [Pc.locks]) rfl
            (by simp [Pc.orderId]) (by simp)⟩
      · exact .inr (Option.some.inj hs ▸ ⟨le_rfl, _, rfl⟩)
  | lockStock productId =>
    simp only [Shop.exec] at hs
    split_ifs at hs
    split at hs
    · obtain rfl := Option.some.inj hs
      exact .inl ⟨_, onward_goto rfl rfl rfl rfl (by simp [Pc.level])
        (by simp [Pc.level, Pc.locks, LockedRow.rank]) rfl (by simp [Pc.orderId]) (by simp)⟩
    · split_ifs at hs
      · obtain rfl := Option.some.inj hs
        exact .inl ⟨_, onward_lock rfl rfl rfl (by simp [Pc.level])
          (by simp [Pc.level, LockedRow.rank]) rfl (by simp [Pc.orderId]) (by simp)⟩
      · exact .inr (Option.some.inj hs ▸ ⟨le_rfl, _, rfl⟩)
  | rollbackFailure reason => exact .inr (Option.some.inj hs ▸ ⟨le_rfl, _, rfl⟩)
  | scanBalance unitPrice =>
    simp only [Shop.exec] at hs
    split at hs
    · exact .inr (Option.some.inj hs ▸ ⟨le_rfl, _, rfl⟩)
    · split at hs <;> obtain rfl := Option.some.inj hs <;>
        exact .inl ⟨_, onward_goto rfl rfl rfl rfl (by simp [Pc.level]) (by simp [Pc.locks]) rfl
          (by simp [Pc.orderId]) (by simp)⟩
  | lockBalance unitPrice buyerId =>
    simp only [Shop.exec] at hs
    split_ifs at hs
    split at hs
    · obtain rfl := Option.some.inj hs
      exact .inl ⟨_, onward_goto rfl rfl rfl rfl (by simp [Pc.level])
        (by simp [Pc.level, Pc.locks, LockedRow.rank]) rfl (by simp [Pc.orderId]) (by simp)⟩
    · split_ifs at hs
      · obtain rfl := Option.some.inj hs
        exact .inl ⟨_, onward_lock rfl rfl rfl (by simp [Pc.level])
          (by simp [Pc.level, LockedRow.rank]) rfl (by simp [Pc.orderId]) (by simp)⟩
      · exact .inr (Option.some.inj hs ▸ ⟨le_rfl, _, rfl⟩)
  | selectEmail unitPrice buyerId =>
    obtain rfl := Option.some.inj hs
    exact .inl ⟨_, onward_goto rfl rfl rfl rfl (by simp [Pc.level]) (by simp [Pc.locks]) rfl
      (by simp [Pc.orderId]) (by simp)⟩
  | insertOrder unitPrice buyerId customerEmail =>
    simp only [Shop.exec] at hs
    split_ifs at hs
    · obtain rfl := Option.some.inj hs
      refine .inl ⟨_, rfl, rfl, by simp [Pc.level], ?_, fun l hl => .inl hl, ?_, Nat.le_succ _, ?_,
        (by simp)⟩
      · simp [Pc.level, Pc.locks, Pc.inserts, LockedRow.rank]
      · rintro orderId ⟨⟩
        exact .inr (List.mem_singleton_self _)
      · intro a ha
        exact ⟨s.nextOrder, Nat.lt_succ_self _, List.mem_singleton.mp ha⟩
    · exact .inr (Option.some.inj hs ▸ ⟨Nat.le_succ _, _, rfl⟩)
  | insertItem unitPrice orderId =>
    simp only [Shop.exec] at hs
    split at hs
    · exact .inr (Option.some.inj hs ▸ ⟨le_rfl, _, rfl⟩)
    · split_ifs at hs
      · obtain rfl := Option.some.inj hs
        exact .inl ⟨_, onward_goto rfl rfl rfl rfl (by simp [Pc.level]) (by simp [Pc.locks]) rfl
          (fun _ ho => ho) (by simp)⟩
      · exact .inr (Option.some.inj hs ▸ ⟨le_rfl, _, rfl⟩)
  | insertJob unitPrice orderId =>
    simp only [Shop.exec] at hs
    split at hs
    · rename_i key hkey
      obtain rfl := Option.some.inj hs
      refine .inl ⟨_, onward_goto rfl rfl rfl rfl (by simp [Pc.level]) (by simp [Pc.locks]) rfl
        (fun _ ho => ho) fun _ _ _ hnone => ?_⟩
      cases hkey.symm.trans hnone
    · obtain rfl := Option.some.inj hs
      exact .inl ⟨_, onward_goto rfl rfl rfl rfl (by simp [Pc.level]) (by simp [Pc.locks]) rfl
        (fun _ ho => ho) (by simp)⟩
  | setKeyOrder unitPrice orderId =>
    simp only [Shop.exec] at hs
    split at hs
    · cases hs
    · rename_i key hkey
      obtain rfl := Option.some.inj hs
      exact .inl ⟨_, onward_goto rfl rfl rfl rfl (by simp [Pc.level])
        (by simp [Pc.level, Pc.locks, hkey, LockedRow.rank]) rfl (fun _ ho => ho) (by simp)⟩
  | insertOutbox unitPrice orderId =>
    simp only [Shop.exec] at hs
    split_ifs at hs with hfree
    obtain rfl := Option.some.inj hs
    have hnew := of_decide_eq_true (Bool.and_eq_true_iff.mp hfree).2
    refine .inl ⟨_, onward_lock rfl rfl ?_ (by simp [Pc.level])
      (by simp [Pc.level, LockedRow.rank]) rfl (fun _ ho => ho) (by simp)⟩
    rw [Database.entered, Table.lookup_eq_none.mpr hnew]
    rfl
  | afterOutboxInsert unitPrice orderId =>
    obtain rfl := Option.some.inj hs
    exact .inl ⟨_, onward_goto rfl rfl rfl rfl (by simp [Pc.level]) (by simp [Pc.locks]) rfl
      (fun _ ho => ho) (by simp)⟩
  | commit unitPrice orderId => exact .inr (Option.some.inj hs ▸ ⟨le_rfl, _, rfl⟩)

end Statements

/-- An entry of a unique index stays. -/
theorem Shop.Inv.entered_step {s s' : Shop} (h : s.Inv rt) {a : CheckoutEvent}
    (hs : s.step rt a = some s') {row : LockedRow}
    (hrow : s.db.committed.entered row = true) : s'.db.committed.entered row = true := by
  rcases h.committed_step hs with heq | ⟨p, x, hvalid, heq, -⟩
  · rw [heq]
    exact hrow
  · rw [heq]
    rcases row with l | orderId
    · cases l with
      | key key =>
        obtain ⟨v, hv⟩ := Option.isSome_iff_exists.mp hrow
        obtain ⟨o, -, rfl⟩ := h.wellFormed.keys key v hv
        exact Option.isSome_iff_exists.mpr ⟨_, hvalid.extends.keys key o.id hv⟩
      | outbox id =>
        obtain ⟨r, hr⟩ := Option.isSome_iff_exists.mp hrow
        refine Option.isSome_iff_exists.mpr ⟨r, ?_⟩
        rw [Sale.apply, Table.lookup, List.find?_append]
        rw [Table.lookup] at hr
        rw [hr]
        rfl
      | product | user | processed | receiptEvent | receiptOrder | job => cases hrow
    · cases hrow

/-- Only calls lock anything, and an entry of a unique index only if it is not there. -/
def Shop.Unentered (s : Shop) : Prop :=
  ∀ l t, s.db.holder l = some t →
    (∃ i, t = .checkout i) ∧ s.db.committed.entered (.guarded l) = false

theorem entered_congr {db db' : Database} {l : Lock} (h : db'.row l = db.row l) :
    db'.entered (.guarded l) = db.entered (.guarded l) := by
  cases l with
  | key key => exact congrArg Option.isSome h
  | outbox id => exact congrArg Option.isSome h
  | _ => rfl

theorem Shop.Inv.unentered_step {s s' : Shop} (h : s.Inv rt) (hu : s.Unentered)
    {a : CheckoutEvent} (hs : s.step rt a = some s') : s'.Unentered := by
  have hinv := checkouts_invariant s a s' h hs
  intro l t hl
  by_cases ht : t = .checkout a.id
  · subst ht
    refine ⟨⟨_, rfl⟩, ?_⟩
    -- who ends holds nothing
    have hrunning : ∀ p o, s'.calls a.id ≠ some ⟨p, .done o⟩ := by
      intro p o hc
      have hquiet := hinv.call a.id
      rw [hc] at hquiet
      exact hquiet.2 l hl
    cases a with
    | call i p =>
      simp only [Shop.step] at hs
      split at hs
      · obtain rfl := Option.some.inj hs
        exact (hu l _ hl).2
      · cases hs
    | exec i d =>
      simp only [Shop.step] at hs
      split at hs
      · rename_i p pc hc
        rcases onward_exec h hc hs with ⟨pc', hon⟩ | ⟨-, o, hcalls⟩
        · rw [hon.committed]
          exact (hon.holder l hl).elim (fun hold => (hu l _ hold).2) And.right
        · refine absurd ?_ (hrunning p o)
          rw [hcalls]
          exact Function.update_self ..
      · cases hs
    | fail i | crash i | loseAnswer i =>
      simp only [Shop.step] at hs
      split at hs
      · obtain rfl := Option.some.inj hs
        exact absurd (Function.update_self ..) (hrunning _ _)
      · cases hs
  · -- a row that another transaction has locked stays as it is
    have hothers := h.others_step hs ht
    have hold := (hothers.holder l).mp hl
    rw [entered_congr (hothers.row l hold)]
    exact hu l t hold

/-! ## The invariant -/

namespace LockingShop

/-- What a running call has locked, and what it may still ask for. -/
structure Locked (s : LockingShop) (i : ℕ) (p : CheckoutParams) (pc : Pc) : Prop where
  asks : ∀ a ∈ s.locks.asked i, s.locks.Covered LockMode.conflicts i a ∨
    (∃ d, s.drawn i = some d ∧ a ∈ pc.locks p d) ∧ pc.level ≤ a.row.rank
  below : ∀ a, (i, a) ∈ s.locks.held → a.row.rank < pc.level ∨
    s.locks.asked i = [] ∧ ∃ d, s.drawn i = some d ∧ a ∈ pc.locks p d
  /-- a statement has its locks before it or behind it -/
  ready : ∀ d, s.drawn i = some d → s.locks.asked i = pc.locks p d ∨
    s.locks.asked i = [] ∧ ∀ a ∈ pc.locks p d,
      (i, a) ∈ s.locks.held ∨ s.shop.db.committed.entered a.row = true
  /-- what the engine has locked for the call, the call holds -/
  holder : ∀ l, s.shop.db.holder l = some (.checkout i) →
    ∃ m, m ≠ .keyShare ∧ (i, ⟨.guarded l, m⟩) ∈ s.locks.held
  order : ∀ orderId, pc.orderId = some orderId →
    (i, ⟨.order orderId, .insert⟩) ∈ s.locks.held
  keyed : ∀ unitPrice orderId, pc = .setKeyOrder unitPrice orderId → p.idempotencyKey ≠ none

/-- A call that is not running has no locks. -/
def CallLocked (s : LockingShop) (i : ℕ) : Option Call → Prop
  | some ⟨p, .running pc⟩ => Locked s i p pc
  | _ => s.locks.asked i = [] ∧ s.drawn i = none ∧ ∀ a, (i, a) ∉ s.locks.held

/-- What concurrent checkouts keep about their locks. -/
structure Inv (rt : Runtime) (s : LockingShop) : Prop where
  shop : s.shop.Inv rt
  unentered : s.shop.Unentered
  exclusive : s.locks.Exclusive LockMode.conflicts
  calls : ∀ i, CallLocked s i (s.shop.calls i)
  /-- the order rows locked are drawn -/
  orders : ∀ i orderId m, (i, ⟨.order orderId, m⟩) ∈ s.locks.held → orderId < s.shop.nextOrder

variable {s s' : LockingShop} {i j : ℕ} {p : CheckoutParams} {pc : Pc} {d : Draw}

/-- From `s` to `s'` nothing happened to call `j`. -/
structure Untouched (s s' : LockingShop) (j : ℕ) : Prop where
  calls : s'.shop.calls j = s.shop.calls j
  asked : s'.locks.asked j = s.locks.asked j
  drawn : s'.drawn j = s.drawn j
  held : ∀ a, (j, a) ∈ s'.locks.held ↔ (j, a) ∈ s.locks.held
  holder : ∀ l, s'.shop.db.holder l = some (.checkout j) → s.shop.db.holder l = some (.checkout j)
  entered : ∀ row, s.shop.db.committed.entered row = true →
    s'.shop.db.committed.entered row = true

theorem Untouched.locked (hu : Untouched s s' j)
    (h : CallLocked s j (s.shop.calls j)) : CallLocked s' j (s'.shop.calls j) := by
  rw [hu.calls]
  rcases hc : s.shop.calls j with _ | ⟨p, pc | o⟩
  · rw [hc] at h
    exact ⟨hu.asked.trans h.1, hu.drawn.trans h.2.1, fun a ha => h.2.2 a ((hu.held a).mp ha)⟩
  · rw [hc] at h
    refine ⟨?_, ?_, ?_, ?_, ?_, h.keyed⟩
    · rw [hu.asked, hu.drawn]
      intro a ha
      exact (h.asks a ha).imp_left fun hcovered => hcovered.mono fun b => (hu.held b).mpr
    · rw [hu.asked, hu.drawn]
      exact fun a ha => h.below a ((hu.held a).mp ha)
    · rw [hu.asked, hu.drawn]
      intro d hd
      exact (h.ready d hd).imp_right fun hready =>
        ⟨hready.1, fun a ha => (hready.2 a ha).imp (hu.held a).mpr (hu.entered a.row)⟩
    · intro l hl
      obtain ⟨m, hm, hheld⟩ := h.holder l (hu.holder l hl)
      exact ⟨m, hm, (hu.held _).mpr hheld⟩
    · exact fun orderId ho => (hu.held _).mpr (h.order orderId ho)
  · rw [hc] at h
    exact ⟨hu.asked.trans h.1, hu.drawn.trans h.2.1, fun a ha => h.2.2 a ((hu.held a).mp ha)⟩

/-- A step of call `i`. -/
theorem Inv.next (h : s.Inv rt) (hshop : s'.shop.Inv rt) (hunentered : s'.shop.Unentered)
    (hexclusive : s'.locks.Exclusive LockMode.conflicts)
    (horders : ∀ orderId m, (i, ⟨.order orderId, m⟩) ∈ s'.locks.held →
      orderId < s'.shop.nextOrder)
    (hnext : s.shop.nextOrder ≤ s'.shop.nextOrder)
    (hothers : ∀ j, j ≠ i → Untouched s s' j) (hself : CallLocked s' i (s'.shop.calls i)) :
    s'.Inv rt where
  shop := hshop
  unentered := hunentered
  exclusive := hexclusive
  calls := by
    intro j
    by_cases hji : j = i
    · exact hji ▸ hself
    · exact (hothers j hji).locked (h.calls j)
  orders := by
    intro j orderId m hheld
    by_cases hji : j = i
    · exact horders orderId m (hji ▸ hheld)
    · exact (h.orders j orderId m (((hothers j hji).held _).mp hheld)).trans_le hnext

theorem Inv.locked (h : s.Inv rt) (hc : s.shop.calls i = some ⟨p, .running pc⟩) :
    Locked s i p pc := by
  have := h.calls i
  rwa [hc] at this

/-- Who asks for a lock is running. -/
theorem Inv.open_of_asked (h : s.Inv rt) {a : RowLock} {rest : List RowLock}
    (ha : s.locks.asked i = a :: rest) : s.Open i := by
  have hself := h.calls i
  rcases hc : s.shop.calls i with _ | ⟨p, pc | o⟩ <;> rw [hc] at hself
  · cases ha.symm.trans hself.1
  · exact ⟨p, pc, hc⟩
  · cases ha.symm.trans hself.1

/-- Who holds a lock is running. -/
theorem Inv.open_of_held (h : s.Inv rt) {a : RowLock} (ha : (i, a) ∈ s.locks.held) : s.Open i := by
  have hself := h.calls i
  rcases hc : s.shop.calls i with _ | ⟨p, pc | o⟩ <;> rw [hc] at hself
  · exact absurd ha (hself.2.2 a)
  · exact ⟨p, pc, hc⟩
  · exact absurd ha (hself.2.2 a)

/-! ### Requests on rows that are locked already -/

/-- A lock of an `UPDATE` or an `INSERT` is enough for a foreign key and an `UPDATE`. -/
theorem covers {m m' : LockMode} (hm : m ≠ .keyShare) (hm' : m' ≠ .insert) (k : LockMode)
    (hconflict : m'.conflicts k = true) : m.conflicts k = true := by
  cases m <;> cases m' <;> cases k <;> simp_all [LockMode.conflicts]

theorem conflicts_comm (m m' : LockMode) : m.conflicts m' = m'.conflicts m := by
  cases m <;> cases m' <;> rfl

theorem Locked.covered (h : Locked s i p pc) {l : Lock} {m : LockMode} (hm : m ≠ .insert)
    (hl : s.shop.db.holder l = some (.checkout i)) :
    s.locks.Covered LockMode.conflicts i ⟨.guarded l, m⟩ := by
  obtain ⟨m', hm', hheld⟩ := h.holder l hl
  exact ⟨_, hheld, rfl, covers hm' hm⟩

theorem Locked.covered_order (h : Locked s i p pc) {orderId : OrderId} {m : LockMode}
    (hm : m ≠ .insert) (ho : pc.orderId = some orderId) :
    s.locks.Covered LockMode.conflicts i ⟨.order orderId, m⟩ :=
  ⟨_, h.order orderId ho, rfl, covers (by simp) hm⟩

/-- **The foreign keys point to rows that the call has locked.** -/
theorem Inv.foreignKeys_covered (h : s.Inv rt)
    (hc : s.shop.calls i = some ⟨p, .running pc⟩) {a : RowLock}
    (ha : a ∈ pc.foreignKeys rt p) : s.locks.Covered LockMode.conflicts i a := by
  have hlocked := h.locked hc
  cases pc with
  | insertOrder unitPrice buyerId customerEmail =>
    obtain ⟨x, hx, -, -, rfl, -⟩ := h.shop.running hc
    obtain rfl := List.mem_singleton.mp ha
    exact hlocked.covered (by decide) hx.heldUser
  | insertItem unitPrice orderId =>
    obtain ⟨x, hx, -⟩ := h.shop.running hc
    simp only [Pc.foreignKeys, hx.productId] at ha
    rcases List.mem_cons.mp ha with rfl | ha
    · exact hlocked.covered_order (by decide) rfl
    · obtain rfl := List.mem_singleton.mp ha
      exact hlocked.covered (by decide) hx.heldProduct
  | insertJob unitPrice orderId | setKeyOrder unitPrice orderId =>
    obtain rfl := List.mem_singleton.mp ha
    exact hlocked.covered_order (by decide) rfl
  | _ => exact absurd ha List.not_mem_nil

/-- **A statement locks at its level or above**, or the key that was claimed first. -/
theorem Inv.locks_asked (h : s.Inv rt) (hc : s.shop.calls i = some ⟨p, .running pc⟩)
    {a : RowLock} (ha : a ∈ pc.locks p d) :
    s.locks.Covered LockMode.conflicts i a ∨ pc.level ≤ a.row.rank := by
  cases pc with
  | claimKey key | lockStock productId | lockBalance unitPrice buyerId
  | insertOutbox unitPrice orderId =>
    obtain rfl := List.mem_singleton.mp ha
    exact .inr (by simp [Pc.level, LockedRow.rank])
  | setKeyOrder unitPrice orderId =>
    obtain ⟨x, hx, -⟩ := h.shop.running hc
    rcases hkey : p.idempotencyKey with _ | key
    · simp only [Pc.locks, hkey, List.not_mem_nil] at ha
    · simp only [Pc.locks, hkey, List.mem_singleton] at ha
      subst ha
      exact .inl ((h.locked hc).covered (by decide) (hx.claimed key hkey).1)
  | _ => exact absurd ha List.not_mem_nil

/-! ### The events -/

/-- What a step of the shop under the locks does to the calls it is not about. -/
theorem Inv.untouched (h : s.Inv rt) {a : CheckoutEvent} (hs : s.shop.step rt a = some s'.shop)
    (hj : j ≠ a.id) (hasked : s'.locks.asked j = s.locks.asked j)
    (hdrawn : s'.drawn j = s.drawn j)
    (hheld : ∀ b, (j, b) ∈ s'.locks.held ↔ (j, b) ∈ s.locks.held) : Untouched s s' j where
  calls := by
    rcases h.shop.step hs with ⟨p, -, heq, -⟩ | ⟨p, pc, -, htook⟩
    · rw [heq]
      exact Function.update_of_ne hj ..
    · obtain ⟨st, hcalls, -⟩ := htook.moves
      rw [hcalls]
      exact Function.update_of_ne hj ..
  asked := hasked
  drawn := hdrawn
  held := hheld
  holder := fun l =>
    ((h.shop.others_step hs fun heq => hj (Client.checkout.inj heq)).holder l).mp
  entered := fun _ => h.shop.entered_step hs

/-- A call begins, or ends and gives up its locks. -/
theorem Inv.reset (h : s.Inv rt) {a : CheckoutEvent} {shop : Shop}
    (hs : s.shop.step rt a = some shop) (hnext : s.shop.nextOrder ≤ shop.nextOrder)
    (hself : CallLocked (s.reset a.id shop) a.id (shop.calls a.id)) :
    (s.reset a.id shop).Inv rt := by
  refine h.next (checkouts_invariant _ _ _ h.shop hs) (h.shop.unentered_step h.unentered hs) ?_ ?_
    hnext ?_ hself
  · exact h.exclusive.of_subset fun u b hb => (LockTable.mem_release.mp hb).1
  · exact fun orderId m hheld => absurd rfl (LockTable.mem_release.mp hheld).2
  · intro j hj
    refine h.untouched hs hj (LockTable.release_asked_ne hj) (Function.update_of_ne hj ..)
      fun b => ?_
    exact LockTable.mem_release.trans (and_iff_left hj)

theorem callLocked_ended {shop : Shop} {o : Outcome}
    (hcalls : shop.calls i = some ⟨p, .done o⟩) :
    CallLocked (s.reset i shop) i (shop.calls i) := by
  rw [hcalls]
  exact ⟨LockTable.release_asked_self, Function.update_self ..,
    fun a ha => (LockTable.mem_release.mp ha).2 rfl⟩

theorem Inv.call (h : s.Inv rt) (hs : s.step rt (.call i p) = some s') : s'.Inv rt := by
  obtain ⟨shop, hshop, rfl⟩ := Option.map_eq_some_iff.mp hs
  have hstep := hshop
  simp only [Shop.step] at hstep
  split at hstep
  · rename_i hnone
    obtain rfl := Option.some.inj hstep
    have hquiet : s.shop.db.Quiet (.checkout i) := by
      have := h.shop.call i
      rwa [hnone] at this
    refine h.reset hshop le_rfl ?_
    have hcalls : (s.shop.goto i p p.entry).calls i = some ⟨p, .running p.entry⟩ :=
      Function.update_self ..
    simp only [CheckoutEvent.id]
    rw [hcalls]
    refine ⟨?_, ?_, ?_, fun l hl => absurd hl (hquiet.2 l), ?_, ?_⟩
    · simp [LockingShop.reset]
    · exact fun a ha => absurd rfl (LockTable.mem_release.mp ha).2
    · intro d hd
      cases (Function.update_self ..).symm.trans hd
    · intro orderId ho
      rw [Shop.entry_orderId] at ho
      cases ho
    · intro unitPrice orderId hentry
      have hnone := congrArg Pc.orderId hentry
      rw [Shop.entry_orderId] at hnone
      cases hnone
  · cases hstep

/-- The statement, the process or the answer to the COMMIT of a call is lost. -/
theorem Inv.ends (h : s.Inv rt) {a : CheckoutEvent}
    (ha : ∀ shop, s.shop.step rt a = some shop → s.shop.nextOrder ≤ shop.nextOrder ∧
      ∃ p o, shop.calls a.id = some ⟨p, .done o⟩)
    (hs : (s.shop.step rt a).map (s.reset a.id) = some s') : s'.Inv rt := by
  obtain ⟨shop, hshop, rfl⟩ := Option.map_eq_some_iff.mp hs
  obtain ⟨hnext, p, o, hcalls⟩ := ha shop hshop
  exact h.reset hshop hnext (callLocked_ended hcalls)

theorem Inv.start (h : s.Inv rt) (hs : s.step rt (.start i d) = some s') : s'.Inv rt := by
  simp only [LockingShop.step] at hs
  split at hs
  · rename_i p pc hc hdrawn hasked
    obtain rfl := Option.some.inj hs
    have hlocked := h.locked hc
    refine h.next h.shop h.unentered h.exclusive (h.orders i) le_rfl (fun j hj => ?_) ?_
    · exact ⟨rfl, LockTable.ask_asked_ne hj, Function.update_of_ne hj .., fun _ => Iff.rfl,
        fun _ hl => hl, fun _ hrow => hrow⟩
    · -- it holds what it held, and asks for the locks of its statement, which are not below
      simp only [hc]
      refine ⟨?_, ?_, ?_, hlocked.holder, hlocked.order, hlocked.keyed⟩
      · intro a ha
        rw [LockTable.ask_asked_self] at ha
        refine (h.locks_asked hc ha).imp_right fun hrank => ⟨⟨d, ?_, ha⟩, hrank⟩
        exact Function.update_self ..
      · intro a ha
        rcases hlocked.below a ha with hrank | ⟨-, d', hd', -⟩
        · exact .inl hrank
        · rw [hdrawn] at hd'
          cases hd'
      · intro d' hd'
        change Function.update s.drawn i (some d) i = some d' at hd'
        rw [Function.update_self] at hd'
        obtain rfl := Option.some.inj hd'
        exact .inl LockTable.ask_asked_self
  · cases hs

theorem Inv.lock (h : s.Inv rt) (hs : s.step rt (.lock i) = some s') : s'.Inv rt := by
  simp only [LockingShop.step] at hs
  split at hs
  · rename_i a rest hasked
    have hne : s.locks.asked i ≠ [] := by
      rw [hasked]
      exact List.cons_ne_nil _ _
    obtain ⟨p, pc, hc⟩ := h.open_of_asked hasked
    have hlocked := h.locked hc
    have hasks := hlocked.asks
    rw [hasked] at hasks
    have hready : ∀ d, s.drawn i = some d → pc.locks p d = [a] ∧ rest = [] := by
      intro d hd
      rcases hlocked.ready d hd with hall | ⟨hnone, -⟩
      · rw [hasked] at hall
        obtain rfl := Pc.locks_cons hall.symm
        exact ⟨hall.symm, rfl⟩
      · exact absurd hnone hne
    split_ifs at hs with hentered hblocked
    · -- there is nothing to lock
      obtain rfl := Option.some.inj hs
      refine h.next h.shop h.unentered h.exclusive (h.orders i) le_rfl (fun j hj => ?_) ?_
      · exact ⟨rfl, LockTable.ask_asked_ne hj, rfl, fun _ => Iff.rfl, fun _ hl => hl,
          fun _ hrow => hrow⟩
      · simp only [hc]
        refine ⟨?_, ?_, ?_, hlocked.holder, hlocked.order, hlocked.keyed⟩
        · intro b hb
          rw [LockTable.ask_asked_self] at hb
          exact hasks b (List.mem_cons_of_mem _ hb)
        · exact fun b hb => .inl ((hlocked.below b hb).resolve_right fun hr => hne hr.1)
        · intro d hd
          obtain ⟨hlocks, rfl⟩ := hready d hd
          refine .inr ⟨LockTable.ask_asked_self, fun b hb => .inr ?_⟩
          rw [hlocks] at hb
          rw [List.mem_singleton.mp hb]
          exact hentered.2
    · -- the lock is taken
      obtain rfl := Option.some.inj hs
      have hfree := LockTable.blocked_eq_false.mp (Bool.not_eq_true _ ▸ hblocked)
      have hold : ∀ b, (i, b) ∈ s.locks.held → (i, b) ∈ (s.locks.grant i [a]).held :=
        fun b hb => LockTable.mem_grant.mpr (.inr hb)
      refine h.next (i := i) h.shop h.unentered ?_ ?_ le_rfl (fun j hj => ?_) ?_
      · exact h.exclusive.grant conflicts_comm fun b hb => List.mem_singleton.mp hb ▸ hfree
      · intro orderId m hheld
        rcases LockTable.mem_grant.mp hheld with ⟨-, hb⟩ | hb
        · -- it locks an order only under a lock it has on it
          obtain rfl := List.mem_singleton.mp hb
          rcases hasks _ (List.mem_cons_self ..) with ⟨⟨row, m'⟩, hc, hrow, -⟩ | ⟨⟨d, -, hb⟩, -⟩
          · obtain rfl : row = .order orderId := hrow
            exact h.orders i orderId m' hc
          · obtain ⟨-, l, hl⟩ := Pc.mem_locks hb
            cases hl
        · exact h.orders i orderId m hb
      · refine ⟨rfl, ?_, rfl, fun b => ?_, fun _ hl => hl, fun _ hrow => hrow⟩
        · exact LockTable.ask_asked_ne hj
        · exact LockTable.mem_grant.trans (or_iff_right fun hb => hj hb.1)
      · simp only [hc]
        refine ⟨?_, ?_, ?_, ?_, ?_, hlocked.keyed⟩
        · intro b hb
          rw [LockTable.ask_asked_self] at hb
          exact (hasks b (List.mem_cons_of_mem _ hb)).imp_left fun hcovered => hcovered.mono hold
        · intro b hb
          rcases LockTable.mem_grant.mp hb with ⟨-, hb⟩ | hb
          · obtain rfl := List.mem_singleton.mp hb
            rcases hasks b (List.mem_cons_self ..) with ⟨c, hc, hrow, -⟩ | ⟨⟨d, hd, hb⟩, -⟩
            · rw [← hrow]
              exact .inl ((hlocked.below c hc).resolve_right fun hr => hne hr.1)
            · refine .inr ⟨?_, d, hd, hb⟩
              rw [(hready d hd).2]
              exact LockTable.ask_asked_self
          · exact .inl ((hlocked.below b hb).resolve_right fun hr => hne hr.1)
        · intro d hd
          obtain ⟨hlocks, rfl⟩ := hready d hd
          refine .inr ⟨LockTable.ask_asked_self, fun b hb => .inl ?_⟩
          rw [hlocks] at hb
          exact LockTable.mem_grant.mpr (.inl ⟨rfl, hb⟩)
        · intro l hl
          obtain ⟨m, hm, hheld⟩ := hlocked.holder l hl
          exact ⟨m, hm, hold _ hheld⟩
        · exact fun orderId ho => hold _ (hlocked.order orderId ho)
  · cases hs

theorem Inv.exec (h : s.Inv rt) (hs : s.step rt (.exec i) = some s') : s'.Inv rt := by
  simp only [LockingShop.step] at hs
  split at hs
  · rename_i p pc d hc hdrawn hasked
    obtain ⟨shop, hexec, rfl⟩ := Option.map_eq_some_iff.mp hs
    have hshop : s.shop.step rt (.exec i d) = some shop := by
      simp only [Shop.step, hc]
      exact hexec
    have hinv : shop.Inv rt := checkouts_invariant _ (.exec i d) _ h.shop hshop
    have hunentered := h.shop.unentered_step h.unentered hshop
    have hlocked := h.locked hc
    rcases onward_exec h.shop hc hexec with ⟨pc', hon⟩ | ⟨hnext, o, hcalls⟩
    · -- the call goes on: it has its new rows, and asks for those they point to
      have hcalls : shop.calls i = some ⟨p, .running pc'⟩ := by
        rw [hon.calls, Function.update_self]
      have hsettle : s.settle rt i p pc shop =
          { shop := shop
            locks := (s.locks.grant i (pc.inserts s.shop)).ask i (pc.foreignKeys rt p)
            drawn := Function.update s.drawn i none } := by
        rw [settle, hcalls]
      have hold : ∀ b, (i, b) ∈ s.locks.held →
          (i, b) ∈ (s.locks.grant i (pc.inserts s.shop)).held :=
        fun b hb => LockTable.mem_grant.mpr (.inr hb)
      rw [hsettle]
      refine h.next (i := i) hinv hunentered ?_ ?_ hon.sequence ?_ ?_
      · refine h.exclusive.grant conflicts_comm fun a ha u b hb hne hrow => ?_
        -- nobody has locked an order that is not drawn
        obtain ⟨row, m⟩ := b
        obtain rfl : row = .order s.shop.nextOrder := by
          rw [Pc.mem_inserts ha] at hrow
          exact hrow
        exact absurd (h.orders u _ m hb) (lt_irrefl _)
      · intro orderId m hheld
        rcases LockTable.mem_grant.mp hheld with ⟨-, hb⟩ | hb
        · obtain ⟨orderId', hlt, heq⟩ := hon.drawn _ hb
          obtain ⟨rfl, -⟩ : orderId = orderId' ∧ m = .insert := by simpa using heq
          exact hlt
        · exact (h.orders i orderId m hb).trans_le hon.sequence
      · intro j hj
        refine h.untouched hshop hj (LockTable.ask_asked_ne hj) (Function.update_of_ne hj ..)
          fun b => ?_
        exact LockTable.mem_grant.trans (or_iff_right fun hb => hj hb.1)
      · simp only [hcalls]
        refine ⟨?_, ?_, ?_, ?_, ?_, hon.keyed⟩
        · intro a ha
          rw [LockTable.ask_asked_self] at ha
          exact .inl ((h.foreignKeys_covered hc ha).mono hold)
        · intro a ha
          rcases LockTable.mem_grant.mp ha with ⟨-, ha⟩ | ha
          · exact .inl (hon.above a (List.mem_append_right _ ha))
          · rcases hlocked.below a ha with hrank | ⟨-, d', hd', ha⟩
            · exact .inl (hrank.trans_le hon.level)
            · obtain rfl := Option.some.inj (hdrawn.symm.trans hd')
              exact .inl (hon.above a (List.mem_append_left _ ha))
        · intro d' hd'
          change Function.update s.drawn i none i = some d' at hd'
          rw [Function.update_self] at hd'
          cases hd'
        · intro l hl
          rcases hon.holder l hl with hl | ⟨⟨a, ha, hrow⟩, hnew⟩
          · obtain ⟨m, hm, hheld⟩ := hlocked.holder l hl
            exact ⟨m, hm, hold _ hheld⟩
          · -- what the engine locks now, the call has locked before
            rcases hlocked.ready d hdrawn with hall | ⟨-, hall⟩
            · rw [← hall, hasked] at ha
              exact absurd ha List.not_mem_nil
            · rcases hall a ha with hheld | hentered
              · obtain ⟨row, m⟩ := a
                obtain rfl : row = .guarded l := hrow
                exact ⟨m, (Pc.mem_locks ha).1, hold _ hheld⟩
              · rw [hrow, hnew] at hentered
                cases hentered
        · intro orderId ho
          rcases hon.order orderId ho with ho | hinserted
          · exact hold _ (hlocked.order orderId ho)
          · exact LockTable.mem_grant.mpr (.inl ⟨rfl, hinserted⟩)
    · -- the call ends
      have hcalls : shop.calls i = some ⟨p, .done o⟩ := by
        rw [hcalls, Function.update_self]
      have hsettle : s.settle rt i p pc shop = s.reset i shop := by
        rw [settle, hcalls]
      rw [hsettle]
      exact h.reset hshop hnext (callLocked_ended hcalls)
  · cases hs

theorem Inv.step (h : s.Inv rt) {e : LockingEvent} (hs : s.step rt e = some s') : s'.Inv rt := by
  cases e with
  | call i p => exact h.call hs
  | start i d => exact h.start hs
  | lock i => exact h.lock hs
  | exec i => exact h.exec hs
  | fail i | crash i | loseAnswer i =>
    refine h.ends (fun shop hshop => ?_) hs
    simp only [Shop.step] at hshop
    split at hshop
    · obtain rfl := Option.some.inj hshop
      exact ⟨le_rfl, _, _, Function.update_self ..⟩
    · cases hshop

theorem Start.inv (h : s.Start) : s.Inv rt where
  shop := h.shop.inv
  unentered := by
    intro l t hl
    rw [h.shop.idle] at hl
    cases hl
  exclusive := by
    rw [h.locks]
    exact LockTable.exclusive_empty
  calls := by
    intro i
    rw [h.shop.calls i]
    refine ⟨?_, h.drawn i, ?_⟩ <;> rw [h.locks]
    · rfl
    · exact fun a => List.not_mem_nil
  orders := by
    intro i orderId m hheld
    rw [h.locks] at hheld
    exact absurd hheld List.not_mem_nil

/-! ## The waits -/

/-- The level of a call. -/
def level (s : LockingShop) (i : ℕ) : ℕ :=
  match s.shop.calls i with
  | some ⟨_, .running pc⟩ => pc.level
  | _ => 0

theorem level_le (s : LockingShop) (i : ℕ) : s.level i ≤ 5 := by
  unfold level
  split
  · exact Pc.level_le _
  · exact Nat.zero_le _

/-- **Checkouts ask for their locks in order.** -/
theorem Inv.ordered (h : s.Inv rt) :
    s.locks.Ordered LockMode.conflicts LockedRow.rank s.level where
  exclusive := h.exclusive
  asks := by
    intro i a ha
    have hself := h.calls i
    unfold level
    rcases hc : s.shop.calls i with _ | ⟨p, pc | o⟩ <;> rw [hc] at hself
    · rw [hself.1] at ha
      exact absurd ha List.not_mem_nil
    · exact (hself.asks a ha).imp_right And.right
    · rw [hself.1] at ha
      exact absurd ha List.not_mem_nil
  below := by
    intro i a hne ha
    have hself := h.calls i
    unfold level
    rcases hc : s.shop.calls i with _ | ⟨p, pc | o⟩ <;> rw [hc] at hself
    · exact absurd ha (hself.2.2 a)
    · exact (hself.below a ha).resolve_right fun hr => hne hr.1
    · exact absurd ha (hself.2.2 a)

/-! ### Who does not wait can go on -/

/-- The engine has no other holder of a lock that the statement has taken. -/
theorem Inv.free_of_ready (h : s.Inv rt) (hc : s.shop.calls i = some ⟨p, .running pc⟩)
    (hdrawn : s.drawn i = some d) (hasked : s.locks.asked i = []) {l : Lock} {m : LockMode}
    (hlock : ⟨.guarded l, m⟩ ∈ pc.locks p d) : s.shop.free i l = true := by
  refine Engine.free_iff.mpr fun t hl => ?_
  obtain ⟨⟨j, rfl⟩, hnew⟩ := h.unentered l t hl
  by_contra hne
  have hji : j ≠ i := fun heq => hne (congrArg Client.checkout heq)
  -- it has asked for nothing more, so it has all the locks that it asked for
  rcases (h.locked hc).ready d hdrawn with hall | ⟨-, hall⟩
  · rw [← hall, hasked] at hlock
    exact absurd hlock List.not_mem_nil
  · rcases hall _ hlock with hheld | hentered
    · -- `j` holds it in a mode that excludes that of `i`
      have hother := h.shop.call j
      rcases hcj : s.shop.calls j with _ | ⟨q, pc' | o⟩ <;> rw [hcj] at hother
      · exact hother.2 l hl
      · obtain ⟨m', hm', hheld'⟩ := (h.locked hcj).holder l hl
        have hfree := h.exclusive i j _ _ hheld hheld' hji rfl
        have hm := (Pc.mem_locks hlock).1
        cases m <;> cases m' <;> simp_all [LockMode.conflicts]
      · exact hother.2 l hl
    · rw [hnew] at hentered
      cases hentered

/-- A statement that has its locks can be carried out, unless its row has the id of a row
of `outbox`. -/
theorem Inv.exec_enabled (h : s.Inv rt) (hc : s.shop.calls i = some ⟨p, .running pc⟩)
    (hdrawn : s.drawn i = some d) (hasked : s.locks.asked i = [])
    (hnew : s.shop.db.committed.entered (.guarded (.outbox d.uuid)) = false) :
    ∃ shop, s.shop.exec rt i p d pc = some shop := by
  have hfree : ∀ {l m}, ⟨.guarded l, m⟩ ∈ pc.locks p d → s.shop.free i l = true :=
    h.free_of_ready hc hdrawn hasked
  refine Option.ne_none_iff_exists'.mp fun hnone => ?_
  cases pc with
  | claimKey key =>
    simp only [Shop.exec, hfree (List.mem_singleton_self _), if_true] at hnone
    split at hnone <;> cases hnone
  | rollbackReplay prev => rcases prev with _ | ⟨orderId, total⟩ <;> cases hnone
  | scanStock =>
    simp only [Shop.exec] at hnone
    split at hnone
    · cases hnone
    · split_ifs at hnone
      split at hnone <;> cases hnone
  | lockStock productId =>
    simp only [Shop.exec, hfree (List.mem_singleton_self _), if_true] at hnone
    split at hnone
    · cases hnone
    · split_ifs at hnone
  | scanBalance unitPrice =>
    simp only [Shop.exec] at hnone
    split at hnone
    · cases hnone
    · split at hnone <;> cases hnone
  | lockBalance unitPrice buyerId =>
    simp only [Shop.exec, hfree (List.mem_singleton_self _), if_true] at hnone
    split at hnone
    · cases hnone
    · split_ifs at hnone
  | insertOrder unitPrice buyerId customerEmail =>
    simp only [Shop.exec] at hnone
    split_ifs at hnone
  | insertItem unitPrice orderId =>
    simp only [Shop.exec] at hnone
    split at hnone
    · cases hnone
    · split_ifs at hnone
  | insertJob unitPrice orderId =>
    simp only [Shop.exec] at hnone
    split at hnone <;> cases hnone
  | setKeyOrder unitPrice orderId =>
    simp only [Shop.exec] at hnone
    split at hnone
    · -- a call without a key does not come here
      rename_i hkey
      exact (h.locked hc).keyed _ _ rfl hkey
    · cases hnone
  | insertOutbox unitPrice orderId =>
    -- the one statement that needs more than its locks: a new id for its row
    have hids : ∀ r ∈ s.shop.db.committed.outbox, r.id ≠ d.uuid := by
      refine Table.lookup_eq_none.mp ?_
      rw [Database.entered] at hnew
      exact Option.not_isSome_iff_eq_none.mp (Bool.eq_false_iff.mp hnew)
    have hguard : (s.shop.free i (.outbox d.uuid) &&
        decide (∀ r ∈ s.shop.db.committed.outbox, r.id ≠ d.uuid)) = true :=
      Bool.and_eq_true_iff.mpr ⟨hfree (List.mem_singleton_self _), decide_eq_true hids⟩
    simp only [Shop.exec] at hnone
    exact Option.some_ne_none _ ((if_pos hguard).symm.trans hnone)
  | selectReplay | rollbackFailure | selectEmail | afterOutboxInsert | commit => cases hnone

/-- **Who does not wait can go on**: its statement can be started, take its next lock or
be carried out, unless it has drawn the id of a row of `outbox`. -/
theorem Inv.goes_on (h : s.Inv rt) (hopen : s.Open i) (hwaits : ∀ j, ¬ s.WaitsFor i j)
    (hnew : ∀ d, s.drawn i = some d →
      s.shop.db.committed.entered (.guarded (.outbox d.uuid)) = false) :
    ∃ e, (e = .lock i ∨ e = .exec i ∨ ∃ d, e = .start i d) ∧ s.step rt e ≠ none := by
  obtain ⟨p, pc, hc⟩ := hopen
  rcases hasked : s.locks.asked i with _ | ⟨a, rest⟩
  · rcases hdrawn : s.drawn i with _ | d
    · refine ⟨.start i ⟨0, 0, 0⟩, .inr (.inr ⟨_, rfl⟩), ?_⟩
      simp [LockingShop.step, hc, hdrawn, hasked]
    · obtain ⟨shop, hexec⟩ := h.exec_enabled hc hdrawn hasked (hnew d hdrawn)
      refine ⟨.exec i, .inr (.inl rfl), ?_⟩
      simp [LockingShop.step, hc, hdrawn, hasked, hexec]
  · have hfree := LockTable.blocked_of_not_waits hasked hwaits
    refine ⟨.lock i, .inl rfl, ?_⟩
    simp only [LockingShop.step, hasked, hfree, Bool.false_eq_true, if_false]
    split_ifs <;> exact Option.some_ne_none _

end LockingShop

/-- **Concurrent checkouts never deadlock.** At every point of every interleaving the
waits between open transactions have no cycle; and as long as a call is running, some
running call does not wait. -/
theorem checkouts_never_deadlock {s₀ s : LockingShop} {es : List LockingEvent}
    (hstart : s₀.Start) (hrun : (lockings rt).run s₀ es = some s) :
    (∀ i, ¬ Relation.TransGen s.WaitsFor i i) ∧
      (∀ i j, s.WaitsFor i j → s.Open i ∧ s.Open j) ∧
      ∀ i, s.Open i → ∃ j, s.Open j ∧ ∀ k, ¬ s.WaitsFor j k := by
  have hinv : s.Inv rt :=
    System.Invariant.run (fun _ _ _ h hs => h.step hs) hstart.inv hrun
  have hopen : ∀ i j, s.WaitsFor i j → s.Open i ∧ s.Open j := by
    rintro i j ⟨a, rest, b, hasked, hheld, -⟩
    exact ⟨hinv.open_of_asked hasked, hinv.open_of_held hheld⟩
  refine ⟨hinv.ordered.acyclic, hopen, fun i hi => ?_⟩
  -- whoever `i` waits for, and so on, ends at a call that does not wait
  obtain ⟨j, hij, hnone⟩ := hinv.ordered.exists_not_waits s.level_le i
  refine ⟨j, ?_, hnone⟩
  rcases Relation.ReflTransGen.cases_tail hij with rfl | ⟨k, -, hkj⟩
  · exact hi
  · exact (hopen k j hkj).2

/-! ## A wait -/

/-- Two calls with one key: the second waits for the first. -/
def demoSameKey : List LockingEvent :=
  [.call 0 ⟨"1", "1", 1, some "key"⟩, .start 0 ⟨1, 0, 0⟩, .lock 0, .exec 0,
    .call 1 ⟨"2", "1", 1, some "key"⟩, .start 1 ⟨2, 0, 0⟩]

/-- The small shop, nothing locked. -/
def demoLocking : LockingShop := ⟨demoShop, .empty, fun _ => none⟩

theorem demoLocking_start : demoLocking.Start := ⟨demoShop_start, rfl, fun _ => rfl⟩

theorem demoSameKey_not_deadlocked : ∃ s,
    (lockings (demoRuntime .exact)).run demoLocking demoSameKey = some s ∧
      s.WaitsFor 1 0 ∧ (∀ i, ¬ Relation.TransGen s.WaitsFor i i) ∧
      ∃ j, s.Open j ∧ ∀ k, ¬ s.WaitsFor j k := by
  have hsome : ((lockings (demoRuntime .exact)).run demoLocking demoSameKey).any (fun s =>
      decide (s.locks.asked 1 = [⟨.guarded (.key "key"), .insert⟩]) &&
        decide ((0, ⟨.guarded (.key "key"), .insert⟩) ∈ s.locks.held)) = true := by
    decide +kernel
  obtain ⟨s, hrun, hdemo⟩ := (Option.any_eq_true _ _).mp hsome
  obtain ⟨hasked, hheld⟩ := Bool.and_eq_true_iff.mp hdemo
  obtain ⟨hacyclic, hopen, hsome⟩ := checkouts_never_deadlock demoLocking_start hrun
  have hwaits : s.WaitsFor 1 0 :=
    ⟨_, _, _, of_decide_eq_true hasked, of_decide_eq_true hheld, by decide, rfl, rfl⟩
  exact ⟨s, hrun, hwaits, hacyclic, hsome 1 (hopen 1 0 hwaits).1⟩

end Marketplace
