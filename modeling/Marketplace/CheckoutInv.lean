import Marketplace.Sale

/-!
# What a call knows at each of its statements

The invariant of concurrent checkouts. For every program counter, `PcInv` says
what the call has written so far and which committed rows it may rely on: those
it has locked, and what commits never take back. The writes so far are always a
prefix of one `Sale` (`Sale.changes`), so at COMMIT the view of the call is the
whole sale, made on the newest committed state at once (`Shop.Inv.sale`).

Nothing in `PcInv` depends on a row somebody else may change; that is
`PcInv.stable`, and the only argument about interleaving in the development.
-/

namespace Marketplace

variable {rt : Runtime}

/-! ## What a call holds -/

section Held

variable (rt : Runtime) (e : Engine Database Change Lock Client) (i : ℕ) (p : CheckoutParams)
  (x : Sale)

/-- The call has claimed its key, if it has one. -/
def Claimed : Prop :=
  ∀ key, p.idempotencyKey = some key →
    e.holder (.key key) = some (.checkout i) ∧ e.committed.idempotencyKeys key = none

/-- The call has decremented the stock. -/
structure Reserved : Prop where
  claimed : Claimed e i p
  productId : rt.int8in p.productId = some x.productId
  heldProduct : e.holder (.product x.productId) = some (.checkout i)
  product : e.committed.products x.productId = some x.product
  enough : p.quantity ≤ x.product.stock
  soldProduct : (x.soldProduct p).Check

/-- The call has charged the buyer as well. -/
structure Charged : Prop extends Reserved rt e i p x where
  buyerId : rt.int8in p.buyerId = some x.buyerId
  heldUser : e.holder (.user x.buyerId) = some (.checkout i)
  user : e.committed.users x.buyerId = some x.user
  afford : x.total rt p ≤ amount x.user.balance
  chargedUser : (x.chargedUser rt p).Check

/-- The call has written its order and item. -/
structure Ordered : Prop extends Charged rt e i p x where
  order : (x.order rt p).Check
  item : (x.item rt p).Check

/-- The call has written its event. -/
structure Announced : Prop extends Ordered rt e i p x where
  heldOutbox : e.holder (.outbox x.draw.uuid) = some (.checkout i)
  newOutbox : Table.lookup OutboxRow.id x.draw.uuid e.committed.outbox = none

/-- What the call knows at each program counter. -/
def PcInv : Pc → Prop
  | .claimKey key => p.idempotencyKey = some key ∧ e.Quiet (.checkout i)
  | .selectReplay key =>
    p.idempotencyKey = some key ∧ e.Quiet (.checkout i) ∧ ∃ o, Recorded e.committed key o
  | .rollbackReplay prev =>
    e.Quiet (.checkout i) ∧
      ∃ key o, p.idempotencyKey = some key ∧ Recorded e.committed key o ∧
        prev = some (o.id, o.totalAmount)
  | .scanStock => Claimed e i p ∧ e.log (.checkout i) = p.claimLog
  | .lockStock productId =>
    Claimed e i p ∧ e.log (.checkout i) = p.claimLog ∧ rt.int8in p.productId = some productId
  | .rollbackFailure _ => True
  | .scanBalance unitPrice =>
    ∃ x, Reserved rt e i p x ∧ e.log (.checkout i) = p.claimLog ++ (x.rows rt p).take 1 ∧
      unitPrice = x.unitPrice rt
  | .lockBalance unitPrice buyerId =>
    ∃ x, Reserved rt e i p x ∧ e.log (.checkout i) = p.claimLog ++ (x.rows rt p).take 1 ∧
      unitPrice = x.unitPrice rt ∧ rt.int8in p.buyerId = some buyerId
  | .selectEmail unitPrice buyerId =>
    ∃ x, Charged rt e i p x ∧ e.log (.checkout i) = p.claimLog ++ (x.rows rt p).take 2 ∧
      unitPrice = x.unitPrice rt ∧ buyerId = x.buyerId
  | .insertOrder unitPrice buyerId customerEmail =>
    ∃ x, Charged rt e i p x ∧ e.log (.checkout i) = p.claimLog ++ (x.rows rt p).take 2 ∧
      unitPrice = x.unitPrice rt ∧ buyerId = x.buyerId ∧ customerEmail = x.user.email
  | .insertItem unitPrice orderId =>
    ∃ x, Charged rt e i p x ∧ (x.order rt p).Check ∧
      e.log (.checkout i) = p.claimLog ++ (x.rows rt p).take 3 ∧
      unitPrice = x.unitPrice rt ∧ orderId = x.orderId
  | .insertJob unitPrice orderId =>
    ∃ x, Ordered rt e i p x ∧ e.log (.checkout i) = p.claimLog ++ (x.rows rt p).take 4 ∧
      unitPrice = x.unitPrice rt ∧ orderId = x.orderId
  | .setKeyOrder unitPrice orderId =>
    ∃ x, Ordered rt e i p x ∧ e.log (.checkout i) = p.claimLog ++ x.rows rt p ∧
      unitPrice = x.unitPrice rt ∧ orderId = x.orderId
  | .insertOutbox unitPrice orderId =>
    ∃ x, Ordered rt e i p x ∧
      e.log (.checkout i) = p.claimLog ++ x.rows rt p ++ p.recordLog x.orderId ∧
      unitPrice = x.unitPrice rt ∧ orderId = x.orderId
  | .afterOutboxInsert unitPrice orderId | .commit unitPrice orderId =>
    ∃ x, Announced rt e i p x ∧ e.log (.checkout i) = x.changes rt p ∧
      unitPrice = x.unitPrice rt ∧ orderId = x.orderId

end Held

/-! ## Stability -/

section Stable

variable {e e' : Engine Database Change Lock Client} {i : ℕ} {p : CheckoutParams} {x : Sale}

/-- A locked key is as it was. -/
theorem Engine.Keeps.key (h : e.Keeps e' (.checkout i)) {key : String}
    (hl : e.holder (.key key) = some (.checkout i)) :
    e'.committed.idempotencyKeys key = e.committed.idempotencyKeys key :=
  h.row _ hl

/-- A locked product is as it was. -/
theorem Engine.Keeps.product (h : e.Keeps e' (.checkout i)) {id : ℤ}
    (hl : e.holder (.product id) = some (.checkout i)) :
    e'.committed.products id = e.committed.products id :=
  h.row _ hl

/-- A locked user is as it was. -/
theorem Engine.Keeps.user (h : e.Keeps e' (.checkout i)) {id : ℤ}
    (hl : e.holder (.user id) = some (.checkout i)) :
    e'.committed.users id = e.committed.users id :=
  h.row _ hl

/-- A locked outbox row is as it was. -/
theorem Engine.Keeps.outbox (h : e.Keeps e' (.checkout i)) {id : ℕ}
    (hl : e.holder (.outbox id) = some (.checkout i)) :
    Table.lookup OutboxRow.id id e'.committed.outbox
      = Table.lookup OutboxRow.id id e.committed.outbox :=
  h.row _ hl

theorem Claimed.stable (h : Claimed e i p) (hk : e.Keeps e' (.checkout i)) :
    Claimed e' i p := by
  intro key hkey
  obtain ⟨hheld, hnone⟩ := h key hkey
  exact ⟨hk.held _ hheld, (hk.key hheld).trans hnone⟩

theorem Claimed.unrecorded (h : Claimed e i p) : p.Unrecorded e.committed :=
  fun key hkey => (h key hkey).2

theorem Reserved.stable (h : Reserved rt e i p x) (hk : e.Keeps e' (.checkout i)) :
    Reserved rt e' i p x :=
  { h with
    claimed := h.claimed.stable hk
    heldProduct := hk.held _ h.heldProduct
    product := (hk.product h.heldProduct).trans h.product }

theorem Charged.stable (h : Charged rt e i p x) (hk : e.Keeps e' (.checkout i)) :
    Charged rt e' i p x :=
  { h with
    toReserved := h.toReserved.stable hk
    heldUser := hk.held _ h.heldUser
    user := (hk.user h.heldUser).trans h.user }

theorem Ordered.stable (h : Ordered rt e i p x) (hk : e.Keeps e' (.checkout i)) :
    Ordered rt e' i p x :=
  { h with toCharged := h.toCharged.stable hk }

theorem Announced.stable (h : Announced rt e i p x) (hk : e.Keeps e' (.checkout i)) :
    Announced rt e' i p x :=
  { toOrdered := h.toOrdered.stable hk
    heldOutbox := hk.held _ h.heldOutbox
    newOutbox := (hk.outbox h.heldOutbox).trans h.newOutbox }

theorem Reserved.matchStock (h : Reserved rt e i p x) :
    matchStock e.committed x.productId p.quantity = some x.product := by
  rw [Marketplace.matchStock, h.product, Option.filter_some, if_pos (decide_eq_true h.enough)]

/-- The sale of a call that has charged the buyer, with other ids. -/
theorem Charged.redraw (h : Charged rt e i p x) (orderId : OrderId) (jobId : ℕ) (draw : Draw) :
    Charged rt e i p { x with orderId, jobId, draw } where
  claimed := h.claimed
  productId := h.productId
  heldProduct := h.heldProduct
  product := h.product
  enough := h.enough
  soldProduct := h.soldProduct
  buyerId := h.buyerId
  heldUser := h.heldUser
  user := h.user
  afford := h.afford
  chargedUser := h.chargedUser

/-- The sale of a call that has written order and item, with other ids. -/
theorem Ordered.redraw (h : Ordered rt e i p x) (jobId : ℕ) (draw : Draw) :
    Ordered rt e i p { x with jobId, draw } :=
  ⟨h.toCharged.redraw x.orderId jobId draw, h.order, h.item⟩

/-- **What a call knows stays true while others take their steps.** -/
theorem PcInv.stable {pc : Pc} (h : PcInv rt e i p pc) (hu : e.Undisturbed e' (.checkout i))
    (hext : e.committed.Extends e'.committed) : PcInv rt e' i p pc := by
  cases pc with
  | claimKey key => exact ⟨h.1, hu.quiet h.2⟩
  | selectReplay key =>
    obtain ⟨hkey, hq, o, ho⟩ := h
    exact ⟨hkey, hu.quiet hq, o, ho.extends hext⟩
  | rollbackReplay prev =>
    obtain ⟨hq, key, o, hkey, ho, hprev⟩ := h
    exact ⟨hu.quiet hq, key, o, hkey, ho.extends hext, hprev⟩
  | scanStock => exact ⟨h.1.stable hu.keeps, hu.log.trans h.2⟩
  | lockStock productId => exact ⟨h.1.stable hu.keeps, hu.log.trans h.2.1, h.2.2⟩
  | rollbackFailure reason => trivial
  | scanBalance unitPrice =>
    obtain ⟨x, hx, hlog, hrest⟩ := h
    exact ⟨x, hx.stable hu.keeps, hu.log.trans hlog, hrest⟩
  | lockBalance unitPrice buyerId =>
    obtain ⟨x, hx, hlog, hrest⟩ := h
    exact ⟨x, hx.stable hu.keeps, hu.log.trans hlog, hrest⟩
  | selectEmail unitPrice buyerId =>
    obtain ⟨x, hx, hlog, hrest⟩ := h
    exact ⟨x, hx.stable hu.keeps, hu.log.trans hlog, hrest⟩
  | insertOrder unitPrice buyerId customerEmail =>
    obtain ⟨x, hx, hlog, hrest⟩ := h
    exact ⟨x, hx.stable hu.keeps, hu.log.trans hlog, hrest⟩
  | insertItem unitPrice orderId =>
    obtain ⟨x, hx, horder, hlog, hrest⟩ := h
    exact ⟨x, hx.stable hu.keeps, horder, hu.log.trans hlog, hrest⟩
  | insertJob unitPrice orderId =>
    obtain ⟨x, hx, hlog, hrest⟩ := h
    exact ⟨x, hx.stable hu.keeps, hu.log.trans hlog, hrest⟩
  | setKeyOrder unitPrice orderId =>
    obtain ⟨x, hx, hlog, hrest⟩ := h
    exact ⟨x, hx.stable hu.keeps, hu.log.trans hlog, hrest⟩
  | insertOutbox unitPrice orderId =>
    obtain ⟨x, hx, hlog, hrest⟩ := h
    exact ⟨x, hx.stable hu.keeps, hu.log.trans hlog, hrest⟩
  | afterOutboxInsert unitPrice orderId =>
    obtain ⟨x, hx, hlog, hrest⟩ := h
    exact ⟨x, hx.stable hu.keeps, hu.log.trans hlog, hrest⟩
  | commit unitPrice orderId =>
    obtain ⟨x, hx, hlog, hrest⟩ := h
    exact ⟨x, hx.stable hu.keeps, hu.log.trans hlog, hrest⟩

end Stable

/-! ## Order ids -/

/-- The order id drawn, at the program counters that carry it. -/
def Pc.orderId : Pc → Option OrderId
  | .insertItem _ orderId | .insertJob _ orderId | .setKeyOrder _ orderId
  | .insertOutbox _ orderId | .afterOutboxInsert _ orderId | .commit _ orderId => some orderId
  | _ => none

/-- The order id a running call has drawn. -/
def Status.orderId : Status → Option OrderId
  | .running pc => pc.orderId
  | .done _ => none

/-- The order id call `i` has drawn and not committed. -/
def Shop.pending (s : Shop) (i : ℕ) : Option OrderId := (s.calls i).bind (·.status.orderId)

/-- Order ids come from a sequence: none is used twice. -/
structure Shop.Ids (s : Shop) : Prop where
  sequence : ∀ o ∈ s.db.committed.orders, o.id < s.nextOrder
  pending : ∀ i orderId, s.pending i = some orderId → orderId < s.nextOrder
  fresh : ∀ i orderId, s.pending i = some orderId →
    ∀ o ∈ s.db.committed.orders, o.id ≠ orderId
  distinct : ∀ i j orderId, s.pending i = some orderId → s.pending j = some orderId → i = j

namespace Shop

section Ids

variable {s s' : Shop} {i : ℕ} {p : CheckoutParams} {status : Status}

theorem pending_self (hcalls : s'.calls = Function.update s.calls i (some ⟨p, status⟩)) :
    s'.pending i = status.orderId := by
  rw [pending, hcalls, Function.update_self]
  rfl

theorem pending_ne (hcalls : s'.calls = Function.update s.calls i (some ⟨p, status⟩)) {j : ℕ}
    (hne : j ≠ i) : s'.pending j = s.pending j := by
  rw [pending, hcalls, Function.update_of_ne hne]
  rfl

/-- A step that draws no order id and commits no order. -/
theorem Ids.keep (h : s.Ids)
    (hcalls : s'.calls = Function.update s.calls i (some ⟨p, status⟩))
    (horders : s'.db.committed.orders = s.db.committed.orders)
    (hnext : s.nextOrder ≤ s'.nextOrder)
    (hkeep : ∀ orderId, status.orderId = some orderId → s.pending i = some orderId) :
    s'.Ids := by
  have hpending : ∀ j orderId, s'.pending j = some orderId → s.pending j = some orderId := by
    intro j orderId hj
    by_cases hji : j = i
    · subst hji
      rw [pending_self hcalls] at hj
      exact hkeep orderId hj
    · rwa [pending_ne hcalls hji] at hj
  refine ⟨?_, ?_, ?_, ?_⟩
  · rw [horders]
    exact fun o ho => (h.sequence o ho).trans_le hnext
  · exact fun j orderId hj => (h.pending j orderId (hpending j orderId hj)).trans_le hnext
  · rw [horders]
    exact fun j orderId hj => h.fresh j orderId (hpending j orderId hj)
  · exact fun j k orderId hj hk =>
      h.distinct j k orderId (hpending j orderId hj) (hpending k orderId hk)

/-- A step that draws an order id. -/
theorem Ids.draw (h : s.Ids)
    (hcalls : s'.calls = Function.update s.calls i (some ⟨p, status⟩))
    (horders : s'.db.committed.orders = s.db.committed.orders)
    (hnext : s'.nextOrder = s.nextOrder + 1) (hdraw : status.orderId = some s.nextOrder) :
    s'.Ids := by
  have hself : s'.pending i = some s.nextOrder := (pending_self hcalls).trans hdraw
  have hother : ∀ j orderId, j ≠ i → s'.pending j = some orderId →
      s.pending j = some orderId := by
    intro j orderId hji hj
    rwa [pending_ne hcalls hji] at hj
  refine ⟨?_, ?_, ?_, ?_⟩
  · rw [horders, hnext]
    exact fun o ho => Nat.lt_succ_of_lt (h.sequence o ho)
  · intro j orderId hj
    rw [hnext]
    by_cases hji : j = i
    · subst hji
      obtain rfl := Option.some.inj (hself.symm.trans hj)
      -- the id just drawn is the last one of the sequence
      exact Nat.lt_succ_self _
    · exact Nat.lt_succ_of_lt (h.pending j orderId (hother j orderId hji hj))
  · rw [horders]
    intro j orderId hj
    by_cases hji : j = i
    · subst hji
      obtain rfl := Option.some.inj (hself.symm.trans hj)
      exact fun o ho => (h.sequence o ho).ne
    · exact h.fresh j orderId (hother j orderId hji hj)
  · -- the id drawn last is above all others
    have habove : ∀ j, j ≠ i → s'.pending j ≠ some s.nextOrder := by
      intro j hji hj
      exact lt_irrefl _ (h.pending j _ (hother j _ hji hj))
    intro j k orderId hj hk
    by_cases hji : j = i
    · subst hji
      obtain rfl := Option.some.inj (hself.symm.trans hj)
      by_contra hne
      exact habove k (fun h => hne h.symm) hk
    · by_cases hki : k = i
      · subst hki
        obtain rfl := Option.some.inj (hself.symm.trans hk)
        exact absurd hj (habove j hji)
      · exact h.distinct j k orderId (hother j orderId hji hj) (hother k orderId hki hk)

/-- A step that commits the order with the id drawn. -/
theorem Ids.commit (h : s.Ids)
    (hcalls : s'.calls = Function.update s.calls i (some ⟨p, status⟩)) {o : Order}
    (horders : s'.db.committed.orders = s.db.committed.orders ++ [o])
    (hnext : s'.nextOrder = s.nextOrder) (hpending : s.pending i = some o.id)
    (hnone : status.orderId = none) : s'.Ids := by
  have hself : s'.pending i = none := (pending_self hcalls).trans hnone
  have hother : ∀ j orderId, s'.pending j = some orderId →
      j ≠ i ∧ s.pending j = some orderId := by
    intro j orderId hj
    by_cases hji : j = i
    · subst hji
      rw [hself] at hj
      cases hj
    · rw [pending_ne hcalls hji] at hj
      exact ⟨hji, hj⟩
  refine ⟨?_, ?_, ?_, ?_⟩
  · rw [horders, hnext]
    intro r hr
    rcases List.mem_append.mp hr with hr | hr
    · exact h.sequence r hr
    · obtain rfl := List.mem_singleton.mp hr
      exact h.pending i _ hpending
  · rw [hnext]
    exact fun j orderId hj => h.pending j orderId (hother j orderId hj).2
  · rw [horders]
    intro j orderId hj r hr
    obtain ⟨hji, hj⟩ := hother j orderId hj
    rcases List.mem_append.mp hr with hr | hr
    · exact h.fresh j orderId hj r hr
    · obtain rfl := List.mem_singleton.mp hr
      rintro rfl
      -- the id that is committed now was pending at call `i` only
      exact hji (h.distinct j i _ hj hpending)
  · intro j k orderId hj hk
    exact h.distinct j k orderId (hother j orderId hj).2 (hother k orderId hk).2

end Ids

end Shop

/-! ## Decisions -/

/-- The answer a call is bound to give. It is decided by the statement that
finds the row missing or the order recorded, or by COMMIT; what is left to do
is to roll back and return. -/
def Status.decision (rt : Runtime) : Status → Option CheckoutResult
  | .running (.rollbackFailure reason) => some (.failure reason)
  | .running (.rollbackReplay (some (orderId, total))) =>
    some (.success orderId (rt.arith.number (amount total)) true)
  | .done (.returned r) | .done (.lost r) => some r
  | _ => none

/-- How one step moves a call on, and what it does to the committed database:
nothing, unless it decides the answer. -/
inductive Moves (rt : Runtime) (p : CheckoutParams) (db : Database) :
    Pc → Status → Database → Prop
  | keeps {pc : Pc} {st : Status} (h : st.decision rt = (Status.running pc).decision rt) :
    Moves rt p db pc st db
  | stops {pc : Pc} {st : Status} (h : st = .done .thrown ∨ st = .done .crashed) :
    Moves rt p db pc st db
  | decides {pc : Pc} {st : Status} {r : CheckoutResult} {db' : Database}
    (hnone : (Status.running pc).decision rt = none) (hsome : st.decision rt = some r)
    (hd : Decided rt p db r db') : Moves rt p db pc st db'

/-! ## The invariant -/

/-- A call that is not running has nothing open. -/
def CallInv (rt : Runtime) (e : Engine Database Change Lock Client) (i : ℕ) :
    Option Call → Prop
  | some ⟨p, .running pc⟩ => PcInv rt e i p pc
  | _ => e.Quiet (.checkout i)

/-- What concurrent checkouts keep. -/
structure Shop.Inv (rt : Runtime) (s : Shop) : Prop where
  locked : s.db.WellLocked
  wellFormed : s.db.committed.WellFormed
  call : ∀ i, CallInv rt s.db i (s.calls i)
  ids : s.Ids

theorem CallInv.stable {e e' : Engine Database Change Lock Client} {i : ℕ} {c : Option Call}
    (h : CallInv rt e i c) (hu : e.Undisturbed e' (.checkout i))
    (hext : e.committed.Extends e'.committed) : CallInv rt e' i c := by
  rcases c with _ | ⟨p, pc | o⟩
  · exact hu.quiet h
  · exact PcInv.stable h hu hext
  · exact hu.quiet h

/-- A shop before the first call keeps it. -/
theorem Shop.Start.inv {s : Shop} (h : s.Start) : s.Inv rt where
  locked := by
    rw [h.idle]
    exact Engine.wellLocked_idle _
  wellFormed := h.wellFormed
  call := by
    intro i
    rw [h.calls i, h.idle]
    exact Engine.quiet_idle _ _
  ids := by
    have hpending : ∀ i orderId, s.pending i ≠ some orderId := by
      intro i orderId hi
      rw [Shop.pending, h.calls i] at hi
      cases hi
    exact ⟨h.sequence, fun i o hi => absurd hi (hpending i o),
      fun i o hi => absurd hi (hpending i o), fun i _ o hi => absurd hi (hpending i o)⟩

namespace Shop

variable {s s' : Shop} {i : ℕ} {p : CheckoutParams}

theorem Inv.running (h : s.Inv rt) {pc : Pc} (hc : s.calls i = some ⟨p, .running pc⟩) :
    PcInv rt s.db i p pc := by
  have := h.call i
  rwa [hc] at this

/-- A step of call `i` keeps the invariant if it keeps it for call `i` and does
not disturb the others. -/
theorem Inv.next (h : s.Inv rt) {status : Status}
    (hcalls : s'.calls = Function.update s.calls i (some ⟨p, status⟩))
    (hlocked : s'.db.WellLocked) (hwf : s'.db.committed.WellFormed)
    (hext : s.db.committed.Extends s'.db.committed)
    (hothers : ∀ t, t ≠ .checkout i → Engine.Undisturbed s.db s'.db t)
    (hself : CallInv rt s'.db i (some ⟨p, status⟩)) (hids : s'.Ids) : s'.Inv rt where
  locked := hlocked
  wellFormed := hwf
  call := by
    rw [hcalls]
    refine (Function.forall_update_iff s.calls fun j c => CallInv rt s'.db j c).mpr
      ⟨hself, fun j hji => ?_⟩
    exact (h.call j).stable (hothers _ fun hj => hji (Client.checkout.inj hj)) hext
  ids := hids

/-- A shop does not notice a transaction of another program that leaves its tables
alone. -/
theorem Inv.other (h : s.Inv rt) (hcalls : s'.calls = s.calls)
    (hnext : s'.nextOrder = s.nextOrder) (hlocked : s'.db.WellLocked)
    (hothers : ∀ i, Engine.Undisturbed s.db s'.db (.checkout i))
    (hwf : s'.db.committed.WellFormed) (hext : s.db.committed.Extends s'.db.committed)
    (horders : s'.db.committed.orders = s.db.committed.orders) : s'.Inv rt where
  locked := hlocked
  wellFormed := hwf
  call := by
    intro i
    rw [hcalls]
    exact (h.call i).stable (hothers i) hext
  ids := by
    have hpending : ∀ i, s'.pending i = s.pending i := by
      intro i
      rw [pending, pending, hcalls]
    refine ⟨?_, ?_, ?_, ?_⟩
    · rw [horders, hnext]
      exact h.ids.sequence
    · intro i orderId hi
      rw [hpending] at hi
      rw [hnext]
      exact h.ids.pending i orderId hi
    · intro i orderId hi
      rw [hpending] at hi
      rw [horders]
      exact h.ids.fresh i orderId hi
    · intro i j orderId hi hj
      rw [hpending] at hi hj
      exact h.ids.distinct i j orderId hi hj

/-- What one step of a running call does: it keeps the invariant, leaves the other
transactions alone and moves the call on. -/
structure Took (rt : Runtime) (s s' : Shop) (i : ℕ) (p : CheckoutParams) (pc : Pc) : Prop where
  inv : s'.Inv rt
  others : ∀ t, t ≠ .checkout i → Engine.Undisturbed s.db s'.db t
  moves : ∃ st, s'.calls = Function.update s.calls i (some ⟨p, st⟩) ∧
    Moves rt p s.db.committed pc st s'.db.committed

variable {pc pc' : Pc}

/-- Going on without touching the database. -/
theorem Inv.goto (h : s.Inv rt) (hpc : PcInv rt s.db i p pc')
    (hid : ∀ orderId, pc'.orderId = some orderId → s.pending i = some orderId)
    (hm : Moves rt p s.db.committed pc (.running pc') s.db.committed) :
    Took rt s (s.goto i p pc') i p pc where
  inv := h.next rfl h.locked h.wellFormed (.refl _) (fun _ _ => .refl _ _) hpc
    (h.ids.keep rfl rfl le_rfl hid)
  others := fun _ _ => .refl _ _
  moves := ⟨_, rfl, hm⟩

/-- Ending with ROLLBACK. -/
theorem Inv.ended (h : s.Inv rt) {o : Outcome} (hdb : s'.db = s.db.abort (.checkout i))
    (hcalls : s'.calls = Function.update s.calls i (some ⟨p, .done o⟩)) (hids : s'.Ids)
    (hm : Moves rt p s.db.committed pc (.done o) s.db.committed) : Took rt s s' i p pc := by
  have hothers : ∀ t, t ≠ .checkout i → Engine.Undisturbed s.db s'.db t :=
    fun _ hne => hdb ▸ Engine.undisturbed_abort _ hne
  refine ⟨h.next hcalls ?_ ?_ ?_ hothers ?_ hids, hothers, _, hcalls, by rw [hdb]; exact hm⟩
  · exact hdb ▸ h.locked.abort _
  · exact hdb ▸ h.wellFormed
  · exact hdb ▸ .refl _
  · exact hdb ▸ Engine.quiet_abort _ _

/-- Ending with ROLLBACK, the sequences unchanged. -/
theorem Inv.finish (h : s.Inv rt) {o : Outcome}
    (hm : Moves rt p s.db.committed pc (.done o) s.db.committed) :
    Took rt s (s.finish i p o) i p pc :=
  h.ended rfl rfl (h.ids.keep rfl rfl le_rfl fun _ ho => by cases ho) hm

/-- Ending with an exception. -/
theorem Inv.throw (h : s.Inv rt) : Took rt s (s.finish i p .thrown) i p pc :=
  h.finish (.stops (.inl rfl))

/-- Writing a row that is locked, or needs no lock. -/
theorem Inv.wrote (h : s.Inv rt) {c : Change} (hdb : s'.db = s.db.write (.checkout i) c)
    (hcalls : s'.calls = Function.update s.calls i (some ⟨p, .running pc'⟩))
    (hheld : ∀ l, c.Touches l → s.db.holder l = some (.checkout i))
    (hpc : PcInv rt (s.db.write (.checkout i) c) i p pc') (hids : s'.Ids)
    (hm : Moves rt p s.db.committed pc (.running pc') s.db.committed) :
    Took rt s s' i p pc := by
  have hothers : ∀ t, t ≠ .checkout i → Engine.Undisturbed s.db s'.db t :=
    fun _ hne => hdb ▸ Engine.undisturbed_write _ c hne
  refine ⟨h.next hcalls ?_ ?_ ?_ hothers ?_ hids, hothers, _, hcalls, by rw [hdb]; exact hm⟩
  · exact hdb ▸ h.locked.write hheld
  · exact hdb ▸ h.wellFormed
  · exact hdb ▸ .refl _
  · exact hdb ▸ hpc

/-- Writing a row and drawing no id. -/
theorem Inv.write (h : s.Inv rt) {c : Change}
    (hheld : ∀ l, c.Touches l → s.db.holder l = some (.checkout i))
    (hpc : PcInv rt (s.db.write (.checkout i) c) i p pc')
    (hid : ∀ orderId, pc'.orderId = some orderId → s.pending i = some orderId)
    (hm : Moves rt p s.db.committed pc (.running pc') s.db.committed) :
    Took rt s ((s.write i c).goto i p pc') i p pc :=
  h.wrote rfl rfl hheld hpc (h.ids.keep rfl rfl le_rfl hid) hm

/-- Locking a row and writing it. -/
theorem Inv.lockWrite (h : s.Inv rt) {l : Lock} {c : Change}
    (hfree : s.free i l = true) (htouches : ∀ l', c.Touches l' → l' = l)
    (hpc : PcInv rt ((s.db.acquire (.checkout i) l).write (.checkout i) c) i p pc')
    (hid : ∀ orderId, pc'.orderId = some orderId → s.pending i = some orderId)
    (hm : Moves rt p s.db.committed pc (.running pc') s.db.committed) :
    Took rt s (((s.lock i l).write i c).goto i p pc') i p pc := by
  have hheld : ∀ l', c.Touches l' →
      (s.db.acquire (.checkout i) l).holder l' = some (.checkout i) := by
    intro l' hl'
    -- the row that is written is the one just locked
    rw [htouches l' hl']
    exact Engine.acquire_holder_self ..
  have hothers : ∀ t, t ≠ .checkout i →
      Engine.Undisturbed s.db ((s.db.acquire (.checkout i) l).write (.checkout i) c) t :=
    fun _ hne => (Engine.undisturbed_acquire hfree hne).trans (Engine.undisturbed_write _ c hne)
  exact ⟨h.next rfl ((h.locked.acquire hfree).write hheld) h.wellFormed (.refl _) hothers hpc
    (h.ids.keep rfl rfl le_rfl hid), hothers, _, rfl, hm⟩

end Shop

end Marketplace
