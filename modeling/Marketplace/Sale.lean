import Marketplace.Checkout

/-!
# A sale: what a successful checkout does at once

The abstract side of `checkout`. A `Sale` is everything one successful call
writes, computed from the rows it met; `Sale.Valid` says that the sale can be
made in a database, `Sale.apply` makes it, in one step. The statements of the
call are the same sale piece by piece (`Sale.changes`), and redoing the pieces
in order is the one step (`Sale.redo_changes`).
-/

namespace Marketplace

/-- The rows a successful call meets and the values it draws. -/
structure Sale where
  productId : ℤ
  product : Product
  buyerId : ℤ
  user : User
  orderId : OrderId
  jobId : ℕ
  draw : Draw

namespace Sale

variable (rt : Runtime) (p : CheckoutParams) (x : Sale)

/-- `const unitPrice = Number(stockRows[0].price)` -/
def unitPrice : ℚ := rt.arith.number (amount x.product.price)

/-- `totalAmount`, as the statements receive it. -/
def total : ℚ := rt.total p (x.unitPrice rt)

/-- The new row of `products`. -/
def soldProduct : Product := x.product.sell p.quantity

/-- The new row of `users`. -/
def chargedUser : User := x.user.charge (x.total rt p)

/-- The new row of `orders`. -/
def order : Order := rt.orderRow p (x.unitPrice rt) x.buyerId x.user.email x.orderId

/-- The new row of `order_items`. -/
def item : OrderItem := rt.itemRow p (x.unitPrice rt) x.productId x.orderId

/-- The new row of `job_queue`. -/
def job : Job := Runtime.jobRow x.jobId x.orderId

/-- The new row of `outbox`. -/
def outboxRow : OutboxRow := rt.outboxRow p (x.unitPrice rt) x.orderId x.draw

@[simp] theorem order_id : (x.order rt p).id = x.orderId := rfl

@[simp] theorem item_orderId : (x.item rt p).orderId = x.orderId := rfl

@[simp] theorem job_orderId : x.job.orderId = x.orderId := rfl

@[simp] theorem outboxRow_id : (x.outboxRow rt p).id = x.draw.uuid := rfl

@[simp] theorem outboxRow_aggregateId : (x.outboxRow rt p).aggregateId = x.orderId := rfl

/-- The answer to the caller. -/
def answer : CheckoutResult :=
  .success x.orderId (rt.totalAmount p (x.unitPrice rt)) false

/-- The sale can be made in `db`: the rows are those of `db`, they suffice, what
is written passes the constraints, and the new ids and the key are new. -/
structure Valid (db : Database) : Prop where
  productId : rt.int8in p.productId = some x.productId
  product : db.products x.productId = some x.product
  enough : p.quantity ≤ x.product.stock
  soldProduct : (x.soldProduct p).Check
  buyerId : rt.int8in p.buyerId = some x.buyerId
  user : db.users x.buyerId = some x.user
  afford : x.total rt p ≤ amount x.user.balance
  chargedUser : (x.chargedUser rt p).Check
  order : (x.order rt p).Check
  item : (x.item rt p).Check
  key : ∀ key, p.idempotencyKey = some key → db.idempotencyKeys key = none
  newOrder : ∀ o ∈ db.orders, o.id ≠ x.orderId
  newOutbox : ∀ r ∈ db.outbox, r.id ≠ x.draw.uuid

/-- Record the order under the key, if the caller gave one. -/
def keysAfter (db : Database) : String → Option (Option OrderId) :=
  match p.idempotencyKey with
  | some key => Function.update db.idempotencyKeys key (some (some x.orderId))
  | none => db.idempotencyKeys

/-- Make the sale. -/
def apply (db : Database) : Database :=
  { db with
    products := Function.update db.products x.productId (some (x.soldProduct p))
    users := Function.update db.users x.buyerId (some (x.chargedUser rt p))
    orders := db.orders ++ [x.order rt p]
    orderItems := db.orderItems ++ [x.item rt p]
    jobQueue := db.jobQueue ++ [x.job]
    outbox := db.outbox ++ [x.outboxRow rt p]
    idempotencyKeys := x.keysAfter p db }

/-! ## The sale in pieces -/

end Sale

/-- What the call writes to claim its key. -/
def CheckoutParams.claimLog (p : CheckoutParams) : List Change :=
  match p.idempotencyKey with
  | some key => [.insertKey key]
  | none => []

/-- What the call writes to record its order under the key. -/
def CheckoutParams.recordLog (p : CheckoutParams) (orderId : OrderId) : List Change :=
  match p.idempotencyKey with
  | some key => [.setKeyOrder key orderId]
  | none => []

namespace Sale

variable (rt : Runtime) (p : CheckoutParams) (x : Sale)

/-- The rows written between claiming the key and recording the order. -/
def rows : List Change :=
  [.setStock x.productId (x.soldProduct p).stock,
    .setBalance x.buyerId (x.chargedUser rt p).balance,
    .insertOrder (x.order rt p), .insertItem (x.item rt p), .insertJob x.job]

/-- Everything the call writes, in order. -/
def changes : List Change :=
  p.claimLog ++ x.rows rt p ++ p.recordLog x.orderId ++ [.insertOutbox (x.outboxRow rt p)]

variable {rt p x}

/-- **The pieces make the sale.** -/
theorem redo_changes {db : Database} (h : x.Valid rt p db) :
    (x.changes rt p).foldl Database.redo db = x.apply rt p db := by
  have hproduct := h.product
  have huser := h.user
  rcases hk : p.idempotencyKey with _ | key
  · simp only [changes, rows, CheckoutParams.claimLog, CheckoutParams.recordLog, hk, apply,
      keysAfter, List.nil_append, List.append_nil, List.cons_append, List.foldl_cons,
      List.foldl_nil, Database.redo, hproduct, huser, Option.map_some]
    rfl
  · simp only [changes, rows, CheckoutParams.claimLog, CheckoutParams.recordLog, hk, apply,
      keysAfter, List.nil_append, List.cons_append, List.foldl_cons, List.foldl_nil,
      Database.redo, hproduct, huser, Option.map_some, Function.update_idem]
    rfl

/-- A sale keeps the schema's promises. -/
theorem Valid.wellFormed {db : Database} (h : x.Valid rt p db) (hdb : db.WellFormed) :
    (x.apply rt p db).WellFormed where
  products := by
    intro id r hr
    rcases Slots.found_cases_some hr with ⟨-, rfl⟩ | ⟨-, hold⟩
    · exact h.soldProduct
    · exact hdb.products id r hold
  users := by
    intro id r hr
    rcases Slots.found_cases_some hr with ⟨-, rfl⟩ | ⟨-, hold⟩
    · exact h.chargedUser
    · exact hdb.users id r hold
  keys := by
    intro key v hv
    have hold : db.idempotencyKeys key = some v →
        ∃ o ∈ (x.apply rt p db).orders, v = some o.id := by
      intro hv
      obtain ⟨o, ho, hvo⟩ := hdb.keys key v hv
      exact ⟨o, List.mem_append_left _ ho, hvo⟩
    -- a key gets its order in the same transaction
    rcases hk : p.idempotencyKey with _ | key'
    · simp only [apply, keysAfter, hk] at hv
      exact hold hv
    · simp only [apply, keysAfter, hk] at hv
      rcases Slots.found_cases_some hv with ⟨-, rfl⟩ | ⟨-, hv⟩
      · exact ⟨x.order rt p, List.mem_append_right _ (List.mem_singleton_self _), rfl⟩
      · exact hold hv
  orders := by
    rw [apply, List.map_append, List.map_singleton]
    refine List.Nodup.append hdb.orders (List.nodup_singleton _) ?_
    rw [List.disjoint_singleton]
    intro hmem
    obtain ⟨o, ho, hid⟩ := List.mem_map.mp hmem
    exact h.newOrder o ho hid
  items := hdb.items.append rfl
  outbox := by
    rw [apply, List.map_append, List.map_singleton]
    refine List.Nodup.append hdb.outbox (List.nodup_singleton _) ?_
    rw [List.disjoint_singleton]
    intro hmem
    obtain ⟨r, hr, hid⟩ := List.mem_map.mp hmem
    exact h.newOutbox r hr hid

end Sale

/-! ## What commits never take back -/

/-- `db'` has every recorded key and every order of `db`. -/
structure Database.Extends (db db' : Database) : Prop where
  keys : ∀ key orderId, db.idempotencyKeys key = some (some orderId) →
    db'.idempotencyKeys key = some (some orderId)
  orders : ∀ o ∈ db.orders, o ∈ db'.orders

theorem Database.Extends.refl (db : Database) : db.Extends db :=
  ⟨fun _ _ h => h, fun _ h => h⟩

theorem Database.Extends.trans {a b c : Database} (h₁ : a.Extends b) (h₂ : b.Extends c) :
    a.Extends c :=
  ⟨fun key o h => h₂.keys key o (h₁.keys key o h), fun o h => h₂.orders o (h₁.orders o h)⟩

/-- A sale takes nothing back. -/
theorem Sale.Valid.extends {rt : Runtime} {p : CheckoutParams} {x : Sale} {db : Database}
    (h : x.Valid rt p db) : db.Extends (x.apply rt p db) where
  keys := by
    intro key orderId hkey
    rcases hk : p.idempotencyKey with _ | key'
    · simp only [Sale.apply, Sale.keysAfter, hk]
      exact hkey
    · have hne : key ≠ key' := by
        rintro rfl
        rw [h.key key hk] at hkey
        cases hkey
      simp only [Sale.apply, Sale.keysAfter, hk]
      rw [Function.update_of_ne hne]
      exact hkey
  orders := fun _ ho => List.mem_append_left _ ho

/-! ## A checkout at once -/

/-- The order recorded under the key is committed. -/
def Recorded (db : Database) (key : String) (o : Order) : Prop :=
  o ∈ db.orders ∧ db.idempotencyKeys key = some (some o.id)

theorem Recorded.extends {db db' : Database} {key : String} {o : Order}
    (h : Recorded db key o) (hext : db.Extends db') : Recorded db' key o :=
  ⟨hext.orders o h.1, hext.keys key o.id h.2⟩

/-- No order is recorded under the key of the call. -/
def CheckoutParams.Unrecorded (p : CheckoutParams) (db : Database) : Prop :=
  ∀ key, p.idempotencyKey = some key → db.idempotencyKeys key = none

/-- What a call may answer in `db`, and what it makes of `db`, if it is carried
out at one instant. -/
inductive Decided (rt : Runtime) (p : CheckoutParams) (db : Database) :
    CheckoutResult → Database → Prop
  | replay {key : String} {o : Order} (hkey : p.idempotencyKey = some key)
    (ho : Recorded db key o) :
    Decided rt p db (.success o.id (rt.arith.number (amount o.totalAmount)) true) db
  | outOfStock {productId : ℤ} (hnew : p.Unrecorded db)
    (hproduct : rt.int8in p.productId = some productId)
    (hnone : matchStock db productId p.quantity = none) :
    Decided rt p db (.failure .outOfStock) db
  | insufficientFunds {productId buyerId : ℤ} {r : Product} (hnew : p.Unrecorded db)
    (hproduct : rt.int8in p.productId = some productId)
    (hsome : matchStock db productId p.quantity = some r)
    (hbuyer : rt.int8in p.buyerId = some buyerId)
    (hnone : matchBalance db buyerId (rt.total p (rt.arith.number (amount r.price))) = none) :
    Decided rt p db (.failure .insufficientFunds) db
  | sale {x : Sale} (hx : x.Valid rt p db) : Decided rt p db (x.answer rt p) (x.apply rt p db)

end Marketplace
