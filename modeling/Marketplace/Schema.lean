import Marketplace.Events
import Marketplace.Money
import Marketplace.ReadCommitted
import Marketplace.Table

/-!
# The schema: tables, changes and locks

The tables of the migrations that orders pass through, from the checkout to the
receipt. A table addressed by its primary key alone is a function, a table that
is scanned is a list in insertion order; amounts are in cents.

A `Change` is one row written by one statement. A `Lock` is what such a
statement can wait for: a row, or an entry of a unique index. Rows that are
inserted under an identity that nobody else draws (`orders`, `order_items`,
`job_queue`) need no lock for it; a job is locked by the worker that takes it.
-/

namespace Marketplace

/-! ## Rows -/

/-- A row of `products`. -/
structure Product where
  price : ℤ
  stock : ℤ
  deriving DecidableEq

/-- A row of `users`. -/
structure User where
  email : String
  balance : ℤ
  deriving DecidableEq

/-- `CHECK status IN (…)` of `orders`. -/
inductive OrderStatus where
  | pending
  | paid
  | shipped
  | cancelled
  | refunded
  deriving DecidableEq

/-- A row of `orders`. -/
structure Order where
  id : OrderId
  buyerId : ℤ
  customerEmail : String
  status : OrderStatus
  totalAmount : ℤ
  deriving DecidableEq

/-- A row of `order_items`. -/
structure OrderItem where
  orderId : OrderId
  productId : ℤ
  quantity : ℤ
  unitPrice : ℤ
  deriving DecidableEq

/-- `CHECK status IN ('new', 'done')` of `job_queue`. -/
inductive JobStatus where
  | new
  | done
  deriving DecidableEq

/-- A row of `job_queue`. -/
structure Job where
  id : ℕ
  orderId : OrderId
  kind : String
  status : JobStatus
  worker : Option String
  processed : ℕ
  deriving DecidableEq

/-- A row of `outbox`. -/
structure OutboxRow where
  id : ℕ
  aggregateType : String
  aggregateId : OrderId
  type : String
  payload : OrderPlacedEvent
  createdAt : ℕ
  publishedAt : Option ℕ
  attempts : ℕ
  deriving DecidableEq

/-- A row of `order_receipts`. -/
structure OrderReceipt where
  eventId : String
  orderId : OrderId
  buyerId : String
  totalAmount : ℤ
  deriving DecidableEq

/-! ## Constraints -/

/-- The range of an `integer` column. -/
def FitsInt4 (n : ℤ) : Prop := -2 ^ 31 ≤ n ∧ n < 2 ^ 31

instance (n : ℤ) : Decidable (FitsInt4 n) :=
  inferInstanceAs (Decidable (-2 ^ 31 ≤ n ∧ n < 2 ^ 31))

/-- `CHECK (price >= 0)`, `CHECK (stock >= 0)` and the column types. -/
def Product.Check (r : Product) : Prop := 0 ≤ r.price ∧ 0 ≤ r.stock ∧ FitsInt4 r.stock

instance (r : Product) : Decidable r.Check :=
  inferInstanceAs (Decidable (0 ≤ r.price ∧ 0 ≤ r.stock ∧ FitsInt4 r.stock))

/-- `CHECK (balance >= 0)` and the column type. -/
def User.Check (r : User) : Prop := 0 ≤ r.balance ∧ FitsNumeric r.balance

instance (r : User) : Decidable r.Check :=
  inferInstanceAs (Decidable (0 ≤ r.balance ∧ FitsNumeric r.balance))

/-- `CHECK (total_amount >= 0)` and the column type. -/
def Order.Check (r : Order) : Prop := 0 ≤ r.totalAmount ∧ FitsNumeric r.totalAmount

instance (r : Order) : Decidable r.Check :=
  inferInstanceAs (Decidable (0 ≤ r.totalAmount ∧ FitsNumeric r.totalAmount))

/-- `CHECK (quantity > 0)`, `CHECK (unit_price >= 0)` and the column type. -/
def OrderItem.Check (r : OrderItem) : Prop :=
  0 < r.quantity ∧ 0 ≤ r.unitPrice ∧ FitsNumeric r.unitPrice

instance (r : OrderItem) : Decidable r.Check :=
  inferInstanceAs (Decidable (0 < r.quantity ∧ 0 ≤ r.unitPrice ∧ FitsNumeric r.unitPrice))

/-! ## The database -/

/-- One version of all tables. -/
structure Database where
  products : ℤ → Option Product
  users : ℤ → Option User
  orders : List Order
  orderItems : List OrderItem
  jobQueue : List Job
  outbox : List OutboxRow
  /-- `idempotency_keys`: the key and its `order_id`, which may be NULL -/
  idempotencyKeys : String → Option (Option OrderId)
  /-- `processed_messages`: `(message_id, consumer)` -/
  processedMessages : List (String × String)
  orderReceipts : List OrderReceipt

/-- One row written. -/
inductive Change where
  | insertKey (key : String)
  | setKeyOrder (key : String) (orderId : OrderId)
  | setStock (productId : ℤ) (stock : ℤ)
  | setBalance (userId : ℤ) (balance : ℤ)
  | insertOrder (row : Order)
  | insertItem (row : OrderItem)
  | insertJob (row : Job)
  | insertOutbox (row : OutboxRow)
  /-- `published_at = now(), attempts = attempts + 1` -/
  | setPublished (id : ℕ) (now : ℕ)
  /-- `attempts = attempts + 1` -/
  | addAttempt (id : ℕ)
  | insertProcessed (messageId consumer : String)
  | insertReceipt (row : OrderReceipt)
  | deleteProcessed (messageId consumer : String)
  /-- `status = 'done', worker = $1, processed = processed + 1` -/
  | setJobDone (id : ℕ) (worker : String)
  deriving DecidableEq

/-- What a statement can wait for. -/
inductive Lock where
  | key (key : String)
  | product (id : ℤ)
  | user (id : ℤ)
  | outbox (id : ℕ)
  | processed (messageId consumer : String)
  | receiptEvent (eventId : String)
  | receiptOrder (orderId : OrderId)
  | job (id : ℕ)
  deriving DecidableEq

namespace Database

/-- Rewrite the outbox row with the given id. -/
def mapOutbox (db : Database) (id : ℕ) (f : OutboxRow → OutboxRow) : Database :=
  { db with outbox := Table.modify OutboxRow.id id f db.outbox }

/-- Carry a change out. -/
def redo (db : Database) : Change → Database
  | .insertKey key =>
    { db with idempotencyKeys := Function.update db.idempotencyKeys key (some none) }
  | .setKeyOrder key orderId =>
    { db with idempotencyKeys := Function.update db.idempotencyKeys key (some (some orderId)) }
  | .setStock productId stock =>
    { db with
      products := Function.update db.products productId
        ((db.products productId).map fun r => { r with stock := stock }) }
  | .setBalance userId balance =>
    { db with
      users := Function.update db.users userId
        ((db.users userId).map fun r => { r with balance := balance }) }
  | .insertOrder row => { db with orders := db.orders ++ [row] }
  | .insertItem row => { db with orderItems := db.orderItems ++ [row] }
  | .insertJob row => { db with jobQueue := db.jobQueue ++ [row] }
  | .insertOutbox row => { db with outbox := db.outbox ++ [row] }
  | .setPublished id now =>
    db.mapOutbox id fun r => { r with publishedAt := some now, attempts := r.attempts + 1 }
  | .addAttempt id => db.mapOutbox id fun r => { r with attempts := r.attempts + 1 }
  | .insertProcessed messageId consumer =>
    { db with processedMessages := db.processedMessages ++ [(messageId, consumer)] }
  | .insertReceipt row => { db with orderReceipts := db.orderReceipts ++ [row] }
  | .deleteProcessed messageId consumer =>
    { db with processedMessages := Table.remove id (messageId, consumer) db.processedMessages }
  | .setJobDone id worker =>
    { db with
      jobQueue := Table.modify Job.id id
        (fun r => { r with
          status := .done
          worker := some worker
          processed := r.processed + 1 })
        db.jobQueue }

/-- The contents of the row a lock guards. -/
def Row : Lock → Type
  | .key _ => Option (Option OrderId)
  | .product _ => Option Product
  | .user _ => Option User
  | .outbox _ => Option OutboxRow
  | .processed _ _ => Bool
  | .receiptEvent _ => Option OrderReceipt
  | .receiptOrder _ => Option OrderReceipt
  | .job _ => Bool

/-- Whether the inbox has seen a message. -/
instance (m : String × String) (l : List (String × String)) : Decidable (m ∈ l) :=
  List.instDecidableMemOfLawfulBEq m l

/-- Read the row a lock guards. -/
def row (db : Database) : (l : Lock) → Row l
  | .key key => db.idempotencyKeys key
  | .product id => db.products id
  | .user id => db.users id
  | .outbox id => Table.lookup OutboxRow.id id db.outbox
  | .processed messageId consumer => decide ((messageId, consumer) ∈ db.processedMessages)
  | .receiptEvent eventId => Table.lookup OrderReceipt.eventId eventId db.orderReceipts
  | .receiptOrder orderId => Table.lookup OrderReceipt.orderId orderId db.orderReceipts
  -- a job is new until it is done; that it comes into being disturbs nobody
  | .job id => decide (∃ r ∈ db.jobQueue, r.id = id ∧ r.status = .done)

end Database

/-- The rows a change writes. -/
def Change.Touches : Change → Lock → Prop
  | .insertKey key, l => l = .key key
  | .setKeyOrder key _, l => l = .key key
  | .setStock productId _, l => l = .product productId
  | .setBalance userId _, l => l = .user userId
  | .insertOutbox row, l => l = .outbox row.id
  | .setPublished id _, l => l = .outbox id
  | .addAttempt id, l => l = .outbox id
  | .insertProcessed messageId consumer, l => l = .processed messageId consumer
  | .insertReceipt row, l => l = .receiptEvent row.eventId ∨ l = .receiptOrder row.orderId
  | .deleteProcessed messageId consumer, l => l = .processed messageId consumer
  | .insertJob row, l => row.status = .done ∧ l = .job row.id
  | .setJobDone id _, l => l = .job id
  | _, _ => False

/-! ## Rows that belong to orders -/

/-- Every row has an owner among the orders. -/
def Owned {α : Type} (owner : α → OrderId) (orders : List Order) (rows : List α) : Prop :=
  ∀ r ∈ rows, ∃ o ∈ orders, o.id = owner r

/-- A row placed together with its order. -/
theorem Owned.append {α : Type} {owner : α → OrderId} {orders : List Order} {rows : List α}
    (h : Owned owner orders rows) {o : Order} {a : α} (ha : o.id = owner a) :
    Owned owner (orders ++ [o]) (rows ++ [a]) := by
  intro r hr
  rcases List.mem_append.mp hr with hr | hr
  · obtain ⟨o', ho', hid⟩ := h r hr
    exact ⟨o', List.mem_append_left _ ho', hid⟩
  · obtain rfl := List.mem_singleton.mp hr
    exact ⟨o, List.mem_append_right _ (List.mem_singleton_self _), ha⟩

/-- No row belongs to an order that is new. -/
theorem Owned.ne {α : Type} {owner : α → OrderId} {orders : List Order} {rows : List α}
    (h : Owned owner orders rows) {id : OrderId} (hnew : ∀ o ∈ orders, o.id ≠ id) :
    ∀ r ∈ rows, owner r ≠ id := by
  intro r hr
  obtain ⟨o, ho, hid⟩ := h r hr
  rw [← hid]
  exact hnew o ho

/-! ## The database as something to redo changes on -/

/-- A change leaves the rows alone that it does not touch. -/
theorem Database.row_redo (db : Database) (c : Change) (l : Lock) (h : ¬ c.Touches l) :
    (db.redo c).row l = db.row l := by
  cases c with
  | insertKey key =>
    cases l with
    | key k => exact Function.update_of_ne (fun hk => h (by rw [hk]; rfl)) ..
    | _ => rfl
  | setKeyOrder key orderId =>
    cases l with
    | key k => exact Function.update_of_ne (fun hk => h (by rw [hk]; rfl)) ..
    | _ => rfl
  | setStock productId stock =>
    cases l with
    | product id => exact Function.update_of_ne (fun hk => h (by rw [hk]; rfl)) ..
    | _ => rfl
  | setBalance userId balance =>
    cases l with
    | user id => exact Function.update_of_ne (fun hk => h (by rw [hk]; rfl)) ..
    | _ => rfl
  | insertOrder row => cases l <;> rfl
  | insertItem row => cases l <;> rfl
  | insertJob row =>
    cases l with
    | job id =>
      have hiff : (∃ r ∈ db.jobQueue ++ [row], r.id = id ∧ r.status = .done)
          ↔ ∃ r ∈ db.jobQueue, r.id = id ∧ r.status = .done := by
        constructor
        · rintro ⟨r, hr, hid, hdone⟩
          rcases List.mem_append.mp hr with hr | hr
          · exact ⟨r, hr, hid, hdone⟩
          · obtain rfl := List.mem_singleton.mp hr
            exact absurd ⟨hdone, by rw [hid]⟩ h
        · rintro ⟨r, hr, hrest⟩
          exact ⟨r, List.mem_append_left _ hr, hrest⟩
      exact decide_eq_decide.mpr hiff
    | _ => rfl
  | insertOutbox row =>
    cases l with
    | outbox id => exact Table.lookup_append_ne fun hk => h (by rw [← hk]; rfl)
    | _ => rfl
  | setPublished id now =>
    cases l with
    | outbox id' =>
      exact Table.lookup_modify_ne (fun _ => rfl) fun hk => h (by rw [hk]; rfl)
    | _ => rfl
  | addAttempt id =>
    cases l with
    | outbox id' =>
      exact Table.lookup_modify_ne (fun _ => rfl) fun hk => h (by rw [hk]; rfl)
    | _ => rfl
  | insertProcessed messageId consumer =>
    cases l with
    | processed m c =>
      have hne : ¬ (m, c) = (messageId, consumer) := by
        rintro ⟨⟩
        exact h rfl
      have hiff : (m, c) ∈ db.processedMessages ++ [(messageId, consumer)]
          ↔ (m, c) ∈ db.processedMessages := by
        rw [List.mem_append, List.mem_singleton]
        exact or_iff_left hne
      exact decide_eq_decide.mpr hiff
    | _ => rfl
  | insertReceipt row =>
    cases l with
    | receiptEvent e =>
      exact Table.lookup_append_ne fun hk => h (.inl (by rw [← hk]))
    | receiptOrder o =>
      exact Table.lookup_append_ne fun hk => h (.inr (by rw [← hk]))
    | _ => rfl
  | deleteProcessed messageId consumer =>
    cases l with
    | processed m c =>
      have hne : (m, c) ≠ (messageId, consumer) := by
        rintro ⟨⟩
        exact h rfl
      have hiff : (m, c) ∈ Table.remove id (messageId, consumer) db.processedMessages
          ↔ (m, c) ∈ db.processedMessages := by
        rw [Table.remove, List.mem_filter]
        exact and_iff_left (decide_eq_true hne)
      exact decide_eq_decide.mpr hiff
    | _ => rfl
  | setJobDone id worker =>
    cases l with
    | job id' =>
      have hne : id' ≠ id := fun hk => h (by rw [hk]; rfl)
      have hiff : (∃ r ∈ (db.redo (.setJobDone id worker)).jobQueue, r.id = id' ∧ r.status = .done)
          ↔ ∃ r ∈ db.jobQueue, r.id = id' ∧ r.status = .done := by
        constructor
        · rintro ⟨r, hr, hid, hdone⟩
          obtain ⟨r', hr', rfl⟩ := Table.mem_modify.mp hr
          split_ifs at hid hdone with hk
          · exact absurd (hid.symm.trans hk) hne
          · exact ⟨r', hr', hid, hdone⟩
        · rintro ⟨r, hr, hid, hdone⟩
          refine ⟨r, Table.mem_modify.mpr ⟨r, hr, ?_⟩, hid, hdone⟩
          rw [if_neg fun hk => hne (hid.symm.trans hk)]
      exact decide_eq_decide.mpr hiff
    | _ => rfl

instance : Redo Database Change Lock where
  redo := Database.redo
  Row := Database.Row
  row := Database.row
  Touches := Change.Touches
  row_redo := Database.row_redo

end Marketplace
