import Marketplace.Run
import Marketplace.Schema

/-!
# `checkout`, statement by statement

`checkout.ts` as a machine: one program counter (`Pc`) for each point at which
the function waits for Postgres, carrying the local variables alive there, and
one step (`Shop.exec`) that runs the pending statement and the JavaScript up to
the next one. A `Shop` is the database, the sequences, and any number of calls;
its events let the calls take their steps in any order, fail, crash, or lose the
answer to their COMMIT.

An `UPDATE … WHERE id = … AND x >= …` is two points. It *scans* on the snapshot
of its start and gives up at once when the row does not match there; then it
*locks* the row, waiting for whoever holds it, and checks the condition again on
the newest version.

A statement that breaks a constraint, cannot read a parameter or loses its
connection throws (a foreign key is never broken: it points to a row that the
same transaction has locked or inserted); so may the hook and the COMMIT. Every such throw ends in
the `catch` block: ROLLBACK, and the error goes to the caller.
-/

namespace Marketplace

/-! ## What surrounds the code -/

/-- What `checkout` uses and does not define. -/
structure Runtime where
  /-- Postgres reading a parameter for a `bigint` column -/
  int8in : String → Option ℤ
  /-- `Date.prototype.toISOString` -/
  toISOString : ℤ → String
  /-- SHA-1 -/
  sha1 : String → Vector UInt8 20
  /-- arithmetic on JavaScript numbers -/
  arith : Arith

/-- What one statement draws from clocks and random sources. -/
structure Draw where
  /-- `gen_random_uuid()` -/
  uuid : ℕ
  /-- `new Date()` -/
  placedAt : ℤ
  /-- `now()` -/
  createdAt : ℕ

/-- Who opens transactions on the database. -/
inductive Client where
  | checkout (i : ℕ)
  | relay (i : ℕ)
  | consumer (i : ℕ)
  | worker (i : ℕ)
  /-- whoever prunes the inbox -/
  | pruner
  deriving DecidableEq

/-! ## Parameters and results -/

/-- `CheckoutParams` -/
structure CheckoutParams where
  buyerId : String
  productId : String
  quantity : ℤ
  idempotencyKey : Option String
  deriving DecidableEq

/-- `CheckoutFailureReason` -/
inductive CheckoutFailureReason where
  | outOfStock
  | insufficientFunds
  deriving DecidableEq

/-- `CheckoutResult`; a `failure` is `ok: false`. -/
inductive CheckoutResult where
  | success (orderId : OrderId) (totalAmount : ℚ) (replayed : Bool)
  | failure (reason : CheckoutFailureReason)
  deriving DecidableEq

/-- How a call ends. -/
inductive Outcome where
  /-- the promise resolved -/
  | returned (r : CheckoutResult)
  /-- the promise was rejected, after the `catch` block -/
  | thrown
  /-- the process died before COMMIT -/
  | crashed
  /-- COMMIT took effect, but the answer `r` never reached the caller -/
  | lost (r : CheckoutResult)
  deriving DecidableEq

/-- Where a call waits for Postgres, with its local variables. -/
inductive Pc where
  /-- `INSERT INTO idempotency_keys … ON CONFLICT (key) DO NOTHING` -/
  | claimKey (key : String)
  /-- `SELECT o.id, o.total_amount FROM idempotency_keys k JOIN orders o …` -/
  | selectReplay (key : String)
  /-- `rollbackTransaction()` of a replay; `prev[0]`, if there is one -/
  | rollbackReplay (prev : Option (OrderId × ℤ))
  /-- `UPDATE products …`, its snapshot -/
  | scanStock
  /-- `UPDATE products …`, its row -/
  | lockStock (productId : ℤ)
  /-- `rollbackTransaction()` before `ok: false` -/
  | rollbackFailure (reason : CheckoutFailureReason)
  /-- `UPDATE users …`, its snapshot -/
  | scanBalance (unitPrice : ℚ)
  /-- `UPDATE users …`, its row -/
  | lockBalance (unitPrice : ℚ) (buyerId : ℤ)
  /-- `SELECT email FROM users …` -/
  | selectEmail (unitPrice : ℚ) (buyerId : ℤ)
  /-- `INSERT INTO orders …` -/
  | insertOrder (unitPrice : ℚ) (buyerId : ℤ) (customerEmail : String)
  /-- `INSERT INTO order_items …` -/
  | insertItem (unitPrice : ℚ) (orderId : OrderId)
  /-- `INSERT INTO job_queue …` -/
  | insertJob (unitPrice : ℚ) (orderId : OrderId)
  /-- `UPDATE idempotency_keys SET order_id = …`, with a key only -/
  | setKeyOrder (unitPrice : ℚ) (orderId : OrderId)
  /-- `INSERT INTO outbox …` -/
  | insertOutbox (unitPrice : ℚ) (orderId : OrderId)
  /-- `await hooks.afterOutboxInsert?.()` -/
  | afterOutboxInsert (unitPrice : ℚ) (orderId : OrderId)
  /-- `commitTransaction()` -/
  | commit (unitPrice : ℚ) (orderId : OrderId)
  deriving DecidableEq

/-- A call is running or has ended. -/
inductive Status where
  | running (pc : Pc)
  | done (outcome : Outcome)
  deriving DecidableEq

/-- A call of `checkout`. -/
structure Call where
  params : CheckoutParams
  status : Status
  deriving DecidableEq

/-! ## What the statements match and write -/

/-- `WHERE id = $2 AND stock >= $1` -/
def matchStock (db : Database) (productId quantity : ℤ) : Option Product :=
  (db.products productId).filter fun r => quantity ≤ r.stock

/-- `WHERE id = $2 AND balance >= $1` -/
def matchBalance (db : Database) (buyerId : ℤ) (total : ℚ) : Option User :=
  (db.users buyerId).filter fun r => total ≤ amount r.balance

/-- `SELECT o.id, o.total_amount … WHERE k.key = $1` -/
def matchReplay (db : Database) (key : String) : Option (OrderId × ℤ) :=
  match db.idempotencyKeys key with
  | some (some orderId) =>
    (Table.lookup Order.id orderId db.orders).map fun o => (o.id, o.totalAmount)
  | _ => none

/-- `stock - $1` -/
def Product.sell (r : Product) (quantity : ℤ) : Product := { r with stock := r.stock - quantity }

/-- `balance - $1`, as the column stores it -/
def User.charge (r : User) (total : ℚ) : User :=
  { r with balance := roundCents (amount r.balance - total) }

namespace Runtime

variable (rt : Runtime)

/-- `const totalAmount = unitPrice * quantity` -/
def totalAmount (p : CheckoutParams) (unitPrice : ℚ) : ℚ := rt.arith.mul unitPrice p.quantity

/-- `totalAmount` as a statement parameter -/
def total (p : CheckoutParams) (unitPrice : ℚ) : ℚ := rt.arith.text (rt.totalAmount p unitPrice)

/-- The row of `INSERT INTO orders`. -/
def orderRow (p : CheckoutParams) (unitPrice : ℚ) (buyerId : ℤ) (customerEmail : String)
    (orderId : OrderId) : Order :=
  { id := orderId, buyerId, customerEmail, status := .paid
    totalAmount := roundCents (rt.total p unitPrice) }

/-- The row of `INSERT INTO order_items`. -/
def itemRow (p : CheckoutParams) (unitPrice : ℚ) (productId : ℤ) (orderId : OrderId) :
    OrderItem :=
  { orderId, productId, quantity := p.quantity
    unitPrice := roundCents (rt.arith.text unitPrice) }

/-- The row of `INSERT INTO job_queue`. -/
def jobRow (jobId : ℕ) (orderId : OrderId) : Job :=
  { id := jobId, orderId, kind := "post_processing", status := .new, worker := none
    processed := 0 }

/-- The row of `INSERT INTO outbox`. -/
def outboxRow (p : CheckoutParams) (unitPrice : ℚ) (orderId : OrderId) (d : Draw) : OutboxRow :=
  { id := d.uuid, aggregateType := "Order", aggregateId := orderId, type := orderPlaced
    payload := toOrderPlacedEvent rt.sha1 orderId p.buyerId p.productId p.quantity
      (rt.totalAmount p unitPrice) (rt.toISOString d.placedAt)
    createdAt := d.createdAt, publishedAt := none, attempts := 0 }

end Runtime

/-! ## The shop -/

/-- The database, the sequences of the identity columns, and the calls. -/
structure Shop where
  db : Engine Database Change Lock Client
  /-- next value of `orders.id` -/
  nextOrder : OrderId
  /-- next value of `job_queue.id` -/
  nextJob : ℕ
  calls : ℕ → Option Call

namespace Shop

/-- What the next statement of call `i` reads. -/
def view (s : Shop) (i : ℕ) : Database := s.db.view (.checkout i)

/-- Nobody else holds `l`. -/
def free (s : Shop) (i : ℕ) (l : Lock) : Bool := s.db.free (.checkout i) l

/-- Call `i` locks `l`. -/
def lock (s : Shop) (i : ℕ) (l : Lock) : Shop := { s with db := s.db.acquire (.checkout i) l }

/-- Call `i` writes a row. -/
def write (s : Shop) (i : ℕ) (c : Change) : Shop := { s with db := s.db.write (.checkout i) c }

/-- The transaction of call `i` commits. -/
def commit (s : Shop) (i : ℕ) : Shop := { s with db := s.db.commit (.checkout i) }

/-- Call `i` is now in the given status. -/
def setStatus (s : Shop) (i : ℕ) (p : CheckoutParams) (status : Status) : Shop :=
  { s with calls := Function.update s.calls i (some ⟨p, status⟩) }

/-- Call `i` goes on to `pc`. -/
def goto (s : Shop) (i : ℕ) (p : CheckoutParams) (pc : Pc) : Shop :=
  s.setStatus i p (.running pc)

/-- Call `i` ends; whatever its transaction has open is rolled back. -/
def finish (s : Shop) (i : ℕ) (p : CheckoutParams) (o : Outcome) : Shop :=
  ({ s with db := s.db.abort (.checkout i) } : Shop).setStatus i p (.done o)

/-- Run the pending statement of call `i`, and the code up to the next one. -/
def exec (rt : Runtime) (s : Shop) (i : ℕ) (p : CheckoutParams) (d : Draw) : Pc → Option Shop
  | .claimKey key =>
    if s.free i (.key key) then
      match (s.view i).idempotencyKeys key with
      | some _ => some (s.goto i p (.selectReplay key))
      | none => some (((s.lock i (.key key)).write i (.insertKey key)).goto i p .scanStock)
    else none
  | .selectReplay key => some (s.goto i p (.rollbackReplay (matchReplay (s.view i) key)))
  | .rollbackReplay (some (orderId, total)) =>
    some (s.finish i p (.returned (.success orderId (rt.arith.number (amount total)) true)))
  | .rollbackReplay none =>
    -- `prev[0]!.id` of `undefined` is a TypeError
    some (s.finish i p .thrown)
  | .scanStock =>
    match rt.int8in p.productId with
    | none => some (s.finish i p .thrown)
    | some productId =>
      if FitsInt4 p.quantity then
        match matchStock (s.view i) productId p.quantity with
        | none => some (s.goto i p (.rollbackFailure .outOfStock))
        | some _ => some (s.goto i p (.lockStock productId))
      else some (s.finish i p .thrown)
  | .lockStock productId =>
    if s.free i (.product productId) then
      match matchStock (s.view i) productId p.quantity with
      | none => some (s.goto i p (.rollbackFailure .outOfStock))
      | some r =>
        if (r.sell p.quantity).Check then
          some (((s.lock i (.product productId)).write i
            (.setStock productId (r.sell p.quantity).stock)).goto i p
              (.scanBalance (rt.arith.number (amount r.price))))
        else some (s.finish i p .thrown)
    else none
  | .rollbackFailure reason => some (s.finish i p (.returned (.failure reason)))
  | .scanBalance unitPrice =>
    match rt.int8in p.buyerId with
    | none => some (s.finish i p .thrown)
    | some buyerId =>
      match matchBalance (s.view i) buyerId (rt.total p unitPrice) with
      | none => some (s.goto i p (.rollbackFailure .insufficientFunds))
      | some _ => some (s.goto i p (.lockBalance unitPrice buyerId))
  | .lockBalance unitPrice buyerId =>
    if s.free i (.user buyerId) then
      match matchBalance (s.view i) buyerId (rt.total p unitPrice) with
      | none => some (s.goto i p (.rollbackFailure .insufficientFunds))
      | some r =>
        if (r.charge (rt.total p unitPrice)).Check then
          some (((s.lock i (.user buyerId)).write i
            (.setBalance buyerId (r.charge (rt.total p unitPrice)).balance)).goto i p
              (.selectEmail unitPrice buyerId))
        else some (s.finish i p .thrown)
    else none
  | .selectEmail unitPrice buyerId =>
    let customerEmail := (((s.view i).users buyerId).map User.email).getD ""
    some (s.goto i p (.insertOrder unitPrice buyerId customerEmail))
  | .insertOrder unitPrice buyerId customerEmail =>
    let row := rt.orderRow p unitPrice buyerId customerEmail s.nextOrder
    -- the sequence moves on even if the row is refused
    let s := { s with nextOrder := s.nextOrder + 1 }
    if row.Check then some ((s.write i (.insertOrder row)).goto i p (.insertItem unitPrice row.id))
    else some (s.finish i p .thrown)
  | .insertItem unitPrice orderId =>
    match rt.int8in p.productId with
    | none => some (s.finish i p .thrown)
    | some productId =>
      let row := rt.itemRow p unitPrice productId orderId
      if row.Check then some ((s.write i (.insertItem row)).goto i p (.insertJob unitPrice orderId))
      else some (s.finish i p .thrown)
  | .insertJob unitPrice orderId =>
    let row := Runtime.jobRow s.nextJob orderId
    let s := { s with nextJob := s.nextJob + 1 }
    match p.idempotencyKey with
    | some _ => some ((s.write i (.insertJob row)).goto i p (.setKeyOrder unitPrice orderId))
    | none => some ((s.write i (.insertJob row)).goto i p (.insertOutbox unitPrice orderId))
  | .setKeyOrder unitPrice orderId =>
    match p.idempotencyKey with
    | none => none
    | some key =>
      some ((s.write i (.setKeyOrder key orderId)).goto i p (.insertOutbox unitPrice orderId))
  | .insertOutbox unitPrice orderId =>
    let row := rt.outboxRow p unitPrice orderId d
    -- `gen_random_uuid()` draws an id that nobody has
    if s.free i (.outbox row.id) && decide (∀ r ∈ s.db.committed.outbox, r.id ≠ row.id) then
      some (((s.lock i (.outbox row.id)).write i (.insertOutbox row)).goto i p
        (.afterOutboxInsert unitPrice orderId))
    else none
  | .afterOutboxInsert unitPrice orderId => some (s.goto i p (.commit unitPrice orderId))
  | .commit unitPrice orderId =>
    some ((s.commit i).setStatus i p
      (.done (.returned (.success orderId (rt.totalAmount p unitPrice) false))))

end Shop

/-- The first statement of a call. -/
def CheckoutParams.entry (p : CheckoutParams) : Pc :=
  match p.idempotencyKey with
  | some key => .claimKey key
  | none => .scanStock

/-- What can happen in a shop. -/
inductive CheckoutEvent where
  /-- somebody calls `checkout` -/
  | call (i : ℕ) (p : CheckoutParams)
  /-- the pending statement of call `i` runs -/
  | exec (i : ℕ) (d : Draw)
  /-- the pending statement, hook or COMMIT of call `i` throws, without effect -/
  | fail (i : ℕ)
  /-- the process of call `i` dies -/
  | crash (i : ℕ)
  /-- the COMMIT of call `i` takes effect and its answer is lost -/
  | loseAnswer (i : ℕ)

/-- The call an event belongs to. -/
def CheckoutEvent.id : CheckoutEvent → ℕ
  | .call i _ | .exec i _ | .fail i | .crash i | .loseAnswer i => i

/-- One event in a shop. -/
def Shop.step (rt : Runtime) (s : Shop) : CheckoutEvent → Option Shop
  | .call i p =>
    match s.calls i with
    | none => some (s.goto i p p.entry)
    | some _ => none
  | .exec i d =>
    match s.calls i with
    | some ⟨p, .running pc⟩ => s.exec rt i p d pc
    | _ => none
  | .fail i =>
    match s.calls i with
    | some ⟨p, .running _⟩ => some (s.finish i p .thrown)
    | _ => none
  | .crash i =>
    match s.calls i with
    | some ⟨p, .running _⟩ => some (s.finish i p .crashed)
    | _ => none
  | .loseAnswer i =>
    match s.calls i with
    | some ⟨p, .running (.commit unitPrice orderId)⟩ =>
      some ((s.commit i).setStatus i p
        (.done (.lost (.success orderId (rt.totalAmount p unitPrice) false))))
    | _ => none

/-- A database as the migrations and earlier commits leave it: the rows pass
their constraints, a key and an item point to an order, ids are distinct. -/
structure Database.WellFormed (db : Database) : Prop where
  products : ∀ id r, db.products id = some r → r.Check
  users : ∀ id r, db.users id = some r → r.Check
  keys : ∀ key v, db.idempotencyKeys key = some v → ∃ o ∈ db.orders, v = some o.id
  orders : (db.orders.map Order.id).Nodup
  items : Owned OrderItem.orderId db.orders db.orderItems
  outbox : (db.outbox.map OutboxRow.id).Nodup

/-- A shop before the first call. -/
structure Shop.Start (s : Shop) : Prop where
  idle : s.db = Engine.idle s.db.committed
  wellFormed : s.db.committed.WellFormed
  sequence : ∀ o ∈ s.db.committed.orders, o.id < s.nextOrder
  calls : ∀ i, s.calls i = none

/-- Concurrent checkouts. -/
def checkouts (rt : Runtime) : System Shop CheckoutEvent := ⟨Shop.Start, Shop.step rt⟩

/-! ## A small shop

A shop that fits in the head: one product, two buyers. It shows that the
hypotheses of the theorems can be met and that their conclusions say something. -/

/-- The parameters `1` and `2`, the instant 0 and the digests of the first two
orders, read as Postgres and Node.js read them. -/
def demoRuntime (A : Arith) : Runtime where
  int8in := fun s => [("1", 1), ("2", 2)].lookup s
  toISOString := fun _ => "1970-01-01T00:00:00.000Z"
  sha1 := fun s =>
    if s = "order.placed:1" then
      #v[40, 231, 104, 12, 126, 198, 52, 40, 105, 73, 6, 172, 149, 2, 252, 146, 180, 162, 157, 22]
    else
      #v[57, 175, 39, 177, 84, 2, 163, 187, 251, 177, 24, 193, 132, 111, 207, 65, 85, 228, 110, 166]
  arith := A

/-- One product at 10.50 and two buyers with 50.00 each. -/
def demoShop : Shop where
  db := Engine.idle
    { products := fun id => if id = 1 then some ⟨1050, 3⟩ else none
      users := fun id => if id = 1 ∨ id = 2 then some ⟨"buyer@example.com", 5000⟩ else none
      orders := []
      orderItems := []
      jobQueue := []
      outbox := []
      idempotencyKeys := fun _ => none
      processedMessages := []
      orderReceipts := [] }
  nextOrder := 1
  nextJob := 1
  calls := fun _ => none

theorem demoShop_start : demoShop.Start where
  idle := rfl
  wellFormed :=
    { products := by
        intro id r hr
        simp only [demoShop, Engine.idle_committed] at hr
        split_ifs at hr
        obtain rfl := Option.some.inj hr
        decide
      users := by
        intro id r hr
        simp only [demoShop, Engine.idle_committed] at hr
        split_ifs at hr
        obtain rfl := Option.some.inj hr
        decide
      keys := fun _ _ hv => by cases hv
      orders := List.nodup_nil
      items := fun _ hit => absurd hit List.not_mem_nil
      outbox := List.nodup_nil }
  sequence := fun _ ho => absurd ho List.not_mem_nil
  calls := fun _ => rfl

/-- A call that takes `n` steps on its own, its outbox row getting the id `uuid`. -/
def demoCall (i : ℕ) (p : CheckoutParams) (uuid n : ℕ) : List CheckoutEvent :=
  .call i p :: List.replicate n (.exec i ⟨uuid, 0, 0⟩)

end Marketplace
