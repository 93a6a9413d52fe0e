import Marketplace.CheckoutRun
import Marketplace.LockOrder

/-!
# Every lock of a checkout

`checkout.ts` takes its locks in the order `idempotency_keys`, `products`, `users`,
`orders`, `outbox`, the same in every call. Here a call takes them one at a time, the
ones that no statement mentions included:

* an `UPDATE` locks its row, an `INSERT` the entry that it makes in a unique index, and
  the row of the order itself is locked from the moment it is written;
* a row that was written sends its transaction to the rows that its foreign keys point
  to: `orders` to the buyer, `order_items` to the order and the product, `job_queue` and
  the second write of `idempotency_keys` to the order.

A statement is started, takes its locks, is carried out, and takes the locks of its
foreign keys; all locks are held until COMMIT or ROLLBACK. What it does when it is
carried out is `Shop.exec`.
-/

namespace Marketplace

/-! ## Modes, rows, ranks -/

/-- The modes of the row locks that checkouts take. -/
inductive LockMode where
  /-- `FOR KEY SHARE`: a foreign key points to the row -/
  | keyShare
  /-- `FOR NO KEY UPDATE`: an `UPDATE` that leaves the keys alone -/
  | noKeyUpdate
  /-- the row is inserted and not committed -/
  | insert
  deriving DecidableEq

/-- Which modes exclude each other. A row that is not committed yet is out of bounds for
everybody else. -/
def LockMode.conflicts : LockMode → LockMode → Bool
  | .keyShare, .keyShare | .keyShare, .noKeyUpdate | .noKeyUpdate, .keyShare => false
  | _, _ => true

/-- What a checkout locks: what its statements can wait for, and its order. -/
inductive LockedRow where
  | guarded (l : Lock)
  | order (id : OrderId)
  deriving DecidableEq

/-- A lock that a checkout takes. -/
abbrev RowLock := LockRequest LockedRow LockMode

/-- The order of the tables. -/
def LockedRow.rank : LockedRow → ℕ
  | .guarded (.key _) => 0
  | .guarded (.product _) => 1
  | .guarded (.user _) => 2
  | .order _ => 3
  | .guarded (.outbox _) => 4
  | .guarded _ => 5

/-- A unique index has the entry. -/
def Database.entered (db : Database) : LockedRow → Bool
  | .guarded (.key key) => (db.idempotencyKeys key).isSome
  | .guarded (.outbox id) => (Table.lookup OutboxRow.id id db.outbox).isSome
  | _ => false

/-! ## The locks of a statement -/

/-- The locks a statement takes before it is carried out. -/
def Pc.locks (p : CheckoutParams) (d : Draw) : Pc → List RowLock
  | .claimKey key => [⟨.guarded (.key key), .insert⟩]
  | .lockStock productId => [⟨.guarded (.product productId), .noKeyUpdate⟩]
  | .lockBalance _ buyerId => [⟨.guarded (.user buyerId), .noKeyUpdate⟩]
  | .setKeyOrder _ _ =>
    match p.idempotencyKey with
    | some key => [⟨.guarded (.key key), .noKeyUpdate⟩]
    | none => []
  | .insertOutbox _ _ => [⟨.guarded (.outbox d.uuid), .insert⟩]
  | _ => []

/-- The row that a statement inserts under an identity that nobody else draws. -/
def Pc.inserts (s : Shop) : Pc → List RowLock
  | .insertOrder _ _ _ => [⟨.order s.nextOrder, .insert⟩]
  | _ => []

/-- The rows that the foreign keys of the row written point to. -/
def Pc.foreignKeys (rt : Runtime) (p : CheckoutParams) : Pc → List RowLock
  | .insertOrder _ buyerId _ => [⟨.guarded (.user buyerId), .keyShare⟩]
  | .insertItem _ orderId =>
    match rt.int8in p.productId with
    | some productId => [⟨.order orderId, .keyShare⟩, ⟨.guarded (.product productId), .keyShare⟩]
    | none => []
  | .insertJob _ orderId | .setKeyOrder _ orderId => [⟨.order orderId, .keyShare⟩]
  | _ => []

/-! ## The shop with its locks -/

/-- A shop, the locks of its calls, and what their pending statements have drawn, if they
have been started. -/
structure LockingShop where
  shop : Shop
  locks : LockTable ℕ LockedRow LockMode
  drawn : ℕ → Option Draw

/-- What can happen. -/
inductive LockingEvent where
  /-- somebody calls `checkout` -/
  | call (i : ℕ) (p : CheckoutParams)
  /-- the pending statement of call `i` is started -/
  | start (i : ℕ) (d : Draw)
  /-- it takes its next lock -/
  | lock (i : ℕ)
  /-- it is carried out -/
  | exec (i : ℕ)
  /-- it throws -/
  | fail (i : ℕ)
  /-- the process of call `i` dies -/
  | crash (i : ℕ)
  /-- the COMMIT of call `i` takes effect and its answer is lost -/
  | loseAnswer (i : ℕ)

namespace LockingShop

/-- Call `i` begins or ends: it has no locks. -/
def reset (s : LockingShop) (i : ℕ) (shop : Shop) : LockingShop where
  shop := shop
  locks := s.locks.release i
  drawn := Function.update s.drawn i none

/-- Call `i` has carried its statement out and goes on, if it is still running. -/
def settle (rt : Runtime) (s : LockingShop) (i : ℕ) (p : CheckoutParams) (pc : Pc)
    (shop : Shop) : LockingShop :=
  match shop.calls i with
  | some ⟨_, .running _⟩ =>
    { shop := shop
      locks := (s.locks.grant i (pc.inserts s.shop)).ask i (pc.foreignKeys rt p)
      drawn := Function.update s.drawn i none }
  | _ => s.reset i shop

/-- One event in a shop with locks. -/
def step (rt : Runtime) (s : LockingShop) : LockingEvent → Option LockingShop
  | .call i p => (s.shop.step rt (.call i p)).map (s.reset i)
  | .start i d =>
    match s.shop.calls i, s.drawn i, s.locks.asked i with
    | some ⟨p, .running pc⟩, none, [] =>
      some { s with
        locks := s.locks.ask i (pc.locks p d)
        drawn := Function.update s.drawn i (some d) }
    | _, _, _ => none
  | .lock i =>
    match s.locks.asked i with
    | a :: rest =>
      if a.mode = .insert ∧ s.shop.db.committed.entered a.row = true then
        -- the entry is there: nothing to insert, nothing to lock
        some { s with locks := s.locks.ask i rest }
      else if s.locks.blocked LockMode.conflicts i a then none
      else some { s with locks := (s.locks.grant i [a]).ask i rest }
    | [] => none
  | .exec i =>
    match s.shop.calls i, s.drawn i, s.locks.asked i with
    | some ⟨p, .running pc⟩, some d, [] => (s.shop.exec rt i p d pc).map (s.settle rt i p pc)
    | _, _, _ => none
  | .fail i => (s.shop.step rt (.fail i)).map (s.reset i)
  | .crash i => (s.shop.step rt (.crash i)).map (s.reset i)
  | .loseAnswer i => (s.shop.step rt (.loseAnswer i)).map (s.reset i)

/-- A shop before the first call, without locks. -/
structure Start (s : LockingShop) : Prop where
  shop : s.shop.Start
  locks : s.locks = .empty
  drawn : ∀ i, s.drawn i = none

/-- Call `i` is running: its transaction is open. -/
def Open (s : LockingShop) (i : ℕ) : Prop := ∃ p pc, s.shop.calls i = some ⟨p, .running pc⟩

/-- The transaction of call `i` waits for that of call `j`. -/
def WaitsFor (s : LockingShop) (i j : ℕ) : Prop := s.locks.Waits LockMode.conflicts i j

end LockingShop

/-- Concurrent checkouts with all their locks. -/
def lockings (rt : Runtime) : System LockingShop LockingEvent :=
  ⟨LockingShop.Start, LockingShop.step rt⟩

end Marketplace
