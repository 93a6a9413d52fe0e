import Marketplace.Run
import Marketplace.Snapshot
import Mathlib.Algebra.BigOperators.Group.List.Basic
import Mathlib.Algebra.Order.Ring.Int

/-!
# Retried transactions

`withRetry` of `concurrency/lib.ts`, around the read-modify-write of `demo-retry.ts`:
read a balance, add to it in the application, and write it back, in a REPEATABLE READ
transaction that is run again from its first statement when the database answers
40001 or 40P01.

A call that commits has written over the very balance it has read, so it adds its
delta to the committed balance, whatever the others did in between; and once it has
committed, no error it may still see is one that makes it start again.
-/

namespace Marketplace

/-! ## The program -/

/-- An error of the driver or of the program, with its SQLSTATE if it has one. -/
structure PgError where
  code : Option String
  message : String
  deriving DecidableEq, Repr

/-- `RETRYABLE_CODES`: serialization_failure and deadlock_detected. -/
def retryableCodes : List String := ["40001", "40P01"]

/-- The error says to run the transaction again. -/
def PgError.retryable (err : PgError) : Bool :=
  err.code.any retryableCodes.contains

/-- A call of `withRetry` with the `fn` of `adjust`; amounts are in cents. -/
structure Adjust where
  userId : ℕ
  delta : ℤ
  maxAttempts : ℕ
  deriving DecidableEq, Repr

/-- How the `finally` block is left. -/
inductive RetryExit
  | returns
  | continues
  | throws (err : PgError)
  deriving DecidableEq, Repr

/-- The next thing a call does. -/
inductive RetryPc
  | connect
  | startTransaction
  | select
  | update (seen : ℤ)
  | commitTransaction
  | rollbackTransaction (err : PgError)
  | sleep
  | release (exit : RetryExit)
  deriving DecidableEq, Repr

/-- A call runs, or has ended. -/
inductive RetryStatus
  | running (pc : RetryPc)
  | returned
  | threw (err : PgError)
  | crashed
  deriving DecidableEq, Repr

/-- A call in its `attempt`-th round. -/
structure RetryCall where
  request : Adjust
  attempt : ℕ
  status : RetryStatus
  deriving DecidableEq, Repr

/-- The balances, `none` where there is no such user. -/
abbrev Balances := SnapshotEngine ℕ (Option ℤ) ℕ

namespace RetryCall

/-- The call goes on at `pc`. -/
def goes (c : RetryCall) (pc : RetryPc) : RetryCall := { c with status := .running pc }

/-- The database refuses a statement: the transaction is aborted, and the call lands in its
`catch` block. -/
def refused (c : RetryCall) (i : ℕ) (db : Balances) (err : PgError) :
    Option (Balances × RetryCall × Bool) :=
  some (db.abort i, c.goes (.rollbackTransaction err), false)

/-- What `numeric(12,2)` and the CHECK of `users.balance` say of a new balance. -/
def balanceError (next : ℤ) : Option PgError :=
  if 10 ^ 12 ≤ next ∨ next ≤ -10 ^ 12 then
    some { code := some "22003", message := "numeric field overflow" }
  else if next < 0 then
    some { code := some "23514", message := "new row violates check constraint" }
  else none

/-- The error of an update of a row that was changed since the snapshot. -/
def serializationFailure : PgError :=
  { code := some "40001", message := "could not serialize access due to concurrent update" }

/-- The call does what comes next; `none` while it waits. The flag says that its transaction
committed. -/
def exec (c : RetryCall) (i : ℕ) (db : Balances) : Option (Balances × RetryCall × Bool) :=
  match c.status with
  | .running .connect => some (db, c.goes .startTransaction, false)
  | .running .startTransaction => some (db, c.goes .select, false)
  | .running .select =>
      let db := db.snap i
      match db.read i c.request.userId with
      | some (some seen) => some (db, c.goes (.update seen), false)
      -- `rows[0]!.balance` of no row
      | _ => some (db, c.goes (.rollbackTransaction
          { code := none, message := "Cannot read properties of undefined" }), false)
  | .running (.update seen) =>
      let next := seen + c.request.delta
      match balanceError next with
      | some err => c.refused i db err
      | none =>
          if db.free i c.request.userId then
            if db.conflict i c.request.userId then c.refused i db serializationFailure
            else some (db.update i c.request.userId (some next), c.goes .commitTransaction, false)
          else none
  | .running .commitTransaction => some (db.commit i, c.goes (.release .returns), true)
  | .running (.rollbackTransaction err) =>
      if err.retryable && decide (c.attempt < c.request.maxAttempts) then
        some (db.abort i, c.goes .sleep, false)
      else some (db.abort i, c.goes (.release (.throws err)), false)
  | .running .sleep => some (db, c.goes (.release .continues), false)
  | .running (.release .returns) => some (db, { c with status := .returned }, false)
  | .running (.release .continues) =>
      some (db, { c with attempt := c.attempt + 1, status := .running .connect }, false)
  | .running (.release (.throws err)) => some (db, { c with status := .threw err }, false)
  | _ => none

/-- What comes next fails without effect. `connect` and `release` are outside the `try`, and
an error of ROLLBACK is ignored: the connection is gone, and the transaction with it. -/
def fails (c : RetryCall) (i : ℕ) (db : Balances) (err : PgError) :
    Option (Balances × RetryCall × Bool) :=
  match c.status with
  | .running .connect => some (db, { c with status := .threw err }, false)
  | .running .startTransaction | .running .select | .running (.update _)
  | .running .commitTransaction => c.refused i db err
  | .running (.rollbackTransaction _) => c.exec i db
  | .running (.release _) => some (db, { c with status := .threw err }, false)
  | _ => none

/-- COMMIT takes effect, and the connection is lost before the answer. -/
def losesAnswer (c : RetryCall) (i : ℕ) (db : Balances) (err : PgError) :
    Option (Balances × RetryCall × Bool) :=
  match c.status with
  | .running .commitTransaction =>
      if err.retryable then none else some (db.commit i, c.goes (.rollbackTransaction err), true)
  | _ => none

/-- The process dies. -/
def crashes (c : RetryCall) (i : ℕ) (db : Balances) : Option (Balances × RetryCall × Bool) :=
  match c.status with
  | .running _ => some (db.abort i, { c with status := .crashed }, false)
  | _ => none

end RetryCall

/-! ## Runs -/

/-- The balances, the calls, and whose transactions have committed, in order. -/
structure RetryState where
  db : Balances
  calls : ℕ → Option RetryCall
  committed : List (ℕ × Adjust)

/-- What can happen next. -/
inductive RetryEvent
  /-- `withRetry` is called -/
  | call (i : ℕ) (request : Adjust)
  | exec (i : ℕ)
  | fails (i : ℕ) (err : PgError)
  | losesAnswer (i : ℕ) (err : PgError)
  | crashes (i : ℕ)
  deriving DecidableEq, Repr

namespace RetryState

/-- The call `i` has moved. -/
def moved (s : RetryState) (i : ℕ) (c : RetryCall) (m : Balances × RetryCall × Bool) :
    RetryState :=
  { db := m.1, calls := Function.update s.calls i (some m.2.1),
    committed := if m.2.2 then s.committed ++ [(i, c.request)] else s.committed }

/-- The call `i` begins. -/
def begun (s : RetryState) (i : ℕ) (request : Adjust) : RetryState :=
  { s with
    calls := Function.update s.calls i
      (some { request := request, attempt := 1, status := .running .connect }) }

def step (s : RetryState) : RetryEvent → Option RetryState
  | .call i request => if (s.calls i).isSome then none else some (s.begun i request)
  | .exec i => (s.calls i).bind fun c => (c.exec i s.db).map (s.moved i c)
  | .fails i err => (s.calls i).bind fun c => (c.fails i s.db err).map (s.moved i c)
  | .losesAnswer i err => (s.calls i).bind fun c => (c.losesAnswer i s.db err).map (s.moved i c)
  | .crashes i => (s.calls i).bind fun c => (c.crashes i s.db).map (s.moved i c)

end RetryState

/-- Calls of `withRetry` on any balances. -/
def retries : System RetryState RetryEvent where
  start s := (∃ rows, s.db = .idle rows) ∧ (∀ i, s.calls i = none) ∧ s.committed = []
  step := RetryState.step

end Marketplace
