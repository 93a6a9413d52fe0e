import Mathlib.Data.List.Sort
import Marketplace.Schema

/-!
# `relayOnce`: one pass over the outbox

The data of a pass, apart from the stores it works on. A pass claims a batch of
unpublished rows, publishes them one by one, and marks those the broker has
confirmed, all in one transaction. The first publication that fails ends the
loop; its row only counts the attempt.

`SELECT … ORDER BY created_at, id LIMIT n FOR UPDATE SKIP LOCKED` scans on its
snapshot and then visits the rows in order: a row that somebody holds is skipped,
a row that no longer matches is dropped, any other is locked, until `n` rows are
claimed.
-/

namespace Marketplace

/-- `ORDER BY created_at, id` -/
def OutboxRow.before (a b : OutboxRow) : Prop :=
  a.createdAt < b.createdAt ∨ (a.createdAt = b.createdAt ∧ a.id ≤ b.id)

instance : DecidableRel OutboxRow.before := fun a b =>
  inferInstanceAs
    (Decidable (a.createdAt < b.createdAt ∨ (a.createdAt = b.createdAt ∧ a.id ≤ b.id)))

/-- The snapshot of the `SELECT`: the unpublished rows, in order. -/
def claimable (db : Database) : List OutboxRow :=
  (db.outbox.filter fun r => r.publishedAt = none).insertionSort OutboxRow.before

theorem mem_claimable {db : Database} {r : OutboxRow} :
    r ∈ claimable db ↔ r ∈ db.outbox ∧ r.publishedAt = none := by
  simp [claimable]

/-- The batch of a pass, with the variables of its loop. -/
structure Batch where
  /-- `rows` -/
  rows : List OutboxRow
  /-- the rows the loop has not come to -/
  todo : List OutboxRow
  /-- `done` -/
  done : List ℕ
  /-- `failedId` -/
  failed : Option ℕ
  deriving DecidableEq

/-- The batch before the loop. -/
def Batch.start (rows : List OutboxRow) : Batch := ⟨rows, rows, [], none⟩

/-- `RelayPass` -/
structure RelayPass where
  claimed : ℕ
  published : ℕ
  error : Bool
  deriving DecidableEq

/-- What the pass returns. -/
def Batch.pass (b : Batch) : RelayPass := ⟨b.rows.length, b.done.length, b.failed.isSome⟩

/-- Where a pass waits, with its local variables. -/
inductive RelayPc where
  /-- `SELECT … FOR UPDATE SKIP LOCKED`, its snapshot -/
  | scan
  /-- `SELECT … FOR UPDATE SKIP LOCKED`, the rows left to visit -/
  | lockRows (left : List ℕ) (rows : List OutboxRow)
  /-- `await publisher.publishRaw(…)` of the first row to do -/
  | publish (b : Batch)
  /-- `await hooks.afterPublish?.(row)` -/
  | afterPublish (b : Batch)
  /-- `UPDATE outbox SET published_at = now(), …` -/
  | markPublished (b : Batch)
  /-- `UPDATE outbox SET attempts = attempts + 1 …` of the row that failed -/
  | addAttempt (b : Batch)
  /-- `commitTransaction()` -/
  | commit (b : Batch)
  deriving DecidableEq

/-- After the loop: what is done is marked, then what failed, if anything. -/
def Batch.afterUpdate (b : Batch) : RelayPc :=
  match b.failed with
  | some _ => .addAttempt b
  | none => .commit b

/-- The head of the loop, and what comes after it. -/
def Batch.next (b : Batch) : RelayPc :=
  if b.todo ≠ [] ∧ b.failed = none then .publish b
  else if b.done ≠ [] then .markPublished b
  else b.afterUpdate

/-- The broker has confirmed the row. -/
def Batch.confirm (b : Batch) (row : OutboxRow) (todo : List OutboxRow) : Batch :=
  { b with todo, done := b.done ++ [row.id] }

/-- The publication of the row has failed. -/
def Batch.fail (b : Batch) (row : OutboxRow) (todo : List OutboxRow) : Batch :=
  { b with todo, failed := some row.id }

/-- How a pass ends. -/
inductive RelayOutcome where
  | returned (pass : RelayPass)
  | thrown
  | crashed
  /-- COMMIT took effect, but there was no answer -/
  | lost
  deriving DecidableEq

/-- A pass is running or has ended. -/
inductive RelayStatus where
  | running (pc : RelayPc)
  | ended (outcome : RelayOutcome)
  deriving DecidableEq

/-- A pass of `relayOnce`. -/
structure RelayCall where
  batchSize : ℕ
  status : RelayStatus
  deriving DecidableEq

end Marketplace
