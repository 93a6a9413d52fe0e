import Mathlib.Data.List.Sort
import Marketplace.Jobs

/-!
# `runWorker`: workers that share a queue

`queue-worker.ts` as a machine. `claimOne` takes one job: it locks the first row that
is new and that nobody holds (`FOR UPDATE SKIP LOCKED`), works, marks the row done and
commits. The `SELECT` scans on its snapshot and then visits the rows in order of their
ids: a row that somebody holds is skipped, a row that is no longer new is dropped, the
first other row is locked.

`runWorker` repeats `claimOne`. When it finds nothing, that only means that nothing was
free; so the worker counts the new rows in a statement of its own, and returns when
there are none.
-/

namespace Marketplace

/-- `WHERE status = 'new'` -/
def newJobs (db : Database) : List Job := db.jobQueue.filter fun r => r.status = .new

/-- The snapshot of the `SELECT`: the ids of the new rows, in order. -/
def claimableJobs (db : Database) : List ℕ :=
  ((newJobs db).map Job.id).insertionSort fun a b => a ≤ b

/-- `ClaimResult` -/
inductive ClaimResult where
  | done
  | empty
  deriving DecidableEq

/-- Where a worker waits, with its local variables. -/
inductive WorkerPc where
  /-- `SELECT … FOR UPDATE SKIP LOCKED`, its snapshot -/
  | scan
  /-- `SELECT … FOR UPDATE SKIP LOCKED`, the rows left to visit -/
  | lockRow (left : List ℕ)
  /-- the work, then `UPDATE job_queue SET status = 'done', …` -/
  | update (id : ℕ)
  /-- `commitTransaction()`, then `return result` -/
  | commit (result : ClaimResult)
  /-- `SELECT count(*) …` -/
  | count
  deriving DecidableEq

/-- How `runWorker` ends. -/
inductive WorkerOutcome where
  | returned
  | thrown
  | crashed
  deriving DecidableEq

/-- A worker is running or has ended. -/
inductive WorkerStatus where
  | running (pc : WorkerPc)
  | ended (outcome : WorkerOutcome)
  deriving DecidableEq

/-- A call of `runWorker`. -/
structure WorkerCall where
  worker : String
  status : WorkerStatus
  deriving DecidableEq

/-- A shop with workers. -/
structure JobPool where
  shop : Shop
  workers : ℕ → Option WorkerCall

namespace JobPool

/-- The database. -/
def db (s : JobPool) : Engine Database Change Lock Client := s.shop.db

/-- The database moves on. -/
def setDb (s : JobPool) (e : Engine Database Change Lock Client) : JobPool :=
  { s with shop := { s.shop with db := e } }

/-- Worker `k` is now in the given status. -/
def setWorker (s : JobPool) (k : ℕ) (worker : String) (status : WorkerStatus) : JobPool :=
  { s with workers := Function.update s.workers k (some ⟨worker, status⟩) }

/-- Worker `k` goes on to `pc`. -/
def goto (s : JobPool) (k : ℕ) (worker : String) (pc : WorkerPc) : JobPool :=
  s.setWorker k worker (.running pc)

/-- Worker `k` ends; what its transaction has open is rolled back. -/
def finish (s : JobPool) (k : ℕ) (worker : String) (o : WorkerOutcome) : JobPool :=
  (s.setDb (s.db.abort (.worker k))).setWorker k worker (.ended o)

/-- `claimOne` has returned: `runWorker` repeats it, or counts first. -/
def afterClaim : ClaimResult → WorkerPc
  | .done => .scan
  | .empty => .count

/-- Run the pending statement of worker `k`, and the code up to the next one. -/
def exec (s : JobPool) (k : ℕ) (worker : String) : WorkerPc → JobPool
  | .scan => s.goto k worker (.lockRow (claimableJobs (s.db.view (.worker k))))
  | .lockRow [] => s.goto k worker (.commit .empty)
  | .lockRow (id :: left) =>
    if s.db.free (.worker k) (.job id) then
      -- the newest version of the row is checked again
      match (Table.lookup Job.id id (s.db.view (.worker k)).jobQueue).filter
          fun r => r.status = .new with
      | some _ => (s.setDb (s.db.acquire (.worker k) (.job id))).goto k worker (.update id)
      | none => s.goto k worker (.lockRow left)
    else s.goto k worker (.lockRow left)
  | .update id =>
    (s.setDb (s.db.write (.worker k) (.setJobDone id worker))).goto k worker (.commit .done)
  | .commit result => (s.setDb (s.db.commit (.worker k))).goto k worker (afterClaim result)
  | .count =>
    -- on another connection, outside any transaction
    if (newJobs s.db.committed).length = 0 then s.setWorker k worker (.ended .returned)
    else s.goto k worker .scan

end JobPool

/-- What can happen around a job queue. -/
inductive PoolEvent where
  /-- an event of a checkout -/
  | checkout (a : CheckoutEvent)
  /-- somebody calls `runWorker` -/
  | runWorker (k : ℕ) (worker : String)
  /-- the pending statement of worker `k` runs -/
  | exec (k : ℕ)
  /-- the pending statement of worker `k` throws, without effect -/
  | fail (k : ℕ)
  /-- worker `k` dies -/
  | crash (k : ℕ)
  /-- the COMMIT of worker `k` takes effect and its answer is lost -/
  | loseAnswer (k : ℕ)

/-- The worker an event belongs to. -/
def PoolEvent.worker : PoolEvent → Option ℕ
  | .checkout _ => none
  | .runWorker k _ | .exec k | .fail k | .crash k | .loseAnswer k => some k

/-- One event around a job queue. -/
def JobPool.step (rt : Runtime) (s : JobPool) : PoolEvent → Option JobPool
  | .checkout a => (s.shop.step rt a).map fun shop => { s with shop }
  | .runWorker k worker =>
    match s.workers k with
    | none => some (s.goto k worker .scan)
    | some _ => none
  | .exec k =>
    match s.workers k with
    | some ⟨worker, .running pc⟩ => some (s.exec k worker pc)
    | _ => none
  | .fail k =>
    match s.workers k with
    | some ⟨worker, .running _⟩ => some (s.finish k worker .thrown)
    | _ => none
  | .crash k =>
    match s.workers k with
    | some ⟨worker, .running _⟩ => some (s.finish k worker .crashed)
    | _ => none
  | .loseAnswer k =>
    match s.workers k with
    | some ⟨worker, .running (.commit _)⟩ =>
      some ((s.setDb (s.db.commit (.worker k))).setWorker k worker (.ended .thrown))
    | _ => none

/-- A shop whose jobs are fresh, before its first call and its first worker. -/
structure JobPool.Start (s : JobPool) : Prop where
  shop : s.shop.Start
  fresh : ∀ r ∈ s.db.committed.jobQueue, r.Fresh
  distinct : (s.db.committed.jobQueue.map Job.id).Nodup
  sequence : ∀ r ∈ s.db.committed.jobQueue, r.id < s.shop.nextJob
  workers : ∀ k, s.workers k = none

/-- Concurrent workers and checkouts. -/
def jobPools (rt : Runtime) : System JobPool PoolEvent := ⟨JobPool.Start, JobPool.step rt⟩

end Marketplace
