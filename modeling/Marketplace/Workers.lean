import Marketplace.QueueWorker

/-!
# Each job is processed once

A worker that has locked a job knows that it is not done: it has checked so on the
newest version, and nobody else marks a job it holds (`Engine.Undisturbed.undone`). So
a COMMIT that marks a job done finds it fresh.

A worker returns after a count of its own that finds no new row. What it counted is the
committed state of that moment, with the rows that other workers still hold: those are
new until their COMMIT.
-/

namespace Marketplace

/-! ## What a worker knows -/

/-- No committed row says that the job is done. -/
def Undone (db : Database) (id : ℕ) : Prop := ∀ r ∈ db.jobQueue, r.id = id → r.status ≠ .done

theorem undone_iff {db : Database} {id : ℕ} : Undone db id ↔ db.row (.job id) = false := by
  refine Iff.trans ?_
    (decide_eq_false_iff_not (p := ∃ r ∈ db.jobQueue, r.id = id ∧ r.status = .done)).symm
  constructor
  · rintro h ⟨r, hr, hid, hdone⟩
    exact h r hr hid hdone
  · intro h r hr hid hdone
    exact h ⟨r, hr, hid, hdone⟩

section Knows

variable {e e' : Engine Database Change Lock Client} {k id : ℕ}

/-- The lock of a job freezes it. -/
theorem Engine.Undisturbed.undone (hu : e.Undisturbed e' (.worker k))
    (hheld : e.holder (.job id) = some (.worker k)) (h : Undone e.committed id) :
    Undone e'.committed id := by
  rw [undone_iff] at h ⊢
  exact (hu.row _ hheld).trans h

/-- The worker has locked a job that is not done. -/
structure Taken (e : Engine Database Change Lock Client) (k id : ℕ) : Prop where
  held : e.holder (.job id) = some (.worker k)
  undone : Undone e.committed id

theorem Taken.stable (h : Taken e k id) (hu : e.Undisturbed e' (.worker k)) : Taken e' k id :=
  ⟨(hu.holder _).mpr h.held, hu.undone h.held h.undone⟩

variable (e k)

/-- What a worker knows at each of its statements. -/
def WorkerPcInv : WorkerPc → Prop
  | .update id => e.log (.worker k) = [] ∧ Taken e k id
  | .commit .done => ∃ id worker, e.log (.worker k) = [.setJobDone id worker] ∧ Taken e k id
  | _ => e.Quiet (.worker k)

/-- A worker that is not running has nothing open. -/
def WorkerInv : Option WorkerCall → Prop
  | some ⟨_, .running pc⟩ => WorkerPcInv e k pc
  | _ => e.Quiet (.worker k)

variable {e k}

theorem WorkerInv.stable {c : Option WorkerCall} (h : WorkerInv e k c)
    (hu : e.Undisturbed e' (.worker k)) : WorkerInv e' k c := by
  rcases c with _ | ⟨worker, pc | o⟩
  · exact hu.quiet h
  · cases pc with
    | update id => exact ⟨hu.log.trans h.1, h.2.stable hu⟩
    | commit result =>
      cases result with
      | done =>
        obtain ⟨id, worker, hlog, htook⟩ := h
        exact ⟨id, worker, hu.log.trans hlog, htook.stable hu⟩
      | empty => exact hu.quiet h
    | _ => exact hu.quiet h
  · exact hu.quiet h

end Knows

/-! ## What a COMMIT does to the queue -/

/-- From `db` to `db'` at most one job is marked done, which was not. -/
inductive Marks (db : Database) : Database → Prop
  | nothing : Marks db db
  | job (id : ℕ) (worker : String) (h : Undone db id) : Marks db (db.redo (.setJobDone id worker))

section Marks

variable {db db' : Database}

/-- Marking a job changes no id. -/
theorem Marks.ids (h : Marks db db') : db'.jobQueue.map Job.id = db.jobQueue.map Job.id := by
  cases h with
  | nothing => rfl
  | job id worker hundone => exact Table.map_modify fun _ => rfl

/-- **A job that is marked was fresh.** -/
theorem Marks.settled (h : Marks db db') (hdb : ∀ r ∈ db.jobQueue, r.Fresh ∨ r.ProcessedOnce) :
    ∀ r ∈ db'.jobQueue, r.Fresh ∨ r.ProcessedOnce := by
  cases h with
  | nothing => exact hdb
  | job id worker hundone =>
    intro r' hr'
    obtain ⟨r, hr, rfl⟩ := Table.mem_modify.mp hr'
    split_ifs with hid
    · rcases hdb r hr with hfresh | honce
      · refine .inr ⟨rfl, ?_, rfl⟩
        change r.processed + 1 = 1
        rw [hfresh.2.1]
      · exact absurd honce.1 (hundone r hr hid)
    · exact hdb r hr

theorem Marks.orders (h : Marks db db') : db'.orders = db.orders := by
  cases h <;> rfl

theorem Marks.wellFormed (h : Marks db db') (hwf : db.WellFormed) : db'.WellFormed := by
  cases h with
  | nothing => exact hwf
  | job id worker hundone =>
    exact ⟨hwf.products, hwf.users, hwf.keys, hwf.orders, hwf.items, hwf.outbox⟩

theorem Marks.extends (h : Marks db db') : db.Extends db' := by
  cases h with
  | nothing => exact .refl _
  | job id worker hundone => exact ⟨fun _ _ hkey => hkey, fun _ ho => ho⟩

end Marks

/-! ## The invariant -/

/-- What workers and checkouts keep. -/
structure JobPool.Inv (rt : Runtime) (s : JobPool) : Prop where
  shop : s.shop.Inv rt
  jobs : s.shop.Jobs
  workers : ∀ k, WorkerInv s.db k (s.workers k)

namespace JobPool

variable {rt : Runtime} {s s' : JobPool} {k : ℕ} {worker : String} {pc : WorkerPc}

theorem Start.inv (h : s.Start) : s.Inv rt := by
  have hidle : s.shop.db = Engine.idle s.shop.db.committed := h.shop.idle
  have hlog : ∀ t, s.shop.db.log t = [] := by
    intro t
    rw [hidle]
    rfl
  refine ⟨h.shop.inv, ⟨h.sequence, h.distinct, fun r hr => .inl (h.fresh r hr), ?_, ?_, ?_, ?_⟩, ?_⟩
  · intro i c hc
    rw [hlog] at hc
    exact absurd hc List.not_mem_nil
  · intro i r hr
    rw [Shop.pendingJobs, hlog] at hr
    exact absurd hr List.not_mem_nil
  · intro i
    rw [Shop.pendingJobs, hlog]
    exact List.nodup_nil
  · intro i j _ r hr
    rw [Shop.pendingJobs, hlog] at hr
    exact absurd hr List.not_mem_nil
  · intro k
    rw [h.workers k, JobPool.db, hidle]
    exact Engine.quiet_idle _ _

/-- **The step of a worker**: it marks one job it has taken, or none. -/
structure WorkerTook (s s' : JobPool) (k : ℕ) (c : WorkerCall) : Prop where
  shop : s'.shop = { s.shop with db := s'.db }
  workers : s'.workers = Function.update s.workers k (some c)
  locked : s'.db.WellLocked
  others : ∀ t, t ≠ .worker k → Engine.Undisturbed s.db s'.db t
  marks : Marks s.db.committed s'.db.committed
  self : WorkerInv s'.db k (some c)

theorem Inv.worker_next (h : s.Inv rt) {c : WorkerCall} (took : WorkerTook s s' k c) :
    s'.Inv rt := by
  have hcalls : s'.shop.calls = s.shop.calls := by rw [took.shop]
  have hnextOrder : s'.shop.nextOrder = s.shop.nextOrder := by rw [took.shop]
  have hnextJob : s'.shop.nextJob = s.shop.nextJob := by rw [took.shop]
  have hcheckout : ∀ i, Engine.Undisturbed s.db s'.db (.checkout i) :=
    fun i => took.others _ fun hi => by cases hi
  refine ⟨?_, ?_, ?_⟩
  · exact h.shop.other hcalls hnextOrder took.locked hcheckout
      (took.marks.wellFormed h.shop.wellFormed) took.marks.extends took.marks.orders
  · refine h.jobs.keep took.marks.ids (took.marks.settled h.jobs.settled) hnextJob ?_ ?_
    · intro i c hc
      exact h.jobs.log i c ((hcheckout i).log ▸ hc)
    · intro i
      have hlog : s'.shop.db.log (.checkout i) = s.shop.db.log (.checkout i) := (hcheckout i).log
      rw [Shop.pendingJobs, hlog]
      exact List.Sublist.refl _
  · rw [took.workers]
    refine (Function.forall_update_iff s.workers fun k c => WorkerInv s'.db k c).mpr
      ⟨took.self, fun k' hk => ?_⟩
    exact (h.workers k').stable (took.others _ fun hi => hk (Client.worker.inj hi))

/-! ## The statements of a worker -/

section Steps

variable (hlocked : s.db.WellLocked)

include hlocked

/-- A step that leaves the database alone. -/
theorem took_goto {status : WorkerStatus} (hself : WorkerInv s.db k (some ⟨worker, status⟩)) :
    WorkerTook s (s.setWorker k worker status) k ⟨worker, status⟩ :=
  ⟨rfl, rfl, hlocked, fun _ _ => .refl _ _, .nothing, hself⟩

/-- Ending with ROLLBACK. -/
theorem took_finish {o : WorkerOutcome} :
    WorkerTook s (s.finish k worker o) k ⟨worker, .ended o⟩ :=
  ⟨rfl, rfl, hlocked.abort _, fun _ hne => Engine.undisturbed_abort _ hne, .nothing,
    Engine.quiet_abort _ _⟩

/-- COMMIT. -/
theorem took_commit {result : ClaimResult} {status : WorkerStatus}
    (hself : WorkerPcInv s.db k (.commit result))
    (hquiet : ∀ e : Engine Database Change Lock Client, e.Quiet (.worker k) →
      WorkerInv e k (some ⟨worker, status⟩)) :
    WorkerTook s ((s.setDb (s.db.commit (.worker k))).setWorker k worker status) k
      ⟨worker, status⟩ := by
  have hmarks : Marks s.db.committed (s.db.view (.worker k)) := by
    cases result with
    | done =>
      obtain ⟨id, w, hlog, htook⟩ := hself
      rw [Engine.view, hlog]
      exact .job id w htook.undone
    | empty =>
      rw [Engine.Quiet.view hself]
      exact .nothing
  exact ⟨rfl, rfl, hlocked.commit _, fun _ hne => Engine.undisturbed_commit hlocked hne, hmarks,
    hquiet _ (Engine.quiet_commit _ _)⟩

/-- The rows of the snapshot are visited one by one, until one is locked. -/
theorem took_lockRow (hjobs : s.shop.Jobs) {left : List ℕ} (hself : s.db.Quiet (.worker k)) :
    ∃ c, WorkerTook s (s.exec k worker (.lockRow left)) k c := by
  cases left with
  | nil => exact ⟨_, took_goto hlocked hself⟩
  | cons id left =>
    simp only [JobPool.exec]
    split_ifs with hfree
    · split
      · rename_i r hr
        obtain ⟨hlookup, hnew⟩ := Option.filter_eq_some_iff.mp hr
        rw [hself.view] at hlookup
        refine ⟨_, rfl, rfl, hlocked.acquire hfree,
          fun _ hne => Engine.undisturbed_acquire hfree hne, .nothing, hself.1,
          Engine.acquire_holder_self .., ?_⟩
        -- the row that was checked is the only one with this id
        intro q hq hid hdone
        have hq' : Table.lookup Job.id id s.db.committed.jobQueue = some q := by
          rw [← hid]
          exact Table.lookup_of_mem hjobs.distinct hq
        obtain rfl := Option.some.inj (hlookup.symm.trans hq')
        rw [hdone] at hnew
        cases of_decide_eq_true hnew
      · exact ⟨_, took_goto hlocked hself⟩
    · exact ⟨_, took_goto hlocked hself⟩

/-- **Every statement of a worker.** -/
theorem took_exec (hjobs : s.shop.Jobs) (hself : WorkerPcInv s.db k pc) :
    ∃ c, WorkerTook s (s.exec k worker pc) k c := by
  cases pc with
  | scan => exact ⟨_, took_goto hlocked hself⟩
  | lockRow left => exact took_lockRow hlocked hjobs hself
  | update id =>
    obtain ⟨hlog, htook⟩ := hself
    refine ⟨_, rfl, rfl, hlocked.write ?_, fun _ hne => Engine.undisturbed_write _ _ hne, .nothing,
      id, worker, ?_, htook.held, htook.undone⟩
    · rintro l rfl
      exact htook.held
    · refine (Engine.write_log_self ..).trans ?_
      rw [hlog]
      rfl
  | commit result =>
    refine ⟨_, took_commit hlocked hself fun e hq => ?_⟩
    cases result <;> exact hq
  | count =>
    simp only [JobPool.exec]
    split_ifs
    · exact ⟨_, took_goto hlocked hself⟩
    · exact ⟨_, took_goto hlocked hself⟩

end Steps

/-- **The events of a worker.** -/
theorem Inv.worker_took (h : s.Inv rt) {a : PoolEvent} (ha : a.worker = some k)
    (hs : s.step rt a = some s') : ∃ c, WorkerTook s s' k c := by
  have hrunning :
      ∀ worker pc, s.workers k = some ⟨worker, .running pc⟩ → WorkerPcInv s.db k pc := by
    intro worker pc hc
    have := h.workers k
    rwa [hc] at this
  cases a with
  | checkout a => cases ha
  | runWorker k' worker =>
    obtain rfl := Option.some.inj ha
    simp only [JobPool.step] at hs
    split at hs
    · rename_i hnone
      obtain rfl := Option.some.inj hs
      have hquiet := h.workers k'
      rw [hnone] at hquiet
      exact ⟨_, took_goto h.shop.locked hquiet⟩
    · cases hs
  | exec k' =>
    obtain rfl := Option.some.inj ha
    simp only [JobPool.step] at hs
    split at hs
    · rename_i worker pc hc
      obtain rfl := Option.some.inj hs
      exact took_exec h.shop.locked h.jobs (hrunning worker pc hc)
    · cases hs
  | fail k' | crash k' =>
    obtain rfl := Option.some.inj ha
    simp only [JobPool.step] at hs
    split at hs
    · obtain rfl := Option.some.inj hs
      exact ⟨_, took_finish h.shop.locked⟩
    · cases hs
  | loseAnswer k' =>
    obtain rfl := Option.some.inj ha
    simp only [JobPool.step] at hs
    split at hs
    · rename_i worker result hc
      obtain rfl := Option.some.inj hs
      exact ⟨_, took_commit h.shop.locked (hrunning worker _ hc) fun _ hq => hq⟩
    · cases hs

/-- The events of a checkout. -/
theorem step_of_checkout {a : PoolEvent} (ha : a.worker = none) (hs : s.step rt a = some s') :
    ∃ b shop, s.shop.step rt b = some shop ∧ s' = { s with shop } := by
  cases a with
  | checkout b =>
    obtain ⟨shop, hshop, rfl⟩ := Option.map_eq_some_iff.mp hs
    exact ⟨b, shop, hshop, rfl⟩
  | _ => cases ha

/-- **Every step keeps the invariant.** -/
theorem Inv.step (h : s.Inv rt) {a : PoolEvent} (hs : s.step rt a = some s') : s'.Inv rt := by
  rcases ha : a.worker with _ | k
  · obtain ⟨b, shop, hshop, rfl⟩ := step_of_checkout ha hs
    refine ⟨?_, h.jobs.checkout h.shop hshop, fun k => (h.workers k).stable ?_⟩
    · rcases h.shop.step hshop with ⟨_, _, _, hinv⟩ | ⟨_, _, _, htook⟩
      · exact hinv
      · exact htook.inv
    · exact h.shop.others_step hshop fun hi => by cases hi
  · obtain ⟨c, took⟩ := h.worker_took ha hs
    exact h.worker_next took

end JobPool

/-- The invariant holds along every run. -/
theorem jobPools_invariant {rt : Runtime} : (jobPools rt).Invariant (JobPool.Inv rt) :=
  fun _ _ _ h hs => h.step hs

/-! ## Jobs stay -/

/-- Every job of `db` is in `db'`. -/
def KeepsJobs (db db' : Database) : Prop := ∀ r ∈ db.jobQueue, ∃ r' ∈ db'.jobQueue, r'.id = r.id

theorem Marks.keepsJobs {db db' : Database} (h : Marks db db') : KeepsJobs db db' := by
  intro r hr
  have hid : r.id ∈ db'.jobQueue.map Job.id := by
    rw [h.ids]
    exact List.mem_map_of_mem hr
  exact List.mem_map.mp hid

namespace JobPool

variable {rt : Runtime} {s₀ s s' : JobPool} {k : ℕ} {worker : String}

theorem Inv.keepsJobs (h : s.Inv rt) {a : PoolEvent} (hs : s.step rt a = some s') :
    KeepsJobs s.db.committed s'.db.committed := by
  rcases ha : a.worker with _ | k
  · obtain ⟨b, shop, hshop, rfl⟩ := step_of_checkout ha hs
    change KeepsJobs s.shop.db.committed shop.db.committed
    rcases h.shop.committed_step hshop with heq | ⟨p, x, _, heq, _⟩
    · rw [heq]
      exact fun r hr => ⟨r, hr, rfl⟩
    · rw [heq]
      exact fun r hr => ⟨r, List.mem_append_left _ hr, rfl⟩
  · obtain ⟨c, took⟩ := h.worker_took ha hs
    exact took.marks.keepsJobs

theorem keepsJobs_run {as : List PoolEvent} (h : s.Inv rt)
    (hrun : (jobPools rt).run s as = some s') : KeepsJobs s.db.committed s'.db.committed := by
  refine jobPools_invariant.run_rel (R := fun s s' => KeepsJobs s.db.committed s'.db.committed)
    (fun s r hr => ⟨r, hr, rfl⟩) ?_ (fun s a s' h hs => Inv.keepsJobs h hs) h hrun
  intro a b c hab hbc r hr
  obtain ⟨r', hr', hid⟩ := hab r hr
  obtain ⟨r'', hr'', hid'⟩ := hbc r' hr'
  exact ⟨r'', hr'', hid'.trans hid⟩

/-! ## When a worker returns -/

/-- A statement of a worker moves this worker on, to the end only from the count. -/
theorem exec_status (s : JobPool) (k : ℕ) (worker : String) (pc : WorkerPc) :
    ∃ st, (s.exec k worker pc).workers = Function.update s.workers k (some ⟨worker, st⟩) ∧
      (st = .ended .returned → pc = .count ∧ newJobs s.db.committed = []) := by
  cases pc with
  | lockRow left =>
    cases left with
    | nil => exact ⟨_, rfl, fun h => by cases h⟩
    | cons id left =>
      simp only [JobPool.exec]
      split_ifs
      · split <;> exact ⟨_, rfl, fun h => by cases h⟩
      · exact ⟨_, rfl, fun h => by cases h⟩
  | count =>
    simp only [JobPool.exec]
    split_ifs with hzero
    · exact ⟨_, rfl, fun _ => ⟨trivial, List.length_eq_zero_iff.mp hzero⟩⟩
    · exact ⟨_, rfl, fun h => by cases h⟩
  | _ => exact ⟨_, rfl, fun h => by cases h⟩

/-- An event of a worker moves this worker on. -/
theorem step_status {a : PoolEvent} (ha : a.worker = some k) (hs : s.step rt a = some s') :
    ∃ w st, s'.workers = Function.update s.workers k (some ⟨w, st⟩) ∧
      (st = .ended .returned → a = .exec k ∧ s.workers k = some ⟨w, .running .count⟩ ∧
        newJobs s.db.committed = []) := by
  cases a with
  | checkout a => cases ha
  | exec k' =>
    obtain rfl := Option.some.inj ha
    simp only [JobPool.step] at hs
    split at hs
    · rename_i w pc hc
      obtain rfl := Option.some.inj hs
      obtain ⟨st, hworkers, hend⟩ := exec_status s k' w pc
      refine ⟨w, st, hworkers, fun hst => ?_⟩
      obtain ⟨rfl, hnone⟩ := hend hst
      exact ⟨rfl, hc, hnone⟩
    · cases hs
  | runWorker k' _ | fail k' | crash k' | loseAnswer k' =>
    obtain rfl := Option.some.inj ha
    simp only [JobPool.step] at hs
    split at hs
    · obtain rfl := Option.some.inj hs
      exact ⟨_, _, rfl, fun h => by cases h⟩
    · cases hs

/-- What has ended takes no step. -/
theorem step_ended {a : PoolEvent} {o : WorkerOutcome}
    (hc : s.workers k = some ⟨worker, .ended o⟩) (hs : s.step rt a = some s') :
    a.worker ≠ some k := by
  intro ha
  cases a with
  | checkout a => cases ha
  | _ =>
    obtain rfl := Option.some.inj ha
    simp only [JobPool.step, hc] at hs
    cases hs

/-- **A worker that has returned** has returned already, or its count found no new row. -/
theorem returned_step {a : PoolEvent} (hs : s.step rt a = some s')
    (hc : s'.workers k = some ⟨worker, .ended .returned⟩) :
    s.workers k = some ⟨worker, .ended .returned⟩ ∨
      (a = .exec k ∧ s.workers k = some ⟨worker, .running .count⟩ ∧
        newJobs s.db.committed = []) := by
  rcases ha : a.worker with _ | k'
  · obtain ⟨b, shop, _, rfl⟩ := step_of_checkout ha hs
    exact .inl hc
  · obtain ⟨w, st, hworkers, hend⟩ := step_status ha hs
    rw [hworkers] at hc
    rcases Slots.found_cases_some hc with ⟨rfl, hcall⟩ | ⟨-, hold⟩
    · obtain ⟨rfl, rfl⟩ := WorkerCall.mk.inj hcall
      exact .inr (hend rfl)
    · exact .inl hold

/-- At an instant of the run after the last claim of worker `k`, every committed job was
done, and with it every job committed before. -/
def Drained (rt : Runtime) (s₀ : JobPool) (as : List PoolEvent) (k : ℕ) (worker : String) : Prop :=
  ∃ as₁ as₂ r, as = as₁ ++ .exec k :: as₂ ∧ (jobPools rt).run s₀ as₁ = some r ∧
    r.workers k = some ⟨worker, .running .count⟩ ∧ (∀ a ∈ as₂, a.worker ≠ some k) ∧
    (∀ j ∈ r.db.committed.jobQueue, j.ProcessedOnce) ∧
    ∀ bs₁ bs₂ q, as₁ = bs₁ ++ bs₂ → (jobPools rt).run s₀ bs₁ = some q →
      ∀ j ∈ q.db.committed.jobQueue, ∃ j' ∈ r.db.committed.jobQueue, j'.id = j.id ∧ j'.ProcessedOnce

/-- The count of a worker sees the jobs that others still hold. -/
theorem drained_of_count (h₀ : s₀.Inv rt) {as : List PoolEvent}
    (hrun : (jobPools rt).run s₀ as = some s) (hc : s.workers k = some ⟨worker, .running .count⟩)
    (hnone : newJobs s.db.committed = []) : Drained rt s₀ (as ++ [.exec k]) k worker := by
  have hinv := jobPools_invariant.run h₀ hrun
  have honce : ∀ j ∈ s.db.committed.jobQueue, j.ProcessedOnce := by
    intro j hj
    rcases hinv.jobs.settled j hj with hfresh | honce
    · have hmem : j ∈ newJobs s.db.committed :=
        List.mem_filter.mpr ⟨hj, decide_eq_true hfresh.1⟩
      rw [hnone] at hmem
      exact absurd hmem List.not_mem_nil
    · exact honce
  refine ⟨as, [], s, rfl, hrun, hc, fun a ha => absurd ha List.not_mem_nil, honce, ?_⟩
  rintro bs₁ bs₂ q rfl hq j hj
  obtain ⟨q', hq', hrest⟩ := System.run_append_eq_some hrun
  obtain rfl := Option.some.inj (hq.symm.trans hq')
  obtain ⟨j', hj', hid⟩ := keepsJobs_run (jobPools_invariant.run h₀ hq) hrest j hj
  exact ⟨j', hj', hid, honce j' hj'⟩

theorem Drained.snoc {as : List PoolEvent} {a : PoolEvent} (h : Drained rt s₀ as k worker)
    (ha : a.worker ≠ some k) : Drained rt s₀ (as ++ [a]) k worker := by
  obtain ⟨as₁, as₂, r, rfl, hr, hc, hafter, hrest⟩ := h
  refine ⟨as₁, as₂ ++ [a], r, by simp, hr, hc, ?_, hrest⟩
  intro b hb
  rcases List.mem_append.mp hb with hb | hb
  · exact hafter b hb
  · obtain rfl := List.mem_singleton.mp hb
    exact ha

/-- **A worker returns on an empty queue.** -/
theorem returned_drained (h₀ : s₀.Start) {as : List PoolEvent}
    (hrun : (jobPools rt).run s₀ as = some s)
    (hc : s.workers k = some ⟨worker, .ended .returned⟩) : Drained rt s₀ as k worker := by
  refine System.run_induction
    (J := fun as s => s.workers k = some ⟨worker, .ended .returned⟩ → Drained rt s₀ as k worker)
    ?_ ?_ hrun hc
  · intro hc
    rw [h₀.workers k] at hc
    cases hc
  · intro as t a t' hrun ih hs hc
    rcases returned_step hs hc with hc | ⟨rfl, hc, hnone⟩
    · exact (ih hc).snoc (step_ended hc hs)
    · exact drained_of_count h₀.inv hrun hc hnone

end JobPool

/-! ## Exactly once -/

/-- **Each job is processed exactly once**, whatever workers and checkouts do, and a worker
returns only when nothing is left to claim. -/
theorem workers_process_once {rt : Runtime} {s₀ s : JobPool} {as : List PoolEvent}
    (h₀ : s₀.Start) (hrun : (jobPools rt).run s₀ as = some s) :
    (∀ r ∈ s.db.committed.jobQueue,
      (r.status = .new ∧ r.processed = 0 ∧ r.worker = none) ∨
        (r.status = .done ∧ r.processed = 1 ∧ r.worker.isSome)) ∧
      (∀ r ∈ s.db.committed.jobQueue, r.processed ≤ 1) ∧
      ∀ k worker, s.workers k = some ⟨worker, .ended .returned⟩ →
        JobPool.Drained rt s₀ as k worker := by
  have hsettled := (jobPools_invariant.run h₀.inv hrun).jobs.settled
  refine ⟨hsettled, ?_, fun k worker hc => JobPool.returned_drained h₀ hrun hc⟩
  intro r hr
  rcases hsettled r hr with hfresh | honce
  · rw [hfresh.2.1]
    exact Nat.zero_le 1
  · exact honce.2.1.le

/-- A job for an order, and a place for workers. -/
def demoPool : JobPool where
  shop :=
    { demoShop with
      db := Engine.idle
        { demoShop.db.committed with
          orders := [⟨1, 1, "buyer@example.com", .paid, 1050⟩]
          jobQueue := [Runtime.jobRow 1 1] }
      nextOrder := 2
      nextJob := 2 }
  workers := fun _ => none

theorem demoPool_start : demoPool.Start where
  shop :=
    { idle := rfl
      wellFormed :=
        { products := demoShop_start.wellFormed.products
          users := demoShop_start.wellFormed.users
          keys := fun _ _ hv => by cases hv
          orders := List.nodup_singleton _
          items := fun _ hit => absurd hit List.not_mem_nil
          outbox := List.nodup_nil }
      sequence := by
        intro o ho
        obtain rfl := List.mem_singleton.mp ho
        exact Nat.lt_succ_self 1
      calls := fun _ => rfl }
  fresh := by
    intro r hr
    obtain rfl := List.mem_singleton.mp hr
    exact ⟨rfl, rfl, rfl⟩
  distinct := List.nodup_singleton _
  sequence := by
    intro r hr
    obtain rfl := List.mem_singleton.mp hr
    exact Nat.lt_succ_self 1
  workers := fun _ => rfl

/-- Worker 1 finds nothing free while worker 0 holds the job, counts it, and takes it when
worker 0 has died; a checkout adds a job meanwhile. -/
def demoPoolRun : List PoolEvent :=
  [.runWorker 0 "w1", .runWorker 1 "w2", .exec 0, .exec 0, .exec 1, .exec 1, .exec 1, .exec 1,
    .exec 1, .exec 0, .crash 0] ++
  (demoCall 0 ⟨"1", "1", 1, none⟩ 7 11).map .checkout ++
  List.replicate 4 (.exec 1) ++ List.replicate 4 (.exec 1) ++ List.replicate 4 (.exec 1)

theorem demoPoolRun_processes_once :
    ∃ s, (jobPools (demoRuntime .exact)).run demoPool demoPoolRun = some s ∧
      s.db.committed.jobQueue.length = 2 ∧
      ((∀ r ∈ s.db.committed.jobQueue,
        (r.status = .new ∧ r.processed = 0 ∧ r.worker = none) ∨
          (r.status = .done ∧ r.processed = 1 ∧ r.worker.isSome)) ∧
        (∀ r ∈ s.db.committed.jobQueue, r.processed ≤ 1) ∧
        ∀ k worker, s.workers k = some ⟨worker, .ended .returned⟩ →
          JobPool.Drained (demoRuntime .exact) demoPool demoPoolRun k worker) ∧
      JobPool.Drained (demoRuntime .exact) demoPool demoPoolRun 1 "w2" := by
  have hsome : ((jobPools (demoRuntime .exact)).run demoPool demoPoolRun).any (fun s =>
      decide (s.workers 1 = some ⟨"w2", .ended .returned⟩ ∧
        s.db.committed.jobQueue.length = 2)) = true := by
    decide +kernel
  obtain ⟨s, hrun, hs⟩ := (Option.any_eq_true _ _).mp hsome
  obtain ⟨hreturned, hlength⟩ := of_decide_eq_true hs
  have honce := workers_process_once demoPool_start hrun
  exact ⟨s, hrun, hlength, honce, honce.2.2 1 "w2" hreturned⟩

end Marketplace
