import Marketplace.CheckoutRun

/-!
# The job queue of a shop

What checkouts do to `job_queue`: they insert fresh jobs, under ids drawn from the
identity sequence. An id is drawn once, so no two jobs have the same, whether they
are committed or not; `Shop.Jobs` says so, and every step of a checkout keeps it.
-/

namespace Marketplace

/-! ## Jobs -/

/-- A job as it is inserted. -/
def Job.Fresh (r : Job) : Prop := r.status = .new ∧ r.processed = 0 ∧ r.worker = none

/-- A job that one worker has processed once. -/
def Job.ProcessedOnce (r : Job) : Prop := r.status = .done ∧ r.processed = 1 ∧ r.worker.isSome

/-- The jobs these changes insert. -/
def insertedJobs (log : List Change) : List Job :=
  log.filterMap fun
    | .insertJob row => some row
    | _ => none

/-- A change a checkout may make to the job queue. -/
def Change.OfCheckout : Change → Prop
  | .insertJob row => row.Fresh
  | .setJobDone _ _ => False
  | _ => True

@[simp] theorem insertedJobs_append (log log' : List Change) :
    insertedJobs (log ++ log') = insertedJobs log ++ insertedJobs log' :=
  List.filterMap_append ..

/-- The changes of a checkout append their jobs to the queue. -/
theorem jobQueue_foldl {cs : List Change} (h : ∀ c ∈ cs, c.OfCheckout) (db : Database) :
    (cs.foldl Database.redo db).jobQueue = db.jobQueue ++ insertedJobs cs := by
  induction cs generalizing db with
  | nil => exact (List.append_nil _).symm
  | cons c cs ih =>
    rw [List.foldl_cons, ih fun c' hc' => h c' (List.mem_cons_of_mem _ hc')]
    have hc := h c (List.mem_cons_self ..)
    cases c with
    | insertJob row => exact List.append_assoc ..
    | setJobDone id worker => exact hc.elim
    | _ => rfl

theorem fresh_of_inserted {log : List Change} (h : ∀ c ∈ log, c.OfCheckout) {r : Job}
    (hr : r ∈ insertedJobs log) : r.Fresh := by
  obtain ⟨c, hc, hcr⟩ := List.mem_filterMap.mp hr
  split at hcr
  · obtain rfl := Option.some.inj hcr
    exact h _ hc
  · cases hcr

/-! ## One step of a checkout -/

/-- What a step of call `i` does to its log, the sequence and the committed state. -/
inductive JobStep (s s' : Shop) (i : ℕ) : Prop
  | keeps (hcommitted : s'.db.committed = s.db.committed) (hnext : s'.nextJob = s.nextJob)
    (hlog : s'.db.log (.checkout i) = s.db.log (.checkout i) ∨ s'.db.log (.checkout i) = [])
  | writes (c : Change) (hcommitted : s'.db.committed = s.db.committed)
    (hnext : s'.nextJob = s.nextJob)
    (hlog : s'.db.log (.checkout i) = s.db.log (.checkout i) ++ [c])
    (hc : c.OfCheckout) (hnone : insertedJobs [c] = [])
  | inserts (orderId : OrderId) (hcommitted : s'.db.committed = s.db.committed)
    (hnext : s'.nextJob = s.nextJob + 1)
    (hlog : s'.db.log (.checkout i) =
      s.db.log (.checkout i) ++ [.insertJob (Runtime.jobRow s.nextJob orderId)])
  | commits (hcommitted : s'.db.committed = s.db.view (.checkout i))
    (hnext : s'.nextJob = s.nextJob) (hlog : s'.db.log (.checkout i) = [])

section Steps

variable {rt : Runtime} {s s' : Shop} {i : ℕ} {p : CheckoutParams}

theorem jobStep_finish {s₁ : Shop} {o : Outcome}
    (hcommitted : s₁.db.committed = s.db.committed) (hnext : s₁.nextJob = s.nextJob) :
    JobStep s (s₁.finish i p o) i :=
  .keeps hcommitted hnext (.inr (Function.update_self ..))

theorem jobStep_goto {pc : Pc} : JobStep s (s.goto i p pc) i :=
  .keeps rfl rfl (.inl rfl)

theorem jobStep_write {s₁ : Shop} {c : Change} {pc : Pc}
    (hcommitted : s₁.db.committed = s.db.committed) (hlog : s₁.db.log = s.db.log)
    (hnext : s₁.nextJob = s.nextJob) (hc : c.OfCheckout) (hnone : insertedJobs [c] = []) :
    JobStep s ((s₁.write i c).goto i p pc) i := by
  refine .writes c hcommitted hnext ?_ hc hnone
  refine (Engine.write_log_self ..).trans ?_
  rw [hlog]

/-- **What a statement of a checkout does with jobs.** -/
theorem jobStep_exec {d : Draw} {pc : Pc} (hs : s.exec rt i p d pc = some s') : JobStep s s' i := by
  cases pc with
  | claimKey key =>
    simp only [Shop.exec] at hs
    split_ifs at hs
    split at hs
    · obtain rfl := Option.some.inj hs
      exact jobStep_goto
    · obtain rfl := Option.some.inj hs
      exact jobStep_write rfl rfl rfl trivial rfl
  | selectReplay key =>
    obtain rfl := Option.some.inj hs
    exact jobStep_goto
  | rollbackReplay prev =>
    rcases prev with _ | ⟨orderId, total⟩
    · obtain rfl := Option.some.inj hs
      exact jobStep_finish rfl rfl
    · obtain rfl := Option.some.inj hs
      exact jobStep_finish rfl rfl
  | scanStock =>
    simp only [Shop.exec] at hs
    split at hs
    · obtain rfl := Option.some.inj hs
      exact jobStep_finish rfl rfl
    · split_ifs at hs
      · split at hs <;> obtain rfl := Option.some.inj hs <;> exact jobStep_goto
      · obtain rfl := Option.some.inj hs
        exact jobStep_finish rfl rfl
  | lockStock productId =>
    simp only [Shop.exec] at hs
    split_ifs at hs
    split at hs
    · obtain rfl := Option.some.inj hs
      exact jobStep_goto
    · split_ifs at hs
      · obtain rfl := Option.some.inj hs
        exact jobStep_write rfl rfl rfl trivial rfl
      · obtain rfl := Option.some.inj hs
        exact jobStep_finish rfl rfl
  | rollbackFailure reason =>
    obtain rfl := Option.some.inj hs
    exact jobStep_finish rfl rfl
  | scanBalance unitPrice =>
    simp only [Shop.exec] at hs
    split at hs
    · obtain rfl := Option.some.inj hs
      exact jobStep_finish rfl rfl
    · split at hs <;> obtain rfl := Option.some.inj hs <;> exact jobStep_goto
  | lockBalance unitPrice buyerId =>
    simp only [Shop.exec] at hs
    split_ifs at hs
    split at hs
    · obtain rfl := Option.some.inj hs
      exact jobStep_goto
    · split_ifs at hs
      · obtain rfl := Option.some.inj hs
        exact jobStep_write rfl rfl rfl trivial rfl
      · obtain rfl := Option.some.inj hs
        exact jobStep_finish rfl rfl
  | selectEmail unitPrice buyerId =>
    obtain rfl := Option.some.inj hs
    exact jobStep_goto
  | insertOrder unitPrice buyerId customerEmail =>
    simp only [Shop.exec] at hs
    split_ifs at hs
    · obtain rfl := Option.some.inj hs
      exact jobStep_write rfl rfl rfl trivial rfl
    · obtain rfl := Option.some.inj hs
      exact jobStep_finish rfl rfl
  | insertItem unitPrice orderId =>
    simp only [Shop.exec] at hs
    split at hs
    · obtain rfl := Option.some.inj hs
      exact jobStep_finish rfl rfl
    · split_ifs at hs
      · obtain rfl := Option.some.inj hs
        exact jobStep_write rfl rfl rfl trivial rfl
      · obtain rfl := Option.some.inj hs
        exact jobStep_finish rfl rfl
  | insertJob unitPrice orderId =>
    simp only [Shop.exec] at hs
    split at hs
    · obtain rfl := Option.some.inj hs
      exact .inserts orderId rfl rfl (Engine.write_log_self ..)
    · obtain rfl := Option.some.inj hs
      exact .inserts orderId rfl rfl (Engine.write_log_self ..)
  | setKeyOrder unitPrice orderId =>
    simp only [Shop.exec] at hs
    split at hs
    · cases hs
    · obtain rfl := Option.some.inj hs
      exact jobStep_write rfl rfl rfl trivial rfl
  | insertOutbox unitPrice orderId =>
    simp only [Shop.exec] at hs
    split_ifs at hs
    obtain rfl := Option.some.inj hs
    exact jobStep_write rfl rfl rfl trivial rfl
  | afterOutboxInsert unitPrice orderId =>
    obtain rfl := Option.some.inj hs
    exact jobStep_goto
  | commit unitPrice orderId =>
    obtain rfl := Option.some.inj hs
    exact .commits rfl rfl (Function.update_self ..)

/-- What an event of a checkout does with jobs. -/
theorem jobStep_step {a : CheckoutEvent} (hs : s.step rt a = some s') : JobStep s s' a.id := by
  cases a with
  | call i p =>
    simp only [Shop.step] at hs
    split at hs
    · obtain rfl := Option.some.inj hs
      exact jobStep_goto
    · cases hs
  | exec i d =>
    simp only [Shop.step] at hs
    split at hs
    · exact jobStep_exec hs
    · cases hs
  | fail i | crash i =>
    simp only [Shop.step] at hs
    split at hs
    · obtain rfl := Option.some.inj hs
      exact jobStep_finish rfl rfl
    · cases hs
  | loseAnswer i =>
    simp only [Shop.step] at hs
    split at hs
    · obtain rfl := Option.some.inj hs
      exact .commits rfl rfl (Function.update_self ..)
    · cases hs

end Steps

/-! ## Ids are drawn once -/

/-- The jobs call `i` has inserted and not committed. -/
def Shop.pendingJobs (s : Shop) (i : ℕ) : List Job := insertedJobs (s.db.log (.checkout i))

/-- Jobs have distinct ids below the sequence, and each is fresh or processed once. -/
structure Shop.Jobs (s : Shop) : Prop where
  sequence : ∀ r ∈ s.db.committed.jobQueue, r.id < s.nextJob
  distinct : (s.db.committed.jobQueue.map Job.id).Nodup
  settled : ∀ r ∈ s.db.committed.jobQueue, r.Fresh ∨ r.ProcessedOnce
  log : ∀ i, ∀ c ∈ s.db.log (.checkout i), c.OfCheckout
  pending : ∀ i, ∀ r ∈ s.pendingJobs i, r.id < s.nextJob ∧
    ∀ q ∈ s.db.committed.jobQueue, q.id ≠ r.id
  nodup : ∀ i, ((s.pendingJobs i).map Job.id).Nodup
  disjoint : ∀ i j, i ≠ j → ∀ r ∈ s.pendingJobs i, ∀ q ∈ s.pendingJobs j, r.id ≠ q.id

namespace Shop

variable {rt : Runtime} {s s' : Shop} {i : ℕ}

/-- A step that draws no id and inserts no job into the committed queue. -/
theorem Jobs.keep (h : s.Jobs)
    (hids : s'.db.committed.jobQueue.map Job.id = s.db.committed.jobQueue.map Job.id)
    (hsettled : ∀ r ∈ s'.db.committed.jobQueue, r.Fresh ∨ r.ProcessedOnce)
    (hnext : s'.nextJob = s.nextJob) (hlog : ∀ i, ∀ c ∈ s'.db.log (.checkout i), c.OfCheckout)
    (hpending : ∀ i, List.Sublist (s'.pendingJobs i) (s.pendingJobs i)) : s'.Jobs := by
  have hmem : ∀ r ∈ s'.db.committed.jobQueue, ∃ q ∈ s.db.committed.jobQueue, q.id = r.id := by
    intro r hr
    have hid : r.id ∈ s'.db.committed.jobQueue.map Job.id := List.mem_map_of_mem hr
    rw [hids] at hid
    exact List.mem_map.mp hid
  refine ⟨?_, ?_, hsettled, hlog, ?_, ?_, ?_⟩
  · intro r hr
    obtain ⟨q, hq, hqr⟩ := hmem r hr
    rw [hnext, ← hqr]
    exact h.sequence q hq
  · rw [hids]
    exact h.distinct
  · intro i r hr
    obtain ⟨hlt, hnew⟩ := h.pending i r ((hpending i).subset hr)
    refine ⟨hnext ▸ hlt, fun q hq => ?_⟩
    obtain ⟨q', hq', hqq⟩ := hmem q hq
    rw [← hqq]
    exact hnew q' hq'
  · exact fun i => (h.nodup i).sublist ((hpending i).map _)
  · intro i j hij r hr q hq
    exact h.disjoint i j hij r ((hpending i).subset hr) q ((hpending j).subset hq)

/-- A step of call `i` that draws an id. -/
theorem Jobs.draw (h : s.Jobs) (hcommitted : s'.db.committed = s.db.committed)
    (hnext : s'.nextJob = s.nextJob + 1) {row : Job} (hrow : row.Fresh)
    (hid : row.id = s.nextJob)
    (hself : s'.db.log (.checkout i) = s.db.log (.checkout i) ++ [.insertJob row])
    (hothers : ∀ j, j ≠ i → s'.db.log (.checkout j) = s.db.log (.checkout j)) : s'.Jobs := by
  have hmine : s'.pendingJobs i = s.pendingJobs i ++ [row] := by
    rw [pendingJobs, hself, insertedJobs_append]
    rfl
  have hother : ∀ j, j ≠ i → s'.pendingJobs j = s.pendingJobs j := by
    intro j hj
    rw [pendingJobs, hothers j hj]
    rfl
  -- the id drawn last is above all others
  have habove : ∀ j, ∀ q ∈ s.pendingJobs j, q.id ≠ row.id := by
    intro j q hq heq
    have hlt := (h.pending j q hq).1
    omega
  refine ⟨?_, ?_, ?_, ?_, ?_, ?_, ?_⟩
  · rw [hcommitted, hnext]
    exact fun r hr => Nat.lt_succ_of_lt (h.sequence r hr)
  · rw [hcommitted]
    exact h.distinct
  · rw [hcommitted]
    exact h.settled
  · intro j c hc
    by_cases hj : j = i
    · subst hj
      rw [hself] at hc
      rcases List.mem_append.mp hc with hc | hc
      · exact h.log j c hc
      · obtain rfl := List.mem_singleton.mp hc
        exact hrow
    · rw [hothers j hj] at hc
      exact h.log j c hc
  · intro j r hr
    rw [hcommitted, hnext]
    by_cases hj : j = i
    · subst hj
      rw [hmine] at hr
      rcases List.mem_append.mp hr with hr | hr
      · exact (h.pending j r hr).imp_left Nat.lt_succ_of_lt
      · obtain rfl := List.mem_singleton.mp hr
        refine ⟨by omega, fun q hq heq => ?_⟩
        have hlt := h.sequence q hq
        omega
    · rw [hother j hj] at hr
      exact (h.pending j r hr).imp_left Nat.lt_succ_of_lt
  · intro j
    by_cases hj : j = i
    · subst hj
      rw [hmine, List.map_append, List.map_singleton]
      refine List.Nodup.append (h.nodup j) (List.nodup_singleton _) ?_
      rw [List.disjoint_singleton]
      intro hmem
      obtain ⟨q, hq, hqid⟩ := List.mem_map.mp hmem
      exact habove j q hq hqid
    · rw [hother j hj]
      exact h.nodup j
  · intro j k hjk r hr q hq
    by_cases hj : j = i
    · subst hj
      rw [hother k fun hk => hjk hk.symm] at hq
      rw [hmine] at hr
      rcases List.mem_append.mp hr with hr | hr
      · exact h.disjoint j k hjk r hr q hq
      · obtain rfl := List.mem_singleton.mp hr
        exact fun heq => habove k q hq heq.symm
    · rw [hother j hj] at hr
      by_cases hk : k = i
      · subst hk
        rw [hmine] at hq
        rcases List.mem_append.mp hq with hq | hq
        · exact h.disjoint j k hjk r hr q hq
        · obtain rfl := List.mem_singleton.mp hq
          exact habove j r hr
      · rw [hother k hk] at hq
        exact h.disjoint j k hjk r hr q hq

/-- COMMIT of call `i`. -/
theorem Jobs.commit (h : s.Jobs) (hcommitted : s'.db.committed = s.db.view (.checkout i))
    (hnext : s'.nextJob = s.nextJob) (hself : s'.db.log (.checkout i) = [])
    (hothers : ∀ j, j ≠ i → s'.db.log (.checkout j) = s.db.log (.checkout j)) : s'.Jobs := by
  have hqueue : s'.db.committed.jobQueue = s.db.committed.jobQueue ++ s.pendingJobs i := by
    rw [hcommitted]
    exact jobQueue_foldl (h.log i) _
  have hpending : ∀ j r, r ∈ s'.pendingJobs j → j ≠ i ∧ r ∈ s.pendingJobs j := by
    intro j r hr
    have hj : j ≠ i := by
      rintro rfl
      rw [pendingJobs, hself] at hr
      exact absurd hr List.not_mem_nil
    rw [pendingJobs, hothers j hj] at hr
    exact ⟨hj, hr⟩
  refine ⟨?_, ?_, ?_, ?_, ?_, ?_, ?_⟩
  · rw [hqueue, hnext]
    intro r hr
    rcases List.mem_append.mp hr with hr | hr
    · exact h.sequence r hr
    · exact (h.pending i r hr).1
  · rw [hqueue, List.map_append]
    refine List.Nodup.append h.distinct (h.nodup i) ?_
    intro id hid hid'
    obtain ⟨q, hq, rfl⟩ := List.mem_map.mp hid
    obtain ⟨r, hr, hrq⟩ := List.mem_map.mp hid'
    exact (h.pending i r hr).2 q hq hrq.symm
  · rw [hqueue]
    intro r hr
    rcases List.mem_append.mp hr with hr | hr
    · exact h.settled r hr
    · exact .inl (fresh_of_inserted (h.log i) hr)
  · intro j c hc
    by_cases hj : j = i
    · subst hj
      rw [hself] at hc
      exact absurd hc List.not_mem_nil
    · rw [hothers j hj] at hc
      exact h.log j c hc
  · intro j r hr
    obtain ⟨hj, hr⟩ := hpending j r hr
    rw [hnext, hqueue]
    refine ⟨(h.pending j r hr).1, fun q hq => ?_⟩
    rcases List.mem_append.mp hq with hq | hq
    · exact (h.pending j r hr).2 q hq
    · exact h.disjoint i j (fun hij => hj hij.symm) q hq r hr
  · intro j
    by_cases hj : j = i
    · subst hj
      rw [pendingJobs, hself]
      exact List.nodup_nil
    · rw [pendingJobs, hothers j hj]
      exact h.nodup j
  · intro j k hjk r hr q hq
    exact h.disjoint j k hjk r (hpending j r hr).2 q (hpending k q hq).2

/-- **Every step of a checkout keeps the job queue in order.** -/
theorem Jobs.checkout (h : s.Jobs) (hinv : s.Inv rt) {a : CheckoutEvent}
    (hs : s.step rt a = some s') : s'.Jobs := by
  have hothers : ∀ j, j ≠ a.id → s'.db.log (.checkout j) = s.db.log (.checkout j) :=
    fun j hj => (hinv.others_step hs fun hc => hj (Client.checkout.inj hc)).log
  have hkeep : s'.db.committed = s.db.committed → s'.nextJob = s.nextJob →
      (∀ c ∈ s'.db.log (.checkout a.id), c.OfCheckout) →
      List.Sublist (s'.pendingJobs a.id) (s.pendingJobs a.id) → s'.Jobs := by
    intro hcommitted hnext hlog hsub
    refine h.keep (by rw [hcommitted]) (by rw [hcommitted]; exact h.settled) hnext ?_ ?_
    · intro j c hc
      by_cases hj : j = a.id
      · subst hj
        exact hlog c hc
      · rw [hothers j hj] at hc
        exact h.log j c hc
    · intro j
      by_cases hj : j = a.id
      · subst hj
        exact hsub
      · rw [pendingJobs, hothers j hj]
        exact List.Sublist.refl _
  cases jobStep_step hs with
  | keeps hcommitted hnext hlog =>
    refine hkeep hcommitted hnext ?_ ?_
    · intro c hc
      rcases hlog with hlog | hlog
      · exact h.log _ c (hlog ▸ hc)
      · exact absurd (hlog ▸ hc) List.not_mem_nil
    · rcases hlog with hlog | hlog
      · rw [pendingJobs, hlog]
        exact List.Sublist.refl _
      · rw [pendingJobs, hlog]
        exact List.nil_sublist _
  | writes c hcommitted hnext hlog hc hnone =>
    refine hkeep hcommitted hnext ?_ ?_
    · intro c' hc'
      rw [hlog] at hc'
      rcases List.mem_append.mp hc' with hc' | hc'
      · exact h.log _ c' hc'
      · obtain rfl := List.mem_singleton.mp hc'
        exact hc
    · rw [pendingJobs, hlog, insertedJobs_append, hnone, List.append_nil]
      exact List.Sublist.refl _
  | inserts orderId hcommitted hnext hlog =>
    exact h.draw hcommitted hnext ⟨rfl, rfl, rfl⟩ rfl hlog hothers
  | commits hcommitted hnext hlog => exact h.commit hcommitted hnext hlog hothers

end Shop

end Marketplace
