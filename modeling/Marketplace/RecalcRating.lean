import Marketplace.Run
import Marketplace.Slots

/-!
# Rating recalculations

The queue of `redis/queue.ts`: `enqueueRecalcRating` adds a job whose id is made of the
product, and BullMQ ignores an `add` with the id of a job it has, in whatever state; a
worker takes a waiting job, and a failed attempt waits for its backoff until the attempts
are used up. A finished job is kept for a while, on purpose: its id still deduplicates.

The id says which product, not which change. So a request is served by an execution that
starts after it if it finds no job, or one that is still to be started
(`requests_served`); a request that finds the job running, or finished and kept, is
dropped (`request_while_running_is_dropped`).
-/

namespace Marketplace.RecalcRating

/-- `RecalcRatingData` -/
structure RecalcRatingData where
  productId : String
  failTimes : Option ℕ
  deriving DecidableEq

/-- `DEFAULT_JOB_OPTS.attempts` -/
def attempts : ℕ := 4

/-- `RECALC_RATING` -/
def recalcRating : String := "recalc-rating"

/-- The id under which a product is recalculated. -/
def jobId (productId : String) : String := recalcRating ++ "-" ++ productId

/-- The state of a job in BullMQ. -/
inductive JobState where
  | waiting
  | active
  | delayed
  | completed
  | failed
  deriving DecidableEq

/-- A job. -/
structure Job where
  data : RecalcRatingData
  attemptsMade : ℕ
  state : JobState
  deriving DecidableEq

/-- The jobs that the queue has, by id. -/
abbrev Queue := String → Option Job

/-- What can happen to the queue. -/
inductive Event where
  /-- `enqueueRecalcRating` -/
  | enqueueRecalcRating (data : RecalcRatingData)
  /-- a worker takes the job, and `recalcRating` begins -/
  | start (id : String)
  /-- the handler returns -/
  | complete (id : String)
  /-- the handler throws -/
  | fail (id : String)
  /-- the backoff has passed -/
  | promote (id : String)
  /-- the age of a finished job has passed -/
  | remove (id : String)
  deriving DecidableEq

/-- Give a job another state. -/
def Queue.set (q : Queue) (id : String) (job : Job) (state : JobState) : Queue :=
  Function.update q id (some { job with state })

/-- One event. -/
def Queue.step (q : Queue) : Event → Option Queue
  | .enqueueRecalcRating data =>
    match q (jobId data.productId) with
    | none => some (Function.update q (jobId data.productId) (some ⟨data, 0, .waiting⟩))
    | some _ => some q
  | .start id =>
    match q id with
    | some job => if job.state = .waiting then some (q.set id job .active) else none
    | none => none
  | .complete id =>
    match q id with
    | some job =>
      if job.state = .active then
        some (q.set id { job with attemptsMade := job.attemptsMade + 1 } .completed)
      else none
    | none => none
  | .fail id =>
    match q id with
    | some job =>
      if job.state = .active then
        some (q.set id { job with attemptsMade := job.attemptsMade + 1 }
          (if job.attemptsMade + 1 < attempts then .delayed else .failed))
      else none
    | none => none
  | .promote id =>
    match q id with
    | some job => if job.state = .delayed then some (q.set id job .waiting) else none
    | none => none
  | .remove id =>
    match q id with
    | some job =>
      if job.state = .completed ∨ job.state = .failed then
        some (Function.update q id none)
      else
        none
    | none => none

/-- The queue, from empty. -/
def queues : System Queue Event := ⟨fun q => ∀ id, q id = none, Queue.step⟩

/-! ## What happens to a product -/

/-- What concerns a product: a request, and whether it found a job that was started already; and
the start of an execution. -/
inductive Mark where
  | requested (late : Bool)
  | started
  deriving DecidableEq

/-- A job that has been started, and does not wait for another attempt. -/
def Job.late (job : Job) : Bool := job.state ∈ [.active, .completed, .failed]

/-- What a step says about a product. -/
def marks (product : String) (q : Queue) : Event → List Mark
  | .enqueueRecalcRating data =>
    if data.productId = product then [.requested ((q (jobId product)).any Job.late)] else []
  | .start id => if (q id).any fun job => job.data.productId = product then [.started] else []
  | _ => []

/-- No job of the product is waiting, delayed or active. -/
def Idle (product : String) (q : Queue) : Prop :=
  ∀ id job, q id = some job → job.data.productId = product →
    job.state = .completed ∨ job.state = .failed

/-- The last thing that happened, late requests aside, is the start of an execution. -/
def Served (history : List Mark) : Prop :=
  (history.filter (· ≠ .requested true)).getLast? ≠ some (.requested false)

instance (history : List Mark) : Decidable (Served history) :=
  inferInstanceAs (Decidable (_ ≠ _))

section Requests

variable {q₀ q q' : Queue} {a : Event} {product id : String} {history : List Mark}
  {job : Job} {state : JobState} {as : List Event}

theorem jobId_injective {p p' : String} (h : jobId p = jobId p') : p = p' :=
  (String.append_right_inj _).mp h

/-- A late request asks for nothing. -/
theorem Served.late (h : Served history) : Served (history ++ [.requested true]) := by
  have hsame : (history ++ [Mark.requested true]).filter (· ≠ Mark.requested true) =
      history.filter (· ≠ Mark.requested true) := by
    rw [List.filter_append]
    exact List.append_nil _
  rw [Served, hsame]
  exact h

/-- The start of an execution serves all that was requested before. -/
theorem served_started : Served (history ++ [.started]) := by
  have hlast : (history ++ [Mark.started]).filter (· ≠ Mark.requested true) =
      history.filter (· ≠ Mark.requested true) ++ [Mark.started] := by
    rw [List.filter_append]
    rfl
  rw [Served, hlast, List.getLast?_concat]
  exact fun h => by cases h

/-- Every job is under the id of its product, and a product whose job was started is served. -/
structure Told (product : String) (history : List Mark) (q : Queue) : Prop where
  ids : ∀ id job, q id = some job → id = jobId job.data.productId
  served : (∀ job, q (jobId product) = some job → job.late = true) → Served history

/-- A job of the product is its only job. -/
theorem Told.served_of_late (h : Told product history q) (hjob : q (jobId product) = some job)
    (hlate : job.late = true) : Served history :=
  h.served fun job' hjob' => by
    cases hjob.symm.trans hjob'
    exact hlate

/-- A job is written under its id. -/
theorem Told.ids_update (h : Told product history q) {v : Option Job}
    (hv : ∀ job, v = some job → id = jobId job.data.productId) :
    ∀ id' job, Function.update q id v id' = some job → id' = jobId job.data.productId :=
  fun _ _ => Slots.forall_found (P := fun id (job : Job) => id = jobId job.data.productId) h.ids hv

/-- A job gets another state. -/
theorem Told.set (h : Told product history q) (hjob : q id = some job) {job' : Job}
    (hdata : job'.data = job.data) {history' : List Mark}
    (hother : id ≠ jobId product → history' = history)
    (hserved : id = jobId product → ({ job' with state } : Job).late = true → Served history') :
    Told product history' (q.set id job' state) := by
  refine ⟨h.ids_update fun job₁ h₁ => ?_, fun hlate => ?_⟩
  · obtain rfl := Option.some.inj h₁
    rw [h.ids id job hjob, hdata]
  · by_cases hid : id = jobId product
    · refine hserved hid (hlate _ ?_)
      rw [← hid]
      exact Function.update_self ..
    · rw [hother hid]
      refine h.served fun job₁ h₁ => hlate job₁ ?_
      exact (Function.update_of_ne (Ne.symm hid) ..).trans h₁

/-- **One step** keeps the history true. -/
theorem Told.step (h : Told product history q) (hs : q.step a = some q') :
    Told product (history ++ marks product q a) q' := by
  cases a with
  | enqueueRecalcRating data =>
    simp only [Queue.step] at hs
    by_cases hproduct : data.productId = product
    · subst hproduct
      simp only [marks, if_true]
      split at hs
      · rename_i hnone
        obtain rfl := Option.some.inj hs
        refine ⟨h.ids_update fun job₁ h₁ => ?_, fun hlate => ?_⟩
        · obtain rfl := Option.some.inj h₁
          rfl
        -- the job is new, so not started
        · cases hlate ⟨data, 0, .waiting⟩ (Function.update_self (jobId data.productId) _ q)
      · rename_i job hjob
        obtain rfl := Option.some.inj hs
        refine ⟨h.ids, fun hall => ?_⟩
        -- the job there was started, so all that asked before it is served
        have hlate := hall job hjob
        rw [hjob, Option.any_some, hlate]
        exact (h.served_of_late hjob hlate).late
    · simp only [marks, if_neg hproduct, List.append_nil]
      have hne : jobId product ≠ jobId data.productId :=
        fun heq => hproduct (jobId_injective heq).symm
      split at hs
      · obtain rfl := Option.some.inj hs
        refine ⟨h.ids_update fun job₁ h₁ => ?_,
          fun hlate => h.served fun job₁ h₁ => hlate job₁ ?_⟩
        · obtain rfl := Option.some.inj h₁
          rfl
        · exact (Function.update_of_ne hne ..).trans h₁
      · obtain rfl := Option.some.inj hs
        exact h
  | start id =>
    simp only [Queue.step] at hs
    split at hs
    · rename_i job hjob
      split_ifs at hs with hwaiting
      obtain rfl := Option.some.inj hs
      refine h.set hjob rfl (fun hid => ?_) fun hid hlate => ?_
      · have hproduct : job.data.productId ≠ product := by
          rintro rfl
          exact hid (h.ids id job hjob)
        simp only [marks, hjob, Option.any_some, decide_eq_false hproduct, Bool.false_eq_true,
          if_false, List.append_nil]
      · have hproduct : job.data.productId = product :=
          jobId_injective ((h.ids id job hjob).symm.trans hid)
        simp only [marks, hjob, Option.any_some, decide_eq_true hproduct, if_true]
        exact served_started
    · cases hs
  | complete id | fail id =>
    simp only [Queue.step] at hs
    split at hs
    · rename_i job hjob
      split_ifs at hs with hactive
      all_goals
        obtain rfl := Option.some.inj hs
        change Told product (history ++ []) _
        rw [List.append_nil]
        refine h.set hjob ?_ (fun _ => rfl) fun hid _ => ?_
        · rfl
        refine h.served_of_late (hid ▸ hjob) ?_
        rw [Job.late, hactive]
        rfl
    · cases hs
  | promote id =>
    simp only [Queue.step] at hs
    split at hs
    · rename_i job hjob
      split_ifs at hs
      obtain rfl := Option.some.inj hs
      change Told product (history ++ []) _
      rw [List.append_nil]
      -- the job waits again, so it serves nothing yet
      exact h.set hjob rfl (fun _ => rfl) fun _ hlate => by cases hlate
    · cases hs
  | remove id =>
    simp only [Queue.step] at hs
    split at hs
    · rename_i job hjob
      split_ifs at hs with hfinished
      obtain rfl := Option.some.inj hs
      change Told product (history ++ []) _
      rw [List.append_nil]
      refine ⟨h.ids_update fun job₁ h₁ => ?_, fun hall => ?_⟩
      · cases h₁
      · by_cases hid : id = jobId product
        · refine h.served_of_late (hid ▸ hjob) ?_
          rcases hfinished with hstate | hstate <;> rw [Job.late, hstate] <;> rfl
        · refine h.served fun job₁ h₁ => hall job₁ ?_
          exact (Function.update_of_ne (Ne.symm hid) ..).trans h₁
    · cases hs

/-- **No request in time is lost.** When no job of the product is waiting, delayed or active, the
last execution of its recalculation started after every request that found no job of it, or one
that was waiting or delayed. -/
theorem requests_served (h₀ : ∀ id, q₀ id = none) (hrun : queues.run q₀ as = some q)
    (hidle : Idle product q) : Served (queues.trace (marks product) q₀ as) := by
  have htold : Told product (queues.trace (marks product) q₀ as) q := by
    refine System.run_induction (M := queues)
      (J := fun as q => Told product (queues.trace (marks product) q₀ as) q) ?_ ?_ hrun
    · refine ⟨fun id job hjob => ?_, fun _ h => by cases h⟩
      cases (h₀ id).symm.trans hjob
    · intro as t a t' ht ih hs
      rw [System.trace_snoc ht]
      exact ih.step hs
  refine htold.served fun job hjob => ?_
  have hproduct : job.data.productId = product := (jobId_injective (htold.ids _ job hjob)).symm
  rcases hidle _ job hjob hproduct with hstate | hstate <;> rw [Job.late, hstate] <;> rfl

end Requests

/-- A request, its execution, and a second request. -/
def demoRating (second : List Event) : List Event :=
  [.enqueueRecalcRating ⟨"42", none⟩, .start (jobId "42")] ++ second ++ [.complete (jobId "42")]

theorem demoRating_served : ∃ q, queues.run (fun _ => none) (demoRating []) = some q ∧
    q (jobId "42") = some ⟨⟨"42", none⟩, 1, .completed⟩ ∧
    Served (queues.trace (marks "42") (fun _ => none) (demoRating [])) := by
  refine ⟨_, rfl, rfl, requests_served (fun _ => rfl) rfl fun id job hjob _ => ?_⟩
  by_cases hid : id = jobId "42"
  · subst hid
    cases hjob
    exact .inl rfl
  · simp [Queue.set, Function.update_of_ne hid] at hjob

/-- A review arrives while the rating is being recalculated: its request is dropped, and when the
job is done, nothing is left that would be started. -/
theorem request_while_running_is_dropped : ∃ q,
    queues.run (fun _ => none) (demoRating [.enqueueRecalcRating ⟨"42", none⟩]) = some q ∧
    Idle "42" q ∧
    queues.trace (marks "42") (fun _ => none) (demoRating [.enqueueRecalcRating ⟨"42", none⟩]) =
      [.requested false, .started, .requested true] := by
  refine ⟨_, rfl, fun id job hjob _ => ?_, by decide +kernel⟩
  by_cases hid : id = jobId "42"
  · subst hid
    cases hjob
    exact .inl rfl
  · simp [Queue.set, Function.update_of_ne hid] at hjob

end Marketplace.RecalcRating
