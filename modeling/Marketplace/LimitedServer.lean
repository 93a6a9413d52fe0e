import Marketplace.RetryAfter

/-!
# A server behind the limiter

`rateLimitMiddleware`: what becomes of a request when its client is checked. A request is
let through, or answered 429 with the seconds to wait; and when `eval` throws, the options say
which: it is let through (`failOpen`), or the error is handed on.

`eval` throws when Redis is not reached, and also when Redis has run the script and only the
reply is lost: then the request may hold a place in the window that nobody told it of. So
what the server promises is said of the places (`Served.admitted`) and of the answers
apart. With every reply in time the two are one.
-/

namespace Marketplace.LimitedServer

open SlidingWindow

/-- The answer of the middleware to a request over the limit. -/
structure TooMany where
  statusCode : ℕ
  /-- `Retry-After` -/
  retryAfter : String
  contentType : String
  type : String
  title : String
  status : ℕ
  detail : String
  deriving DecidableEq

/-- What becomes of a request. -/
inductive Answer where
  /-- `next()` -/
  | next
  | tooMany (response : TooMany)
  /-- `next(e)` -/
  | error (message : String)
  deriving DecidableEq

/-- 429, with the seconds to wait -/
def tooManyRequests (retryAfterSec : ℤ) : TooMany where
  statusCode := 429
  retryAfter := toString retryAfterSec
  contentType := "application/problem+json"
  type := "about:blank#rate-limited"
  title := "Too Many Requests"
  status := 429
  detail := "Ліміт вичерпано, повторіть через " ++ toString retryAfterSec ++ " с"

/-- `rateLimitMiddleware`, with the result of `check`. -/
def answerOf : Except String RateLimitResult → Answer
  | .ok r => if r.allowed then .next else .tooMany (tooManyRequests r.retryAfterSec)
  | .error e => .error e

/-- How `eval` goes. -/
inductive Eval where
  | replied
  /-- Redis is not reached -/
  | unreachable (message : String)
  /-- Redis has run the script, and the reply is lost -/
  | lost (message : String)
  deriving DecidableEq

/-- A request that was served. -/
structure Served where
  clientId : String
  /-- the time of Redis, in ms -/
  time : ℤ
  eval : Eval
  /-- it holds a place in the window of its client -/
  admitted : Bool
  answer : Answer
  deriving DecidableEq

/-- The limiters' Redis, and what was served. -/
structure State where
  rate : RateState
  served : List Served

/-- What can happen. -/
inductive Event where
  /-- a request of a client comes to a pod -/
  | request (pod : ℕ) (clientId uuid : String) (eval : Eval)
  /-- time passes -/
  | tick (us : ℕ)
  /-- Redis deletes a key whose ttl has ended -/
  | expire (key : String)
  deriving DecidableEq

/-- What `check` returns or throws. -/
def checked (opts : RateLimitOptions) (r : Redis) (clientId uuid : String) :
    Eval → Except String RateLimitResult
  | .replied => (opts.check r clientId uuid).2
  | .unreachable message | .lost message => opts.result (.error message)

/-- Redis has run the script. -/
def Eval.ran : Eval → Bool
  | .unreachable _ => false
  | .replied | .lost _ => true

namespace State

/-- One event. -/
def step (opts : RateLimitOptions) (s : State) : Event → Option State
  | .request pod clientId uuid eval =>
    let request : Served :=
      { clientId := clientId
        time := s.rate.redis.nowMs
        eval := eval
        admitted := eval.ran && (opts.made s.rate.redis clientId uuid).allowed
        answer := answerOf (checked opts s.rate.redis clientId uuid eval) }
    if eval.ran then
      (s.rate.step opts (.check pod clientId uuid)).map fun rate =>
        { rate := rate, served := s.served ++ [request] }
    else some { s with served := s.served ++ [request] }
  | .tick us => (s.rate.step opts (.tick us)).map fun rate => { s with rate := rate }
  | .expire key => (s.rate.step opts (.expire key)).map fun rate => { s with rate := rate }

end State

/-- The server, from a Redis in which no client has a key. -/
def server (opts : RateLimitOptions) : System State Event where
  start s := (rateLimiters opts).start s.rate ∧ s.served = []
  step := State.step opts

/-! ## What is promised -/

/-- The times of the requests of a client that hold a place. -/
def placesOf (clientId : String) (served : List Served) : List ℤ :=
  (served.filter fun r => decide (r.clientId = clientId) && r.admitted).map Served.time

/-- The times of the requests of a client that were let through. -/
def passedOf (clientId : String) (served : List Served) : List ℤ :=
  (served.filter fun r => decide (r.clientId = clientId) && decide (r.answer = .next)).map
    Served.time

/-- The times of the requests of a client for which `eval` threw. -/
def failedOf (clientId : String) (served : List Served) : List ℤ :=
  (served.filter fun r => decide (r.clientId = clientId) && decide (r.eval ≠ .replied)).map
    Served.time

/-- The request is served as the options promise, after these. -/
structure Served.Meets (opts : RateLimitOptions) (earlier : List Served) (r : Served) : Prop where
  /-- with the reply in time it is let through if its window has room, and else told to wait, some
  seconds and no longer than a window -/
  replied : r.eval = .replied →
    if (within (opts.windowMs : ℤ) r.time (placesOf r.clientId earlier)).length < opts.limit then
      r.answer = .next ∧ r.admitted = true
    else r.admitted = false ∧ ∃ sec : ℤ, 1 ≤ sec ∧ (sec - 1) * 1000 < opts.windowMs ∧
      r.answer = .tooMany (tooManyRequests sec)
  /-- without it, the options say what becomes of it -/
  failed : r.eval ≠ .replied →
    if opts.failOpen.getD true then r.answer = .next else ∃ e, r.answer = .error e
  /-- and in any case it has a place only if there was room -/
  admitted : r.admitted = true →
    (within (opts.windowMs : ℤ) r.time (placesOf r.clientId earlier)).length < opts.limit

section

variable {opts : RateLimitOptions} {s s' : State} {rate rate' : RateState} {r : Served}
  {served served' : List Served} {clientId uuid client : String} {pod : ℕ} {eval : Eval}

/-! ## One step -/

/-- Everything a step can do: the script runs for a request, a request does not reach Redis, or
the limiters go on without one. -/
theorem step_cases {ev : Event} (hstep : s.step opts ev = some s') :
    (∃ pod clientId uuid eval rate, eval.ran = true ∧
      s.rate.step opts (.check pod clientId uuid) = some rate ∧
      s' = { rate := rate
             served := s.served ++
               [{ clientId := clientId, time := s.rate.redis.nowMs, eval := eval
                  admitted := (opts.made s.rate.redis clientId uuid).allowed
                  answer := answerOf (checked opts s.rate.redis clientId uuid eval) }] }) ∨
    (∃ clientId message,
      s' = { s with served := s.served ++
              [{ clientId := clientId, time := s.rate.redis.nowMs, eval := .unreachable message
                 admitted := false, answer := answerOf (opts.result (.error message)) }] }) ∨
    ∃ a rate, s.rate.step opts a = some rate ∧ s' = { s with rate := rate } ∧
      rate.checks = s.rate.checks ∧
      ∀ key, s.rate.redis.keys key = none → rate.redis.keys key = none := by
  cases ev with
  | request pod clientId uuid eval =>
    simp only [State.step] at hstep
    split_ifs at hstep with hran
    · obtain ⟨rate, hrate, rfl⟩ := Option.map_eq_some_iff.mp hstep
      refine .inl ⟨pod, clientId, uuid, eval, rate, hran, hrate, ?_⟩
      rw [hran, Bool.true_and]
    · obtain rfl := Option.some.inj hstep
      cases eval with
      | unreachable message => exact .inr (.inl ⟨clientId, message, rfl⟩)
      | replied | lost message => exact absurd rfl hran
  | tick us =>
    simp only [State.step] at hstep
    obtain ⟨rate, hrate, rfl⟩ := Option.map_eq_some_iff.mp hstep
    refine .inr (.inr ⟨_, rate, hrate, rfl, ?_⟩)
    obtain rfl := Option.some.inj hrate
    exact ⟨rfl, fun _ hnone => hnone⟩
  | expire key =>
    simp only [State.step] at hstep
    obtain ⟨rate, hrate, rfl⟩ := Option.map_eq_some_iff.mp hstep
    refine .inr (.inr ⟨_, rate, hrate, rfl, ?_⟩)
    simp only [RateState.step] at hrate
    split_ifs at hrate
    obtain rfl := Option.some.inj hrate
    refine ⟨rfl, fun key' hnone => ?_⟩
    simp only [Redis.del]
    split_ifs
    · rfl
    · exact hnone

/-! ## The places are the limiter's -/

theorem placesOf_append (client : String) (served served' : List Served) :
    placesOf client (served ++ served') = placesOf client served ++ placesOf client served' := by
  simp [placesOf]

/-- An allowed check is let through. -/
theorem allowed_answer {redis : Redis}
    (hallowed : (opts.made redis clientId uuid).allowed = true) :
    answerOf (opts.check redis clientId uuid).2 = .next := by
  rcases hresult : (opts.check redis clientId uuid).2 with e | result
  · simp [RateCheck.allowed, RateLimitOptions.made, hresult] at hallowed
  · have hnext : result.allowed = true := by
      simpa [RateCheck.allowed, RateLimitOptions.made, hresult] using hallowed
    exact if_pos hnext

/-- A refused check is told to wait for some seconds, the last of which begins before the window
has passed. -/
theorem refused_answer (hlimit : 1 ≤ opts.limit) (hwindow : 1 ≤ opts.windowMs)
    (hrate : rate.Inv opts) (hordered : rate.redis.Ordered (opts.key clientId))
    (hstep : rate.step opts (.check pod clientId uuid) = some rate')
    (hdenied : (opts.made rate.redis clientId uuid).allowed = false) :
    ∃ sec : ℤ, 1 ≤ sec ∧ (sec - 1) * 1000 < opts.windowMs ∧
      answerOf (opts.check rate.redis clientId uuid).2 = .tooMany (tooManyRequests sec) := by
  obtain ⟨oldest, hmem, -, hreply⟩ := hrate.told hlimit hwindow hordered hstep hdenied
  -- it has not come later than now
  obtain ⟨-, -, hpast⟩ := mem_within.mp hmem
  have hanswer := congrArg answerOf (congrArg opts.result hreply)
  refine ⟨max 1 (-(-(oldest + opts.windowMs - rate.redis.nowMs) / 1000)), le_max_left .., ?_,
    hanswer⟩
  omega

/-- What holds of the server after every run. -/
structure Inv (opts : RateLimitOptions) (s : State) : Prop where
  rate : s.rate.Inv opts
  ordered : ∀ client, s.rate.redis.Ordered (opts.key client)
  /-- a place in a window is an allowed check -/
  places : ∀ client, timesOf client s.rate.checks = placesOf client s.served
  meets : ∀ earlier r later, s.served = earlier ++ r :: later → r.Meets opts earlier

/-- The last of the requests was served as promised. -/
theorem meets_snoc (h : ∀ earlier r later, served = earlier ++ r :: later → r.Meets opts earlier)
    (hr : r.Meets opts served) :
    ∀ earlier r' later, served ++ [r] = earlier ++ r' :: later → r'.Meets opts earlier := by
  intro earlier r' later hsplit
  rcases List.append_eq_append_iff.mp hsplit with ⟨mid, rfl, hlast⟩ | ⟨mid, hearlier, hlast⟩
  · obtain ⟨rfl, hlast⟩ | ⟨_, rfl, hlast⟩ := List.cons_eq_append_iff.mp hlast
    · obtain ⟨rfl, -⟩ := List.cons.inj hlast
      rw [List.append_nil]
      exact hr
    · simp at hlast
  · obtain ⟨rfl, hlast⟩ | ⟨mid', rfl, -⟩ := List.cons_eq_append_iff.mp hlast
    · obtain ⟨rfl, -⟩ := List.cons.inj hlast
      rw [List.append_nil] at hearlier
      exact hearlier ▸ hr
    · exact h earlier r' mid' hearlier

/-- When `eval` throws, the options say what becomes of the request. -/
theorem answer_failed (opts : RateLimitOptions) (message : String) :
    if opts.failOpen.getD true then answerOf (opts.result (.error message)) = .next
    else ∃ e, answerOf (opts.result (.error message)) = .error e := by
  rcases hopen : opts.failOpen.getD true with _ | _
  all_goals simp [RateLimitOptions.result, answerOf, hopen]

/-- **One request**, for which the script runs. -/
theorem Inv.ran (hlimit : 1 ≤ opts.limit) (hwindow : 1 ≤ opts.windowMs) (h : Inv opts s)
    (hstep : s.rate.step opts (.check pod clientId uuid) = some rate') :
    Inv opts
      { rate := rate'
        served := s.served ++
          [{ clientId := clientId, time := s.rate.redis.nowMs, eval := eval
             admitted := (opts.made s.rate.redis clientId uuid).allowed
             answer := answerOf (checked opts s.rate.redis clientId uuid eval) }] } := by
  have hallowed := h.rate.allowed_iff hlimit hwindow hstep
  rw [h.places clientId] at hallowed
  refine ⟨h.rate.step hlimit hwindow hstep, fun client => ?_, fun client => ?_,
    meets_snoc h.meets ⟨fun heval => ?_, fun heval => ?_, fun hadmitted => ?_⟩⟩
  · exact (RateState.step_later hstep).2.2 client (h.ordered client)
  · rw [RateState.step_check hstep, timesOf_append, h.places, placesOf_append]
    congr 1
    rcases eq_or_ne clientId client with rfl | hclient
    · rcases hadmitted : (opts.made s.rate.redis clientId uuid).allowed with _ | _
      · simp [timesOf, allowedOf, placesOf, hadmitted]
      · rw [timesOf, allowedOf_singleton_of RateLimitOptions.made_clientId hadmitted]
        simp [placesOf]
    · simp [timesOf, allowedOf, placesOf, hclient]
  · obtain rfl : eval = .replied := heval
    split_ifs with hroom
    · have hyes := hallowed.mpr hroom
      exact ⟨allowed_answer hyes, hyes⟩
    · have hno := Bool.eq_false_iff.mpr fun hyes => hroom (hallowed.mp hyes)
      exact ⟨hno, refused_answer hlimit hwindow h.rate (h.ordered clientId) hstep hno⟩
  · cases eval with
    | replied => exact absurd rfl heval
    | unreachable message | lost message => exact answer_failed opts message
  · exact hallowed.mp hadmitted

/-- One request that does not reach Redis. -/
theorem Inv.unreachable (h : Inv opts s) (message : String) :
    Inv opts
      { s with served := s.served ++
          [{ clientId := clientId, time := s.rate.redis.nowMs, eval := .unreachable message
             admitted := false, answer := answerOf (opts.result (.error message)) }] } := by
  refine ⟨h.rate, h.ordered, fun client => ?_, meets_snoc h.meets ⟨fun heval => ?_, fun _ => ?_,
    fun hadmitted => ?_⟩⟩
  · rw [h.places, placesOf_append]
    simp [placesOf]
  · cases heval
  · exact answer_failed opts message
  · cases hadmitted

theorem Inv.step {ev : Event} (hlimit : 1 ≤ opts.limit) (hwindow : 1 ≤ opts.windowMs)
    (h : Inv opts s) (hstep : s.step opts ev = some s') : Inv opts s' := by
  rcases step_cases hstep with ⟨pod, clientId, uuid, eval, rate, -, hrate, rfl⟩ |
    ⟨clientId, message, rfl⟩ | ⟨a, rate, hrate, rfl, hchecks, -⟩
  · exact h.ran hlimit hwindow hrate
  · exact h.unreachable message
  · -- time alone leaves the requests as they are
    refine ⟨h.rate.step hlimit hwindow hrate, fun client => ?_, fun client => ?_, h.meets⟩
    · exact (RateState.step_later hrate).2.2 client (h.ordered client)
    · rw [hchecks]
      exact h.places client

theorem inv_reachable (hlimit : 1 ≤ opts.limit) (hwindow : 1 ≤ opts.windowMs)
    (hs : (server opts).Reachable s) : Inv opts s := by
  refine System.Invariant.reachable (M := server opts)
    (fun _ _ _ h hstep => h.step hlimit hwindow hstep) ?_ hs
  rintro s ⟨hrate, hserved⟩
  refine ⟨.of_start hrate, fun client z hz => ?_, fun client => ?_,
    fun earlier r later hsplit => ?_⟩
  · exact absurd ((hrate.1 client).symm.trans hz) (Option.some_ne_none z).symm
  · rw [hrate.2, hserved]
    rfl
  · rw [hserved] at hsplit
    simp at hsplit

/-- The requests of a kind in a window. -/
theorem length_within (w t : ℤ) (p : Served → Bool) (served : List Served) :
    (within w t ((served.filter p).map Served.time)).length =
      served.countP fun r => p r && decide (t - w < r.time ∧ r.time ≤ t) := by
  rw [within, List.filter_map, List.length_map, List.filter_filter, List.countP_eq_length_filter]
  congr 1
  refine List.filter_congr fun r _ => ?_
  exact Bool.and_comm ..

theorem countP_le_add {α : Type} {p q q' : α → Bool} {l : List α}
    (h : ∀ a ∈ l, p a = true → q a = true ∨ q' a = true) :
    l.countP p ≤ l.countP q + l.countP q' := by
  induction l with
  | nil => simp
  | cons a l ih =>
    have hrest := ih fun b hb => h b (List.mem_cons_of_mem _ hb)
    have hhead := h a (List.mem_cons_self ..)
    rw [List.countP_cons, List.countP_cons, List.countP_cons]
    by_cases hp : p a = true
    · rcases hhead hp with hq | hq
      all_goals
        simp only [hp, hq, if_true]
        omega
    · rw [if_neg hp]
      omega

/-- Whoever was let through holds a place, or nobody could tell. -/
theorem Served.Meets.passed {earlier : List Served} (h : r.Meets opts earlier)
    (hnext : r.answer = .next) : r.admitted = true ∨ r.eval ≠ .replied := by
  by_cases heval : r.eval = .replied
  · refine .inl ?_
    have hreplied := h.replied heval
    split_ifs at hreplied
    · exact hreplied.2
    · obtain ⟨-, sec, -, -, hanswer⟩ := hreplied
      cases hanswer.symm.trans hnext
  · exact .inr heval

/-- **A server behind the limiter.** In every run, through any number of pods, with Redis out of
reach or its replies lost at any request: each request is served as the options promise; no
window holds more than `limit` places of a client; and more requests than that are let
through only when `eval` threw, one for each time, and none if the options close. -/
theorem server_keeps_limit (hlimit : 1 ≤ opts.limit) (hwindow : 1 ≤ opts.windowMs)
    (hs : (server opts).Reachable s) :
    (∀ earlier r later, s.served = earlier ++ r :: later → r.Meets opts earlier) ∧
    ∀ client t,
      (within (opts.windowMs : ℤ) t (placesOf client s.served)).length ≤ opts.limit ∧
      (within (opts.windowMs : ℤ) t (passedOf client s.served)).length ≤
        opts.limit + (within (opts.windowMs : ℤ) t (failedOf client s.served)).length ∧
      (opts.failOpen = some false →
        (within (opts.windowMs : ℤ) t (passedOf client s.served)).length ≤ opts.limit) := by
  have h := inv_reachable hlimit hwindow hs
  have hmeets : ∀ r ∈ s.served, ∃ earlier, Served.Meets opts earlier r := by
    intro r hr
    obtain ⟨earlier, later, hsplit⟩ := List.append_of_mem hr
    exact ⟨earlier, h.meets earlier r later hsplit⟩
  refine ⟨h.meets, fun client t => ?_⟩
  have hplaces : (within (opts.windowMs : ℤ) t (placesOf client s.served)).length ≤ opts.limit := by
    rw [← h.places]
    exact (h.rate.admitted client).length_within_le t
  refine ⟨hplaces, le_trans ?_ (Nat.add_le_add_right hplaces _), fun hclosed => ?_⟩
  · rw [passedOf, placesOf, failedOf, length_within, length_within, length_within]
    refine countP_le_add fun r hr hpassed => ?_
    simp only [Bool.and_eq_true, decide_eq_true_eq] at hpassed ⊢
    obtain ⟨⟨hclient, hnext⟩, htime⟩ := hpassed
    obtain ⟨earlier, hr⟩ := hmeets r hr
    rcases hr.passed hnext with hadmitted | heval
    · exact .inl ⟨⟨hclient, hadmitted⟩, htime⟩
    · exact .inr ⟨⟨hclient, heval⟩, htime⟩
  · refine le_trans ?_ hplaces
    rw [passedOf, placesOf, length_within, length_within]
    refine List.countP_mono_left fun r hr hpassed => ?_
    simp only [Bool.and_eq_true, decide_eq_true_eq] at hpassed ⊢
    obtain ⟨⟨hclient, hnext⟩, htime⟩ := hpassed
    obtain ⟨earlier, hr⟩ := hmeets r hr
    refine ⟨⟨hclient, ?_⟩, htime⟩
    rcases hr.passed hnext with hadmitted | heval
    · exact hadmitted
    · -- an error is handed on, and not let through
      have hfailed := hr.failed heval
      rw [hclosed, Option.getD_some, if_neg Bool.false_ne_true] at hfailed
      obtain ⟨e, he⟩ := hfailed
      cases he.symm.trans hnext

/-! ## A limit of none -/

/-- No client has a key. -/
def Keyless (opts : RateLimitOptions) (r : Redis) : Prop :=
  ∀ clientId, r.keys (opts.key clientId) = none

/-- With a limit of 0 the script finds no oldest member to count from, and throws. -/
theorem script_throws (hlimit : opts.limit = 0) {redis : Redis} (h : Keyless opts redis)
    (clientId uuid : String) :
    Keyless opts (opts.check redis clientId uuid).1 ∧
      ∃ e, (opts.check redis clientId uuid).2 = opts.result (.error e) := by
  have hfind : redis.find (opts.key clientId) = none := by
    rw [Redis.find, h clientId, Option.filter_none]
  have hprune (now : ℤ) : redis.zremrangebyscore (opts.key clientId) 0 now =
      redis.del (opts.key clientId) := by
    simp only [Redis.zremrangebyscore, hfind]
  have hscript : slidingWindowLua redis (opts.key clientId) opts.windowMs opts.limit uuid =
      (redis.del (opts.key clientId),
        .error "attempt to perform arithmetic on a nil value") := by
    simp [slidingWindowLua, hprune, hlimit, Redis.zcard, Redis.zrangeFirst, Redis.members_del]
  simp only [RateLimitOptions.check, hscript]
  refine ⟨fun client => ?_, _, rfl⟩
  simp only [Redis.del]
  split_ifs
  · rfl
  · exact h client

/-- What a server with a limit of 0 has come to. -/
structure Unlimited (opts : RateLimitOptions) (s : State) : Prop where
  keyless : Keyless opts s.rate.redis
  served : ∀ r ∈ s.served,
    if opts.failOpen.getD true then r.answer = .next else ∃ e, r.answer = .error e

theorem Unlimited.step {ev : Event} (hlimit : opts.limit = 0) (h : Unlimited opts s)
    (hstep : s.step opts ev = some s') : Unlimited opts s' := by
  rcases step_cases hstep with ⟨pod, clientId, uuid, eval, rate, -, hrate, rfl⟩ |
    ⟨clientId, message, rfl⟩ | ⟨a, rate, -, rfl, -, hkeys⟩
  · obtain ⟨hkeys, e, hthrown⟩ := script_throws hlimit h.keyless clientId uuid
    rw [RateState.step_check hrate]
    refine ⟨hkeys, List.forall_mem_append.mpr ⟨h.served, List.forall_mem_singleton.mpr ?_⟩⟩
    cases eval with
    | replied =>
      rw [checked, hthrown]
      exact answer_failed opts e
    | unreachable message | lost message => exact answer_failed opts message
  · refine ⟨h.keyless, List.forall_mem_append.mpr ⟨h.served, List.forall_mem_singleton.mpr ?_⟩⟩
    exact answer_failed opts message
  · exact ⟨fun client => hkeys _ (h.keyless client), h.served⟩

/-- **A limit of 0 limits nobody.** The script throws at every request, with Redis as sound as can
be, and so the server is open or closed as it is when Redis is down: no request is ever
answered 429. -/
theorem limit_zero_limits_nobody (hlimit : opts.limit = 0) (hs : (server opts).Reachable s) :
    ∀ r ∈ s.served,
      if opts.failOpen.getD true then r.answer = .next else ∃ e, r.answer = .error e := by
  refine (System.Invariant.reachable (M := server opts)
    (fun _ _ _ h hstep => Unlimited.step hlimit h hstep) ?_ hs).served
  rintro s ⟨hrate, hserved⟩
  refine ⟨hrate.1, fun r hr => ?_⟩
  rw [hserved] at hr
  cases hr

end

end Marketplace.LimitedServer
