import Marketplace.Limiter

/-!
# When to retry

A refused check says when the oldest member of the window leaves it. The members of a ZSET are in
the order of their scores, so the first one *is* the oldest of the allowed checks in the window
(`RateState.Inv.oldest`); and the window, which is full, has room again at the moment that one has
left it, and not before. What was pruned or has expired meanwhile does not matter: a check is
decided by the history of allowed checks alone (`RateState.Inv.decided`).
-/

namespace Marketplace

open SlidingWindow

/-! ## The order of a ZSET -/

theorem Scored.before.score_le {x y : Scored} (h : x.before y) : x.score ≤ y.score := by
  rcases h with h | h
  · exact h.le
  · exact h.1.le

instance : Std.Total Scored.before where
  total x y := by
    rcases lt_trichotomy x.score y.score with h | h | h
    · exact .inl (.inl h)
    · rcases le_total x.member y.member with hm | hm
      · exact .inl (.inr ⟨h, hm⟩)
      · exact .inr (.inr ⟨h.symm, hm⟩)
    · exact .inr (.inl h)

instance : IsTrans Scored Scored.before where
  trans x y z h h' := by
    rcases h with h | h
    · exact .inl (h.trans_le h'.score_le)
    · rcases h' with h' | h'
      · exact .inl (h.1.trans_lt h')
      · exact .inr ⟨h.1.trans h'.1, h.2.trans h'.2⟩

namespace Redis

/-- The key holds its members in order. -/
def Ordered (r : Redis) (key : String) : Prop :=
  ∀ z, r.keys key = some z → z.members.Pairwise Scored.before

variable {r r' : Redis} {key key' : String} {z : SortedSet}

theorem Ordered.members (h : r.Ordered key) : (r.members key).Pairwise Scored.before := by
  rcases hfind : r.find key with _ | z
  · rw [Redis.members, hfind]
    exact .nil
  · rw [Redis.members, hfind]
    exact h z (find_eq_some.mp hfind).1

theorem ordered_set (hz : z.members.Pairwise Scored.before) : (r.set key z).Ordered key :=
  fun _ hz' => keys_set_eq_some hz' ▸ hz

theorem ordered_del : (r.del key).Ordered key := by
  intro z hz
  simp [Redis.del] at hz

theorem Ordered.apart (h : r.Ordered key) (hr : Apart r r' key') (hkey : key ≠ key') :
    r'.Ordered key :=
  fun z hz => h z ((hr.2 key hkey).symm.trans hz)

theorem Ordered.zremrangebyscore (h : r.Ordered key) {min max : ℤ} :
    (r.zremrangebyscore key min max).Ordered key := by
  unfold Redis.zremrangebyscore
  split
  · exact ordered_del
  · rename_i z hz
    exact ordered_set ((h z (find_eq_some.mp hz).1).filter _)

/-- A new member comes to its place. -/
theorem Ordered.zadd (h : r.Ordered key) {score : ℤ} {member : String} :
    (r.zadd key score member).Ordered key :=
  ordered_set ((h.members.filter _).orderedInsert _ _)

theorem Ordered.pexpire (h : r.Ordered key) {ttl : ℤ} : (r.pexpire key ttl).Ordered key := by
  unfold Redis.pexpire
  split
  · exact ordered_del
  · rename_i z hz
    split_ifs
    · exact ordered_del
    · exact ordered_set (h z (find_eq_some.mp hz).1)

/-- The script keeps the order. -/
theorem Ordered.slidingWindowLua (h : r.Ordered key) {win lim : ℤ} {uuid : String} :
    (slidingWindowLua r key win lim uuid).1.Ordered key := by
  simp only [Marketplace.slidingWindowLua]
  split_ifs
  · exact h.zremrangebyscore.zadd.pexpire
  · split
    · exact h.zremrangebyscore
    · exact h.zremrangebyscore

end Redis

/-! ## Runs -/

namespace RateState

variable {opts : RateLimitOptions} {s s' t : RateState} {ev : RateEvent} {as : List RateEvent}
  {clientId uuid : String} {remaining retryMs : ℤ}

/-- Everything a step does to a key of a client, to the clock and to the history. -/
theorem step_later (h : s.step opts ev = some s') :
    s.redis.clock ≤ s'.redis.clock ∧ s.checks <+: s'.checks ∧
      ∀ client, s.redis.Ordered (opts.key client) → s'.redis.Ordered (opts.key client) := by
  cases ev with
  | check pod clientId uuid =>
    simp only [step] at h
    split_ifs at h
    obtain rfl := Option.some.inj h
    have hapart : Redis.Apart s.redis (opts.check s.redis clientId uuid).1 (opts.key clientId) :=
      slidingWindowLua_apart ..
    refine ⟨hapart.1.ge, List.prefix_append _ _, fun client hclient => ?_⟩
    by_cases hkey : opts.key client = opts.key clientId
    · rw [hkey] at hclient ⊢
      exact hclient.slidingWindowLua
    · exact hclient.apart hapart hkey
  | tick us =>
    obtain rfl := Option.some.inj h
    exact ⟨Nat.le_add_right _ _, List.prefix_rfl, fun _ hclient => hclient⟩
  | expire key =>
    simp only [step] at h
    split_ifs at h
    obtain rfl := Option.some.inj h
    have hapart := Redis.apart_del s.redis key
    refine ⟨hapart.1.ge, List.prefix_rfl, fun client hclient => ?_⟩
    by_cases hkey : opts.key client = key
    · exact hkey ▸ Redis.ordered_del
    · exact hclient.apart hapart hkey

/-- The keys of the clients hold their members in order. -/
theorem ordered_invariant (opts : RateLimitOptions) : (rateLimiters opts).Invariant
    fun s => ∀ client, s.redis.Ordered (opts.key client) :=
  fun _ _ _ h hstep client => (step_later hstep).2.2 client (h client)

theorem run_later (h : (rateLimiters opts).run s as = some t) :
    s.redis.clock ≤ t.redis.clock ∧ s.checks <+: t.checks := by
  refine System.run_induction
    (J := fun _ t => s.redis.clock ≤ t.redis.clock ∧ s.checks <+: t.checks)
    ⟨le_refl _, List.prefix_rfl⟩ (fun _ _ _ _ _ hsofar hstep => ?_) h
  obtain ⟨hclock, hchecks, -⟩ := step_later hstep
  exact ⟨hsofar.1.trans hclock, hsofar.2.trans hchecks⟩

/-! ## The oldest of a full window -/

/-- A check that is made is recorded, and leaves Redis as it left it. -/
theorem step_check {pod : ℕ} (h : s.step opts (.check pod clientId uuid) = some s') :
    s' = { redis := (opts.check s.redis clientId uuid).1,
           checks := s.checks ++ [opts.made s.redis clientId uuid] } := by
  simp only [step] at h
  split_ifs at h
  exact (Option.some.inj h).symm

/-- The next check is allowed if its window has room. -/
theorem Inv.allowed_iff {pod : ℕ} (hlimit : 1 ≤ opts.limit) (hwindow : 1 ≤ opts.windowMs)
    (h : s.Inv opts) (hstep : s.step opts (.check pod clientId uuid) = some s') :
    (opts.made s.redis clientId uuid).allowed = true ↔
      (within (opts.windowMs : ℤ) s.redis.nowMs (timesOf clientId s.checks)).length
        < opts.limit := by
  have hchecks : s'.checks = s.checks ++ [opts.made s.redis clientId uuid] := by
    rw [step_check hstep]
  obtain ⟨r, hanswer, hallowed, -⟩ := (h.step hlimit hwindow hstep).decided _ _ [] hchecks
  rw [RateCheck.allowed, hanswer]
  exact hallowed

/-- The first member in the window is the oldest of the allowed checks in it. -/
theorem Inv.oldest {first : Scored} (h : s.Inv opts)
    (hordered : s.redis.Ordered (opts.key clientId))
    (hfirst : (s.redis.inWindow (opts.key clientId) opts.windowMs).head? = some first) :
    first.score ∈ within (opts.windowMs : ℤ) s.redis.nowMs (timesOf clientId s.checks) ∧
      ∀ b ∈ within (opts.windowMs : ℤ) s.redis.nowMs (timesOf clientId s.checks),
        first.score ≤ b := by
  have hmem : ∀ b, b ∈ within (opts.windowMs : ℤ) s.redis.nowMs (timesOf clientId s.checks) ↔
      ∃ m ∈ s.redis.inWindow (opts.key clientId) opts.windowMs, m.score = b :=
    fun b => ((h.mirrors clientId).scores_inWindow h.past).mem_iff.symm.trans List.mem_map
  obtain ⟨rest, hrest⟩ := List.head?_eq_some_iff.mp hfirst
  have hsorted := hordered.members.filter
    (fun m => !decide (0 ≤ m.score ∧ m.score ≤ s.redis.nowMs - opts.windowMs))
  rw [show List.filter _ _ = _ from hrest] at hsorted
  refine ⟨(hmem _).mpr ⟨first, List.mem_of_mem_head? hfirst, rfl⟩, fun b hb => ?_⟩
  obtain ⟨m, hm, rfl⟩ := (hmem b).mp hb
  rw [hrest] at hm
  rcases List.mem_cons.mp hm with rfl | hm
  · exact le_refl _
  · exact ((List.pairwise_cons.mp hsorted).1 m hm).score_le

/-- A refused check found the window exactly full. -/
theorem Inv.full {pod : ℕ} (hlimit : 1 ≤ opts.limit) (hwindow : 1 ≤ opts.windowMs)
    (h : s.Inv opts) (hstep : s.step opts (.check pod clientId uuid) = some s')
    (hdenied : (opts.made s.redis clientId uuid).allowed = false) :
    (within (opts.windowMs : ℤ) s.redis.nowMs (timesOf clientId s.checks)).length = opts.limit := by
  refine le_antisymm ((h.admitted clientId).length_within_le _) (not_lt.mp fun hlt => ?_)
  exact Bool.false_ne_true (hdenied.symm.trans ((h.allowed_iff hlimit hwindow hstep).mpr hlt))

/-- A refused check is told when the oldest of the allowed checks in its window leaves it. -/
theorem Inv.told {pod : ℕ} (hlimit : 1 ≤ opts.limit) (hwindow : 1 ≤ opts.windowMs)
    (h : s.Inv opts) (hordered : s.redis.Ordered (opts.key clientId))
    (hstep : s.step opts (.check pod clientId uuid) = some s')
    (hdenied : (opts.made s.redis clientId uuid).allowed = false) :
    ∃ oldest ∈ within (opts.windowMs : ℤ) s.redis.nowMs (timesOf clientId s.checks),
      (∀ b ∈ within (opts.windowMs : ℤ) s.redis.nowMs (timesOf clientId s.checks), oldest ≤ b) ∧
      (slidingWindowLua s.redis (opts.key clientId) opts.windowMs opts.limit uuid).2 =
        .ok (0, 0, oldest + opts.windowMs - s.redis.nowMs) := by
  have hle : (opts.limit : ℤ) ≤ (s.redis.inWindow (opts.key clientId) opts.windowMs).length := by
    rw [(h.mirrors clientId).length_inWindow h.past, h.full hlimit hwindow hstep hdenied]
  obtain ⟨⟨first, hfirst, hreply⟩, -⟩ :=
    @slidingWindowLua_of_le s.redis (opts.key clientId) uuid opts.windowMs opts.limit
      (by omega) hle
  obtain ⟨hmem, hmin⟩ := h.oldest hordered hfirst
  exact ⟨first.score, hmem, hmin, hreply⟩

end RateState

/-! ## The hint -/

variable {opts : RateLimitOptions} {s s' t : RateState} {clientId uuid : String}

/-- A later check of the client, at `t`, is told the same by the hint and by the limiter: before
`retryMs` have passed it is refused, and from then on it is allowed if no check of the client was
allowed in between. -/
structure RetryHint (opts : RateLimitOptions) (clientId : String) (s s' : RateState)
    (retryMs retryAfterSec : ℤ) : Prop where
  /-- the hint lies in the window -/
  range : 1 ≤ retryMs ∧ retryMs ≤ opts.windowMs
  /-- whoever comes earlier is refused -/
  early : ∀ as t pod uuid t', (rateLimiters opts).run s' as = some t →
    t.step opts (.check pod clientId uuid) = some t' →
    t.redis.nowMs < s.redis.nowMs + retryMs → (opts.made t.redis clientId uuid).allowed = false
  /-- whoever comes in time is allowed -/
  due : ∀ as t pod uuid t', (rateLimiters opts).run s' as = some t →
    t.step opts (.check pod clientId uuid) = some t' →
    s.redis.nowMs + retryMs ≤ t.redis.nowMs →
    allowedOf clientId t.checks = allowedOf clientId s'.checks →
    (opts.made t.redis clientId uuid).allowed = true
  /-- and so is who waits the whole seconds, by the clock in microseconds -/
  waited : ∀ as t pod uuid t', (rateLimiters opts).run s' as = some t →
    t.step opts (.check pod clientId uuid) = some t' →
    s.redis.clock + retryAfterSec * 10 ^ 6 ≤ t.redis.clock →
    allowedOf clientId t.checks = allowedOf clientId s'.checks →
    (opts.made t.redis clientId uuid).allowed = true

/-- **Retry-After is exact.** Whatever the history of checks, a refused check is told after how
many ms the window has room again for its client, and that many seconds, rounded up, to wait. -/
theorem retryAfter_exact (hlimit : 1 ≤ opts.limit) (hwindow : 1 ≤ opts.windowMs)
    {s₀ : RateState} {as : List RateEvent} {pod : ℕ} (hstart : (rateLimiters opts).start s₀)
    (hrun : (rateLimiters opts).run s₀ as = some s)
    (hstep : s.step opts (.check pod clientId uuid) = some s')
    (hdenied : (opts.made s.redis clientId uuid).allowed = false) :
    ∃ retryMs r,
      (slidingWindowLua s.redis (opts.key clientId) opts.windowMs opts.limit uuid).2 =
        .ok (0, 0, retryMs) ∧
      (opts.check s.redis clientId uuid).2 = .ok r ∧
      RetryHint opts clientId s s' retryMs r.retryAfterSec := by
  have hinvariant := rateLimiters_invariant hlimit hwindow
  have hinv := hinvariant.run (RateState.Inv.of_start hstart) hrun
  have hinv' : s'.Inv opts := hinv.step hlimit hwindow hstep
  have hordered : s.redis.Ordered (opts.key clientId) := by
    refine (RateState.ordered_invariant opts).run (fun client z hz => ?_) hrun clientId
    exact absurd ((hstart.1 client).symm.trans hz) (Option.some_ne_none z).symm
  -- the window is full, and its oldest member makes the reply
  have hfull := hinv.full hlimit hwindow hstep hdenied
  obtain ⟨oldest, hmem, hmin, hreply⟩ := hinv.told hlimit hwindow hordered hstep hdenied
  obtain ⟨-, hlo, hhi⟩ := mem_within.mp hmem
  have htimes : timesOf clientId s'.checks = timesOf clientId s.checks := by
    have hrefused : ¬ ((opts.made s.redis clientId uuid).clientId = clientId ∧
        (opts.made s.redis clientId uuid).allowed = true) := by simp [hdenied]
    rw [RateState.step_check hstep, timesOf, timesOf, allowedOf_append,
      allowedOf_singleton_of_not hrefused, List.append_nil]
  have hpast : ∀ b ∈ timesOf clientId s.checks, b ≤ s.redis.nowMs := by
    intro b hb
    obtain ⟨c, hc, rfl⟩ := List.mem_map.mp hb
    exact (hinv.past c (mem_allowedOf.mp hc).1).2
  have hclock : s'.redis.clock = s.redis.clock := by
    rw [RateState.step_check hstep]
    exact (slidingWindowLua_apart ..).1
  -- what is known of a later check
  have hlater : ∀ as t, (rateLimiters opts).run s' as = some t →
      t.Inv opts ∧ s.redis.nowMs ≤ t.redis.nowMs ∧ s'.checks <+: t.checks := by
    intro as t ht
    obtain ⟨hle, hchecks⟩ := RateState.run_later ht
    refine ⟨hinvariant.run hinv' ht, ?_, hchecks⟩
    unfold Redis.nowMs
    exact_mod_cast Nat.div_le_div_right (hclock ▸ hle)
  have hdue : ∀ as t pod uuid t', (rateLimiters opts).run s' as = some t →
      t.step opts (.check pod clientId uuid) = some t' →
      oldest + opts.windowMs ≤ t.redis.nowMs →
      allowedOf clientId t.checks = allowedOf clientId s'.checks →
      (opts.made t.redis clientId uuid).allowed = true := by
    intro as t pod uuid t' ht htstep hnow hsame
    obtain ⟨hinvt, hlet, -⟩ := hlater as t ht
    refine (hinvt.allowed_iff hlimit hwindow htstep).mpr ?_
    rw [timesOf, hsame, ← timesOf, htimes, ← hfull]
    exact length_within_lt hpast hlet hmem (by omega)
  refine ⟨_, _, hreply, congrArg opts.result hreply, ⟨by omega, by omega⟩, ?_, ?_, ?_⟩
  · intro as t pod uuid t' ht htstep hnow
    obtain ⟨hinvt, hlet, hchecks⟩ := hlater as t ht
    refine Bool.eq_false_iff.mpr fun hallowed => ?_
    have hlt := (hinvt.allowed_iff hlimit hwindow htstep).mp hallowed
    obtain ⟨more, hmore⟩ := hchecks
    rw [← hmore, timesOf_append, htimes, ← hfull] at hlt
    exact not_le.mpr hlt (length_within_ge hpast hlet hmin (by omega) _)
  · exact fun as t pod uuid t' ht htstep hnow => hdue as t pod uuid t' ht htstep (by omega)
  · intro as t pod uuid t' ht htstep hnow
    refine hdue as t pod uuid t' ht htstep ?_
    simp only [Int.reduceEq, if_false] at hnow
    unfold Redis.nowMs at hlo hhi hnow ⊢
    omega

/-- A third check finds the window of the first two full: it is told to wait the whole window. -/
theorem demoBurst_retryAfter :
    ∃ s s' r, (rateLimiters demoRateLimitOptions).run demoRateState
        [.check 1 "a" "u1", .check 2 "a" "u2", .tick 400] = some s ∧
      s.step demoRateLimitOptions (.check 1 "a" "u3") = some s' ∧
      (demoRateLimitOptions.check s.redis "a" "u3").2 = .ok r ∧ r.retryAfterSec = 1 ∧
      RetryHint demoRateLimitOptions "a" s s' 10 r.retryAfterSec := by
  have hrun : ((rateLimiters demoRateLimitOptions).run demoRateState
      [.check 1 "a" "u1", .check 2 "a" "u2", .tick 400]).any (fun s =>
        (s.step demoRateLimitOptions (.check 1 "a" "u3")).isSome &&
        !(demoRateLimitOptions.made s.redis "a" "u3").allowed &&
        decide ((slidingWindowLua s.redis "rl:a" 10 2 "u3").2 = .ok (0, 0, 10))) = true := by
    decide +kernel
  obtain ⟨s, hs, hfacts⟩ := (Option.any_eq_true _ _).mp hrun
  simp only [Bool.and_eq_true, Bool.not_eq_true', decide_eq_true_eq] at hfacts
  obtain ⟨⟨hstep, hdenied⟩, hreply⟩ := hfacts
  obtain ⟨s', hs'⟩ := Option.isSome_iff_exists.mp hstep
  obtain ⟨retryMs, r, hscript, hanswer, hhint⟩ :=
    retryAfter_exact (by decide) (by decide) ⟨fun _ => rfl, rfl⟩ hs hs' hdenied
  obtain rfl : 10 = retryMs := by
    have hsame := hreply.symm.trans hscript
    simpa using hsame
  have hsec : .ok r = demoRateLimitOptions.result (.ok (0, 0, 10)) :=
    hanswer.symm.trans (congrArg demoRateLimitOptions.result hreply)
  obtain rfl := Except.ok.inj hsec
  exact ⟨s, s', _, hs, hs', hanswer, rfl, hhint⟩

end Marketplace
