import Marketplace.RateLimit
import Marketplace.SlidingWindow
import Mathlib.Data.Real.Basic

/-!
# The limiter meets its specification

The specification knows nothing of keys and ttls: a check is allowed if and only if
fewer than `limit` earlier checks of the client in the window that ends now were
allowed. The key of a client *mirrors* the history: its members are the allowed
checks later than some moment that is at least a window ago, so pruning at `now`
leaves exactly those in the window; and its ttl ends no earlier than the last of them
leaves the window, so what expires no longer counts.
-/

namespace Marketplace

open SlidingWindow

/-! ## The specification -/

/-- The check let the request through. -/
def RateCheck.allowed (c : RateCheck) : Bool :=
  match c.answer with
  | .ok r => r.allowed
  | .error _ => false

/-- The allowed checks of a client, in the order in which they were made. -/
def allowedOf (clientId : String) (checks : List RateCheck) : List RateCheck :=
  checks.filter fun c => decide (c.clientId = clientId) && c.allowed

/-- Their times. -/
def timesOf (clientId : String) (checks : List RateCheck) : List ℤ :=
  (allowedOf clientId checks).map RateCheck.now

/-- The check is decided as the specification decides it: allowed if fewer than `limit`
of the earlier ones in its window were, and what remains counts the check itself. -/
def RateCheck.Meets (opts : RateLimitOptions) (earlier : List RateCheck) (c : RateCheck) : Prop :=
  ∃ r, c.answer = .ok r ∧
    (r.allowed = true ↔
      (within (opts.windowMs : ℤ) c.now (timesOf c.clientId earlier)).length < opts.limit) ∧
    r.remaining =
      opts.limit - (within (opts.windowMs : ℤ) c.now (timesOf c.clientId (earlier ++ [c]))).length

variable {opts : RateLimitOptions} {s s' : RateState} {r r' : Redis} {ev : RateEvent}
  {clientId uuid : String} {checks : List RateCheck} {c : RateCheck}

theorem mem_allowedOf : c ∈ allowedOf clientId checks ↔
    c ∈ checks ∧ c.clientId = clientId ∧ c.allowed = true := by
  simp [allowedOf]

theorem allowedOf_append (clientId : String) (checks checks' : List RateCheck) :
    allowedOf clientId (checks ++ checks') =
      allowedOf clientId checks ++ allowedOf clientId checks' := by
  simp [allowedOf]

theorem allowedOf_singleton_of (hclient : c.clientId = clientId) (h : c.allowed = true) :
    allowedOf clientId [c] = [c] := by
  simp [allowedOf, hclient, h]

theorem allowedOf_singleton_of_not (h : ¬ (c.clientId = clientId ∧ c.allowed = true)) :
    allowedOf clientId [c] = [] := by
  refine List.filter_eq_nil_iff.mpr fun c' hc' => ?_
  obtain rfl := List.mem_singleton.mp hc'
  simpa using h

theorem timesOf_append (clientId : String) (checks checks' : List RateCheck) :
    timesOf clientId (checks ++ checks') = timesOf clientId checks ++ timesOf clientId checks' := by
  simp [timesOf, allowedOf_append]

/-! ## The key of a client -/

/-- The member a check adds to the key of its client. -/
def RateCheck.scored (c : RateCheck) : Scored := { member := c.uuid, score := c.now }

/-- The checks happened at the clock of Redis, or before. -/
def Past (r : Redis) (checks : List RateCheck) : Prop :=
  ∀ c ∈ checks, 0 ≤ c.now ∧ c.now ≤ r.nowMs

/-- The key of the client mirrors its allowed checks. -/
structure Mirrors (opts : RateLimitOptions) (r : Redis) (clientId : String)
    (checks : List RateCheck) : Prop where
  /-- the members are those later than a moment that is a window ago or more -/
  kept : ∃ lo : ℤ, lo + opts.windowMs ≤ r.nowMs ∧
    (r.members (opts.key clientId)).Perm
      (((allowedOf clientId checks).filter fun c => decide (lo < c.now)).map RateCheck.scored)
  /-- the ttl ends when the last of them has left the window, or later -/
  dated : ∀ z, r.keys (opts.key clientId) = some z → ∃ e, z.expireAt = some e ∧
    ∀ c ∈ allowedOf clientId checks, c.now + opts.windowMs ≤ e

theorem RateLimitOptions.key_inj {clientId' : String}
    (h : opts.key clientId = opts.key clientId') : clientId = clientId' := by
  unfold RateLimitOptions.key at h
  exact String.append_right_inj _ |>.mp h

namespace Mirrors

/-- Once all allowed checks have left the window, the key may be gone. -/
theorem of_members_eq_nil (hmem : r.members (opts.key clientId) = [])
    (hleft : ∀ c ∈ allowedOf clientId checks, c.now + opts.windowMs ≤ r.nowMs)
    (hdated : ∀ z, r.keys (opts.key clientId) = some z → ∃ e, z.expireAt = some e ∧
      ∀ c ∈ allowedOf clientId checks, c.now + opts.windowMs ≤ e) :
    Mirrors opts r clientId checks := by
  refine ⟨⟨r.nowMs - opts.windowMs, by omega, ?_⟩, hdated⟩
  have hnone : (allowedOf clientId checks).filter
      (fun c => decide (r.nowMs - opts.windowMs < c.now)) = [] := by
    refine List.filter_eq_nil_iff.mpr fun c hc => ?_
    have := hleft c hc
    simp only [decide_eq_true_eq]
    omega
  rw [hmem, hnone]
  exact .refl _

/-- **Passing time keeps the mirror**: a key whose ttl ends meanwhile has lost nothing that
still counts. -/
theorem later (h : Mirrors opts r clientId checks) (hkeys : r'.keys = r.keys)
    (hle : r.nowMs ≤ r'.nowMs) : Mirrors opts r' clientId checks := by
  have hdated := h.dated
  rw [← hkeys] at hdated
  rcases hfind : r'.find (opts.key clientId) with _ | z
  · rcases hkey : r'.keys (opts.key clientId) with _ | z
    · -- there was no key before
      have hmem : r'.members (opts.key clientId) = r.members (opts.key clientId) := by
        simp only [Redis.members, Redis.find, ← hkeys, hkey, Option.filter_none]
      obtain ⟨lo, hlo, hperm⟩ := h.kept
      exact ⟨⟨lo, hlo.trans hle, hmem ▸ hperm⟩, hdated⟩
    · obtain ⟨e, hze, he⟩ := hdated z hkey
      have hended : e < r'.nowMs := by
        simpa [Redis.find, hkey, hze] using hfind
      refine of_members_eq_nil ?_ (fun c hc => (he c hc).trans hended.le) hdated
      rw [Redis.members, hfind]
      rfl
  · -- the ttl still runs
    obtain ⟨hkey, hlive⟩ := Redis.find_eq_some.mp hfind
    have hfind' : r.find (opts.key clientId) = some z :=
      Redis.find_eq_some.mpr ⟨hkeys ▸ hkey, fun e he => hle.trans (hlive e he)⟩
    have hmem : r'.members (opts.key clientId) = r.members (opts.key clientId) := by
      rw [Redis.members, Redis.members, hfind, hfind']
    obtain ⟨lo, hlo, hperm⟩ := h.kept
    exact ⟨⟨lo, hlo.trans hle, hmem ▸ hperm⟩, hdated⟩

/-- A command at another key leaves the mirror alone, and so does a check that is not an
allowed check of the client. -/
theorem apart (h : Mirrors opts r clientId checks) {key : String} (hr : Redis.Apart r r' key)
    (hkey : opts.key clientId ≠ key) (hnew : allowedOf clientId [c] = []) :
    Mirrors opts r' clientId checks ∧ Mirrors opts r' clientId (checks ++ [c]) := by
  have hmirrors : Mirrors opts r' clientId checks := by
    obtain ⟨lo, hlo, hperm⟩ := h.kept
    refine ⟨⟨lo, ?_, ?_⟩, ?_⟩
    · rwa [hr.nowMs]
    · rwa [hr.members hkey]
    · rw [hr.2 _ hkey]
      exact h.dated
  refine ⟨hmirrors, ?_⟩
  have hsame : allowedOf clientId (checks ++ [c]) = allowedOf clientId checks := by
    rw [allowedOf_append, hnew, List.append_nil]
  exact ⟨hsame ▸ hmirrors.kept, hsame ▸ hmirrors.dated⟩

/-- What pruning leaves: the allowed checks in the window that ends now. -/
theorem inWindow (h : Mirrors opts r clientId checks) (hpast : Past r checks) :
    (r.inWindow (opts.key clientId) opts.windowMs).Perm
      (((allowedOf clientId checks).filter
        fun c => decide (r.nowMs - opts.windowMs < c.now)).map RateCheck.scored) := by
  obtain ⟨lo, hlo, hperm⟩ := h.kept
  refine (hperm.filter _).trans ?_
  rw [List.filter_map, List.filter_filter]
  refine List.Perm.of_eq (congrArg _ (List.filter_congr fun c hc => ?_))
  obtain ⟨hnonneg, -⟩ := hpast c (mem_allowedOf.mp hc).1
  simp only [RateCheck.scored, Function.comp_apply, hnonneg, true_and]
  by_cases hin : r.nowMs - opts.windowMs < c.now
  · simp [hin, show lo < c.now by omega]
  · simp [hin, not_lt.mp hin]

/-- The scores in the window are the times of the specification. -/
theorem scores_inWindow (h : Mirrors opts r clientId checks) (hpast : Past r checks) :
    ((r.inWindow (opts.key clientId) opts.windowMs).map Scored.score).Perm
      (within (opts.windowMs : ℤ) r.nowMs (timesOf clientId checks)) := by
  refine ((h.inWindow hpast).map _).trans (.of_eq ?_)
  rw [within, timesOf, List.filter_map, List.map_map]
  refine congrArg _ (List.filter_congr fun c hc => ?_)
  obtain ⟨-, hle⟩ := hpast c (mem_allowedOf.mp hc).1
  simp only [Function.comp_apply, hle, and_true]

/-- The count of the script is the count of the specification. -/
theorem length_inWindow (h : Mirrors opts r clientId checks) (hpast : Past r checks) :
    (r.inWindow (opts.key clientId) opts.windowMs).length =
      (within (opts.windowMs : ℤ) r.nowMs (timesOf clientId checks)).length := by
  rw [← (h.scores_inWindow hpast).length_eq, List.length_map]

/-- The members carry the uuids of checks that were made. -/
theorem uuid_of_mem (h : Mirrors opts r clientId checks) {m : Scored}
    (hm : m ∈ r.members (opts.key clientId)) : ∃ c ∈ checks, c.uuid = m.member := by
  obtain ⟨lo, -, hperm⟩ := h.kept
  obtain ⟨c, hc, rfl⟩ := List.mem_map.mp (hperm.mem_iff.mp hm)
  exact ⟨c, (mem_allowedOf.mp (List.mem_of_mem_filter hc)).1, rfl⟩

end Mirrors

/-! ## A check -/

/-- The check of a client at this Redis. -/
def RateLimitOptions.made (opts : RateLimitOptions) (r : Redis) (clientId uuid : String) :
    RateCheck :=
  { clientId := clientId, uuid := uuid, now := r.nowMs,
    answer := (opts.check r clientId uuid).2 }

@[simp] theorem RateLimitOptions.made_now : (opts.made r clientId uuid).now = r.nowMs := rfl

@[simp] theorem RateLimitOptions.made_clientId :
    (opts.made r clientId uuid).clientId = clientId := rfl

section Check

variable (hlimit : 1 ≤ opts.limit) (hwindow : 1 ≤ opts.windowMs)
  (hmirrors : Mirrors opts r clientId checks) (hpast : Past r checks)

include hwindow hmirrors hpast

/-- With room in the window the check is allowed, and the key mirrors it too. -/
theorem made_of_lt (hfresh : ∀ c ∈ checks, c.uuid ≠ uuid)
    (hlt : (within (opts.windowMs : ℤ) r.nowMs (timesOf clientId checks)).length < opts.limit) :
    (opts.made r clientId uuid).allowed = true ∧
      (opts.made r clientId uuid).Meets opts checks ∧
      Mirrors opts (opts.check r clientId uuid).1 clientId
        (checks ++ [opts.made r clientId uuid]) := by
  have hlength := hmirrors.length_inWindow hpast
  have hclean : ∀ m ∈ r.members (opts.key clientId), m.member ≠ uuid := by
    intro m hm
    obtain ⟨c, hc, hmember⟩ := hmirrors.uuid_of_mem hm
    exact hmember ▸ hfresh c hc
  have hwidth : (0 : ℤ) < opts.windowMs := by omega
  have hroom : ((r.inWindow (opts.key clientId) opts.windowMs).length : ℤ) < opts.limit := by omega
  obtain ⟨hreply, hmembers, z, hz, hze⟩ := slidingWindowLua_of_lt hwidth hclean hroom
  have hclock := (slidingWindowLua_apart r (opts.key clientId) uuid opts.windowMs opts.limit).nowMs
  have hanswer : (opts.made r clientId uuid).answer =
      .ok { allowed := true, remaining := opts.limit - (within (opts.windowMs : ℤ) r.nowMs
        (timesOf clientId checks)).length - 1, retryAfterSec := 0 } := by
    rw [← hlength]
    exact congrArg opts.result hreply
  have hallowed : (opts.made r clientId uuid).allowed = true := by
    rw [RateCheck.allowed, hanswer]
  have hnew : allowedOf clientId [opts.made r clientId uuid] = [opts.made r clientId uuid] :=
    allowedOf_singleton_of rfl hallowed
  refine ⟨hallowed, ⟨_, hanswer, by simpa using hlt, ?_⟩, ?_, ?_⟩
  · -- the check itself is the last of its window
    have hself : within (opts.windowMs : ℤ) r.nowMs
        (timesOf clientId [opts.made r clientId uuid]) = [r.nowMs] := by
      rw [timesOf, hnew]
      -- the window ends now and is at least a millisecond wide
      exact within_singleton_of_mem ⟨by rw [RateLimitOptions.made_now]; omega, le_refl _⟩
    rw [RateLimitOptions.made_now, RateLimitOptions.made_clientId, timesOf_append, within_append,
      List.length_append, hself, List.length_singleton]
    push_cast
    omega
  -- the script pruned up to the start of the window, and added this check
  · refine ⟨r.nowMs - opts.windowMs, by rw [RateLimitOptions.check, hclock]; omega, ?_⟩
    have hlast : (allowedOf clientId (checks ++ [opts.made r clientId uuid])).filter
        (fun c => decide (r.nowMs - opts.windowMs < c.now)) =
        (allowedOf clientId checks).filter
          (fun c => decide (r.nowMs - opts.windowMs < c.now)) ++ [opts.made r clientId uuid] := by
      rw [allowedOf_append, hnew, List.filter_append]
      refine congrArg _ (List.filter_eq_self.mpr fun c hc => ?_)
      obtain rfl := List.mem_singleton.mp hc
      exact decide_eq_true (by rw [RateLimitOptions.made_now]; omega)
    rw [hlast, List.map_append, List.map_singleton]
    refine (List.Perm.of_eq hmembers).trans ((List.perm_orderedInsert _ _ _).trans ?_)
    exact ((hmirrors.inWindow hpast).cons _).trans (List.perm_append_singleton _ _).symm
  · intro z' hz'
    -- the ttl starts again, and no check is later than this one
    obtain rfl := Option.some.inj (hz.symm.trans hz')
    refine ⟨_, hze, fun c hc => ?_⟩
    rw [allowedOf_append, hnew] at hc
    rcases List.mem_append.mp hc with hc | hc
    · have := (hpast c (mem_allowedOf.mp hc).1).2
      omega
    · obtain rfl := List.mem_singleton.mp hc
      exact le_refl _

include hlimit
omit hwindow

/-- Without room the check is refused, and the key is pruned and no more. -/
theorem made_of_le (hadmitted : Admitted opts.limit (opts.windowMs : ℤ) (timesOf clientId checks))
    (hle : opts.limit ≤ (within (opts.windowMs : ℤ) r.nowMs (timesOf clientId checks)).length) :
    (opts.made r clientId uuid).allowed = false ∧
      (opts.made r clientId uuid).Meets opts checks ∧
      Mirrors opts (opts.check r clientId uuid).1 clientId
        (checks ++ [opts.made r clientId uuid]) := by
  have hlength := hmirrors.length_inWindow hpast
  have hpositive : (0 : ℤ) < opts.limit := by omega
  have hfull : (opts.limit : ℤ) ≤ (r.inWindow (opts.key clientId) opts.windowMs).length := by
    rw [hlength]
    omega
  obtain ⟨⟨oldest, -, hreply⟩, hmembers, hdated⟩ :=
    @slidingWindowLua_of_le r _ uuid _ _ hpositive hfull
  have hclock := (slidingWindowLua_apart r (opts.key clientId) uuid opts.windowMs opts.limit).nowMs
  obtain ⟨after, hanswer⟩ : ∃ after, (opts.made r clientId uuid).answer =
      .ok { allowed := false, remaining := 0, retryAfterSec := after } :=
    ⟨_, congrArg opts.result hreply⟩
  have hrefused : (opts.made r clientId uuid).allowed = false := by
    rw [RateCheck.allowed, hanswer]
  have hsame : allowedOf clientId (checks ++ [opts.made r clientId uuid]) =
      allowedOf clientId checks := by
    rw [allowedOf_append, allowedOf_singleton_of_not (by simp [hrefused]), List.append_nil]
  refine ⟨hrefused, ⟨_, hanswer, by simpa using hle, ?_⟩, ?_, ?_⟩
  · -- the window is exactly full
    have hfull := hadmitted.length_within_le r.nowMs
    rw [RateLimitOptions.made_now, RateLimitOptions.made_clientId, timesOf, hsame, ← timesOf]
    show (0 : ℤ) = _
    omega
  · rw [hsame]
    refine ⟨r.nowMs - opts.windowMs, by rw [RateLimitOptions.check, hclock]; omega, ?_⟩
    exact (List.Perm.of_eq hmembers).trans (hmirrors.inWindow hpast)
  · rw [hsame]
    intro z hz
    obtain ⟨z₀, hz₀, hze⟩ := hdated z hz
    rw [hze]
    exact hmirrors.dated z₀ hz₀

end Check

/-! ## Runs -/

namespace RateState

/-- The keys mirror the checks, and the checks were decided by the specification. -/
structure Inv (opts : RateLimitOptions) (s : RateState) : Prop where
  past : Past s.redis s.checks
  mirrors : ∀ clientId, Mirrors opts s.redis clientId s.checks
  admitted : ∀ clientId, Admitted opts.limit (opts.windowMs : ℤ) (timesOf clientId s.checks)
  decided : ∀ earlier c later, s.checks = earlier ++ c :: later → c.Meets opts earlier

theorem Inv.of_start (h : (rateLimiters opts).start s) : s.Inv opts := by
  obtain ⟨hkeys, hchecks⟩ := h
  have hmembers : ∀ clientId, s.redis.members (opts.key clientId) = [] := by
    intro clientId
    simp only [Redis.members, Redis.find, hkeys, Option.filter_none, Option.map_none,
      Option.getD_none]
  refine ⟨?_, fun clientId => ?_, fun clientId => ?_, ?_⟩
  · simp [Past, hchecks]
  · rw [hchecks]
    refine .of_members_eq_nil (hmembers clientId) (fun c hc => absurd hc List.not_mem_nil) ?_
    intro z hz
    rw [hkeys] at hz
    exact absurd hz (Option.some_ne_none z).symm
  · rw [hchecks]
    exact .nil
  · intro earlier c later hsplit
    rw [hchecks] at hsplit
    exact absurd hsplit (by simp)

/-- Time passes, or Redis deletes what has expired: the checks stay as they are. -/
theorem Inv.of_checks_eq (h : s.Inv opts) (hchecks : s'.checks = s.checks)
    (hle : s.redis.nowMs ≤ s'.redis.nowMs)
    (hmirrors : ∀ clientId, Mirrors opts s'.redis clientId s.checks) : s'.Inv opts := by
  refine ⟨?_, ?_, ?_, ?_⟩ <;> rw [hchecks]
  · exact fun c hc => ⟨(h.past c hc).1, (h.past c hc).2.trans hle⟩
  · exact hmirrors
  · exact h.admitted
  · exact h.decided

theorem Inv.tick (h : s.Inv opts) (us : ℕ) :
    Inv opts { s with redis := { s.redis with clock := s.redis.clock + us } } := by
  have hle : s.redis.nowMs ≤ Redis.nowMs { s.redis with clock := s.redis.clock + us } := by
    unfold Redis.nowMs
    exact_mod_cast Nat.div_le_div_right (Nat.le_add_right _ _)
  exact h.of_checks_eq rfl hle fun clientId => (h.mirrors clientId).later rfl hle

theorem Inv.expire (h : s.Inv opts) {key : String} {z : SortedSet} {e : ℤ}
    (hkey : s.redis.keys key = some z) (hze : z.expireAt = some e) (he : e ≤ s.redis.nowMs) :
    Inv opts { s with redis := s.redis.del key } := by
  have hnow : (s.redis.del key).nowMs = s.redis.nowMs := (Redis.apart_del s.redis key).nowMs
  refine h.of_checks_eq rfl hnow.ge fun clientId => ?_
  by_cases hclient : opts.key clientId = key
  · -- the ttl has ended, so every allowed check of the client has left the window
    subst hclient
    obtain ⟨e', hze', hleft⟩ := (h.mirrors clientId).dated z hkey
    obtain rfl := Option.some.inj (hze.symm.trans hze')
    refine .of_members_eq_nil (Redis.members_del _ _) (fun c hc => ?_) ?_
    · exact ((hleft c hc).trans he).trans hnow.ge
    · intro z' hz'
      simp [Redis.del] at hz'
  -- the key of another client is as it was
  · obtain ⟨lo, hlo, hperm⟩ := (h.mirrors clientId).kept
    have hapart := Redis.apart_del s.redis key
    refine ⟨⟨lo, by rwa [hapart.nowMs], by rwa [hapart.members hclient]⟩, ?_⟩
    rw [hapart.2 _ hclient]
    exact (h.mirrors clientId).dated

/-- **One check** keeps the keys a mirror, and is decided by the specification. -/
theorem Inv.check (hlimit : 1 ≤ opts.limit) (hwindow : 1 ≤ opts.windowMs) (h : s.Inv opts)
    (hfresh : ∀ c ∈ s.checks, c.uuid ≠ uuid) :
    Inv opts { redis := (opts.check s.redis clientId uuid).1,
               checks := s.checks ++ [opts.made s.redis clientId uuid] } := by
  have hapart : Redis.Apart s.redis (opts.check s.redis clientId uuid).1 (opts.key clientId) :=
    slidingWindowLua_apart ..
  obtain ⟨hlt, hmeets, hmirrors⟩ : ((opts.made s.redis clientId uuid).allowed = true →
      (within (opts.windowMs : ℤ) s.redis.nowMs (timesOf clientId s.checks)).length < opts.limit) ∧
      (opts.made s.redis clientId uuid).Meets opts s.checks ∧
      Mirrors opts (opts.check s.redis clientId uuid).1 clientId
        (s.checks ++ [opts.made s.redis clientId uuid]) := by
    by_cases hroom : (within (opts.windowMs : ℤ) s.redis.nowMs
        (timesOf clientId s.checks)).length < opts.limit
    · have hmade := made_of_lt hwindow (h.mirrors clientId) h.past hfresh hroom
      exact ⟨fun _ => hroom, hmade.2⟩
    · have hrefusal : (opts.made s.redis clientId uuid).allowed = false ∧
          (opts.made s.redis clientId uuid).Meets opts s.checks ∧
          Mirrors opts (opts.check s.redis clientId uuid).1 clientId
            (s.checks ++ [opts.made s.redis clientId uuid]) :=
        made_of_le hlimit (h.mirrors clientId) h.past (h.admitted clientId) (not_lt.mp hroom)
      obtain ⟨hrefused, hmade⟩ := hrefusal
      exact ⟨fun hallowed => absurd (hrefused.symm.trans hallowed) Bool.false_ne_true, hmade⟩
  refine ⟨?_, fun client => ?_, fun client => ?_, ?_⟩
  · intro c hc
    rw [hapart.nowMs]
    rcases List.mem_append.mp hc with hc | hc
    · exact h.past c hc
    · obtain rfl := List.mem_singleton.mp hc
      exact ⟨Int.natCast_nonneg _, le_refl _⟩
  · by_cases hclient : clientId = client
    · exact hclient ▸ hmirrors
    · refine ((h.mirrors client).apart hapart ?_ ?_).2
      -- two clients of one limiter have two keys
      · exact fun hkey => hclient (opts.key_inj hkey).symm
      · exact allowedOf_singleton_of_not fun hc => hclient hc.1
  · by_cases hnew : clientId = client ∧ (opts.made s.redis clientId uuid).allowed = true
    · obtain ⟨rfl, hallowed⟩ := hnew
      have hlast : timesOf clientId [opts.made s.redis clientId uuid] = [s.redis.nowMs] := by
        rw [timesOf, allowedOf_singleton_of RateLimitOptions.made_clientId hallowed]
        rfl
      rw [timesOf_append, hlast]
      -- an allowed check is later than all before it, and had room
      refine .snoc _ _ (h.admitted clientId) (fun b hb => ?_) (hlt hallowed)
      obtain ⟨c, hc, rfl⟩ := List.mem_map.mp hb
      exact (h.past c (mem_allowedOf.mp hc).1).2
    · have hnone : timesOf client [opts.made s.redis clientId uuid] = [] := by
        rw [timesOf, allowedOf_singleton_of_not hnew]
        rfl
      rw [timesOf_append, hnone, List.append_nil]
      exact h.admitted client
  · intro earlier c later hsplit
    -- the check of the split is the new one, or one of before
    rcases List.append_eq_append_iff.mp hsplit with ⟨mid, rfl, hlast⟩ | ⟨mid, hearlier, hlast⟩
    · obtain ⟨rfl, hlast⟩ | ⟨_, rfl, hlast⟩ := List.cons_eq_append_iff.mp hlast
      · obtain ⟨rfl, -⟩ := List.cons.inj hlast
        rw [List.append_nil]
        exact hmeets
      · simp at hlast
    · obtain ⟨rfl, hlast⟩ | ⟨mid', rfl, -⟩ := List.cons_eq_append_iff.mp hlast
      · obtain ⟨rfl, -⟩ := List.cons.inj hlast
        rw [List.append_nil] at hearlier
        exact hearlier ▸ hmeets
      · exact h.decided earlier c mid' hearlier

theorem Inv.step (hlimit : 1 ≤ opts.limit) (hwindow : 1 ≤ opts.windowMs) (h : s.Inv opts)
    (hstep : s.step opts ev = some s') : s'.Inv opts := by
  cases ev with
  | check pod clientId uuid =>
    simp only [step] at hstep
    split_ifs at hstep with hused
    obtain rfl := Option.some.inj hstep
    refine h.check hlimit hwindow fun c hc huuid => hused ?_
    exact List.any_eq_true.mpr ⟨c, hc, decide_eq_true huuid⟩
  | tick us =>
    obtain rfl := Option.some.inj hstep
    exact h.tick us
  | expire key =>
    simp only [step] at hstep
    split_ifs at hstep with hended
    obtain rfl := Option.some.inj hstep
    obtain ⟨z, hkey, hz⟩ := (Option.any_eq_true _ _).mp hended
    obtain ⟨e, hze, he⟩ := (Option.any_eq_true _ _).mp hz
    exact h.expire hkey hze (of_decide_eq_true he)

end RateState

/-- What holds of the limiters in every reachable state. -/
theorem rateLimiters_invariant (hlimit : 1 ≤ opts.limit) (hwindow : 1 ≤ opts.windowMs) :
    (rateLimiters opts).Invariant (RateState.Inv opts) :=
  fun _ _ _ h hstep => h.step hlimit hwindow hstep

/-- **The limiter is its specification.** In every run of checks of any clients by any
number of limiters on one Redis, a check is allowed if and only if fewer than `limit` of
the client's earlier checks in the window that ends at it were allowed, and it says
truly how many remain; so no window of the width, wherever in real time it ends, holds
more than `limit` allowed checks of a client. -/
theorem limiter_meets_specification {opts : RateLimitOptions} (hlimit : 1 ≤ opts.limit)
    (hwindow : 1 ≤ opts.windowMs) {s₀ s : RateState} {as : List RateEvent}
    (hstart : (rateLimiters opts).start s₀) (hrun : (rateLimiters opts).run s₀ as = some s) :
    (∀ earlier c later, s.checks = earlier ++ c :: later → c.Meets opts earlier) ∧
      ∀ clientId (t : ℝ), (within (opts.windowMs : ℝ) t
        ((timesOf clientId s.checks).map Int.cast)).length ≤ opts.limit := by
  have hinv := (rateLimiters_invariant hlimit hwindow).run (RateState.Inv.of_start hstart) hrun
  refine ⟨hinv.decided, fun clientId t => ?_⟩
  have hreal := (hinv.admitted clientId).map (Int.castAddHom ℝ) Int.cast_strictMono
  exact hreal.length_within_le t

/-- Two requests in a window of ten milliseconds. -/
def demoRateLimitOptions : RateLimitOptions :=
  { limit := 2, windowMs := 10, keyPrefix := none, failOpen := none }

/-- A Redis without keys, 100 ms after its epoch. -/
def demoRateState : RateState :=
  { redis := { keys := fun _ => none, clock := 100000 }, checks := [] }

/-- Three checks over two pods in one millisecond; the key expires as its members leave the
window, and a fourth check comes in that very millisecond. -/
def demoBurst : List RateEvent :=
  [.check 1 "a" "u1", .check 2 "a" "u2", .tick 400, .check 1 "a" "u3", .tick 9600,
    .expire "rl:a", .check 2 "a" "u4"]

theorem demoBurst_meets_specification :
    ∃ s, (rateLimiters demoRateLimitOptions).run demoRateState demoBurst = some s ∧
      timesOf "a" s.checks = [100, 100, 110] ∧
      (∀ earlier c later, s.checks = earlier ++ c :: later → c.Meets demoRateLimitOptions earlier) ∧
      ∀ clientId (t : ℝ), (within ((10 : ℕ) : ℝ) t
        ((timesOf clientId s.checks).map Int.cast)).length ≤ 2 := by
  have hrun : ((rateLimiters demoRateLimitOptions).run demoRateState demoBurst).any
      (fun s => decide (timesOf "a" s.checks = [100, 100, 110])) = true := by
    decide +kernel
  obtain ⟨s, hs, htimes⟩ := (Option.any_eq_true _ _).mp hrun
  exact ⟨s, hs, of_decide_eq_true htimes,
    limiter_meets_specification (by decide) (by decide) ⟨fun _ => rfl, rfl⟩ hs⟩

end Marketplace
