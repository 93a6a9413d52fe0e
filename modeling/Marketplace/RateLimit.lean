import Marketplace.Run
import Mathlib.Data.List.Sort
import Mathlib.Data.String.Basic
import Mathlib.Order.Lattice

/-!
# The rate limiter

`redis/rate-limit.ts` keeps, for each client, a ZSET of the allowed requests with
their times as scores, and decides a request in one Lua script: prune what has left
the window, count, and add the request if there is room. The key carries a ttl of
one window, set again by every allowed request.

Redis is its keyspace and its clock, in microseconds. A key whose ttl has passed is
gone for every command; at the very millisecond at which it ends, it may be there
still or be gone already (`expire`).
-/

namespace Marketplace

/-! ## Redis -/

/-- A member of a ZSET with its score. -/
structure Scored where
  member : String
  score : ℤ
  deriving DecidableEq, Repr

/-- The order of a ZSET: by score, members with one score in their own order. -/
def Scored.before (x y : Scored) : Prop :=
  x.score < y.score ∨ x.score = y.score ∧ x.member ≤ y.member

instance : DecidableRel Scored.before := fun x y =>
  inferInstanceAs (Decidable (x.score < y.score ∨ x.score = y.score ∧ x.member ≤ y.member))

/-- A key that holds a ZSET: its members in order, and the moment its ttl ends, in ms. -/
structure SortedSet where
  members : List Scored
  expireAt : Option ℤ
  deriving DecidableEq, Repr

/-- The cache Redis. -/
structure Redis where
  keys : String → Option SortedSet
  /-- the clock, in microseconds -/
  clock : ℕ

namespace Redis

/-- `TIME`: seconds, and the microseconds past them. -/
def time (r : Redis) : ℕ × ℕ := (r.clock / 10 ^ 6, r.clock % 10 ^ 6)

/-- The clock in milliseconds. -/
def nowMs (r : Redis) : ℤ := ↑(r.clock / 1000)

/-- What a command finds at a key: nothing once the ttl has passed. -/
def find (r : Redis) (key : String) : Option SortedSet :=
  (r.keys key).filter fun z => !z.expireAt.any fun e => decide (e < r.nowMs)

/-- The members of the ZSET at a key. -/
def members (r : Redis) (key : String) : List Scored :=
  ((r.find key).map SortedSet.members).getD []

/-- Write a key; a ZSET without members is no key. -/
def set (r : Redis) (key : String) (z : SortedSet) : Redis :=
  { r with keys := fun k =>
      if k = key then (if z.members = [] then none else some z) else r.keys k }

/-- `DEL`. -/
def del (r : Redis) (key : String) : Redis :=
  { r with keys := fun k => if k = key then none else r.keys k }

/-- `ZREMRANGEBYSCORE key min max`. -/
def zremrangebyscore (r : Redis) (key : String) (min max : ℤ) : Redis :=
  match r.find key with
  | none => r.del key
  | some z => r.set key
      { z with members := z.members.filter fun m => !decide (min ≤ m.score ∧ m.score ≤ max) }

/-- `ZCARD key`. -/
def zcard (r : Redis) (key : String) : ℤ := ↑(r.members key).length

/-- `ZADD key score member`: a member that is there already gets the new score. -/
def zadd (r : Redis) (key : String) (score : ℤ) (member : String) : Redis :=
  r.set key
    { members := List.orderedInsert Scored.before { member := member, score := score }
        ((r.members key).filter fun m => decide (m.member ≠ member)),
      expireAt := (r.find key).bind SortedSet.expireAt }

/-- `PEXPIRE key ttl`: a ttl that is not positive deletes the key. -/
def pexpire (r : Redis) (key : String) (ttl : ℤ) : Redis :=
  match r.find key with
  | none => r.del key
  | some z => if ttl ≤ 0 then r.del key else r.set key { z with expireAt := some (r.nowMs + ttl) }

/-- `ZRANGE key 0 0 WITHSCORES`: the first member, if there is one. -/
def zrangeFirst (r : Redis) (key : String) : Option Scored := (r.members key).head?

variable {r : Redis} {key k : String} {z : SortedSet} {min max score ttl : ℤ} {member : String}

theorem find_eq_some :
    r.find key = some z ↔ r.keys key = some z ∧ ∀ e, z.expireAt = some e → r.nowMs ≤ e := by
  unfold find
  rw [Option.filter_eq_some_iff]
  refine and_congr_right fun _ => ?_
  rcases z.expireAt with _ | e <;> simp

/-- At another key, and on the clock, nothing changes. -/
def Apart (r r' : Redis) (key : String) : Prop :=
  r'.clock = r.clock ∧ ∀ k, k ≠ key → r'.keys k = r.keys k

theorem Apart.trans {r' r'' : Redis} (h : Apart r r' key) (h' : Apart r' r'' key) :
    Apart r r'' key :=
  ⟨h'.1.trans h.1, fun k hk => (h'.2 k hk).trans (h.2 k hk)⟩

theorem Apart.nowMs {r' : Redis} (h : Apart r r' key) : r'.nowMs = r.nowMs := by
  unfold Redis.nowMs
  rw [h.1]

theorem Apart.members {r' : Redis} (h : Apart r r' key) (hk : k ≠ key) :
    r'.members k = r.members k := by
  simp only [Redis.members, find, h.2 k hk, h.nowMs]

theorem apart_set (r : Redis) (key : String) (z : SortedSet) : Apart r (r.set key z) key :=
  ⟨rfl, fun _ hk => if_neg hk⟩

theorem apart_del (r : Redis) (key : String) : Apart r (r.del key) key :=
  ⟨rfl, fun _ hk => if_neg hk⟩

theorem members_del (r : Redis) (key : String) : (r.del key).members key = [] := by
  simp [members, find, del]

/-- What is written with a ttl still to run is found. -/
theorem members_set (r : Redis) (key : String) (z : SortedSet)
    (h : ∀ e, z.expireAt = some e → r.nowMs ≤ e) :
    (r.set key z).members key = z.members := by
  by_cases hz : z.members = []
  · simp [members, find, set, hz]
  · have hfind : (r.set key z).find key = some z :=
      find_eq_some.mpr ⟨by simp [set, hz], h⟩
    rw [members, hfind]
    rfl

theorem keys_set_eq_some {z' : SortedSet} (h : (r.set key z).keys key = some z') : z' = z := by
  by_cases hz : z.members = [] <;> simp [set, hz] at h
  exact h.symm

theorem keys_set_of_ne_nil (hz : z.members ≠ []) : (r.set key z).keys key = some z := by
  simp [set, hz]

theorem apart_zremrangebyscore : Apart r (r.zremrangebyscore key min max) key := by
  unfold zremrangebyscore
  split
  · exact apart_del r key
  · exact apart_set r key _

theorem members_zremrangebyscore (r : Redis) (key : String) (min max : ℤ) :
    (r.zremrangebyscore key min max).members key =
      (r.members key).filter fun m => !decide (min ≤ m.score ∧ m.score ≤ max) := by
  rcases h : r.find key with _ | z
  · have hdel : r.zremrangebyscore key min max = r.del key := by
      simp only [zremrangebyscore, h]
    rw [hdel, members_del, members, h]
    rfl
  · have hlive := (find_eq_some.mp h).2
    have hkept := members_set r key
      { z with members := z.members.filter fun m => !decide (min ≤ m.score ∧ m.score ≤ max) } hlive
    simp only [zremrangebyscore, members, h] at hkept ⊢
    exact hkept

/-- Pruning leaves the ttl as it is. -/
theorem expireAt_zremrangebyscore
    (h : (r.zremrangebyscore key min max).keys key = some z) :
    ∃ z₀, r.keys key = some z₀ ∧ z.expireAt = z₀.expireAt := by
  unfold zremrangebyscore at h
  rcases hfind : r.find key with _ | z₀ <;> rw [hfind] at h
  · simp [del] at h
  · obtain rfl := keys_set_eq_some h
    exact ⟨z₀, (find_eq_some.mp hfind).1, rfl⟩

theorem apart_zadd : Apart r (r.zadd key score member) key := apart_set r key _

theorem members_zadd (r : Redis) (key : String) (score : ℤ) (member : String) :
    (r.zadd key score member).members key =
      List.orderedInsert Scored.before { member := member, score := score }
        ((r.members key).filter fun m => decide (m.member ≠ member)) := by
  refine members_set r key _ fun e he => ?_
  obtain ⟨z, hz, hze⟩ := Option.bind_eq_some_iff.mp he
  exact (find_eq_some.mp hz).2 e hze

theorem apart_pexpire : Apart r (r.pexpire key ttl) key := by
  unfold pexpire
  split
  · exact apart_del r key
  · split
    · exact apart_del r key
    · exact apart_set r key _

/-- `PEXPIRE` dates the key, and keeps its members. -/
theorem pexpire_spec (httl : 0 < ttl) (hmem : r.members key ≠ []) :
    (r.pexpire key ttl).members key = r.members key ∧
      ∃ z, (r.pexpire key ttl).keys key = some z ∧ z.expireAt = some (r.nowMs + ttl) := by
  rcases hfind : r.find key with _ | z
  · rw [members, hfind] at hmem
    exact absurd rfl hmem
  · have hz : z.members = r.members key := by
      rw [members, hfind]
      rfl
    have hset : r.pexpire key ttl = r.set key { z with expireAt := some (r.nowMs + ttl) } := by
      simp only [pexpire, hfind, if_neg (not_le.mpr httl)]
    rw [hset]
    refine ⟨?_, _, keys_set_of_ne_nil (hz ▸ hmem), rfl⟩
    rw [members_set, hz]
    intro e he
    obtain rfl := Option.some.inj he
    omega

/-- `TIME`, put together in ms, is the clock in ms. -/
theorem nowMs_eq_time (r : Redis) : (↑(r.time.1 * 1000 + r.time.2 / 1000) : ℤ) = r.nowMs := by
  unfold time nowMs
  congr 1
  omega

end Redis

/-! ## The limiter -/

/-- `SLIDING_WINDOW_LUA`: allowed or not, what remains, and after how many ms to retry. -/
def slidingWindowLua (r : Redis) (key : String) (win lim : ℤ) (uuid : String) :
    Redis × Except String (ℤ × ℤ × ℤ) :=
  let now : ℤ := ↑(r.time.1 * 1000 + r.time.2 / 1000)
  let r := r.zremrangebyscore key 0 (now - win)
  let n := r.zcard key
  if n < lim then
    ((r.zadd key now uuid).pexpire key win, .ok (1, lim - n - 1, 0))
  else
    match r.zrangeFirst key with
    | none => (r, .error "attempt to perform arithmetic on a nil value")
    | some oldest => (r, .ok (0, 0, oldest.score + win - now))

section Script

variable {r : Redis} {key uuid : String} {win lim : ℤ}

/-- The members still in the window. -/
def Redis.inWindow (r : Redis) (key : String) (win : ℤ) : List Scored :=
  (r.members key).filter fun m => !decide (0 ≤ m.score ∧ m.score ≤ r.nowMs - win)

theorem slidingWindowLua_apart (r : Redis) (key uuid : String) (win lim : ℤ) :
    Redis.Apart r (slidingWindowLua r key win lim uuid).1 key := by
  have hprune : Redis.Apart r (r.zremrangebyscore key 0 (r.nowMs - win)) key :=
    Redis.apart_zremrangebyscore
  simp only [slidingWindowLua, Redis.nowMs_eq_time]
  split
  · exact hprune.trans (Redis.apart_zadd.trans Redis.apart_pexpire)
  · split <;> exact hprune

/-- With room in the window, the script adds the request and dates the key. -/
theorem slidingWindowLua_of_lt (hwin : 0 < win) (hfresh : ∀ m ∈ r.members key, m.member ≠ uuid)
    (hlt : ↑(r.inWindow key win).length < lim) :
    (slidingWindowLua r key win lim uuid).2 = .ok (1, lim - (r.inWindow key win).length - 1, 0) ∧
      (slidingWindowLua r key win lim uuid).1.members key =
        List.orderedInsert Scored.before { member := uuid, score := r.nowMs }
          (r.inWindow key win) ∧
      ∃ z, (slidingWindowLua r key win lim uuid).1.keys key = some z ∧
        z.expireAt = some (r.nowMs + win) := by
  have hprune := Redis.members_zremrangebyscore r key 0 (r.nowMs - win)
  have hnow : (r.zremrangebyscore key 0 (r.nowMs - win)).nowMs = r.nowMs :=
    Redis.apart_zremrangebyscore.nowMs
  have hadd : ((r.zremrangebyscore key 0 (r.nowMs - win)).zadd key r.nowMs uuid).members key =
      List.orderedInsert Scored.before { member := uuid, score := r.nowMs }
        (r.inWindow key win) := by
    rw [Redis.members_zadd, hprune]
    congr 1
    refine List.filter_eq_self.mpr fun m hm => ?_
    exact decide_eq_true (hfresh m (List.mem_of_mem_filter hm))
  have hne :
      ((r.zremrangebyscore key 0 (r.nowMs - win)).zadd key r.nowMs uuid).members key ≠ [] := by
    rw [hadd]
    exact List.ne_nil_of_length_pos (by rw [List.orderedInsert_length]; exact Nat.succ_pos _)
  obtain ⟨hmem, z, hz, hze⟩ := Redis.pexpire_spec hwin hne
  have hcard : (r.zremrangebyscore key 0 (r.nowMs - win)).zcard key =
      ↑(r.inWindow key win).length := by
    rw [Redis.zcard, hprune]
    rfl
  simp only [slidingWindowLua, Redis.nowMs_eq_time, hcard, if_pos hlt]
  refine ⟨trivial, hmem.trans hadd, z, hz, ?_⟩
  rw [hze, Redis.apart_zadd.nowMs, hnow]

/-- Without room, the script only prunes, and says when the oldest member leaves. -/
theorem slidingWindowLua_of_le (hlim : 0 < lim) (hle : lim ≤ ↑(r.inWindow key win).length) :
    (∃ oldest, (r.inWindow key win).head? = some oldest ∧
      (slidingWindowLua r key win lim uuid).2 = .ok (0, 0, oldest.score + win - r.nowMs)) ∧
      (slidingWindowLua r key win lim uuid).1.members key = r.inWindow key win ∧
      ∀ z, (slidingWindowLua r key win lim uuid).1.keys key = some z →
        ∃ z₀, r.keys key = some z₀ ∧ z.expireAt = z₀.expireAt := by
  have hprune := Redis.members_zremrangebyscore r key 0 (r.nowMs - win)
  have hcard : (r.zremrangebyscore key 0 (r.nowMs - win)).zcard key =
      ↑(r.inWindow key win).length := by
    rw [Redis.zcard, hprune]
    rfl
  have hfirst : (r.zremrangebyscore key 0 (r.nowMs - win)).zrangeFirst key =
      (r.inWindow key win).head? := by
    rw [Redis.zrangeFirst, hprune]
    rfl
  rcases hhead : (r.inWindow key win).head? with _ | oldest
  · rw [List.head?_eq_none_iff.mp hhead] at hle
    simp only [List.length_nil] at hle
    omega
  · simp only [slidingWindowLua, Redis.nowMs_eq_time, hcard, if_neg (not_lt.mpr hle), hfirst, hhead]
    exact ⟨⟨oldest, rfl, rfl⟩, hprune, fun z hz => Redis.expireAt_zremrangebyscore hz⟩

end Script

/-- `RateLimitOptions`. -/
structure RateLimitOptions where
  limit : ℕ
  windowMs : ℕ
  keyPrefix : Option String
  failOpen : Option Bool
  deriving DecidableEq, Repr

/-- `RateLimitResult`. -/
structure RateLimitResult where
  allowed : Bool
  remaining : ℤ
  retryAfterSec : ℤ
  deriving DecidableEq, Repr

namespace RateLimitOptions

/-- The key of a client. -/
def key (opts : RateLimitOptions) (clientId : String) : String :=
  opts.keyPrefix.getD "rl:" ++ clientId

/-- What `check` makes of the reply of `eval`, the `catch` branch included. -/
def result (opts : RateLimitOptions) : Except String (ℤ × ℤ × ℤ) → Except String RateLimitResult
  | .ok (allowed, remaining, retryMs) => .ok
      { allowed := decide (allowed = 1),
        remaining := remaining,
        -- `Math.ceil(retryMs / 1000)`
        retryAfterSec := if allowed = 1 then 0 else max 1 (-(-retryMs / 1000)) }
  | .error e =>
      if opts.failOpen.getD true then
        .ok { allowed := true, remaining := opts.limit, retryAfterSec := 0 }
      else .error e

/-- `RateLimiter.check` of a limiter with these options. -/
def check (opts : RateLimitOptions) (r : Redis) (clientId uuid : String) :
    Redis × Except String RateLimitResult :=
  let reply := slidingWindowLua r (opts.key clientId) opts.windowMs opts.limit uuid
  (reply.1, opts.result reply.2)

end RateLimitOptions

/-! ## Runs -/

/-- A check that was made, with the time of Redis at which it was decided, in ms. -/
structure RateCheck where
  clientId : String
  uuid : String
  now : ℤ
  answer : Except String RateLimitResult

/-- The Redis that all limiters share, and the checks made so far. -/
structure RateState where
  redis : Redis
  checks : List RateCheck

/-- What can happen next. -/
inductive RateEvent
  /-- a limiter checks a client, with a fresh `randomUUID()` -/
  | check (pod : ℕ) (clientId uuid : String)
  /-- time passes -/
  | tick (us : ℕ)
  /-- Redis deletes a key whose ttl has ended -/
  | expire (key : String)
  deriving DecidableEq, Repr

namespace RateState

/-- One event; the limiters differ in nothing but their connection. -/
def step (opts : RateLimitOptions) (s : RateState) : RateEvent → Option RateState
  | .check _ clientId uuid =>
      if (s.checks.any fun c => decide (c.uuid = uuid)) then none
      else
        let done := opts.check s.redis clientId uuid
        some
          { redis := done.1,
            checks := s.checks ++
              [{ clientId := clientId, uuid := uuid, now := s.redis.nowMs, answer := done.2 }] }
  | .tick us => some { s with redis := { s.redis with clock := s.redis.clock + us } }
  | .expire key =>
      if (s.redis.keys key).any fun z => z.expireAt.any fun e => decide (e ≤ s.redis.nowMs) then
        some { s with redis := s.redis.del key }
      else none

end RateState

/-- The limiters with these options, from a Redis in which no client has a key. -/
def rateLimiters (opts : RateLimitOptions) : System RateState RateEvent where
  start s := (∀ clientId, s.redis.keys (opts.key clientId) = none) ∧ s.checks = []
  step := RateState.step opts

end Marketplace
