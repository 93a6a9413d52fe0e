import Marketplace.Run
import Marketplace.Slots

/-!
# The cache

`CacheAside` of `redis/cache.ts` for one key: the entry and the lock in Redis, the source
that `load` reads, and any number of calls of `get`, each with the options of its own
instance. A call moves from one Redis command (or one `load`) to the next; what it does
between them is part of the step. Only where it looks at the clock the steps are smaller:
`Date.now()` is read once for the deadline and again by the loop, after the lock was refused,
and again after each poll that found nothing; time may pass in between.

Every command goes through `safe`, so a failing one is an answer like any other
(`fail`). The entry and the lock vanish when their ttl has passed or Redis evicts them.

To say how old a value is, the model counts the changes of the source, and a value that
was loaded carries the count at its load. No step looks at it.
-/

namespace Marketplace.Cache

universe u

/-- `CacheOptions`, as far as `get` reads them. -/
structure CacheOptions where
  singleFlight : Bool
  lockMs : ℕ
  waitMs : ℕ
  deriving DecidableEq

/-- `DEFAULT_CACHE_OPTIONS` -/
def defaultCacheOptions : CacheOptions := ⟨true, 5000, 3000⟩

/-- A value that `load` returned, with the number of changes it has seen. -/
structure Loaded (T : Type u) where
  value : T
  version : ℕ
  deriving DecidableEq

/-- What a call of `get` ends with. -/
inductive Outcome (T : Type u) where
  | returned (value : Option (Loaded T))
  | threw
  deriving DecidableEq

/-- Where a call of `get` is: the command it does next. -/
inductive GetPc (T : Type u) where
  /-- the first `read` -/
  | read
  /-- `SET lock NX PX` -/
  | setLock
  /-- the second `read`, under the lock -/
  | readAgain
  /-- `load` of `fill`; under the lock or not -/
  | load (locked : Bool)
  /-- `write` of `fill` -/
  | write (locked : Bool) (value : Loaded T)
  /-- `UNLOCK_LUA` -/
  | unlock (outcome : Outcome T)
  /-- somebody else has the lock: the deadline is made next -/
  | refused
  /-- the loop looks at the clock for the first time -/
  | waits (deadline : ℕ)
  /-- the next `read` of the loop -/
  | poll (deadline : ℕ)
  /-- that `read`, at this moment, found nothing -/
  | missed (deadline polled : ℕ)
  | ended (outcome : Outcome T)
  deriving DecidableEq

/-- A call of `get`. -/
structure Call (T : Type u) where
  opts : CacheOptions
  pc : GetPc T
  deriving DecidableEq

/-- The lock: its token, which is the number of the call that drew it, and its end. -/
structure Lock where
  token : ℕ
  expires : ℕ
  deriving DecidableEq

/-- Redis, the source, and the calls. -/
structure State (T : Type u) where
  /-- the clock, in ms -/
  now : ℕ
  /-- the number of changes of the source -/
  version : ℕ
  /-- what `load` would return -/
  source : Option T
  entry : Option (Loaded T)
  lock : Option Lock
  calls : ℕ → Option (Call T)

/-- What can happen. -/
inductive Event (T : Type u) where
  | tick (ms : ℕ)
  /-- the source changes -/
  | change (value : Option T)
  /-- `invalidate`: `DEL` -/
  | invalidate
  /-- the entry expires or is evicted -/
  | evict
  /-- the lock expires or is evicted -/
  | loseLock
  /-- somebody calls `get` -/
  | start (c : ℕ) (opts : CacheOptions)
  /-- the next step of a call -/
  | step (c : ℕ)
  /-- the next step of a call fails -/
  | fail (c : ℕ)
  deriving DecidableEq

variable {T : Type u}

/-- What is left to do for a call with its outcome: `finally`. -/
def finish (locked : Bool) (outcome : Outcome T) : GetPc T :=
  if locked then .unlock outcome else .ended outcome

namespace State

/-- The state with a call elsewhere. -/
def goto (s : State T) (c : ℕ) (opts : CacheOptions) (pc : GetPc T) : State T :=
  { s with calls := Function.update s.calls c (some ⟨opts, pc⟩) }

/-- What the loop does with the clock: `while (Date.now() < deadline)`. -/
def loop (s : State T) (deadline : ℕ) : GetPc T :=
  if s.now < deadline then .poll deadline else .load false

/-- `get` and `fill`: one step of a call. -/
def advance (s : State T) (c : ℕ) (opts : CacheOptions) : GetPc T → Option (State T)
  | .read =>
    match s.entry with
    | some x => some (s.goto c opts (.ended (.returned (some x))))
    | none => some (s.goto c opts (if opts.singleFlight then .setLock else .load false))
  | .setLock =>
    match s.lock with
    | none =>
      some ({ s with lock := some ⟨c, s.now + opts.lockMs⟩ }.goto c opts .readAgain)
    | some _ => some (s.goto c opts .refused)
  | .readAgain =>
    match s.entry with
    | some x => some (s.goto c opts (.unlock (.returned (some x))))
    | none => some (s.goto c opts (.load true))
  | .load locked =>
    match s.source with
    | some value => some (s.goto c opts (.write locked ⟨value, s.version⟩))
    | none => some (s.goto c opts (finish locked (.returned none)))
  | .write locked x =>
    some ({ s with entry := some x }.goto c opts (finish locked (.returned (some x))))
  | .unlock outcome =>
    -- compare-and-delete
    some ({ s with
      lock := if s.lock.any fun l : Lock => l.token = c then none else s.lock }.goto c opts
      (.ended outcome))
  | .refused => some (s.goto c opts (.waits (s.now + opts.waitMs)))
  | .waits deadline => some (s.goto c opts (s.loop deadline))
  | .poll deadline =>
    match s.entry with
    | some x => some (s.goto c opts (.ended (.returned (some x))))
    | none => some (s.goto c opts (.missed deadline s.now))
  | .missed deadline _ => some (s.goto c opts (s.loop deadline))
  | .ended _ => none

/-- `safe`, and a `load` that throws: one failing step of a call. -/
def failing (s : State T) (c : ℕ) (opts : CacheOptions) : GetPc T → Option (State T)
  | .read => some (s.goto c opts (if opts.singleFlight then .setLock else .load false))
  | .setLock => some (s.goto c opts .refused)
  | .readAgain => some (s.goto c opts (.load true))
  | .load locked => some (s.goto c opts (finish locked .threw))
  | .write locked x => some (s.goto c opts (finish locked (.returned (some x))))
  | .unlock outcome => some (s.goto c opts (.ended outcome))
  | .poll deadline => some (s.goto c opts (.missed deadline s.now))
  | .refused | .waits _ | .missed _ _ | .ended _ => none

/-- One event. -/
def step (s : State T) : Event T → Option (State T)
  | .tick ms => some { s with now := s.now + ms }
  | .change value => some { s with source := value, version := s.version + 1 }
  | .invalidate => some { s with entry := none }
  | .evict => some { s with entry := none }
  | .loseLock => some { s with lock := none }
  | .start c opts =>
    match s.calls c with
    | none => some (s.goto c opts .read)
    | some _ => none
  | .step c =>
    match s.calls c with
    | some call => s.advance c call.opts call.pc
    | none => none
  | .fail c =>
    match s.calls c with
    | some call => s.failing c call.opts call.pc
    | none => none

/-- Before the first call. -/
structure Start (s : State T) : Prop where
  entry : s.entry = none
  lock : s.lock = none
  calls : ∀ c, s.calls c = none

end State

/-- The cache and its callers. -/
def caches (T : Type u) : System (State T) (Event T) := ⟨State.Start, State.step⟩

/-! ## What a step can do -/

/-- The outcome a call is going to end with, or has ended with. -/
def GetPc.outcome : GetPc T → Option (Outcome T)
  | .unlock outcome | .ended outcome => some outcome
  | _ => none

/-- What the step of a call makes of the values around it. -/
structure Follows (s : State T) (pc pc' : GetPc T) : Prop where
  /-- what is to be written was loaded just now -/
  write : ∀ locked x, pc' = .write locked x → x.version = s.version
  /-- what is returned was in the entry, or is what the call has written -/
  outcome : ∀ x, pc'.outcome = some (.returned (some x)) →
    s.entry = some x ∨ (∃ locked, pc = .write locked x) ∨ pc.outcome = some (.returned (some x))

/-- A step of a call. -/
structure Advances (s s' : State T) (c : ℕ) (opts : CacheOptions) (pc pc' : GetPc T) : Prop where
  calls : s'.calls = Function.update s.calls c (some ⟨opts, pc'⟩)
  now : s'.now = s.now
  version : s'.version = s.version
  source : s'.source = s.source
  entry : s'.entry = s.entry ∨ ∃ locked x, pc = .write locked x ∧ s'.entry = some x
  follows : Follows s pc pc'

section Steps

variable {s s' t : State T} {a : Event T} {c : ℕ} {opts : CacheOptions} {pc : GetPc T}

theorem finish_ne_write {locked locked' : Bool} {o : Outcome T} {x : Loaded T} :
    finish locked o ≠ .write locked' x := by
  cases locked <;> exact fun h => by cases h

theorem outcome_finish (locked : Bool) (o : Outcome T) : (finish locked o).outcome = some o := by
  cases locked <;> rfl

theorem loop_cases (s : State T) (deadline : ℕ) :
    s.loop deadline = .poll deadline ∨ s.loop deadline = .load false :=
  ite_eq_or_eq ..

/-- A call that goes on with nothing in its hands. -/
theorem follows_plain {pc' : GetPc T} (hwrite : ∀ locked x, pc' ≠ .write locked x)
    (houtcome : pc'.outcome = none) : Follows s pc pc' where
  write := fun locked x h => absurd h (hwrite locked x)
  outcome := fun x h => by
    rw [houtcome] at h
    cases h

theorem follows_loop (deadline : ℕ) : Follows s pc (s.loop deadline) := by
  rcases loop_cases s deadline with h | h <;> rw [h] <;>
    exact follows_plain (fun _ _ h => by cases h) rfl

/-- A call that ends with what it has found or written. -/
theorem follows_finish (locked : Bool) {o : Outcome T}
    (ho : ∀ x, o = .returned (some x) →
      s.entry = some x ∨ (∃ locked, pc = .write locked x) ∨
        pc.outcome = some (.returned (some x))) :
    Follows s pc (finish locked o) where
  write := fun _ _ h => absurd h finish_ne_write
  outcome := fun x h => by
    rw [outcome_finish] at h
    exact ho x (Option.some.inj h)

/-- **One step of a call.** -/
theorem advance_cases (h : s.advance c opts pc = some s') : ∃ pc', Advances s s' c opts pc pc' := by
  cases pc with
  | read =>
    simp only [State.advance] at h
    split at h
    · rename_i x hx
      obtain rfl := Option.some.inj h
      refine ⟨_, rfl, rfl, rfl, rfl, .inl rfl, follows_finish false fun y hy => ?_⟩
      cases hy
      exact .inl hx
    · obtain rfl := Option.some.inj h
      refine ⟨_, rfl, rfl, rfl, rfl, .inl rfl, ?_⟩
      split_ifs <;> exact follows_plain (fun _ _ h => by cases h) rfl
  | setLock =>
    simp only [State.advance] at h
    split at h <;> obtain rfl := Option.some.inj h <;>
      exact ⟨_, rfl, rfl, rfl, rfl, .inl rfl, follows_plain (fun _ _ h => by cases h) rfl⟩
  | readAgain =>
    simp only [State.advance] at h
    split at h
    · rename_i x hx
      obtain rfl := Option.some.inj h
      refine ⟨_, rfl, rfl, rfl, rfl, .inl rfl, follows_finish true fun y hy => ?_⟩
      cases hy
      exact .inl hx
    · obtain rfl := Option.some.inj h
      exact ⟨_, rfl, rfl, rfl, rfl, .inl rfl, follows_plain (fun _ _ h => by cases h) rfl⟩
  | load locked =>
    simp only [State.advance] at h
    split at h
    · obtain rfl := Option.some.inj h
      refine ⟨_, rfl, rfl, rfl, rfl, .inl rfl, ?_, fun x hx => by cases hx⟩
      rintro locked x ⟨⟩
      rfl
    · obtain rfl := Option.some.inj h
      exact ⟨_, rfl, rfl, rfl, rfl, .inl rfl, follows_finish locked fun y hy => by cases hy⟩
  | write locked x =>
    obtain rfl := Option.some.inj h
    refine ⟨_, rfl, rfl, rfl, rfl, .inr ⟨locked, x, rfl, rfl⟩, follows_finish locked fun y hy => ?_⟩
    cases hy
    exact .inr (.inl ⟨locked, rfl⟩)
  | unlock outcome =>
    obtain rfl := Option.some.inj h
    refine ⟨_, rfl, rfl, rfl, rfl, .inl rfl, follows_finish false fun y hy => ?_⟩
    exact .inr (.inr (congrArg some hy))
  | refused =>
    obtain rfl := Option.some.inj h
    exact ⟨_, rfl, rfl, rfl, rfl, .inl rfl, follows_plain (fun _ _ h => by cases h) rfl⟩
  | waits deadline =>
    obtain rfl := Option.some.inj h
    exact ⟨_, rfl, rfl, rfl, rfl, .inl rfl, follows_loop _⟩
  | poll deadline =>
    simp only [State.advance] at h
    split at h
    · rename_i x hx
      obtain rfl := Option.some.inj h
      refine ⟨_, rfl, rfl, rfl, rfl, .inl rfl, follows_finish false fun y hy => ?_⟩
      cases hy
      exact .inl hx
    · obtain rfl := Option.some.inj h
      exact ⟨_, rfl, rfl, rfl, rfl, .inl rfl, follows_plain (fun _ _ h => by cases h) rfl⟩
  | missed deadline polled =>
    obtain rfl := Option.some.inj h
    exact ⟨_, rfl, rfl, rfl, rfl, .inl rfl, follows_loop _⟩
  | ended outcome => cases h

/-- Nobody is stuck. -/
theorem advance_enabled (s : State T) (c : ℕ) (opts : CacheOptions) {pc : GetPc T}
    (h : ∀ outcome, pc ≠ .ended outcome) : ∃ s', s.advance c opts pc = some s' := by
  cases pc with
  | read | setLock | readAgain | load locked | poll deadline =>
    simp only [State.advance]
    split <;> exact ⟨_, rfl⟩
  | write locked x | unlock outcome | refused | waits deadline | missed deadline polled =>
    exact ⟨_, rfl⟩
  | ended outcome => exact absurd rfl (h outcome)

/-- A failing step of a call is a step without an effect. -/
theorem failing_cases (h : s.failing c opts pc = some s') : ∃ pc', Advances s s' c opts pc pc' := by
  cases pc with
  | read =>
    obtain rfl := Option.some.inj h
    refine ⟨_, rfl, rfl, rfl, rfl, .inl rfl, ?_⟩
    split_ifs <;> exact follows_plain (fun _ _ h => by cases h) rfl
  | setLock | readAgain | poll deadline =>
    obtain rfl := Option.some.inj h
    exact ⟨_, rfl, rfl, rfl, rfl, .inl rfl, follows_plain (fun _ _ h => by cases h) rfl⟩
  | load locked =>
    obtain rfl := Option.some.inj h
    exact ⟨_, rfl, rfl, rfl, rfl, .inl rfl, follows_finish locked fun y hy => by cases hy⟩
  | write locked x =>
    obtain rfl := Option.some.inj h
    refine ⟨_, rfl, rfl, rfl, rfl, .inl rfl, follows_finish locked fun y hy => ?_⟩
    cases hy
    exact .inr (.inl ⟨locked, rfl⟩)
  | unlock outcome =>
    obtain rfl := Option.some.inj h
    refine ⟨_, rfl, rfl, rfl, rfl, .inl rfl, follows_finish false fun y hy => ?_⟩
    exact .inr (.inr (congrArg some hy))
  | refused | waits deadline | missed deadline polled | ended outcome => cases h

/-- **One step** around the cache: of nobody, or of one call. -/
theorem step_cases (h : s.step a = some s') :
    (s'.calls = s.calls ∧ (s'.entry = s.entry ∨ s'.entry = none) ∧ s.version ≤ s'.version) ∨
      (∃ c opts, a = .start c opts ∧ s.calls c = none ∧ s' = s.goto c opts .read) ∨
      ∃ c opts pc pc', (a = .step c ∨ a = .fail c) ∧ s.calls c = some ⟨opts, pc⟩ ∧
        Advances s s' c opts pc pc' := by
  cases a with
  | tick ms | loseLock =>
    obtain rfl := Option.some.inj h
    exact .inl ⟨rfl, .inl rfl, Nat.le_refl _⟩
  | change value =>
    obtain rfl := Option.some.inj h
    exact .inl ⟨rfl, .inl rfl, Nat.le_succ _⟩
  | invalidate | evict =>
    obtain rfl := Option.some.inj h
    exact .inl ⟨rfl, .inr rfl, Nat.le_refl _⟩
  | start c opts =>
    simp only [State.step] at h
    split at h
    · rename_i hc
      exact .inr (.inl ⟨c, opts, rfl, hc, (Option.some.inj h).symm⟩)
    · cases h
  | step c =>
    simp only [State.step] at h
    split at h
    · rename_i call hc
      obtain ⟨pc', hadvance⟩ := advance_cases h
      exact .inr (.inr ⟨c, call.opts, call.pc, pc', .inl rfl, hc, hadvance⟩)
    · cases h
  | fail c =>
    simp only [State.step] at h
    split at h
    · rename_i call hc
      obtain ⟨pc', hadvance⟩ := failing_cases h
      exact .inr (.inr ⟨c, call.opts, call.pc, pc', .inr rfl, hc, hadvance⟩)
    · cases h

end Steps

/-! ## Invalidation -/

/-- Nothing that is kept for later, and nothing that a call outside `old` ends with, was
loaded before change `k`. -/
structure Fresh (k : ℕ) (old : ℕ → Prop) (s : State T) : Prop where
  version : k ≤ s.version
  entry : ∀ x, s.entry = some x → k ≤ x.version
  write : ∀ c opts locked x, s.calls c = some ⟨opts, .write locked x⟩ → k ≤ x.version
  outcome : ∀ c opts pc x, ¬ old c → s.calls c = some ⟨opts, pc⟩ →
    pc.outcome = some (.returned (some x)) → k ≤ x.version

section Invalidate

variable {s s' t : State T} {a : Event T} {k : ℕ} {old : ℕ → Prop}

/-- It stays so. -/
theorem Fresh.step (h : Fresh k old s) (hs : s.step a = some s') : Fresh k old s' := by
  rcases step_cases hs with ⟨hcalls, hentry, hversion⟩ | ⟨c, opts, -, hc, rfl⟩ |
    ⟨c, opts, pc, pc', -, hc, hadv⟩
  · refine ⟨Nat.le_trans h.version hversion, fun x hx => ?_, hcalls ▸ h.write, hcalls ▸ h.outcome⟩
    rcases hentry with hentry | hentry
    · exact h.entry x (hentry ▸ hx)
    · cases hentry.symm.trans hx
  · refine ⟨h.version, h.entry, fun c' opts' locked x hx => ?_, fun c' opts' pc x hold hx ho => ?_⟩
    · rcases Slots.found_cases_some hx with ⟨-, heq⟩ | ⟨-, hx⟩
      · cases heq
      · exact h.write c' opts' locked x hx
    · rcases Slots.found_cases_some hx with ⟨-, heq⟩ | ⟨-, hx⟩
      · cases heq
        cases ho
      · exact h.outcome c' opts' pc x hold hx ho
  · refine ⟨hadv.version ▸ h.version, fun x hx => ?_, fun c' opts' locked x hx => ?_,
      fun c' opts' pc₁ x hold hx ho => ?_⟩
    · rcases hadv.entry with hentry | ⟨locked, y, rfl, hentry⟩
      · exact h.entry x (hentry ▸ hx)
      · obtain rfl := Option.some.inj (hentry.symm.trans hx)
        exact h.write c opts locked y hc
    · rw [hadv.calls] at hx
      rcases Slots.found_cases_some hx with ⟨-, heq⟩ | ⟨-, hx⟩
      · cases heq
        rw [hadv.follows.write locked x rfl]
        exact h.version
      · exact h.write c' opts' locked x hx
    · rw [hadv.calls] at hx
      rcases Slots.found_cases_some hx with ⟨rfl, heq⟩ | ⟨-, hx⟩
      · cases heq
        rcases hadv.follows.outcome x ho with hentry | ⟨locked, rfl⟩ | hsame
        · exact h.entry x hentry
        · exact h.write c' opts locked x hc
        · exact h.outcome c' opts pc x hold hc hsame
      · exact h.outcome c' opts' pc₁ x hold hx ho

/-- Calls are numbered; only finitely many have begun. -/
theorem calls_bounded (hs : (caches T).Reachable s) : ∃ n, ∀ c, n ≤ c → s.calls c = none := by
  refine System.Invariant.reachable (M := caches T)
    (I := fun s => ∃ n, ∀ c, n ≤ c → s.calls c = none) ?_ ?_ hs
  · intro s a s' hbound hstep
    rcases step_cases hstep with ⟨hcalls, -, -⟩ | ⟨c, opts, -, hc, rfl⟩ |
      ⟨c, opts, pc, pc', -, hc, hadv⟩
    · rw [hcalls]
      exact hbound
    · exact Slots.exists_bound_update hbound c _
    · rw [hadv.calls]
      exact Slots.exists_bound_update hbound c _
  · exact fun s hs => ⟨0, fun c _ => hs.calls c⟩

/-- **When an invalidation is effective.** Change `k` of the source came before it. No call
of `get` that starts afterwards returns what was loaded before that change exactly when, at
the moment of the `DEL`, no call that loaded before the change has its `SET` still ahead. -/
theorem invalidate_effective_iff (hs : (caches T).Reachable s) (hdel : s.step .invalidate = some s')
    (hk : k ≤ s.version) :
    (∀ as t c opts pc x, (caches T).run s' as = some t → s'.calls c = none →
        t.calls c = some ⟨opts, pc⟩ → pc.outcome = some (.returned (some x)) → k ≤ x.version) ↔
      ∀ c opts locked x, s.calls c = some ⟨opts, .write locked x⟩ → k ≤ x.version := by
  obtain rfl := Option.some.inj hdel
  constructor
  · intro h c opts locked x hc
    obtain ⟨n, hn⟩ := calls_bounded hs
    have hnc : n ≠ c := (Slots.ne_of_free (hn n (Nat.le_refl n)) hc).symm
    -- the call writes, and a new one reads
    have hrun : (caches T).run { s with entry := none }
        [.step c, .start n defaultCacheOptions, .step n] =
          some ((({ s with entry := some x }.goto c opts
            (finish locked (.returned (some x)))).goto n defaultCacheOptions .read).goto n
            defaultCacheOptions (.ended (.returned (some x)))) := by
      simp only [System.run, caches, State.step, hc, State.advance, Option.bind_some, State.goto,
        Function.update_of_ne hnc, hn n (Nat.le_refl n), Function.update_self]
    exact h _ _ n defaultCacheOptions _ x hrun (hn n (Nat.le_refl n)) (Function.update_self ..) rfl
  · intro h as t c opts pc x hrun hnew hc ho
    have hfresh : Fresh k (fun c => s.calls c ≠ none) t := by
      refine System.Invariant.run (M := caches T) (fun _ _ _ h hs => h.step hs) ?_ hrun
      refine ⟨hk, fun x hx => absurd hx.symm (Option.some_ne_none x), h, ?_⟩
      intro c opts pc x hold hx _
      exact absurd (hx ▸ Option.some_ne_none _) hold
    exact hfresh.outcome c opts pc x (fun hold => hold hnew) hc ho

end Invalidate

/-- A cold cache over a source with one value. -/
def cold : State String where
  now := 0
  version := 0
  source := some "4.20"
  entry := none
  lock := none
  calls := fun _ => none

theorem cold_start : cold.Start := ⟨rfl, rfl, fun _ => rfl⟩

/-- One call loads, writes if it is let, and then the source changes. -/
def demoLoad (writes : List (Event String)) : List (Event String) :=
  [.start 0 defaultCacheOptions, .step 0, .step 0, .step 0, .step 0] ++ writes ++
    [.change (some "4.50")]

/-- It has written the entry before the change: the invalidation removes it for good. -/
theorem demoLoad_effective : ∃ s s', (caches String).run cold (demoLoad [.step 0]) = some s ∧
    s.step .invalidate = some s' ∧
    ∀ as t c opts pc x, (caches String).run s' as = some t → s'.calls c = none →
      t.calls c = some ⟨opts, pc⟩ → pc.outcome = some (.returned (some x)) → 1 ≤ x.version := by
  refine ⟨_, _, rfl, rfl, (invalidate_effective_iff ⟨cold, demoLoad [.step 0], cold_start, rfl⟩ rfl
    (Nat.le_refl 1)).mpr ?_⟩
  intro c opts locked x hx
  by_cases hc : c = 0
  · subst hc
    cases hx
  · simp [State.goto, Function.update_of_ne hc, cold] at hx

/-- It writes after the `DEL`, and the next call returns the value of before the change. -/
theorem overtaken_load_survives_invalidation : ∃ s s' t,
    (caches String).run cold (demoLoad []) = some s ∧ s.version = 1 ∧
    s.step .invalidate = some s' ∧ s'.calls 1 = none ∧
    (caches String).run s' [.step 0, .start 1 defaultCacheOptions, .step 1] = some t ∧
    t.calls 1 = some ⟨defaultCacheOptions, .ended (.returned (some ⟨"4.20", 0⟩))⟩ :=
  ⟨_, _, _, rfl, rfl, rfl, rfl, rfl, rfl⟩

end Marketplace.Cache
