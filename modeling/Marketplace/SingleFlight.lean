import Marketplace.Cache

/-!
# Single flight

Many calls of `get` for a cold key, one `load`. The first to set the lock leads: nobody
else gets the lock before its entry is written, so nobody else comes to load; those who
were refused poll, and the last poll before their deadline sees the entry; and those who
missed the entry but get the lock after the leader has released it find the entry at
their second `read`.

The invariant (`Flight`) has two phases. While the entry is absent, only the holder of the
lock is between the lock and the unlock. Once it is there, nobody is at `load` or `write`,
and whoever returns, returns the entry.
-/

namespace Marketplace.Cache

universe u

variable {T : Type u}

/-! ## The assumptions -/

/-- As long as the entry is absent, the lock has not reached its end, and a waiting call has
more time left than a `GET` takes. -/
structure InTime (g : ℕ) (s : State T) : Prop where
  lock : s.entry = none → ∀ l, s.lock = some l → s.now < l.expires
  deadline : s.entry = none → ∀ c opts deadline, s.calls c = some ⟨opts, .poll deadline⟩ →
    s.now + g < deadline

/-- A step of the wave: all calls are single-flight, Redis does not fail, the entry stays, the
lock stays until its end, `load` returns a value, a `GET` takes at most `g` ms, and the
leader writes in time. -/
structure Calm (g : ℕ) (s : State T) (a : Event T) : Prop where
  singleFlight : ∀ c opts, a = .start c opts → opts.singleFlight = true
  succeeds : ∀ c, a ≠ .fail c
  stays : a ≠ .evict ∧ a ≠ .invalidate
  lock : a = .loseLock → ∀ l, s.lock = some l → l.expires ≤ s.now
  load : ∀ c opts locked, a = .step c → s.calls c = some ⟨opts, .load locked⟩ → s.source ≠ none
  get : ∀ c opts deadline polled, a = .step c → s.calls c = some ⟨opts, .missed deadline polled⟩ →
    s.now ≤ polled + g
  inTime : InTime g s

/-- Calls that poll at all: when the loop first looks at the clock, the deadline has not passed.
A positive `waitMs` is not enough, since time may pass after the deadline was made. -/
def Polls (s : State T) (a : Event T) : Prop :=
  ∀ c opts deadline, a = .step c → s.calls c = some ⟨opts, .waits deadline⟩ → s.now < deadline

/-! ## What is observed -/

/-- The executions of `load`, with what they return. -/
def loads (s : State T) : Event T → List (Option (Loaded T))
  | .step c | .fail c =>
    match s.calls c with
    | some ⟨_, .load _⟩ => [s.source.map fun value => ⟨value, s.version⟩]
    | _ => []
  | _ => []

/-- The calls that set the lock. -/
def locks (s : State T) : Event T → List ℕ
  | .step c =>
    match s.calls c, s.lock with
    | some ⟨_, .setLock⟩, none => [c]
    | _, _ => []
  | _ => []

/-! ## The two phases -/

/-- The call is about to load. -/
def GetPc.loads : GetPc T → Bool
  | .load _ => true
  | _ => false

/-- The call is about to write. -/
def GetPc.writes : GetPc T → Bool
  | .write _ _ => true
  | _ => false

/-- How many steps of its own a call has left, once the entry is there. -/
def GetPc.left : GetPc T → ℕ
  | .setLock => 4
  | .refused => 3
  | .readAgain | .waits _ | .missed _ _ => 2
  | .read | .poll _ | .unlock _ => 1
  | .load _ | .write _ _ | .ended _ => 0

/-- A call that neither has the lock nor an outcome. Its last poll, if it found nothing,
was long before its deadline. -/
def Apart (g : ℕ) : GetPc T → Prop
  | .read | .setLock | .refused | .waits _ | .poll _ => True
  | .missed deadline polled => polled + g < deadline
  | _ => False

/-- A call on its way from the lock to the entry. -/
def Leads : GetPc T → Prop
  | .readAgain | .load true | .write true _ => True
  | _ => False

/-- Where a call may be while the entry is absent. -/
def Cold (g : ℕ) (lock : Option Lock) (c : ℕ) (pc : GetPc T) : Prop :=
  Apart g pc ∨ Leads pc ∧ ∃ expires, lock = some ⟨c, expires⟩

/-- Where a call may be once the entry is there. -/
def Warm (g : ℕ) (x : Loaded T) (pc : GetPc T) : Prop :=
  Apart g pc ∨ pc = .readAgain ∨ pc.outcome = some (.returned (some x))

/-- What was loaded so far, and where the calls are. -/
inductive Flight (g : ℕ) (s : State T) : List (Option (Loaded T)) → Prop
  | cold (hentry : s.entry = none)
    (hcalls : ∀ c opts pc, s.calls c = some ⟨opts, pc⟩ → Cold g s.lock c pc)
    (hwrite : ∀ c opts pc, s.calls c = some ⟨opts, pc⟩ → pc.writes = false) : Flight g s []
  | loaded (hentry : s.entry = none)
    (hcalls : ∀ c opts pc, s.calls c = some ⟨opts, pc⟩ → Cold g s.lock c pc)
    (c : ℕ) (opts : CacheOptions) (x : Loaded T)
    (hc : s.calls c = some ⟨opts, .write true x⟩) : Flight g s [some x]
  | warm (x : Loaded T) (hentry : s.entry = some x)
    (hcalls : ∀ c opts pc, s.calls c = some ⟨opts, pc⟩ → Warm g x pc) : Flight g s [some x]

/-- The options of the calls. -/
def Patient (s : State T) : Prop :=
  ∀ c opts pc, s.calls c = some ⟨opts, pc⟩ → opts.singleFlight = true

section Wave

variable {g : ℕ} {s s' : State T} {a : Event T} {c c' : ℕ} {opts opts' : CacheOptions}
  {pc pc' : GetPc T} {x : Loaded T} {lock : Option Lock} {es : List (Option (Loaded T))}

/-- Who does not hold the lock is not concerned by it. -/
theorem Cold.apart (h : Cold g lock c pc) (hlock : ∀ expires, lock ≠ some ⟨c, expires⟩) :
    Apart g pc := by
  rcases h with h | ⟨-, expires, hheld⟩
  · exact h
  · exact absurd hheld (hlock expires)

/-- One step of a call while the entry is absent: the leader loads, or writes; or a call comes
nearer, without loading anything. -/
inductive ColdStep (g : ℕ) (s s' : State T) (c : ℕ) (opts : CacheOptions) : GetPc T → Prop
  | load (value : T) (hsource : s.source = some value)
    (hs' : s' = s.goto c opts (.write true ⟨value, s.version⟩)) :
    ColdStep g s s' c opts (.load true)
  | write (x : Loaded T) (hs' : s' = { s with entry := some x }.goto c opts
      (.unlock (.returned (some x)))) : ColdStep g s s' c opts (.write true x)
  | other {pc : GetPc T} (pc' : GetPc T) (hpc : pc.loads = false) (hwrite : pc.writes = false)
    (hwrite' : pc'.writes = false)
    (hcalls : s'.calls = Function.update s.calls c (some ⟨opts, pc'⟩)) (hentry : s'.entry = none)
    (hlock : s'.lock = s.lock ∨ s.lock = none) (hcold : Cold g s'.lock c pc') :
    ColdStep g s s' c opts pc

/-- A call that begins to wait, or goes on waiting. -/
theorem loop_waits {deadline : ℕ} (h : s.now < deadline) : s.loop deadline = .poll deadline :=
  if_pos h

theorem cold_advance (hentry : s.entry = none) (hc : s.calls c = some ⟨opts, pc⟩)
    (hcold : Cold g s.lock c pc) (hok : Calm g s (.step c)) (hpolls : Polls s (.step c))
    (hopts : Patient s) (h : s.advance c opts pc = some s') : ColdStep g s s' c opts pc := by
  cases pc with
  | read =>
    simp only [State.advance, hentry, hopts c opts _ hc, if_true] at h
    obtain rfl := Option.some.inj h
    exact .other .setLock rfl rfl rfl rfl hentry (.inl rfl) (.inl trivial)
  | setLock =>
    simp only [State.advance] at h
    split at h
    · rename_i hlock
      obtain rfl := Option.some.inj h
      exact .other .readAgain rfl rfl rfl rfl hentry (.inr hlock) (.inr ⟨trivial, _, rfl⟩)
    · obtain rfl := Option.some.inj h
      exact .other .refused rfl rfl rfl rfl hentry (.inl rfl) (.inl trivial)
  | readAgain =>
    simp only [State.advance, hentry] at h
    obtain rfl := Option.some.inj h
    rcases hcold with hcold | ⟨-, hheld⟩
    · cases hcold
    · exact .other (.load true) rfl rfl rfl rfl hentry (.inl rfl) (.inr ⟨trivial, hheld⟩)
  | load locked =>
    obtain hlocked | ⟨hlocked, -⟩ := hcold
    · cases hlocked
    · obtain rfl : locked = true := by
        cases locked
        · cases hlocked
        · rfl
      obtain ⟨value, hvalue⟩ := Option.ne_none_iff_exists'.mp (hok.load c opts true rfl hc)
      simp only [State.advance, hvalue] at h
      exact .load value hvalue (Option.some.inj h).symm
  | write locked x =>
    obtain hlocked | ⟨hlocked, -⟩ := hcold
    · cases hlocked
    · obtain rfl : locked = true := by
        cases locked
        · cases hlocked
        · rfl
      exact .write x (Option.some.inj h).symm
  | unlock outcome =>
    obtain hcold | ⟨hcold, -⟩ := hcold <;> cases hcold
  | refused =>
    obtain rfl := Option.some.inj h
    exact .other (.waits _) rfl rfl rfl rfl hentry (.inl rfl) (.inl trivial)
  | waits deadline =>
    obtain rfl := Option.some.inj h
    rw [loop_waits (hpolls c opts deadline rfl hc)]
    exact .other (.poll _) rfl rfl rfl rfl hentry (.inl rfl) (.inl trivial)
  | poll deadline =>
    simp only [State.advance, hentry] at h
    obtain rfl := Option.some.inj h
    exact .other (.missed deadline s.now) rfl rfl rfl rfl hentry (.inl rfl)
      (.inl (hok.inTime.deadline hentry c opts deadline hc))
  | missed deadline polled =>
    obtain hcold | ⟨hcold, -⟩ := hcold
    · obtain rfl := Option.some.inj h
      rw [loop_waits (Nat.lt_of_le_of_lt (hok.get c opts deadline polled rfl hc) hcold)]
      exact .other (.poll _) rfl rfl rfl rfl hentry (.inl rfl) (.inl trivial)
    · cases hcold
  | ended outcome => cases h

/-- One step of a call once the entry is there: it is kept, and nothing is loaded. -/
theorem warm_advance (hentry : s.entry = some x) (hc : s.calls c = some ⟨opts, pc⟩)
    (hwarm : Warm g x pc) (hok : Calm g s (.step c)) (hpolls : Polls s (.step c))
    (h : s.advance c opts pc = some s') :
    pc.loads = false ∧ s'.entry = some x ∧
      ∃ pc', s'.calls = Function.update s.calls c (some ⟨opts, pc'⟩) ∧ Warm g x pc' ∧
        pc'.left < pc.left := by
  cases pc with
  | read | readAgain | poll deadline =>
    simp only [State.advance, hentry] at h
    obtain rfl := Option.some.inj h
    exact ⟨rfl, hentry, _, rfl, .inr (.inr rfl), Nat.lt_succ_self _⟩
  | setLock =>
    simp only [State.advance] at h
    split at h
    · obtain rfl := Option.some.inj h
      exact ⟨rfl, hentry, _, rfl, .inr (.inl rfl), Nat.lt_add_of_pos_right Nat.two_pos⟩
    · obtain rfl := Option.some.inj h
      exact ⟨rfl, hentry, _, rfl, .inl trivial, Nat.lt_succ_self _⟩
  | unlock outcome =>
    obtain hwarm | hwarm | hwarm := hwarm
    · cases hwarm
    · cases hwarm
    · obtain rfl := Option.some.inj h
      exact ⟨rfl, hentry, _, rfl, .inr (.inr hwarm), Nat.lt_succ_self _⟩
  | refused =>
    obtain rfl := Option.some.inj h
    exact ⟨rfl, hentry, _, rfl, .inl trivial, Nat.lt_succ_self _⟩
  | waits deadline =>
    obtain rfl := Option.some.inj h
    rw [loop_waits (hpolls c opts deadline rfl hc)]
    exact ⟨rfl, hentry, _, rfl, .inl trivial, Nat.lt_succ_self _⟩
  | missed deadline polled =>
    obtain hwarm | hwarm | hwarm := hwarm
    · obtain rfl := Option.some.inj h
      rw [loop_waits (Nat.lt_of_le_of_lt (hok.get c opts deadline polled rfl hc) hwarm)]
      exact ⟨rfl, hentry, _, rfl, .inl trivial, Nat.lt_succ_self _⟩
    · cases hwarm
    · cases hwarm
  | load locked | write locked x =>
    obtain hwarm | hwarm | hwarm := hwarm <;> cases hwarm
  | ended outcome => cases h

/-- Nobody else writes, and nothing changes for the calls. -/
theorem Flight.frame (h : Flight g s es) (hcalls : s'.calls = s.calls) (hentry : s'.entry = s.entry)
    (hlock : s.entry = none → s'.lock = s.lock) : Flight g s' es := by
  cases h with
  | cold hnone hcold hwrite =>
    refine .cold (hentry.trans hnone) ?_ (hcalls ▸ hwrite)
    rw [hcalls, hlock hnone]
    exact hcold
  | loaded hnone hcold c opts x hc =>
    refine .loaded (hentry.trans hnone) ?_ c opts x (hcalls ▸ hc)
    rw [hcalls, hlock hnone]
    exact hcold
  | warm x hsome hwarm => exact .warm x (hentry.trans hsome) (hcalls ▸ hwarm)

/-- Two calls on their way from the lock to the entry are one. -/
theorem Cold.unique (h : Cold g s.lock c pc) (hpc : ¬ Apart g pc) (h' : Cold g s.lock c' pc')
    (hpc' : ¬ Apart g pc') : c' = c := by
  obtain ⟨-, e, he⟩ := h.resolve_left hpc
  obtain ⟨-, e', he'⟩ := h'.resolve_left hpc'
  rw [he] at he'
  cases he'
  rfl

/-- The calls after a step that leaves the entry absent. -/
theorem cold_calls (hcold : ∀ c opts pc, s.calls c = some ⟨opts, pc⟩ → Cold g s.lock c pc)
    (hcalls : s'.calls = Function.update s.calls c (some ⟨opts, pc'⟩))
    (hlock : s'.lock = s.lock ∨ s.lock = none) (hpc' : Cold g s'.lock c pc') :
    ∀ c opts pc, s'.calls c = some ⟨opts, pc⟩ → Cold g s'.lock c pc := by
  intro c₁ opts₁ pc₁ h₁
  rw [hcalls] at h₁
  rcases Slots.found_cases_some h₁ with ⟨rfl, heq⟩ | ⟨-, hold⟩
  · cases heq
    exact hpc'
  · have h := hcold c₁ opts₁ pc₁ hold
    rcases hlock with hlock | hlock
    · rw [hlock]
      exact h
    · rw [hlock] at h
      exact .inl (h.apart fun _ => (Option.some_ne_none _).symm)

/-- A call goes on that neither writes nor is going to, while the entry is absent. -/
theorem Flight.coldStep (h : Flight g s es) (hentry : s.entry = none)
    (hquiet : ∀ opts pc, s.calls c = some ⟨opts, pc⟩ → pc.writes = false)
    (hwrites : pc'.writes = false)
    (hcalls : s'.calls = Function.update s.calls c (some ⟨opts, pc'⟩)) (hentry' : s'.entry = none)
    (hlock : s'.lock = s.lock ∨ s.lock = none) (hpc' : Cold g s'.lock c pc') : Flight g s' es := by
  cases h with
  | cold _ hcold hwrite =>
    refine .cold hentry' (cold_calls hcold hcalls hlock hpc') ?_
    intro c₁ opts₁ pc₁ h₁
    rw [hcalls] at h₁
    rcases Slots.found_cases_some h₁ with ⟨rfl, heq⟩ | ⟨-, hold⟩
    · cases heq
      exact hwrites
    · exact hwrite c₁ opts₁ pc₁ hold
  | loaded _ hcold leader lopts x hleader =>
    have hne : leader ≠ c := by
      rintro rfl
      cases hquiet lopts _ hleader
    refine .loaded hentry' (cold_calls hcold hcalls hlock hpc') leader lopts x ?_
    rw [hcalls, Function.update_of_ne hne]
    exact hleader
  | warm x hsome _ => cases hentry.symm.trans hsome

/-- A call goes on once the entry is there. -/
theorem Flight.warmStep (h : Flight g s es) (hentry : s.entry = some x)
    (hcalls : s'.calls = Function.update s.calls c (some ⟨opts, pc'⟩)) (hentry' : s'.entry = some x)
    (hpc' : Warm g x pc') : Flight g s' es := by
  cases h with
  | cold hnone _ _ => cases hentry.symm.trans hnone
  | loaded hnone _ _ _ _ _ => cases hentry.symm.trans hnone
  | warm y hsome hwarm =>
    obtain rfl := Option.some.inj (hentry.symm.trans hsome)
    refine .warm x hentry' ?_
    intro c₁ opts₁ pc₁ h₁
    rw [hcalls] at h₁
    rcases Slots.found_cases_some h₁ with ⟨rfl, heq⟩ | ⟨-, hold⟩
    · cases heq
      exact hpc'
    · exact hwarm c₁ opts₁ pc₁ hold

/-- **One step of a call** in the wave. -/
theorem Flight.advance (h : Flight g s es) (hc : s.calls c = some ⟨opts, pc⟩)
    (hok : Calm g s (.step c)) (hpolls : Polls s (.step c)) (hopts : Patient s)
    (hs : s.advance c opts pc = some s') : Flight g s' (es ++ loads s (.step c)) := by
  have hquiet : pc.loads = false → loads s (.step c) = [] := by
    intro hpc
    simp only [loads, hc]
    cases pc <;> first | rfl | cases hpc
  cases h with
  | cold hentry hcold hwrite =>
    cases cold_advance hentry hc (hcold c opts pc hc) hok hpolls hopts hs with
    | load value hsource hs' =>
      have hloads : loads s (.step c) = [some ⟨value, s.version⟩] := by
        simp only [loads, hc, hsource, Option.map_some]
      have hheld : Cold g s.lock c (.write true ⟨value, s.version⟩) :=
        .inr ⟨trivial, ((hcold c opts _ hc).resolve_left id).2⟩
      have hcalls :
          s'.calls = Function.update s.calls c (some ⟨opts, .write true ⟨value, s.version⟩⟩) :=
        congrArg State.calls hs'
      have hlock : s'.lock = s.lock := by
        rw [hs']
        rfl
      rw [List.nil_append, hloads]
      refine .loaded ((congrArg State.entry hs').trans hentry)
        (cold_calls hcold hcalls (.inl hlock) (hlock ▸ hheld)) c opts ⟨value, s.version⟩ ?_
      rw [hcalls, Function.update_self]
    | write x hs' => cases hwrite c opts _ hc
    | other pc' hpc hwrites hwrites' hcalls hentry' hlock hcold' =>
      rw [hquiet hpc]
      refine Flight.coldStep (.cold hentry hcold hwrite) hentry ?_ hwrites' hcalls hentry' hlock
        hcold'
      exact fun opts' pc₁ h₁ => hwrite c opts' pc₁ h₁
  | loaded hentry hcold leader lopts x hleader =>
    cases cold_advance hentry hc (hcold c opts pc hc) hok hpolls hopts hs with
    | load value hsource hs' =>
      have hone := (hcold c opts _ hc).unique id (hcold leader lopts _ hleader) id
      subst hone
      cases hc.symm.trans hleader
    | write y hs' =>
      have hheld := (hcold leader lopts _ hleader).resolve_left id
      have hone := (hcold c opts _ hc).unique id (hcold leader lopts _ hleader) id
      subst hone
      cases hc.symm.trans hleader
      subst hs'
      rw [hquiet rfl, List.append_nil]
      refine .warm x rfl ?_
      intro c₁ opts₁ pc₁ h₁
      rcases Slots.found_cases_some h₁ with ⟨rfl, heq⟩ | ⟨hne, hold⟩
      · cases heq
        exact .inr (.inr rfl)
      · refine .inl ((hcold c₁ opts₁ pc₁ hold).apart fun e he => ?_)
        obtain ⟨-, e', he'⟩ := hheld
        cases he.symm.trans he'
        exact hne rfl
    | other pc' hpc hwrites hwrites' hcalls hentry' hlock hcold' =>
      rw [hquiet hpc, List.append_nil]
      refine Flight.coldStep (.loaded hentry hcold leader lopts x hleader) hentry ?_ hwrites' hcalls
        hentry' hlock hcold'
      intro opts' pc₁ h₁
      cases hc.symm.trans h₁
      exact hwrites
  | warm x hentry hwarm =>
    obtain ⟨hpc, hentry', pc', hcalls, hwarm', -⟩ :=
      warm_advance hentry hc (hwarm c opts pc hc) hok hpolls hs
    rw [hquiet hpc, List.append_nil]
    exact Flight.warmStep (.warm x hentry hwarm) hentry hcalls hentry' hwarm'

/-- **One step** of the wave. -/
theorem Flight.step (h : Flight g s es) (hok : Calm g s a) (hpolls : Polls s a) (hopts : Patient s)
    (hs : s.step a = some s') : Flight g s' (es ++ loads s a) := by
  cases a with
  | tick ms | change value =>
    obtain rfl := Option.some.inj hs
    exact (List.append_nil es).symm ▸ h.frame rfl rfl fun _ => rfl
  | invalidate => exact absurd rfl hok.stays.2
  | evict => exact absurd rfl hok.stays.1
  | loseLock =>
    obtain rfl := Option.some.inj hs
    refine (List.append_nil es).symm ▸ h.frame rfl rfl fun hentry => Eq.symm ?_
    rcases hlock : s.lock with _ | l
    · rfl
    · have hend := hok.lock rfl l hlock
      have hin := hok.inTime.lock hentry l hlock
      omega
  | start c opts =>
    simp only [State.step] at hs
    split at hs
    · rename_i hnew
      obtain rfl := Option.some.inj hs
      have hnil : es ++ loads s (.start c opts) = es := List.append_nil es
      rw [hnil]
      rcases hentry : s.entry with _ | x
      · refine h.coldStep hentry ?_ rfl rfl hentry (.inl rfl) (.inl trivial)
        intro opts' pc' hc
        cases hnew.symm.trans hc
      · exact h.warmStep hentry rfl hentry (.inl trivial)
    · cases hs
  | step c =>
    simp only [State.step] at hs
    split at hs
    · rename_i call hc
      exact h.advance hc hok hpolls hopts hs
    · cases hs
  | fail c => exact absurd rfl (hok.succeeds c)

/-- The options of a call do not change. -/
theorem Patient.step (h : Patient s) (hok : Calm g s a) (hs : s.step a = some s') :
    Patient s' := by
  rcases step_cases hs with ⟨hcalls, -, -⟩ | ⟨c, opts, rfl, -, rfl⟩ |
    ⟨c, opts, pc, pc', -, hc, hadv⟩
  · exact fun c opts pc hc => h c opts pc (hcalls ▸ hc)
  · intro c₁ opts₁ pc₁ h₁
    rcases Slots.found_cases_some h₁ with ⟨rfl, heq⟩ | ⟨-, hold⟩
    · cases heq
      exact hok.singleFlight c₁ opts rfl
    · exact h c₁ opts₁ pc₁ hold
  · intro c₁ opts₁ pc₁ h₁
    rw [hadv.calls] at h₁
    rcases Slots.found_cases_some h₁ with ⟨rfl, heq⟩ | ⟨-, hold⟩
    · cases heq
      exact h c₁ opts pc hc
    · exact h c₁ opts₁ pc₁ hold

/-! ## The lock -/

/-- What a step of a call does to the lock: only `SET NX` sets it, where there is none, and only
the unlocking of the call that has set it removes it. -/
theorem advance_lock (h : s.advance c opts pc = some s') :
    s'.lock = s.lock ∧ (pc = .setLock → s.lock ≠ none) ∨
      (pc = .setLock ∧ s.lock = none ∧ ∃ expires, s'.lock = some ⟨c, expires⟩) ∨
      s'.lock = none ∧ pc ≠ .setLock ∧ ∀ l, s.lock = some l → l.token = c := by
  cases pc with
  | setLock =>
    simp only [State.advance] at h
    split at h
    · rename_i hlock
      obtain rfl := Option.some.inj h
      exact .inr (.inl ⟨rfl, hlock, _, rfl⟩)
    · rename_i l hlock
      obtain rfl := Option.some.inj h
      exact .inl ⟨rfl, fun _ => hlock ▸ Option.some_ne_none l⟩
  | unlock outcome =>
    obtain rfl := Option.some.inj h
    change (if _ then _ else _) = _ ∧ _ ∨ _ ∨ (if _ then _ else _) = _ ∧ _
    split_ifs with hown
    · obtain ⟨l, hl, htoken⟩ := (Option.any_eq_true _ _).mp hown
      refine .inr (.inr ⟨rfl, fun h => by (cases h), fun l' hl' => ?_⟩)
      cases hl.symm.trans hl'
      exact of_decide_eq_true htoken
    · exact .inl ⟨rfl, fun h => by cases h⟩
  | read | readAgain | load locked | poll deadline =>
    simp only [State.advance] at h
    split at h <;> obtain rfl := Option.some.inj h <;> exact .inl ⟨rfl, fun h => by cases h⟩
  | write locked x | refused | waits deadline | missed deadline polled =>
    obtain rfl := Option.some.inj h
    exact .inl ⟨rfl, fun h => by cases h⟩
  | ended outcome => cases h

theorem failing_lock (h : s.failing c opts pc = some s') : s'.lock = s.lock := by
  cases pc <;> first | cases h; rfl | cases h

/-- The lock carries the number of the call that has set it last. -/
theorem lock_step (hs : s.step a = some s') {history : List ℕ}
    (h : ∀ l, s.lock = some l → history.getLast? = some l.token) :
    ∀ l, s'.lock = some l → (history ++ locks s a).getLast? = some l.token := by
  cases a with
  | tick ms | change value | invalidate | evict =>
    obtain rfl := Option.some.inj hs
    exact (List.append_nil history).symm ▸ h
  | loseLock =>
    obtain rfl := Option.some.inj hs
    exact fun l hl => by cases hl
  | start c opts =>
    simp only [State.step] at hs
    split at hs
    · obtain rfl := Option.some.inj hs
      exact (List.append_nil history).symm ▸ h
    · cases hs
  | fail c =>
    simp only [State.step] at hs
    split at hs
    · rw [failing_lock hs]
      exact (List.append_nil history).symm ▸ h
    · cases hs
  | step c =>
    simp only [State.step] at hs
    split at hs
    · rename_i call hc
      obtain ⟨opts, pc⟩ := call
      rcases advance_lock hs with ⟨hsame, hpc⟩ | ⟨rfl, hnone, expires, hset⟩ | ⟨hnone, -, -⟩
      · have hquiet : locks s (.step c) = [] := by
          simp only [locks, hc]
          split
          · rename_i heq hlock
            cases heq
            exact absurd hlock (hpc rfl)
          · rfl
        rw [hquiet, List.append_nil, hsame]
        exact h
      · have hlocks : locks s (.step c) = [c] := by
          simp only [locks, hc, hnone]
        intro l hl
        rw [hlocks, List.getLast?_concat]
        cases hset.symm.trans hl
        rfl
      · exact fun l hl => by cases hnone.symm.trans hl
    · cases hs

/-! ## The wave -/

/-- The step of this call. -/
def Event.isStep (c : ℕ) : Event T → Bool
  | .step c' => c' = c
  | _ => false

/-- Everything known of a calm run. -/
theorem flight_run {s₀ : State T} {as : List (Event T)} (h₀ : s₀.Start)
    (hrun : (caches T).run s₀ as = some s)
    (hcalm : (caches T).Meets (fun s a => Calm g s a ∧ Polls s a) s₀ as) :
    Flight g s ((caches T).trace loads s₀ as) ∧ Patient s := by
  refine System.run_induction (M := caches T)
    (J := fun as s => (caches T).Meets (fun s a => Calm g s a ∧ Polls s a) s₀ as →
      Flight g s ((caches T).trace loads s₀ as) ∧ Patient s) (fun _ => ⟨?_, ?_⟩) ?_ hrun hcalm
  · refine .cold h₀.entry ?_ ?_ <;> intro c opts pc hc <;> cases (h₀.calls c).symm.trans hc
  · intro c opts pc hc
    cases (h₀.calls c).symm.trans hc
  · intro as t a t' ht ih hs hok
    obtain ⟨hbefore, hlast⟩ := hok.snoc
    obtain ⟨hcalm, hpolls⟩ := hlast t ht
    obtain ⟨hflight, hpatient⟩ := ih hbefore
    rw [System.trace_snoc ht]
    exact ⟨hflight.step hcalm hpolls hpatient hs, hpatient.step hcalm hs⟩

/-- Once the entry is there, it stays, and a call comes nearer to its end with every step. -/
theorem warm_step (hentry : s.entry = some x)
    (hwarm : ∀ c opts pc, s.calls c = some ⟨opts, pc⟩ → Warm g x pc) (hok : Calm g s a)
    (hpolls : Polls s a) (hs : s.step a = some s') (hc : s.calls c = some ⟨opts, pc⟩) :
    s'.entry = some x ∧ ∃ pc', s'.calls c = some ⟨opts, pc'⟩ ∧
      pc'.left + (if a.isStep c then 1 else 0) ≤ pc.left := by
  cases a with
  | tick ms | change value | loseLock =>
    obtain rfl := Option.some.inj hs
    exact ⟨hentry, pc, hc, Nat.le_refl _⟩
  | invalidate => exact absurd rfl hok.stays.2
  | evict => exact absurd rfl hok.stays.1
  | fail c => exact absurd rfl (hok.succeeds c)
  | start c₀ opts₀ =>
    simp only [State.step] at hs
    split at hs
    · rename_i hnew
      obtain rfl := Option.some.inj hs
      exact ⟨hentry, pc, Slots.found_of_free hnew hc, Nat.le_refl _⟩
    · cases hs
  | step c₀ =>
    simp only [State.step] at hs
    split at hs
    · rename_i call hc₀
      obtain ⟨-, hentry', pc', hcalls, -, hleft⟩ :=
        warm_advance hentry hc₀ (hwarm _ _ _ hc₀) hok hpolls hs
      refine ⟨hentry', ?_⟩
      rw [hcalls]
      by_cases hne : c₀ = c
      · subst hne
        cases hc₀.symm.trans hc
        refine ⟨pc', Function.update_self .., ?_⟩
        rw [Event.isStep, decide_eq_true rfl, if_pos rfl]
        exact hleft
      · refine ⟨pc, (Function.update_of_ne (Ne.symm hne) ..).trans hc, ?_⟩
        rw [Event.isStep, decide_eq_false hne]
        exact Nat.le_refl _
    · cases hs

/-- Once the entry is there, a call has only so many steps left. -/
theorem ends_run {bs : List (Event T)} {t : State T} (hflight : Flight g s es)
    (hpatient : Patient s) (hentry : s.entry = some x) (hc : s.calls c = some ⟨opts, pc⟩)
    (hrun : (caches T).run s bs = some t)
    (hcalm : (caches T).Meets (fun s a => Calm g s a ∧ Polls s a) s bs) :
    bs.countP (Event.isStep c) ≤ pc.left := by
  induction bs generalizing s pc es with
  | nil => exact Nat.zero_le _
  | cons a bs ih =>
    obtain ⟨s', hs, hrest⟩ := System.run_cons_eq_some hrun
    obtain ⟨⟨hok, hpolls⟩, hcalm'⟩ := hcalm
    have hwarm : ∀ c opts pc, s.calls c = some ⟨opts, pc⟩ → Warm g x pc := by
      cases hflight with
      | cold hnone _ _ => cases hnone.symm.trans hentry
      | loaded hnone _ _ _ _ _ => cases hnone.symm.trans hentry
      | warm y hsome hwarm =>
        cases hsome.symm.trans hentry
        exact hwarm
    obtain ⟨hentry', pc', hc', hleft⟩ := warm_step hentry hwarm hok hpolls hs hc
    have hrec := ih (hflight.step hok hpolls hpatient hs) (hpatient.step hok hs) hentry' hc' hrest
      (hcalm' s' hs)
    rw [List.countP_cons]
    omega

/-- What single flight promises of a run from `s₀` to `s`. -/
structure OneLoad (g : ℕ) (s₀ : State T) (as : List (Event T)) (s : State T) : Prop where
  /-- `load` is executed at most once -/
  once : ((caches T).trace loads s₀ as).length ≤ 1
  /-- and whoever is done returned its value -/
  answers : ∀ c opts outcome, s.calls c = some ⟨opts, .ended outcome⟩ →
    ∃ x, (caches T).trace loads s₀ as = [some x] ∧ outcome = .returned (some x)
  /-- nobody is stuck -/
  goes_on : ∀ c opts pc, s.calls c = some ⟨opts, pc⟩ → (∀ outcome, pc ≠ .ended outcome) →
    ∃ s', s.step (.step c) = some s'
  /-- once the entry is there, a call is done after at most four more steps of its own -/
  ends : ∀ c call bs t, s.calls c = some call → s.entry ≠ none → (caches T).run s bs = some t →
    (caches T).Meets (fun s a => Calm g s a ∧ Polls s a) s bs → bs.countP (Event.isStep c) ≤ 4
  /-- a call that removes the lock is the last one that has set it -/
  unlock : ∀ as₁ as₂ c t t', as = as₁ ++ .step c :: as₂ → (caches T).run s₀ as₁ = some t →
    t.step (.step c) = some t' → t.lock ≠ none → t'.lock = none →
      ((caches T).trace locks s₀ as₁).getLast? = some c

/-- **One load for a cold key.** The key is cold at first; all calls are single-flight, and those
who are refused the lock poll at all; the run is calm: the leader writes before the lock ends,
and before the deadlines of those who wait by more than the duration of a `GET`. -/
theorem single_flight {s₀ : State T} {as : List (Event T)} (h₀ : s₀.Start)
    (hrun : (caches T).run s₀ as = some s)
    (hcalm : (caches T).Meets (fun s a => Calm g s a ∧ Polls s a) s₀ as) : OneLoad g s₀ as s := by
  obtain ⟨hflight, hpatient⟩ := flight_run h₀ hrun hcalm
  refine ⟨?_, ?_, ?_, ?_, ?_⟩
  · generalize (caches T).trace loads s₀ as = es at hflight ⊢
    cases hflight <;> simp
  · intro c opts outcome hc
    generalize (caches T).trace loads s₀ as = es at hflight ⊢
    cases hflight with
    | cold _ hcold _ | loaded _ hcold _ _ _ _ =>
      rcases hcold c opts _ hc with h | ⟨h, -⟩ <;> cases h
    | warm x _ hwarm =>
      rcases hwarm c opts _ hc with h | h | h
      · cases h
      · cases h
      · exact ⟨x, rfl, Option.some.inj h⟩
  · intro c opts pc hc hpc
    simp only [State.step, hc]
    exact advance_enabled s c opts hpc
  · rintro c ⟨opts, pc⟩ bs t hc hentry hrun hcalm
    obtain ⟨x, hx⟩ := Option.ne_none_iff_exists'.mp hentry
    refine Nat.le_trans (ends_run hflight hpatient hx hc hrun hcalm) ?_
    cases pc <;> simp [GetPc.left]
  · intro as₁ as₂ c t t' has ht hs hlock hnone
    have hlast :
        ∀ l, t.lock = some l → ((caches T).trace locks s₀ as₁).getLast? = some l.token := by
      refine System.run_induction (M := caches T) (J := fun as s => ∀ l, s.lock = some l →
        ((caches T).trace locks s₀ as).getLast? = some l.token) ?_ ?_ ht
      · exact fun l hl => by cases h₀.lock.symm.trans hl
      · intro as t a t' ht ih hs
        rw [System.trace_snoc ht]
        exact lock_step hs ih
    obtain ⟨l, hl⟩ := Option.ne_none_iff_exists'.mp hlock
    simp only [State.step] at hs
    split at hs
    · rcases advance_lock hs with ⟨hsame, -⟩ | ⟨-, hfree, -⟩ | ⟨-, -, hown⟩
      · exact absurd (hsame.symm.trans hnone) hlock
      · exact absurd hfree hlock
      · rw [hlast l hl, hown l hl]
    · cases hs

end Wave

/-! ## Two waves -/

/-- Evaluate what `Calm` asks of a step, where the calls are numbered below `n`. -/
def calmCheck (n g : ℕ) (s : State String) (a : Event String) : Bool :=
  (s.entry.isSome ||
    (s.lock.all fun l : Lock => decide (s.now < l.expires)) &&
      (List.range n).all fun c => match s.calls c with
        | some ⟨_, .poll deadline⟩ => decide (s.now + g < deadline)
        | _ => true) &&
  match a with
  | .start c opts => decide (c < n) && opts.singleFlight
  | .step c => match s.calls c with
    | some ⟨_, .load _⟩ => s.source.isSome
    | some ⟨_, .missed _ polled⟩ => decide (s.now ≤ polled + g)
    | _ => true
  | .tick _ | .change _ => true
  | _ => false

theorem calm_of_check {n g : ℕ} {s : State String} {a : Event String}
    (hn : ∀ c, n ≤ c → s.calls c = none) (h : calmCheck n g s a = true) : Calm g s a := by
  obtain ⟨htime, hstep⟩ := Bool.and_eq_true_iff.mp h
  have htimely : s.entry = none → (s.lock.all fun l : Lock => decide (s.now < l.expires)) = true ∧
      ((List.range n).all fun c => match s.calls c with
        | some ⟨_, .poll deadline⟩ => decide (s.now + g < deadline)
        | _ => true) = true := by
    intro hentry
    rw [hentry] at htime
    exact Bool.and_eq_true_iff.mp htime
  refine ⟨?_, ?_, ⟨?_, ?_⟩, ?_, ?_, ?_, ⟨?_, ?_⟩⟩
  · rintro c opts rfl
    exact (Bool.and_eq_true_iff.mp hstep).2
  · rintro c rfl
    cases hstep
  · rintro rfl
    cases hstep
  · rintro rfl
    cases hstep
  · rintro rfl
    cases hstep
  · rintro c opts locked rfl hc
    simp only [hc] at hstep
    exact Option.isSome_iff_ne_none.mp hstep
  · rintro c opts deadline polled rfl hc
    simp only [hc] at hstep
    exact of_decide_eq_true hstep
  · intro hentry l hl
    have hlock := (htimely hentry).1
    rw [hl] at hlock
    exact of_decide_eq_true hlock
  · intro hentry c opts deadline hc
    have hlt : c < n := by
      by_contra hle
      cases (hn c (Nat.le_of_not_lt hle)).symm.trans hc
    have hwait := List.all_eq_true.mp (htimely hentry).2 c (List.mem_range.mpr hlt)
    simp only [hc] at hwait
    exact of_decide_eq_true hwait

/-- A run that was evaluated is calm. -/
theorem calm_of_checks {n g : ℕ} {as : List (Event String)}
    (h : (caches String).checks (calmCheck n g) cold as = true) :
    (caches String).Meets (Calm g) cold as := by
  refine System.Meets.of_checks_from (I := fun s : State String => ∀ c, n ≤ c → s.calls c = none)
    (fun s a hn hcheck => calm_of_check hn hcheck) ?_ (fun _ _ => rfl) h
  intro s a s' hn hcheck hs c hc
  rcases step_cases hs with
    ⟨hcalls, -, -⟩ | ⟨c₁, opts, rfl, -, rfl⟩ | ⟨c₁, opts, pc, pc', -, hc₁, hadv⟩
  · rw [hcalls]
    exact hn c hc
  · obtain ⟨hlt, -⟩ := Bool.and_eq_true_iff.mp (Bool.and_eq_true_iff.mp hcheck).2
    have hlt := of_decide_eq_true hlt
    exact (Function.update_of_ne (by omega) ..).trans (hn c hc)
  · rw [hadv.calls, Function.update_of_ne]
    · exact hn c hc
    · rintro rfl
      cases (hn c hc).symm.trans hc₁

/-- The first call leads, the second polls, and the third gets the lock when the entry is there;
all have missed the entry at first. -/
def demoWave : List (Event String) :=
  [.start 0 defaultCacheOptions, .start 1 defaultCacheOptions, .start 2 defaultCacheOptions,
    .step 0, .step 1, .step 2, .step 0, .step 1, .step 1, .tick 1, .step 1, .tick 20, .step 1,
    .step 1,
    .step 0, .step 0, .tick 5, .step 0, .step 0, .step 1, .step 2, .step 2, .step 2]

/-- Evaluate `Polls`. -/
def pollsCheck (s : State T) : Event T → Bool
  | .step c => match s.calls c with
    | some ⟨_, .waits deadline⟩ => decide (s.now < deadline)
    | _ => true
  | _ => true

theorem polls_of_check (s : State T) (a : Event T) (h : pollsCheck s a = true) : Polls s a := by
  rintro c opts deadline rfl hc
  simp only [pollsCheck, hc] at h
  exact of_decide_eq_true h

theorem demoWave_loads_once : ∃ s, (caches String).run cold demoWave = some s ∧
    OneLoad 1 cold demoWave s ∧
    ∀ c < 3, s.calls c = some ⟨defaultCacheOptions, .ended (.returned (some ⟨"4.20", 0⟩))⟩ := by
  refine ⟨_, rfl, ?_, by decide⟩
  have hcalm : (caches String).Meets (Calm 1) cold demoWave :=
    calm_of_checks (n := 3) (by decide +kernel)
  have hpolls : (caches String).Meets Polls cold demoWave :=
    .of_checks polls_of_check (by decide +kernel)
  exact single_flight cold_start rfl (hcalm.and hpolls)

/-- The second call would wait for 1 ms, which have passed when it first looks at the clock. The
first has its entry written, and has not yet unlocked. -/
def demoHurry : List (Event String) :=
  [.start 0 defaultCacheOptions, .start 1 ⟨true, 5000, 1⟩, .step 0, .step 1, .step 0, .step 0,
    .step 0, .step 0, .tick 5, .step 1, .step 1, .tick 1, .step 1, .step 1]

theorem call_without_poll_loads_again : ∃ s, (caches String).run cold demoHurry = some s ∧
    (caches String).Meets (Calm 1) cold demoHurry ∧
    (caches String).trace loads cold demoHurry = [some ⟨"4.20", 0⟩, some ⟨"4.20", 0⟩] :=
  ⟨_, rfl, calm_of_checks (n := 2) (by decide +kernel), rfl⟩

end Marketplace.Cache
