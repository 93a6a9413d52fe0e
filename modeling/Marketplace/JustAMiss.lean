import Marketplace.Outage

/-!
# Just a miss

"An unavailable cache is just a miss, the request goes to the database", `redis/cache.ts` says at
its top. For the plain `get` it is so. A single-flight one cannot tell a `SET NX` that failed from
a lock that somebody else has: `safe` makes `null` of both. So it goes to the database as well, and
once, but only after it has waited for a leader that does not exist. It does not wait if, and only
if, its deadline has passed before the loop looks at the clock (`unavailable_is_miss_iff`).
-/

namespace Marketplace.Cache

universe u

variable {T : Type u}

/-! ## What is observed -/

/-- The call asks Redis something, and looks at the reply. -/
def GetPc.asks : GetPc T → Bool
  | .read | .setLock | .readAgain | .poll _ => true
  | _ => false

/-- The call sleeps before its next `read`. -/
def GetPc.sleeps : GetPc T → Bool
  | .poll _ => true
  | _ => false

/-- The calls that go to sleep in the waiting loop. -/
def sleepsBy (s : State T) (a : Outage T) : List ℕ :=
  a.callOf.filter fun c => (s.undergo a).any fun s' => (s'.calls c).any fun call => call.pc.sleeps

/-- The calls whose deadline has passed at their first look at the clock. -/
def stallsBy (s : State T) : Outage T → List ℕ
  | .redis (.step c) =>
    match s.calls c with
    | some ⟨_, .waits deadline⟩ => if s.now < deadline then [] else [c]
    | _ => []
  | _ => []

/-- Redis answers the call nothing but errors. -/
def Rejects (c : ℕ) (s : State T) (a : Outage T) : Prop :=
  a = .redis (.step c) → ∀ opts pc, s.calls c = some ⟨opts, pc⟩ → pc.asks = false

/-! ## A call on its own -/

/-- A step, at time `now`, of a call that Redis answers nothing: what it loads, and whether its
deadline has passed before the loop. -/
inductive Alone (opts : CacheOptions) (now : ℕ) :
    GetPc T → List (Outcome T) → Bool → GetPc T → Prop
  | read : Alone opts now .read [] false (if opts.singleFlight then .setLock else .load false)
  | setLock : Alone opts now .setLock [] false .refused
  | readAgain : Alone opts now .readAgain [] false (.load true)
  | refused : Alone opts now .refused [] false (.waits (now + opts.waitMs))
  | enters (deadline : ℕ) (h : now < deadline) :
      Alone opts now (.waits deadline) [] false (.poll deadline)
  | stalls (deadline : ℕ) (h : deadline ≤ now) :
      Alone opts now (.waits deadline) [] true (.load false)
  | polls (deadline polled : ℕ) : Alone opts now (.poll deadline) [] false (.missed deadline polled)
  | again (deadline polled : ℕ) (h : now < deadline) :
      Alone opts now (.missed deadline polled) [] false (.poll deadline)
  | enough (deadline polled : ℕ) (h : deadline ≤ now) :
      Alone opts now (.missed deadline polled) [] false (.load false)
  | loaded (locked : Bool) (x : Loaded T) :
      Alone opts now (.load locked) [.returned (some x)] false (.write locked x)
  | empty (locked : Bool) (o : Outcome T) :
      Alone opts now (.load locked) [o] false (finish locked o)
  | wrote (locked : Bool) (x : Loaded T) :
      Alone opts now (.write locked x) [] false (finish locked (.returned (some x)))
  | unlocked (o : Outcome T) : Alone opts now (.unlock o) [] false (.ended o)

/-- How many steps of its own a call has left if it does not sleep any more. -/
def GetPc.ahead : GetPc T → ℕ
  | .read => 6
  | .setLock => 5
  | .refused | .readAgain | .poll _ => 4
  | .waits _ | .missed _ _ => 3
  | .load locked => if locked then 3 else 2
  | .write locked _ => if locked then 2 else 1
  | .unlock _ => 1
  | .ended _ => 0

/-- The call has a deadline, and it has passed; or it needs none any more. -/
def GetPc.over (now : ℕ) : GetPc T → Prop
  | .read | .setLock | .refused => False
  | .waits deadline | .poll deadline | .missed deadline _ => deadline ≤ now
  | .readAgain | .load _ | .write _ _ | .unlock _ | .ended _ => True

/-- The call goes from `pc` to `pc'` in the event, and this is observed of it. -/
structure Goes (s s' : State T) (a : Outage T) (c : ℕ) (opts : CacheOptions) (pc : GetPc T)
    (os : List (Outcome T)) (stalled : Bool) (pc' : GetPc T) : Prop where
  calls : s'.calls c = some ⟨opts, pc'⟩
  loads : loadsBy s a = os.map fun o => (c, o)
  stalls : stallsBy s a = if stalled then [c] else []
  alone : Alone opts s.now pc os stalled pc'

section Steps

variable {s s' t : State T} {a : Outage T} {c : ℕ} {opts : CacheOptions} {pc : GetPc T}

/-- Only a call at its query loads. -/
theorem loadsBy_eq_nil (hc : s.calls c = some ⟨opts, pc⟩) (hpc : ∀ locked, pc ≠ .load locked) :
    loadsBy s (.redis (.step c)) = [] ∧ loadsBy s (.redis (.fail c)) = [] := by
  simp only [loadsBy, hc]
  cases pc with
  | load locked => exact absurd rfl (hpc locked)
  | _ => exact ⟨rfl, rfl⟩

/-- Only a call that comes to the loop finds its deadline passed there. -/
theorem stallsBy_eq_nil (hc : s.calls c = some ⟨opts, pc⟩)
    (hpc : ∀ deadline, pc ≠ .waits deadline) :
    stallsBy s (.redis (.step c)) = [] := by
  simp only [stallsBy, hc]
  cases pc with
  | waits deadline => exact absurd rfl (hpc deadline)
  | _ => rfl

theorem advance_goes (hc : s.calls c = some ⟨opts, pc⟩) (hasks : pc.asks = false)
    (h : s.advance c opts pc = some s') :
    ∃ os stalled pc', Goes s s' (.redis (.step c)) c opts pc os stalled pc' := by
  cases pc with
  | read | setLock | readAgain | poll deadline => cases hasks
  | load locked =>
    have hloads : loadsBy s (.redis (.step c)) =
        [(c, .returned (s.source.map fun value => ⟨value, s.version⟩))] := by
      simp only [loadsBy, hc]
    have hstalls := stallsBy_eq_nil hc (by simp)
    simp only [State.advance] at h
    split at h <;> rename_i hsource <;> obtain rfl := Option.some.inj h <;> rw [hsource] at hloads
    · exact ⟨[_], false, _, Function.update_self .., hloads, hstalls, .loaded locked _⟩
    · exact ⟨[_], false, _, Function.update_self .., hloads, hstalls, .empty locked _⟩
  | write locked x =>
    obtain rfl := Option.some.inj h
    exact ⟨[], false, _, Function.update_self .., (loadsBy_eq_nil hc (by simp)).1,
      stallsBy_eq_nil hc (by simp), .wrote locked x⟩
  | unlock o =>
    obtain rfl := Option.some.inj h
    exact ⟨[], false, _, Function.update_self .., (loadsBy_eq_nil hc (by simp)).1,
      stallsBy_eq_nil hc (by simp), .unlocked o⟩
  | refused =>
    obtain rfl := Option.some.inj h
    exact ⟨[], false, _, Function.update_self .., (loadsBy_eq_nil hc (by simp)).1,
      stallsBy_eq_nil hc (by simp), .refused⟩
  | waits deadline =>
    obtain rfl := Option.some.inj h
    have hloads := (loadsBy_eq_nil hc (by simp)).1
    have hstalls : stallsBy s (.redis (.step c)) = if s.now < deadline then [] else [c] := by
      simp only [stallsBy, hc]
    by_cases hlt : s.now < deadline
    · have hloop : s.loop deadline = .poll deadline := if_pos hlt
      exact ⟨[], false, _, Function.update_self .., hloads, hstalls.trans (if_pos hlt),
        hloop ▸ .enters _ hlt⟩
    · have hloop : s.loop deadline = .load false := if_neg hlt
      exact ⟨[], true, _, Function.update_self .., hloads, hstalls.trans (if_neg hlt),
        hloop ▸ .stalls _ (Nat.le_of_not_lt hlt)⟩
  | missed deadline polled =>
    obtain rfl := Option.some.inj h
    refine ⟨[], false, _, Function.update_self .., (loadsBy_eq_nil hc (by simp)).1,
      stallsBy_eq_nil hc (by simp), ?_⟩
    by_cases hlt : s.now < deadline
    · rw [State.loop, if_pos hlt]
      exact .again deadline polled hlt
    · rw [State.loop, if_neg hlt]
      exact .enough deadline polled (Nat.le_of_not_lt hlt)
  | ended o => cases h

theorem failing_goes (hc : s.calls c = some ⟨opts, pc⟩) (h : s.failing c opts pc = some s') :
    ∃ os stalled pc', Goes s s' (.redis (.fail c)) c opts pc os stalled pc' := by
  cases pc with
  | read =>
    obtain rfl := Option.some.inj h
    exact ⟨[], false, _, Function.update_self .., (loadsBy_eq_nil hc (by simp)).2, rfl, .read⟩
  | setLock =>
    obtain rfl := Option.some.inj h
    exact ⟨[], false, _, Function.update_self .., (loadsBy_eq_nil hc (by simp)).2, rfl, .setLock⟩
  | readAgain =>
    obtain rfl := Option.some.inj h
    exact ⟨[], false, _, Function.update_self .., (loadsBy_eq_nil hc (by simp)).2, rfl, .readAgain⟩
  | load locked =>
    obtain rfl := Option.some.inj h
    have hloads : loadsBy s (.redis (.fail c)) = [(c, .threw)] := by
      simp only [loadsBy, hc]
    exact ⟨[_], false, _, Function.update_self .., hloads, rfl, .empty locked _⟩
  | write locked x =>
    obtain rfl := Option.some.inj h
    exact ⟨[], false, _, Function.update_self .., (loadsBy_eq_nil hc (by simp)).2, rfl,
      .wrote locked x⟩
  | unlock o =>
    obtain rfl := Option.some.inj h
    exact ⟨[], false, _, Function.update_self .., (loadsBy_eq_nil hc (by simp)).2, rfl, .unlocked o⟩
  | poll deadline =>
    obtain rfl := Option.some.inj h
    exact ⟨[], false, _, Function.update_self .., (loadsBy_eq_nil hc (by simp)).2, rfl,
      .polls deadline _⟩
  | refused | waits deadline | missed deadline polled | ended o => cases h

theorem callOf_eq_of_mem (h : c ∈ a.callOf) : a.callOf = [c] := by
  unfold Outage.callOf at h ⊢
  split at h
  all_goals first | exact (List.mem_singleton.mp h) ▸ rfl | cases h

theorem mem_callOf_of_loads {l : ℕ × Outcome T} (h : l ∈ loadsBy s a) : l.1 ∈ a.callOf := by
  unfold loadsBy at h
  split at h
  · split at h
    · exact List.mem_singleton.mp h ▸ List.mem_singleton_self _
    · cases h
  · split at h
    · exact List.mem_singleton.mp h ▸ List.mem_singleton_self _
    · cases h
  · cases h

theorem mem_callOf_of_stalls (h : c ∈ stallsBy s a) : c ∈ a.callOf := by
  unfold stallsBy at h
  split at h
  · split at h
    · split_ifs at h
      · cases h
      · exact h
    · cases h
  · cases h

theorem mem_callOf_of_sleeps (h : c ∈ sleepsBy s a) : c ∈ a.callOf :=
  List.mem_of_mem_filter h

/-- What is not a step of the call leaves it where it is, or begins it. -/
theorem calls_of_notMem (h : s.undergo a = some s') (hc : c ∉ a.callOf) :
    s'.calls c = s.calls c ∨ s.calls c = none ∧ ∃ opts, s'.calls c = some ⟨opts, .read⟩ := by
  rcases undergo_cases h with ⟨hcalls, -, -⟩ | ⟨c', opts, hc', rfl, -⟩ |
    ⟨c', opts, pc, pc', os, hof, -, hcalls, -, -⟩
  · exact .inl (congrFun hcalls c)
  · by_cases hcc : c = c'
    · subst hcc
      exact .inr ⟨hc', opts, Function.update_self ..⟩
    · exact .inl (Function.update_of_ne hcc ..)
  · rw [hof, List.mem_singleton] at hc
    exact .inl (hcalls ▸ Function.update_of_ne hc ..)

/-- **A step of a call** that Redis answers nothing. -/
theorem undergo_goes (h : s.undergo a = some s') (hrejects : Rejects c s a) (hc : c ∈ a.callOf) :
    ∃ opts pc os stalled pc', s.calls c = some ⟨opts, pc⟩ ∧
      Goes s s' a c opts pc os stalled pc' := by
  unfold Outage.callOf at hc
  split at hc
  · obtain rfl := List.mem_singleton.mp hc
    simp only [State.undergo, State.step] at h
    split at h
    · rename_i call hcall
      obtain ⟨os, stalled, pc', hgoes⟩ := advance_goes hcall (hrejects rfl _ _ hcall) h
      exact ⟨call.opts, call.pc, os, stalled, pc', hcall, hgoes⟩
    · cases h
  · obtain rfl := List.mem_singleton.mp hc
    simp only [State.undergo, State.step] at h
    split at h
    · rename_i call hcall
      obtain ⟨os, stalled, pc', hgoes⟩ := failing_goes hcall h
      exact ⟨call.opts, call.pc, os, stalled, pc', hcall, hgoes⟩
    · cases h
  · obtain rfl := List.mem_singleton.mp hc
    simp only [State.undergo] at h
    split at h
    · rename_i opts hcall
      split at h
      · obtain rfl := Option.some.inj h
        exact ⟨opts, _, [], false, _, hcall, Function.update_self .., rfl, rfl, .setLock⟩
      · cases h
    · cases h
  · cases hc

/-- The sleeping of a call is where it is then. -/
theorem sleepsBy_of_calls {pc' : GetPc T} (h : s.undergo a = some s') (hc : a.callOf = [c])
    (hcalls : s'.calls c = some ⟨opts, pc'⟩) :
    sleepsBy s a = if pc'.sleeps then [c] else [] := by
  simp only [sleepsBy, hc, h, List.filter_cons, List.filter_nil, Option.any_some, hcalls]

end Steps

/-! ## Runs -/

/-- Where a call is that Redis answers nothing, from what it has loaded, whether it has slept and
whether its deadline had passed before the loop. -/
def Lone (opts : CacheOptions) (os : List (Outcome T)) (slept stalled : Prop) : GetPc T → Prop
  | .read => os = [] ∧ ¬ slept ∧ ¬ stalled
  | .setLock | .refused | .waits _ => opts.singleFlight = true ∧ os = [] ∧ ¬ slept ∧ ¬ stalled
  | .poll _ | .missed _ _ => opts.singleFlight = true ∧ os = [] ∧ slept ∧ ¬ stalled
  | .load locked => locked = false ∧ os = [] ∧ (slept ↔ opts.singleFlight = true ∧ ¬ stalled)
  | .write locked x => locked = false ∧ os = [.returned (some x)] ∧
      (slept ↔ opts.singleFlight = true ∧ ¬ stalled)
  | .ended o => os = [o] ∧ (slept ↔ opts.singleFlight = true ∧ ¬ stalled)
  | .readAgain | .unlock _ => False

section Runs

variable {s s' t : State T} {a : Outage T} {c : ℕ} {opts : CacheOptions} {pc pc' : GetPc T}
  {os os' : List (Outcome T)} {slept stalled : Prop} {late : Bool} {now now' : ℕ}

/-- **One step of a lone call.** -/
theorem Lone.alone (h : Lone opts os slept stalled pc) (halone : Alone opts now pc os' late pc') :
    Lone opts (os ++ os') (slept ∨ pc'.sleeps = true) (stalled ∨ late = true) pc' := by
  cases halone with
  | read =>
    obtain ⟨rfl, hslept, hstalled⟩ := h
    by_cases hsingle : opts.singleFlight = true <;>
      simp [Lone, hsingle, hslept, hstalled, GetPc.sleeps]
  | readAgain | unlocked o => exact h.elim
  | stalls deadline hover => simp_all [Lone, GetPc.sleeps]
  | empty locked o =>
    obtain ⟨rfl, rfl, hpath⟩ := h
    simpa [Lone, finish, GetPc.sleeps] using hpath
  | wrote locked x =>
    obtain ⟨rfl, rfl, hpath⟩ := h
    simpa [Lone, finish, GetPc.sleeps] using hpath
  | setLock | refused | enters | polls | again | enough | loaded => simp_all [Lone, GetPc.sleeps]

/-- What has been observed says where the call is. -/
structure LoneAt (c : ℕ) (loads : List (ℕ × Outcome T)) (sleeps stalls : List ℕ) (s : State T) :
    Prop where
  fresh : s.calls c = none → own loads c = [] ∧ c ∉ sleeps ∧ c ∉ stalls
  calls : ∀ opts pc, s.calls c = some ⟨opts, pc⟩ →
    Lone opts (own loads c) (c ∈ sleeps) (c ∈ stalls) pc

variable {loads : List (ℕ × Outcome T)} {sleeps stalls : List ℕ}

theorem own_append (loads loads' : List (ℕ × Outcome T)) (c : ℕ) :
    own (loads ++ loads') c = own loads c ++ own loads' c := by
  simp [own]

theorem LoneAt.step (h : LoneAt c loads sleeps stalls s) (hrejects : Rejects c s a)
    (hs : s.undergo a = some s') :
    LoneAt c (loads ++ loadsBy s a) (sleeps ++ sleepsBy s a) (stalls ++ stallsBy s a) s' := by
  by_cases hc : c ∈ a.callOf
  · obtain ⟨opts, pc, os, stalled, pc', hcall, hgoes⟩ := undergo_goes hs hrejects hc
    have hof := callOf_eq_of_mem hc
    have hlone := (h.calls opts pc hcall).alone hgoes.alone
    refine ⟨fun hnone => ?_, fun opts' pc₁ hcall' => ?_⟩
    · -- a call that takes a step is there after it
      cases hnone.symm.trans hgoes.calls
    · cases hgoes.calls.symm.trans hcall'
      have hown : own (loads ++ os.map fun o => (c, o)) c = own loads c ++ os := own_append_self
      rw [hgoes.loads, hgoes.stalls, sleepsBy_of_calls hs hof hgoes.calls, hown]
      simpa using hlone
  · -- what the others do is not observed of the call
    have hown : own (loads ++ loadsBy s a) c = own loads c := by
      rw [own_append, show own (loadsBy s a) c = [] from ?_, List.append_nil]
      refine List.map_eq_nil_iff.mpr (List.filter_eq_nil_iff.mpr fun l hl hlc => hc ?_)
      exact of_decide_eq_true hlc ▸ mem_callOf_of_loads hl
    have hsleeps : c ∈ sleeps ++ sleepsBy s a ↔ c ∈ sleeps :=
      List.mem_append.trans (or_iff_left fun hmem => hc (mem_callOf_of_sleeps hmem))
    have hstalls : c ∈ stalls ++ stallsBy s a ↔ c ∈ stalls :=
      List.mem_append.trans (or_iff_left fun hmem => hc (mem_callOf_of_stalls hmem))
    refine ⟨fun hnone => ?_, fun opts pc hcall => ?_⟩ <;> rw [hown, hsleeps, hstalls]
    · rcases calls_of_notMem hs hc with hsame | ⟨hfresh, -⟩
      · exact h.fresh (hsame.symm.trans hnone)
      · exact h.fresh hfresh
    · rcases calls_of_notMem hs hc with hsame | ⟨hfresh, opts', hread⟩
      · exact h.calls opts pc (hsame.symm.trans hcall)
      · cases hread.symm.trans hcall
        exact h.fresh hfresh

/-! ### The end of a call -/

/-- Only sleeping puts the end off. -/
theorem Alone.ahead (h : Alone opts now pc os late pc') :
    pc'.ahead + 1 ≤ pc.ahead + if pc'.sleeps then 2 else 0 := by
  cases h with
  | read => split_ifs <;> simp [GetPc.ahead]
  | loaded locked x | empty locked o | wrote locked x =>
    cases locked <;> simp [finish, GetPc.ahead, GetPc.sleeps]
  | _ => simp [GetPc.ahead, GetPc.sleeps]

/-- After its deadline a call does not sleep. -/
theorem Alone.over (h : Alone opts now pc os late pc') (hover : pc.over now) :
    pc'.over now ∧ pc'.sleeps = false := by
  cases h with
  | read | setLock | refused => exact hover.elim
  | enters deadline hlt | again deadline polled hlt => exact absurd hover (Nat.not_le_of_lt hlt)
  | polls deadline polled => exact ⟨hover, rfl⟩
  | empty locked o | wrote locked x => cases locked <;> exact ⟨trivial, rfl⟩
  | _ => exact ⟨trivial, rfl⟩

theorem GetPc.over.later (h : pc.over now) (hle : now ≤ now') : pc.over now' := by
  cases pc with
  | waits deadline | poll deadline | missed deadline polled => exact Nat.le_trans h hle
  | _ => exact h

theorem undergo_now (h : s.undergo a = some s') : s.now ≤ s'.now := by
  cases a with
  | redis a =>
    cases a with
    | tick ms =>
      obtain rfl := Option.some.inj h
      exact Nat.le_add_right ..
    | change value | loseLock | invalidate | evict =>
      obtain rfl := Option.some.inj h
      exact Nat.le_refl _
    | start c opts =>
      simp only [State.undergo, State.step] at h
      split at h
      · obtain rfl := Option.some.inj h
        exact Nat.le_refl _
      · cases h
    | step c =>
      simp only [State.undergo, State.step] at h
      split at h
      · obtain ⟨_, hadv⟩ := advance_cases h
        exact Nat.le_of_eq hadv.now.symm
      · cases h
    | fail c =>
      simp only [State.undergo, State.step] at h
      split at h
      · obtain ⟨_, hadv⟩ := failing_cases h
        exact Nat.le_of_eq hadv.now.symm
      · cases h
  | lockUnanswered c =>
    simp only [State.undergo] at h
    split at h
    · split at h
      · obtain rfl := Option.some.inj h
        exact Nat.le_refl _
      · cases h
    · cases h

/-- The event is a step of the call. -/
def Outage.isOf (c : ℕ) (a : Outage T) : Bool := decide (c ∈ a.callOf)

/-- The steps that a call has taken, `n` of them, and those it has ahead, by how often it has
slept. -/
structure Counted (c : ℕ) (n : ℕ) (sleeps : List ℕ) (s : State T) : Prop where
  fresh : s.calls c = none → n = 0
  calls : ∀ opts pc, s.calls c = some ⟨opts, pc⟩ → n + pc.ahead ≤ 6 + 2 * sleeps.count c

theorem Counted.step {n : ℕ} (h : Counted c n sleeps s) (hrejects : Rejects c s a)
    (hs : s.undergo a = some s') :
    Counted c (n + if a.isOf c then 1 else 0) (sleeps ++ sleepsBy s a) s' := by
  by_cases hc : c ∈ a.callOf
  · obtain ⟨opts, pc, os, stalled, pc', hcall, hgoes⟩ := undergo_goes hs hrejects hc
    have hsleeps := sleepsBy_of_calls hs (callOf_eq_of_mem hc) hgoes.calls
    refine ⟨fun hnone => ?_, fun opts' pc₁ hcall' => ?_⟩
    · cases hnone.symm.trans hgoes.calls
    · cases hgoes.calls.symm.trans hcall'
      have hold := h.calls opts pc hcall
      have hahead := hgoes.alone.ahead
      rw [hsleeps, List.count_append, Outage.isOf, decide_eq_true hc, if_pos rfl]
      split_ifs at hahead ⊢ <;> simp <;> omega
  · have hnone : (sleepsBy s a).count c = 0 :=
      List.count_eq_zero.mpr fun hmem => hc (mem_callOf_of_sleeps hmem)
    have hquiet : (n + if a.isOf c then 1 else 0) = n := by
      rw [Outage.isOf, decide_eq_false hc]
      rfl
    rw [hquiet]
    refine ⟨fun hfree => ?_, fun opts pc hcall => ?_⟩
    · rcases calls_of_notMem hs hc with hsame | ⟨hfresh, -⟩
      · exact h.fresh (hsame.symm.trans hfree)
      · exact h.fresh hfresh
    · rw [List.count_append, hnone, Nat.add_zero]
      rcases calls_of_notMem hs hc with hsame | ⟨hfresh, opts', hread⟩
      · exact h.calls opts pc (hsame.symm.trans hcall)
      · cases hread.symm.trans hcall
        rw [h.fresh hfresh]
        simp [GetPc.ahead]

/-- Once its deadline has passed a call does not go to sleep any more. -/
theorem over_run {as : List (Outage T)} (hcall : s.calls c = some ⟨opts, pc⟩)
    (hover : pc.over s.now) (hrun : (outages T).run s as = some t)
    (hrejects : (outages T).Meets (Rejects c) s as) : c ∉ (outages T).trace sleepsBy s as := by
  induction as generalizing s pc with
  | nil => exact List.not_mem_nil
  | cons a as ih =>
    obtain ⟨s', hs, hrest⟩ := System.run_cons_eq_some hrun
    obtain ⟨hfirst, hmeets⟩ := hrejects
    have hs' : s.undergo a = some s' := hs
    have hnow := undergo_now hs'
    simp only [System.trace, hs, Option.map_some, Option.getD_some, List.mem_append, not_or]
    by_cases hc : c ∈ a.callOf
    · obtain ⟨opts', pc₁, os, stalled, pc', hcall', hgoes⟩ := undergo_goes hs' hfirst hc
      cases hcall.symm.trans hcall'
      obtain ⟨hover', hawake⟩ := hgoes.alone.over hover
      rw [sleepsBy_of_calls hs' (callOf_eq_of_mem hc) hgoes.calls, hawake]
      exact ⟨List.not_mem_nil, ih hgoes.calls (hover'.later hnow) hrest (hmeets s' hs)⟩
    · refine ⟨fun hmem => hc (mem_callOf_of_sleeps hmem), ?_⟩
      rcases calls_of_notMem hs' hc with hsame | ⟨hfresh, -⟩
      · exact ih (hsame.trans hcall) (hover.later hnow) hrest (hmeets s' hs)
      · cases hfresh.symm.trans hcall

/-- A call that is not at its end can go on, even if Redis answers nothing. -/
theorem goes_on (hcall : s.calls c = some ⟨opts, pc⟩) (hpc : ∀ o, pc ≠ .ended o) :
    ∃ a s', Rejects c s a ∧ a.isOf c = true ∧ s.undergo a = some s' := by
  by_cases hasks : pc.asks = true
  · have hfailing : ∃ s', s.failing c opts pc = some s' := by
      cases pc <;> first | exact ⟨_, rfl⟩ | cases hasks
    obtain ⟨s', hs'⟩ := hfailing
    refine ⟨.redis (.fail c), s', fun h => (by cases h), by simp [Outage.isOf, Outage.callOf], ?_⟩
    simp only [State.undergo, State.step, hcall, hs']
  · obtain ⟨s', hs'⟩ := advance_enabled s c opts hpc
    refine ⟨.redis (.step c), s', fun _ opts' pc' hc => ?_, by simp [Outage.isOf, Outage.callOf],
      by simp only [State.undergo, State.step, hcall, hs']⟩
    cases hcall.symm.trans hc
    exact Bool.eq_false_iff.mpr hasks

end Runs

/-- **When an unavailable Redis is just a miss.** A call of `get` is begun, and every Redis command
it asks something by is rejected. When it has ended, it has loaded once and returned what it
loaded, without having slept in the waiting loop, if and only if it is a plain one, or the clock
had reached its deadline when it first looked. And it does end: it can always go on, it takes six
steps and two for each time it sleeps, and after its deadline it does not sleep. -/
theorem unavailable_is_miss_iff {s t : State T} {as : List (Outage T)} {c : ℕ} {opts : CacheOptions}
    {pc : GetPc T} (hfresh : s.calls c = none) (hrun : (outages T).run s as = some t)
    (hrejects : (outages T).Meets (Rejects c) s as) (hcall : t.calls c = some ⟨opts, pc⟩) :
    (∀ o, pc = .ended o →
      ((own ((outages T).trace loadsBy s as) c = [o] ∧ c ∉ (outages T).trace sleepsBy s as) ↔
        (opts.singleFlight = false ∨ c ∈ (outages T).trace stallsBy s as))) ∧
    ((∀ o, pc ≠ .ended o) → ∃ a t', Rejects c t a ∧ a.isOf c = true ∧ t.undergo a = some t') ∧
    as.countP (Outage.isOf c) ≤ 6 + 2 * ((outages T).trace sleepsBy s as).count c ∧
    (pc.over t.now → ∀ bs t', (outages T).run t bs = some t' →
      (outages T).Meets (Rejects c) t bs → c ∉ (outages T).trace sleepsBy t bs) := by
  have hknown : LoneAt c ((outages T).trace loadsBy s as) ((outages T).trace sleepsBy s as)
      ((outages T).trace stallsBy s as) t ∧
      Counted c (as.countP (Outage.isOf c)) ((outages T).trace sleepsBy s as) t := by
    refine System.run_induction
      (J := fun as t => (outages T).Meets (Rejects c) s as →
        LoneAt c ((outages T).trace loadsBy s as) ((outages T).trace sleepsBy s as)
          ((outages T).trace stallsBy s as) t ∧
        Counted c (as.countP (Outage.isOf c)) ((outages T).trace sleepsBy s as) t) ?_ ?_ hrun
      hrejects
    · intro _
      refine ⟨⟨fun _ => ⟨rfl, List.not_mem_nil, List.not_mem_nil⟩, fun opts pc hc => ?_⟩,
        fun _ => rfl, fun opts pc hc => ?_⟩ <;> cases hfresh.symm.trans hc
    · intro as t a t' hrun ih hstep hmeets
      obtain ⟨hsofar, hlast⟩ := hmeets.snoc
      obtain ⟨hlone, hcounted⟩ := ih hsofar
      rw [System.trace_snoc hrun, System.trace_snoc hrun, System.trace_snoc hrun,
        List.countP_append, List.countP_singleton]
      exact ⟨hlone.step (hlast t hrun) hstep, hcounted.step (hlast t hrun) hstep⟩
  obtain ⟨hlone, hcounted⟩ := hknown
  refine ⟨?_, goes_on hcall, Nat.le_of_add_right_le (hcounted.calls opts pc hcall),
    fun hover bs t' hrest hmeets => over_run hcall hover hrest hmeets⟩
  rintro o rfl
  obtain ⟨hown, hpath⟩ := hlone.calls opts _ hcall
  rw [hpath, not_and, not_not]
  constructor
  · rintro ⟨-, hstalled⟩
    by_cases hsingle : opts.singleFlight = true
    · exact .inr (hstalled hsingle)
    · exact .inl (Bool.eq_false_iff.mpr hsingle)
  · rintro (hplain | hstalled)
    · exact ⟨hown, fun hsingle => absurd (hplain.symm.trans hsingle) Bool.false_ne_true⟩
    · exact ⟨hown, fun _ => hstalled⟩

/-- Whether Redis answers the call in this event. -/
def rejects (c : ℕ) (s : State T) : Outage T → Bool
  | .redis (.step c') => !decide (c' = c) || (s.calls c).all fun call => !call.pc.asks
  | _ => true

theorem rejects_of_check (c : ℕ) (s : State T) (a : Outage T) (h : rejects c s a = true) :
    Rejects c s a := by
  rintro rfl opts pc hc
  simpa [rejects, hc] using h

/-- Redis is down during a whole call with these options: the `GET` fails, the `SET NX` fails if
there is one, and the deadline passes before the next `GET` fails. -/
def demoDown (opts : CacheOptions) : List (Outage String) :=
  .redis (.start 0 opts) :: .redis (.fail 0) ::
    ((if opts.singleFlight then
        [.redis (.fail 0), .redis (.step 0), .redis (.step 0), .redis (.tick opts.waitMs),
          .redis (.fail 0), .redis (.step 0)]
      else []) ++ [.redis (.step 0), .redis (.fail 0)])

/-- For the plain `get` it is just a miss. -/
theorem demoDown_plain_is_miss :
    own ((outages String).trace loadsBy cold (demoDown ⟨false, 5000, 3000⟩)) 0 =
        [.returned (some ⟨"4.20", 0⟩)] ∧
      0 ∉ (outages String).trace sleepsBy cold (demoDown ⟨false, 5000, 3000⟩) :=
  ((unavailable_is_miss_iff rfl rfl (.of_checks (rejects_of_check 0) rfl) rfl).1 _ rfl).mpr
    (.inl rfl)

/-- **A `SET NX` that failed is taken for somebody else's lock**: with the default options the call
sleeps before it goes to the database. -/
theorem unavailable_redis_is_waited_for :
    ∃ t, (outages String).run cold (demoDown defaultCacheOptions) = some t ∧
      (outages String).Meets (Rejects 0) cold (demoDown defaultCacheOptions) ∧
      t.calls 0 = some ⟨defaultCacheOptions, .ended (.returned (some ⟨"4.20", 0⟩))⟩ ∧
      ¬ (own ((outages String).trace loadsBy cold (demoDown defaultCacheOptions)) 0 =
          [.returned (some ⟨"4.20", 0⟩)] ∧
        0 ∉ (outages String).trace sleepsBy cold (demoDown defaultCacheOptions)) := by
  refine ⟨_, rfl, .of_checks (rejects_of_check 0) rfl, rfl, fun h => h.2 ?_⟩
  exact List.mem_of_mem_head? rfl

end Marketplace.Cache
