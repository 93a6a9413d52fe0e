import Marketplace.Cache

/-!
# A cache that never fails a request

Every Redis command of `CacheAside` goes through `safe`, and a read that fails is a miss. What a
call of `get` ends with is therefore explained by the executions of `load` alone: by its own, if it
has come that far, and else by the one whose value it has found in the entry
(`get_explained_by_loads`).

To the events of the cache one is added: a `SET NX` whose answer is lost has set the lock and is
rejected all the same. A rejected `SET`, `EVAL` or `DEL` that was performed is, for the call, the
command performed: nobody looks at its reply.
-/

namespace Marketplace.Cache

universe u

variable {T : Type u}

/-- What can happen to a cache over a Redis that is failing. -/
inductive Outage (T : Type u) where
  | redis (a : Event T)
  /-- the lock is set, but the answer is lost -/
  | lockUnanswered (c : ℕ)
  deriving DecidableEq

/-- One event. -/
def State.undergo (s : State T) : Outage T → Option (State T)
  | .redis a => s.step a
  | .lockUnanswered c =>
    match s.calls c with
    | some ⟨opts, .setLock⟩ =>
      match s.lock with
      | none => some ({ s with lock := some ⟨c, s.now + opts.lockMs⟩ }.goto c opts .refused)
      | some _ => none
    | _ => none

/-- The cache over a failing Redis, and its callers. -/
def outages (T : Type u) : System (State T) (Outage T) := ⟨State.Start, State.undergo⟩

/-- The call that an event is a step of. -/
def Outage.callOf : Outage T → List ℕ
  | .redis (.step c) | .redis (.fail c) | .lockUnanswered c => [c]
  | _ => []

/-- The executions of `load`: which call, and what it returned or that it threw. -/
def loadsBy (s : State T) : Outage T → List (ℕ × Outcome T)
  | .redis (.step c) =>
    match s.calls c with
    | some ⟨_, .load _⟩ => [(c, .returned (s.source.map fun value => ⟨value, s.version⟩))]
    | _ => []
  | .redis (.fail c) =>
    match s.calls c with
    | some ⟨_, .load _⟩ => [(c, .threw)]
    | _ => []
  | _ => []

/-! ## What a step makes of a call -/

/-- The call has not loaded yet, and has found nothing. -/
def GetPc.early : GetPc T → Bool
  | .read | .setLock | .readAgain | .load _ | .refused | .waits _ | .poll _ | .missed _ _ => true
  | .write _ _ | .unlock _ | .ended _ => false

/-- A step of a call at `pc`, what it loads, and where the call is then. -/
inductive Moves (s : State T) : GetPc T → List (Outcome T) → GetPc T → Prop
  /-- it goes on empty-handed -/
  | onward {pc pc'} : pc.early = true → pc'.early = true → Moves s pc [] pc'
  /-- it has found the entry -/
  | hit {pc pc'} (x : Loaded T) : pc.early = true → pc'.early = false → s.entry = some x →
      pc'.outcome = some (.returned (some x)) → Moves s pc [] pc'
  /-- it has loaded a value -/
  | loaded (locked : Bool) (x : Loaded T) :
      Moves s (.load locked) [.returned (some x)] (.write locked x)
  /-- it has loaded `null`, or `load` has thrown -/
  | empty {o} (locked : Bool) : (∀ x, o ≠ .returned (some x)) →
      Moves s (.load locked) [o] (finish locked o)
  /-- it has written the value, or tried to -/
  | wrote (locked : Bool) (x : Loaded T) :
      Moves s (.write locked x) [] (finish locked (.returned (some x)))
  /-- it has given the lock back, or tried to -/
  | unlocked (o : Outcome T) : Moves s (.unlock o) [] (.ended o)

section Steps

variable {s s' t : State T} {a : Outage T} {c : ℕ} {opts : CacheOptions} {pc : GetPc T}

theorem early_loop (deadline : ℕ) : (s.loop deadline).early = true := by
  rcases loop_cases s deadline with h | h <;> rw [h] <;> rfl

theorem early_miss :
    (if opts.singleFlight then .setLock else .load false : GetPc T).early = true := by
  split_ifs <;> rfl

/-- **A successful step of a call.** -/
theorem advance_moves (hc : s.calls c = some ⟨opts, pc⟩) (h : s.advance c opts pc = some s') :
    ∃ pc' os, s'.calls = Function.update s.calls c (some ⟨opts, pc'⟩) ∧
      loadsBy s (.redis (.step c)) = os.map (fun o => (c, o)) ∧ Moves s pc os pc' := by
  simp only [loadsBy, hc]
  cases pc with
  | read =>
    simp only [State.advance] at h
    split at h <;> obtain rfl := Option.some.inj h
    · rename_i x hx
      exact ⟨_, [], rfl, rfl, .hit x rfl rfl hx rfl⟩
    · exact ⟨_, [], rfl, rfl, .onward rfl early_miss⟩
  | setLock =>
    simp only [State.advance] at h
    split at h <;> obtain rfl := Option.some.inj h <;> exact ⟨_, [], rfl, rfl, .onward rfl rfl⟩
  | readAgain =>
    simp only [State.advance] at h
    split at h <;> obtain rfl := Option.some.inj h
    · rename_i x hx
      exact ⟨_, [], rfl, rfl, .hit x rfl rfl hx rfl⟩
    · exact ⟨_, [], rfl, rfl, .onward rfl rfl⟩
  | load locked =>
    simp only [State.advance] at h
    split at h <;> rename_i hsource <;> obtain rfl := Option.some.inj h <;>
      simp only [hsource, Option.map_some, Option.map_none]
    · exact ⟨_, [_], rfl, rfl, .loaded locked _⟩
    · exact ⟨_, [_], rfl, rfl, .empty locked fun x hx => by cases hx⟩
  | write locked x =>
    obtain rfl := Option.some.inj h
    exact ⟨_, [], rfl, rfl, .wrote locked x⟩
  | unlock o =>
    obtain rfl := Option.some.inj h
    exact ⟨_, [], rfl, rfl, .unlocked o⟩
  | refused =>
    obtain rfl := Option.some.inj h
    exact ⟨_, [], rfl, rfl, .onward rfl rfl⟩
  | waits deadline =>
    obtain rfl := Option.some.inj h
    exact ⟨_, [], rfl, rfl, .onward rfl (early_loop _)⟩
  | poll deadline =>
    simp only [State.advance] at h
    split at h <;> obtain rfl := Option.some.inj h
    · rename_i x hx
      exact ⟨_, [], rfl, rfl, .hit x rfl rfl hx rfl⟩
    · exact ⟨_, [], rfl, rfl, .onward rfl rfl⟩
  | missed deadline polled =>
    obtain rfl := Option.some.inj h
    exact ⟨_, [], rfl, rfl, .onward rfl (early_loop _)⟩
  | ended o => cases h

/-- **A failing step of a call**: a failing command is a miss, and only `load` throws. -/
theorem failing_moves (hc : s.calls c = some ⟨opts, pc⟩) (h : s.failing c opts pc = some s') :
    ∃ pc' os, s'.calls = Function.update s.calls c (some ⟨opts, pc'⟩) ∧
      loadsBy s (.redis (.fail c)) = os.map (fun o => (c, o)) ∧ Moves s pc os pc' := by
  simp only [loadsBy, hc]
  cases pc with
  | read =>
    obtain rfl := Option.some.inj h
    exact ⟨_, [], rfl, rfl, .onward rfl early_miss⟩
  | setLock | readAgain | poll deadline =>
    obtain rfl := Option.some.inj h
    exact ⟨_, [], rfl, rfl, .onward rfl rfl⟩
  | load locked =>
    obtain rfl := Option.some.inj h
    exact ⟨_, [_], rfl, rfl, .empty locked fun x hx => by cases hx⟩
  | write locked x =>
    obtain rfl := Option.some.inj h
    exact ⟨_, [], rfl, rfl, .wrote locked x⟩
  | unlock o =>
    obtain rfl := Option.some.inj h
    exact ⟨_, [], rfl, rfl, .unlocked o⟩
  | refused | waits deadline | missed deadline polled | ended o => cases h

/-- **One step** around a failing Redis: of nobody, or of one call. -/
theorem undergo_cases (h : s.undergo a = some s') :
    (s'.calls = s.calls ∧ (s'.entry = s.entry ∨ s'.entry = none) ∧ loadsBy s a = []) ∨
      (∃ c opts, s.calls c = none ∧ s' = s.goto c opts .read ∧ loadsBy s a = []) ∨
      ∃ c opts pc pc' os, a.callOf = [c] ∧ s.calls c = some ⟨opts, pc⟩ ∧
        s'.calls = Function.update s.calls c (some ⟨opts, pc'⟩) ∧
        (s'.entry = s.entry ∨ ∃ locked x, pc = .write locked x ∧ s'.entry = some x) ∧
        loadsBy s a = os.map (fun o => (c, o)) ∧ Moves s pc os pc' := by
  cases a with
  | redis a =>
    cases a with
    | tick ms | change value | loseLock =>
      obtain rfl := Option.some.inj h
      exact .inl ⟨rfl, .inl rfl, rfl⟩
    | invalidate | evict =>
      obtain rfl := Option.some.inj h
      exact .inl ⟨rfl, .inr rfl, rfl⟩
    | start c opts =>
      simp only [State.undergo, State.step] at h
      split at h
      · rename_i hc
        exact .inr (.inl ⟨c, opts, hc, (Option.some.inj h).symm, rfl⟩)
      · cases h
    | step c =>
      simp only [State.undergo, State.step] at h
      split at h
      · rename_i call hc
        obtain ⟨pc', os, hcalls, hloads, hmoves⟩ := advance_moves hc h
        obtain ⟨_, hadv⟩ := advance_cases h
        exact .inr (.inr
          ⟨c, call.opts, call.pc, pc', os, rfl, hc, hcalls, hadv.entry, hloads, hmoves⟩)
      · cases h
    | fail c =>
      simp only [State.undergo, State.step] at h
      split at h
      · rename_i call hc
        obtain ⟨pc', os, hcalls, hloads, hmoves⟩ := failing_moves hc h
        obtain ⟨_, hadv⟩ := failing_cases h
        exact .inr (.inr
          ⟨c, call.opts, call.pc, pc', os, rfl, hc, hcalls, hadv.entry, hloads, hmoves⟩)
      · cases h
  | lockUnanswered c =>
    simp only [State.undergo] at h
    split at h
    · rename_i opts hc
      split at h
      · obtain rfl := Option.some.inj h
        exact .inr (.inr ⟨c, opts, _, _, [], rfl, hc, rfl, .inl rfl, rfl, .onward rfl rfl⟩)
      · cases h
    · cases h

end Steps

/-! ## What explains a call -/

/-- What the loads of one call ended with. -/
def own (loads : List (ℕ × Outcome T)) (c : ℕ) : List (Outcome T) :=
  (loads.filter fun l => l.1 = c).map Prod.snd

/-- The loads so far explain where the call is. -/
def Explained (loads : List (ℕ × Outcome T)) (c : ℕ) : GetPc T → Prop
  | .write _ x => own loads c = [.returned (some x)]
  | .unlock o | .ended o => own loads c = [o] ∨
      own loads c = [] ∧ ∃ x c', o = .returned (some x) ∧ (c', .returned (some x)) ∈ loads
  | _ => own loads c = []

/-- The loads so far explain all that the cache and its callers have. -/
structure Told (loads : List (ℕ × Outcome T)) (s : State T) : Prop where
  entry : ∀ x, s.entry = some x → ∃ c, (c, .returned (some x)) ∈ loads
  calls : ∀ c opts pc, s.calls c = some ⟨opts, pc⟩ → Explained loads c pc
  fresh : ∀ c, s.calls c = none → own loads c = []

section Told

variable {s s' t : State T} {a : Outage T} {c c' : ℕ} {opts : CacheOptions} {pc pc' : GetPc T}
  {loads : List (ℕ × Outcome T)} {os : List (Outcome T)} {o : Outcome T}

theorem mem_own : o ∈ own loads c ↔ (c, o) ∈ loads := by
  simp [own]

theorem own_append_self : own (loads ++ os.map fun o => (c, o)) c = own loads c ++ os := by
  simp [own, List.filter_map, Function.comp_def]

theorem own_append_of_ne (hc : c' ≠ c) :
    own (loads ++ os.map fun o => (c, o)) c' = own loads c' := by
  simp [own, List.filter_map, Function.comp_def, hc.symm]

theorem explained_of_early (h : pc.early = true) : Explained loads c pc ↔ own loads c = [] := by
  cases pc <;> first | rfl | cases h

theorem explained_finish (locked : Bool) (h : own loads c = [o]) :
    Explained loads c (finish locked o) := by
  cases locked <;> exact .inl h

/-- What explains a call explains it later, if it is not the one that loads. -/
theorem Explained.later (h : Explained loads c' pc) (hc : c' ≠ c) :
    Explained (loads ++ os.map fun o => (c, o)) c' pc := by
  have hown : own (loads ++ os.map fun o => (c, o)) c' = own loads c' := own_append_of_ne hc
  cases pc with
  | unlock o | ended o =>
    rcases h with h | ⟨h, x, c₁, ho, hmem⟩
    · exact .inl (hown.trans h)
    · exact .inr ⟨hown.trans h, x, c₁, ho, List.mem_append_left _ hmem⟩
  | _ => exact hown.trans h

/-- **The step of a call** is explained by what it loads. -/
theorem Explained.moves (h : Explained loads c pc) (hmoves : Moves s pc os pc')
    (hentry : ∀ x, s.entry = some x → ∃ c', (c', .returned (some x)) ∈ loads) :
    Explained (loads ++ os.map fun o => (c, o)) c pc' := by
  have hown : own (loads ++ os.map fun o => (c, o)) c = own loads c ++ os := own_append_self
  cases hmoves with
  | onward hpc hpc' =>
    rw [explained_of_early hpc', hown, (explained_of_early hpc).mp h]
    rfl
  | hit x hpc hpc' hx ho =>
    -- the call read the entry, so another one has loaded it
    obtain ⟨c', hc'⟩ := hentry x hx
    have hnone : own loads c = [] := (explained_of_early hpc).mp h
    cases pc' with
    | unlock o | ended o =>
      refine .inr ⟨?_, x, c', Option.some.inj ho, List.mem_append_left _ hc'⟩
      rw [hown, hnone]
      rfl
    | _ => cases ho
  | loaded locked x =>
    show own _ _ = _
    rw [hown, show own loads c = [] from h]
    rfl
  | @empty o locked ho =>
    refine explained_finish locked ?_
    rw [hown, show own loads c = [] from h]
    rfl
  | wrote locked x =>
    refine explained_finish locked ?_
    rw [hown, show own loads c = _ from h]
    rfl
  | unlocked o =>
    rw [List.map_nil, List.append_nil]
    exact h

/-- **One step** is explained by what it loads. -/
theorem Told.step (h : Told loads s) (hs : s.undergo a = some s') :
    Told (loads ++ loadsBy s a) s' := by
  rcases undergo_cases hs with ⟨hcalls, hentry, hnone⟩ | ⟨c, opts, hc, rfl, hnone⟩ |
    ⟨c, opts, pc, pc', os, -, hc, hcalls, hentry, hloads, hmoves⟩
  · rw [hnone, List.append_nil]
    refine ⟨fun x hx => ?_, hcalls ▸ h.calls, hcalls ▸ h.fresh⟩
    rcases hentry with hentry | hentry
    · exact h.entry x (hentry ▸ hx)
    · cases hentry.symm.trans hx
  · rw [hnone, List.append_nil]
    refine ⟨h.entry, fun c' opts' pc hc' => ?_, fun c' hc' => ?_⟩
    · rcases Slots.found_cases_some hc' with ⟨rfl, heq⟩ | ⟨-, hold⟩
      · cases heq
        exact h.fresh c' hc
      · exact h.calls c' opts' pc hold
    · exact h.fresh c' (Slots.free_of_update hc').2
  · rw [hloads]
    refine ⟨fun x hx => ?_, fun c' opts' pc₁ hc' => ?_, fun c' hc' => ?_⟩
    · rcases hentry with hentry | ⟨locked, y, rfl, hentry⟩
      · obtain ⟨c', hc'⟩ := h.entry x (hentry ▸ hx)
        exact ⟨c', List.mem_append_left _ hc'⟩
      · -- what is written was loaded by the call itself
        obtain rfl := Option.some.inj (hentry.symm.trans hx)
        have hown : own loads c = [.returned (some y)] := h.calls c opts _ hc
        exact ⟨c, List.mem_append_left _ (mem_own.mp (hown ▸ List.mem_singleton_self _))⟩
    · rw [hcalls] at hc'
      rcases Slots.found_cases_some hc' with ⟨rfl, heq⟩ | ⟨hcc, hold⟩
      · cases heq
        exact (h.calls c' opts pc hc).moves hmoves h.entry
      · -- the loads of one call are none of another
        exact (h.calls c' opts' pc₁ hold).later hcc
    · rw [hcalls] at hc'
      obtain ⟨hcc, hold⟩ := Slots.free_of_update hc'
      rw [own_append_of_ne hcc]
      exact h.fresh c' hold

/-- What explains the state before a run explains, with the loads of the run, the state after it. -/
theorem Told.run {as : List (Outage T)} (h : Told loads s)
    (hrun : (outages T).run s as = some t) :
    Told (loads ++ (outages T).trace loadsBy s as) t := by
  refine System.run_induction
    (J := fun as t => Told (loads ++ (outages T).trace loadsBy s as) t) ?_ ?_ hrun
  · rw [System.trace, List.append_nil]
    exact h
  · intro as t a t' hrun ih hstep
    rw [System.trace_snoc hrun, ← List.append_assoc]
    exact ih.step hstep

/-- A call loads at most once. -/
theorem Explained.length_le (h : Explained loads c pc) : (own loads c).length ≤ 1 := by
  cases pc with
  | write locked x =>
    rw [show own loads c = _ from h]
    exact Nat.le_refl _
  | unlock o | ended o =>
    rcases h with h | ⟨h, -⟩ <;> rw [h] <;> simp
  | _ =>
    rw [show own loads c = [] from h]
    exact Nat.zero_le _

end Told

/-- **A failing Redis changes and fails nothing.** In every run, whatever Redis does: a call of
`get` that throws has thrown because its own `load` did; a value it returns is one that some `load`
returned; it returns `null` only if its own `load` did; and no call loads more than once. -/
theorem get_explained_by_loads {s₀ s : State T} {as : List (Outage T)} (hstart : s₀.Start)
    (hrun : (outages T).run s₀ as = some s) (c : ℕ) :
    (∀ opts, s.calls c = some ⟨opts, .ended .threw⟩ →
      (c, .threw) ∈ (outages T).trace loadsBy s₀ as) ∧
    (∀ opts x, s.calls c = some ⟨opts, .ended (.returned (some x))⟩ →
      ∃ c', (c', .returned (some x)) ∈ (outages T).trace loadsBy s₀ as) ∧
    (∀ opts, s.calls c = some ⟨opts, .ended (.returned none)⟩ →
      (c, .returned none) ∈ (outages T).trace loadsBy s₀ as) ∧
    (own ((outages T).trace loadsBy s₀ as) c).length ≤ 1 := by
  have htold : Told ([] ++ (outages T).trace loadsBy s₀ as) s := by
    refine Told.run ⟨fun x hx => ?_, fun c opts pc hc => ?_, fun c _ => rfl⟩ hrun
    · cases hstart.entry.symm.trans hx
    · cases (hstart.calls c).symm.trans hc
  rw [List.nil_append] at htold
  have hended : ∀ opts o, s.calls c = some ⟨opts, .ended o⟩ →
      (c, o) ∈ (outages T).trace loadsBy s₀ as ∨
        ∃ x c', o = .returned (some x) ∧ (c', o) ∈ (outages T).trace loadsBy s₀ as := by
    intro opts o hc
    rcases htold.calls c opts _ hc with hown | ⟨-, x, c', rfl, hmem⟩
    · exact .inl (mem_own.mp (hown ▸ List.mem_singleton_self _))
    · exact .inr ⟨x, c', rfl, hmem⟩
  refine ⟨fun opts hc => ?_, fun opts x hc => ?_, fun opts hc => ?_, ?_⟩
  · rcases hended opts _ hc with hmem | ⟨x, c', ho, -⟩
    · exact hmem
    · cases ho
  · rcases hended opts _ hc with hmem | ⟨y, c', -, hmem⟩
    · exact ⟨c, hmem⟩
    · exact ⟨c', hmem⟩
  · rcases hended opts _ hc with hmem | ⟨x, c', ho, -⟩
    · exact hmem
    · cases ho
  · rcases hc : s.calls c with _ | call
    · rw [htold.fresh c hc]
      exact Nat.zero_le _
    · exact (htold.calls c call.opts call.pc hc).length_le

/-- Every command of this call is rejected, the lock is set all the same, and the process stalls
until the deadline has passed. -/
theorem demoOutage_explained :
    ∃ s, (outages String).run cold
        ([.redis (.start 0 defaultCacheOptions), .redis (.fail 0), .lockUnanswered 0,
          .redis (.step 0), .redis (.tick 3000), .redis (.step 0), .redis (.step 0),
          .redis (.fail 0)] : List (Outage String)) = some s ∧
      s.calls 0 = some ⟨defaultCacheOptions, .ended (.returned (some ⟨"4.20", 0⟩))⟩ ∧
      ∃ c', (c', .returned (some ⟨"4.20", 0⟩)) ∈ (outages String).trace loadsBy cold
        [.redis (.start 0 defaultCacheOptions), .redis (.fail 0), .lockUnanswered 0,
          .redis (.step 0), .redis (.tick 3000), .redis (.step 0), .redis (.step 0),
          .redis (.fail 0)] :=
  ⟨_, rfl, rfl, (get_explained_by_loads cold_start rfl 0).2.1 _ _ rfl⟩

end Marketplace.Cache
