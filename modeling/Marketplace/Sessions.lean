import Marketplace.Run
import Marketplace.Slots

/-!
# Sessions

`SessionStore` of `redis/session.ts` and the requests that go through
`sessionMiddleware`. Each command is one step: `GETEX` of `touch`, `SET` of `create` and of
`save`, `DEL` of `destroy`; a key vanishes when its ttl has passed. Between its touch and
its saves a request holds the session in its hands.

`save` has no condition on the key, so a request that got hold of the session before its
end puts it back (`saved_after_destroy_returns`). That is the only way a destroyed
session comes back: `destroy_effective_iff`.
-/

namespace Marketplace.Sessions

universe u

/-- `RequestSession` -/
structure RequestSession (D : Type u) where
  id : String
  data : D
  isNew : Bool
  deriving DecidableEq

/-- Where a request is. -/
inductive RequestPc (D : Type u) where
  /-- the middleware reads the session of this cookie -/
  | touch (sid : String)
  /-- it creates a session -/
  | create
  /-- the handler has the session, and may save it -/
  | handle (session : RequestSession D)
  | ended
  deriving DecidableEq

/-- Redis, and the requests. -/
structure State (D : Type u) where
  /-- the keys `sess:…` -/
  sessions : String → Option D
  requests : ℕ → Option (RequestPc D)
  /-- ids that somebody has used already -/
  known : List String

/-- What can happen. -/
inductive Event (D : Type u) where
  /-- a request with this cookie -/
  | request (r : ℕ) (cookie : Option String)
  | touch (r : ℕ)
  /-- `create` with the id that `randomBytes` gives -/
  | create (r : ℕ) (sid : String)
  | save (r : ℕ) (data : D)
  /-- the answer is sent -/
  | finish (r : ℕ)
  /-- the command of the middleware fails: `next(e)` -/
  | fail (r : ℕ)
  | destroy (sid : String)
  /-- the ttl has passed -/
  | expire (sid : String)
  deriving DecidableEq

variable {D : Type u} [Inhabited D] -- the data of a new session is `{}`

/-- `sessionMiddleware`: no cookie, or an empty one, is no session. -/
def RequestPc.ofCookie : Option String → RequestPc D
  | some sid => if sid = "" then .create else .touch sid
  | none => .create

namespace State

/-- The state with a request elsewhere. -/
def goto (s : State D) (r : ℕ) (pc : RequestPc D) : State D :=
  { s with requests := Function.update s.requests r (some pc) }

/-- One event. -/
def step (s : State D) : Event D → Option (State D)
  | .request r cookie =>
    match s.requests r with
    | none => some { s.goto r (RequestPc.ofCookie cookie) with known := cookie.toList ++ s.known }
    | some _ => none
  | .touch r =>
    match s.requests r with
    | some (.touch sid) =>
      match s.sessions sid with
      | some data => some (s.goto r (.handle ⟨sid, data, false⟩))
      | none => some (s.goto r .create)
    | _ => none
  | .create r sid =>
    match s.requests r with
    | some .create =>
      -- an id that was just drawn has 32 characters, and nobody has seen it
      if sid = "" ∨ sid ∈ s.known then none
      else some { s.goto r (.handle ⟨sid, default, true⟩) with
        sessions := Function.update s.sessions sid (some default)
        known := sid :: s.known }
    | _ => none
  | .save r data =>
    match s.requests r with
    | some (.handle session) =>
      some { s with sessions := Function.update s.sessions session.id (some data) }
    | _ => none
  | .finish r =>
    match s.requests r with
    | some (.handle _) => some (s.goto r .ended)
    | _ => none
  | .fail r =>
    match s.requests r with
    | some (.touch _) | some .create => some (s.goto r .ended)
    | _ => none
  | .destroy sid =>
    some { s with sessions := Function.update s.sessions sid none, known := sid :: s.known }
  | .expire sid => some { s with sessions := Function.update s.sessions sid none }

/-- Before the first request. -/
structure Start (s : State D) : Prop where
  sessions : ∀ sid, s.sessions sid = none
  requests : ∀ r, s.requests r = none

end State

/-- The store and its requests. -/
def stores (D : Type u) [Inhabited D] : System (State D) (Event D) := ⟨State.Start, State.step⟩

/-! ## A destroyed session -/

/-- The session is gone, its id was seen, and no request has it in its hands. -/
structure Gone (sid : String) (s : State D) : Prop where
  sessions : s.sessions sid = none
  known : sid ∈ s.known
  requests : ∀ r session, s.requests r = some (.handle session) → session.id ≠ sid

section Destroy

variable {s s' : State D} {a : Event D} {sid : String} {r : ℕ} {pc : RequestPc D}

omit [Inhabited D] in
/-- Another request goes on, or one goes on without the session. -/
theorem Gone.goto (h : Gone sid s) (hpc : ∀ session, pc = .handle session → session.id ≠ sid) :
    Gone sid (s.goto r pc) := by
  refine ⟨h.sessions, h.known, fun r' session hr' => ?_⟩
  rcases Slots.found_cases_some hr' with ⟨-, heq⟩ | ⟨-, hold⟩
  · exact hpc session heq.symm
  · exact h.requests r' session hold

/-- **A session that is gone stays so.** -/
theorem Gone.step (h : Gone sid s) (hs : s.step a = some s') : Gone sid s' := by
  cases a with
  | request r cookie =>
    simp only [State.step] at hs
    split at hs
    · obtain rfl := Option.some.inj hs
      have hgoto : Gone sid (s.goto r (RequestPc.ofCookie cookie)) := by
        refine h.goto fun session heq => ?_
        rcases cookie with _ | c
        · cases heq
        · rw [RequestPc.ofCookie] at heq
          split_ifs at heq
      exact ⟨hgoto.sessions, List.mem_append_right _ h.known, hgoto.requests⟩
    · cases hs
  | touch r =>
    simp only [State.step] at hs
    split at hs
    · rename_i sid' hr
      split at hs
      · rename_i data hdata
        obtain rfl := Option.some.inj hs
        refine h.goto ?_
        rintro session ⟨⟩ rfl
        cases hdata.symm.trans h.sessions
      · obtain rfl := Option.some.inj hs
        exact h.goto fun session heq => by cases heq
    · cases hs
  | create r sid' =>
    simp only [State.step] at hs
    split at hs
    · split_ifs at hs with hnew
      obtain rfl := Option.some.inj hs
      have hne : sid' ≠ sid := by
        rintro rfl
        exact hnew (.inr h.known)
      have hgoto : Gone sid (s.goto r (.handle ⟨sid', default, true⟩)) := by
        refine h.goto ?_
        rintro session ⟨⟩
        exact hne
      exact ⟨(Function.update_of_ne hne.symm ..).trans h.sessions, List.mem_cons_of_mem _ h.known,
        hgoto.requests⟩
    · cases hs
  | save r data =>
    simp only [State.step] at hs
    split at hs
    · rename_i session hr
      obtain rfl := Option.some.inj hs
      have hne := h.requests r session hr
      exact ⟨(Function.update_of_ne hne.symm ..).trans h.sessions, h.known, h.requests⟩
    · cases hs
  | finish r | fail r =>
    simp only [State.step] at hs
    split at hs
    all_goals first
      | cases hs; done
      | (obtain rfl := Option.some.inj hs
         exact h.goto fun session heq => by cases heq)
  | destroy sid' =>
    obtain rfl := Option.some.inj hs
    refine ⟨?_, List.mem_cons_of_mem _ h.known, h.requests⟩
    by_cases hsid : sid = sid'
    · rw [hsid]
      exact Function.update_self ..
    · exact (Function.update_of_ne hsid ..).trans h.sessions
  | expire sid' =>
    obtain rfl := Option.some.inj hs
    refine ⟨?_, h.known, h.requests⟩
    by_cases hsid : sid = sid'
    · rw [hsid]
      exact Function.update_self ..
    · exact (Function.update_of_ne hsid ..).trans h.sessions

/-- The id that a request is about. -/
def RequestPc.about : RequestPc D → Option String
  | .touch sid => some sid
  | .handle session => some session.id
  | .create | .ended => none

/-- Requests are numbered, only finitely many have begun, and no id is empty. -/
structure Sane (s : State D) : Prop where
  bounded : ∃ n, ∀ r, n ≤ r → s.requests r = none
  nonempty : ∀ r pc, s.requests r = some pc → pc.about ≠ some ""

omit [Inhabited D] in
theorem Sane.goto (h : Sane s) (hpc : pc.about ≠ some "") : Sane (s.goto r pc) := by
  refine ⟨Slots.exists_bound_update h.bounded r _, fun r' pc' hr' => ?_⟩
  rcases Slots.found_cases_some hr' with ⟨-, rfl⟩ | ⟨-, hold⟩
  · exact hpc
  · exact h.nonempty r' pc' hold

theorem Sane.step (h : Sane s) (hs : s.step a = some s') : Sane s' := by
  cases a with
  | request r cookie =>
    simp only [State.step] at hs
    split at hs
    · obtain rfl := Option.some.inj hs
      have hgoto : Sane (s.goto r (RequestPc.ofCookie cookie)) := by
        refine h.goto ?_
        rcases cookie with _ | c
        · exact fun heq => by cases heq
        · rw [RequestPc.ofCookie]
          split_ifs with hc
          · exact fun heq => by cases heq
          · exact fun heq => hc (Option.some.inj heq)
      exact ⟨hgoto.bounded, hgoto.nonempty⟩
    · cases hs
  | touch r =>
    simp only [State.step] at hs
    split at hs
    · rename_i sid' hr
      split at hs
      · obtain rfl := Option.some.inj hs
        exact h.goto (h.nonempty r (.touch sid') hr)
      · obtain rfl := Option.some.inj hs
        exact h.goto fun heq => by cases heq
    · cases hs
  | create r sid' =>
    simp only [State.step] at hs
    split at hs
    · split_ifs at hs with hnew
      obtain rfl := Option.some.inj hs
      have hgoto : Sane (s.goto r (.handle ⟨sid', default, true⟩)) :=
        h.goto fun heq => hnew (.inl (Option.some.inj heq))
      exact ⟨hgoto.bounded, hgoto.nonempty⟩
    · cases hs
  | save r data =>
    simp only [State.step] at hs
    split at hs
    · obtain rfl := Option.some.inj hs
      exact ⟨h.bounded, h.nonempty⟩
    · cases hs
  | finish r | fail r =>
    simp only [State.step] at hs
    split at hs
    all_goals first
      | cases hs; done
      | (obtain rfl := Option.some.inj hs
         exact h.goto fun heq => by cases heq)
  | destroy sid' | expire sid' =>
    obtain rfl := Option.some.inj hs
    exact ⟨h.bounded, h.nonempty⟩

theorem sane_reachable (hs : (stores D).Reachable s) : Sane s := by
  refine System.Invariant.reachable (M := stores D) (fun _ _ _ h hs => h.step hs) ?_ hs
  intro s hs
  refine ⟨⟨0, fun r _ => hs.requests r⟩, fun r pc hr => ?_⟩
  cases (hs.requests r).symm.trans hr

/-- **When a session stays destroyed.** Every touch that comes after a `destroy` finds nothing, so
that the middleware begins a new session, exactly when at the moment of the `DEL` no request has
the session in its hands. -/
theorem destroy_effective_iff (hs : (stores D).Reachable s)
    (hdel : s.step (.destroy sid) = some s') :
    (∀ as t t' r, (stores D).run s' as = some t → t.requests r = some (.touch sid) →
        t.step (.touch r) = some t' → t'.requests r = some .create) ↔
      ∀ r session, s.requests r = some (.handle session) → session.id ≠ sid := by
  obtain rfl := Option.some.inj hdel
  constructor
  · rintro h r session hr rfl
    have hsane := sane_reachable hs
    obtain ⟨n, hn⟩ := hsane.bounded
    have hsid : session.id ≠ "" := fun heq => hsane.nonempty r _ hr (congrArg some heq)
    have hnr : n ≠ r := (Slots.ne_of_free (hn n (Nat.le_refl n)) hr).symm
    -- the request saves, and a new one comes with the cookie
    have hrun : ∃ t, (stores D).run
        { s with sessions := Function.update s.sessions session.id none
                 known := session.id :: s.known }
        [.save r session.data, .request n (some session.id)] = some t ∧
        t.requests n = some (.touch session.id) ∧ t.sessions session.id = some session.data := by
      simp only [System.run, stores, State.step, hr, Option.bind_some, hn n (Nat.le_refl n)]
      refine ⟨_, rfl, ?_, Function.update_self ..⟩
      simp only [State.goto, Function.update_self, RequestPc.ofCookie, if_neg hsid]
    obtain ⟨t, hrun, htouch, hdata⟩ := hrun
    have hstep :
        t.step (.touch n) = some (t.goto n (.handle ⟨session.id, session.data, false⟩)) := by
      simp only [State.step, htouch, hdata]
    have hcreate := h _ t _ n hrun htouch hstep
    simp only [State.goto, Function.update_self, Option.some.injEq] at hcreate
    cases hcreate
  · intro h as t t' r hrun hr ht
    have hgone : Gone sid t := by
      refine System.Invariant.run (M := stores D) (fun _ _ _ h hs => h.step hs) ?_ hrun
      exact ⟨Function.update_self .., List.mem_cons_self .., h⟩
    simp only [State.step, hr, hgone.sessions] at ht
    obtain rfl := Option.some.inj ht
    exact Function.update_self ..

end Destroy

/-- No sessions, and no requests. The data of a session counts its visits. -/
def noSessions : State ℕ := ⟨fun _ => none, fun _ => none, []⟩

theorem noSessions_start : noSessions.Start := ⟨fun _ => rfl, fun _ => rfl⟩

/-- A visit creates a session and another one comes with its cookie, and perhaps is answered. -/
def demoVisit (answer : List (Event ℕ)) : List (Event ℕ) :=
  [.request 0 none, .create 0 "sid", .save 0 1, .finish 0, .request 1 (some "sid"), .touch 1] ++
    answer

/-- Both are answered before the session is destroyed. -/
theorem demoVisit_destroyed :
    ∃ s s', (stores ℕ).run noSessions (demoVisit [.save 1 2, .finish 1]) = some s ∧
    s.step (.destroy "sid") = some s' ∧
    ∀ as t t' r, (stores ℕ).run s' as = some t → t.requests r = some (.touch "sid") →
      t.step (.touch r) = some t' → t'.requests r = some .create := by
  refine ⟨_, _, rfl, rfl, (destroy_effective_iff
    ⟨noSessions, demoVisit [.save 1 2, .finish 1], noSessions_start, rfl⟩ rfl).mpr ?_⟩
  intro r session hr
  by_cases h₁ : r = 1
  · subst h₁
    cases hr
  · by_cases h₀ : r = 0
    · subst h₀
      cases hr
    · simp [State.goto, Function.update_of_ne h₁, Function.update_of_ne h₀, noSessions] at hr

/-- The second is answered afterwards: the session is back, with two visits. -/
theorem saved_after_destroy_returns : ∃ s s' t t',
    (stores ℕ).run noSessions (demoVisit []) = some s ∧ s.step (.destroy "sid") = some s' ∧
    (stores ℕ).run s' [.save 1 2, .finish 1, .request 2 (some "sid")] = some t ∧
    t.step (.touch 2) = some t' ∧ t'.requests 2 = some (.handle ⟨"sid", 2, false⟩) :=
  ⟨_, _, _, _, rfl, rfl, rfl, rfl, rfl⟩

end Marketplace.Sessions
