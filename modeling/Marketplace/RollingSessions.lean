import Marketplace.Sessions
import Marketplace.Texts

/-!
# Rolling sessions

`SessionStore` with its ttls: a key says when it ends, and `SET` and `GETEX` set that
moment again. So a session lives as long as no two commands on it are a ttl apart, and
what it holds is what was written last. That is what `Held` says, of the commands alone; it
knows no keys. `touch_finds_held` compares the two, and `stores_run` forgets the clock:
without it the store is the one of `Sessions.lean`.

All processes that share the Redis are in one state; nothing of a session is in a
process, so a restart only ends requests (`finish`). A reply that is lost is a command
after which the request ends.
-/

namespace Marketplace.RollingSessions

open Sessions (RequestSession RequestPc)

universe u

/-- `SessionStore`: its ttl, which `EX` wants to be positive, and its prefix. -/
structure SessionStore where
  ttlSec : ℕ
  keyPrefix : Option String
  ttl_pos : 0 < ttlSec

namespace SessionStore

variable (store : SessionStore)

/-- `key` -/
def key (sid : String) : String := store.keyPrefix.getD "sess:" ++ sid

/-- The ttl in ms. -/
def ttlMs : ℕ := store.ttlSec * 1000

variable {store}

@[simp] theorem key_inj {sid sid' : String} : store.key sid = store.key sid' ↔ sid = sid' :=
  String.append_right_inj _

end SessionStore

/-! ## The store -/

/-- What a key holds, and when its ttl ends, in ms. -/
structure Entry (D : Type u) where
  data : D
  expireAt : ℕ
  deriving DecidableEq

/-- What a command does to a session. -/
inductive Effect (D : Type u) where
  /-- `SET … EX` of `create` and `save` -/
  | wrote (data : D)
  /-- `GETEX … EX` of `touch` -/
  | touched
  /-- `DEL` of `destroy` -/
  | deleted
  deriving DecidableEq

/-- A command, and when Redis ran it. -/
structure Command (D : Type u) where
  sid : String
  time : ℕ
  effect : Effect D
  /-- the request it is for; `destroy` is no request's -/
  request : Option ℕ
  deriving DecidableEq

/-- Redis, and the requests. -/
structure State (D : Type u) where
  keys : String → Option (Entry D)
  /-- the clock of Redis, in ms -/
  clock : ℕ
  requests : ℕ → Option (RequestPc D)
  /-- ids that somebody has used already -/
  known : List String
  /-- the commands so far, the last one first -/
  log : List (Command D)

/-- What can happen. -/
inductive Event (D : Type u) where
  /-- a request with this session cookie -/
  | request (r : ℕ) (cookie : Option String)
  | touch (r : ℕ)
  /-- `create` with the bytes that `randomBytes(24)` gives -/
  | create (r : ℕ) (bytes : List UInt8)
  | save (r : ℕ) (data : D)
  /-- the request ends: answered, failed, or lost with its process -/
  | finish (r : ℕ)
  | destroy (sid : String)
  /-- time passes -/
  | tick (ms : ℕ)
  /-- Redis deletes a key whose ttl has ended -/
  | expire (sid : String)
  deriving DecidableEq

section Store

variable {D : Type u} (store : SessionStore)

namespace State

/-- The state with a request elsewhere. -/
def goto (s : State D) (r : ℕ) (pc : RequestPc D) : State D :=
  { s with requests := Function.update s.requests r (some pc) }

/-- What a command finds at a session: nothing once the ttl has passed. -/
def find (s : State D) (sid : String) : Option (Entry D) :=
  (s.keys (store.key sid)).filter fun e => decide (s.clock ≤ e.expireAt)

/-- `SET key data EX ttl`. -/
def set (s : State D) (request : Option ℕ) (sid : String) (data : D) : State D :=
  { s with
    keys := Function.update s.keys (store.key sid) (some ⟨data, s.clock + store.ttlMs⟩)
    log := ⟨sid, s.clock, .wrote data, request⟩ :: s.log }

/-- `GETEX key EX ttl`. -/
def getex (s : State D) (request : Option ℕ) (sid : String) : State D × Option D :=
  let found := s.find store sid
  ({ s with
      keys := Function.update s.keys (store.key sid)
        (found.map fun e => ⟨e.data, s.clock + store.ttlMs⟩)
      log := ⟨sid, s.clock, .touched, request⟩ :: s.log },
    found.map Entry.data)

/-- `DEL key`. -/
def del (s : State D) (sid : String) : State D :=
  { s with
    keys := Function.update s.keys (store.key sid) none
    log := ⟨sid, s.clock, .deleted, none⟩ :: s.log }

/-- What the middleware does with the reply of `touch`. -/
def touched (sid : String) : Option D → RequestPc D
  | some data => .handle ⟨sid, data, false⟩
  | none => .create

/-- A request that was touched is about the same session, or none. -/
theorem touched_about {sid sid' : String} {found : Option D}
    (h : (touched sid found).about = some sid') : sid' = sid := by
  rcases found with _ | data
  · cases h
  · exact (Option.some.inj h).symm

theorem touched_isNew {sid : String} {found : Option D} {session : RequestSession D}
    (h : touched sid found = .handle session) : session.isNew = false := by
  rcases found with _ | data
  · cases h
  · obtain rfl := RequestPc.handle.inj h
    rfl

variable [Inhabited D]

/-- One event. -/
def step (s : State D) : Event D → Option (State D)
  | .request r cookie =>
    match s.requests r with
    | none => some { s.goto r (RequestPc.ofCookie cookie) with known := cookie.toList ++ s.known }
    | some _ => none
  | .touch r =>
    match s.requests r with
    | some (.touch sid) =>
      let done := s.getex store (some r) sid
      some (done.1.goto r (touched sid done.2))
    | _ => none
  | .create r bytes =>
    match s.requests r with
    | some .create =>
      let sid := Base64Url.encode bytes
      -- nobody has seen an id that was just drawn
      if bytes.length ≠ 24 ∨ s.known.contains sid = true then none
      else some { (s.set store (some r) sid default).goto r (.handle ⟨sid, default, true⟩) with
        known := sid :: s.known }
    | _ => none
  | .save r data =>
    match s.requests r with
    | some (.handle session) => some (s.set store (some r) session.id data)
    | _ => none
  | .finish r =>
    match s.requests r with
    | some .ended | none => none
    | some _ => some (s.goto r .ended)
  | .destroy sid => some { s.del store sid with known := sid :: s.known }
  | .tick ms => some { s with clock := s.clock + ms }
  | .expire sid =>
    if (s.keys (store.key sid)).any fun e => decide (e.expireAt ≤ s.clock) then
      some { s with keys := Function.update s.keys (store.key sid) none }
    else none

/-- Before the first request. -/
structure Start (s : State D) : Prop where
  keys : ∀ sid, s.keys (store.key sid) = none
  requests : ∀ r, s.requests r = none
  log : s.log = []

/-- The commands on a session, the last one first. -/
def on (s : State D) (sid : String) : List (Command D) := s.log.filter fun c => decide (c.sid = sid)

end State

/-- The store and its requests. -/
def rolling (D : Type u) [Inhabited D] : System (State D) (Event D) :=
  ⟨State.Start store, State.step store⟩

/-! ## What a session holds -/

/-- What a session holds at some moment, said of the commands on it, the last one first: `data`
was written last, and from then on there was a command soon enough after each command.
`soon t now` is what soon enough means. -/
inductive Held (soon : ℕ → ℕ → Prop) (data : D) : ℕ → List (Command D) → Prop where
  | wrote {c : Command D} {cs : List (Command D)} {now : ℕ} (heff : c.effect = .wrote data)
      (hsoon : soon c.time now) : Held soon data now (c :: cs)
  | touched {c : Command D} {cs : List (Command D)} {now : ℕ} (heff : c.effect = .touched)
      (hsoon : soon c.time now) (h : Held soon data c.time cs) : Held soon data now (c :: cs)

/-- No later than a ttl after. -/
def SessionStore.inTime (t now : ℕ) : Prop := now ≤ t + store.ttlMs

/-- Earlier than a ttl after. At the very end of its ttl a key is there or not. -/
def SessionStore.early (t now : ℕ) : Prop := now < t + store.ttlMs

section Held

variable {store} {s s' : State D} {cs : List (Command D)} {c : Command D} {data : D}
  {now now' : ℕ} {soon : ℕ → ℕ → Prop} {sid : String} {v : Option (Entry D)}

theorem Held.earlier (hsoon : ∀ t, soon t now → soon t now') (h : Held soon data now cs) :
    Held soon data now' cs := by
  cases h with
  | wrote heff hs => exact .wrote heff (hsoon _ hs)
  | touched heff hs hheld => exact .touched heff (hsoon _ hs) hheld

/-- It holds one thing at most. -/
theorem Held.unique {soon' : ℕ → ℕ → Prop} {data' : D} (h : Held soon data now cs)
    (h' : Held soon' data' now' cs) : data = data' := by
  induction h generalizing now' with
  | wrote heff =>
    cases h' with
    | wrote heff' => exact Effect.wrote.inj (heff.symm.trans heff')
    | touched heff' => cases heff.symm.trans heff'
  | touched heff _ _ ih =>
    cases h' with
    | wrote heff' => cases heff.symm.trans heff'
    | touched _ _ hheld => exact ih hheld

theorem Held.inTime_of_le (h : Held store.inTime data now cs) (hle : now' ≤ now) :
    Held store.inTime data now' cs :=
  h.earlier fun _ => hle.trans

/-- What was deleted last holds nothing. -/
theorem not_held_of_deleted (heff : c.effect = .deleted) : ¬ Held soon data now (c :: cs) := by
  intro h
  cases h with
  | wrote heff' => cases heff.symm.trans heff'
  | touched heff' => cases heff.symm.trans heff'

/-- The keys agree with the commands. -/
structure Inv (store : SessionStore) (s : State D) : Prop where
  /-- a key holds what its session holds until the end of the ttl -/
  sound : ∀ sid e, s.keys (store.key sid) = some e → Held store.inTime e.data e.expireAt (s.on sid)
  /-- a session that holds something from now on has a key until then -/
  complete : ∀ sid data now, s.clock ≤ now → Held store.early data now (s.on sid) →
    ∃ e, s.keys (store.key sid) = some e ∧ e.data = data ∧ now < e.expireAt

theorem State.on_cons_self (h : s'.log = c :: s.log) : s'.on c.sid = c :: s.on c.sid := by
  simp [State.on, h]

theorem State.on_cons_of_ne (h : s'.log = c :: s.log) (hne : sid ≠ c.sid) :
    s'.on sid = s.on sid := by
  simp [State.on, h, hne.symm]

/-- **A command** is about its own session only. -/
theorem Inv.command (h : Inv store s) (hlog : s'.log = c :: s.log) (hclock : s'.clock = s.clock)
    (hkeys : s'.keys = Function.update s.keys (store.key c.sid) v)
    (hsound : ∀ e, v = some e → Held store.inTime e.data e.expireAt (c :: s.on c.sid))
    (hcomplete : ∀ data now, s.clock ≤ now → Held store.early data now (c :: s.on c.sid) →
      ∃ e, v = some e ∧ e.data = data ∧ now < e.expireAt) : Inv store s' := by
  constructor
  · intro sid e he
    rw [hkeys] at he
    rcases Slots.found_cases he with ⟨hsid, hv⟩ | ⟨hsid, hold⟩
    · obtain rfl := SessionStore.key_inj.mp hsid
      rw [State.on_cons_self hlog]
      exact hsound e hv
    · have hne : sid ≠ c.sid := fun heq => hsid (congrArg store.key heq)
      rw [State.on_cons_of_ne hlog hne]
      exact h.sound sid e hold
  · intro sid data now hnow hheld
    rw [hclock] at hnow
    rw [hkeys]
    by_cases hsid : sid = c.sid
    · subst hsid
      rw [State.on_cons_self hlog] at hheld
      rw [Function.update_self]
      exact hcomplete data now hnow hheld
    · rw [State.on_cons_of_ne hlog hsid] at hheld
      rw [Function.update_of_ne fun heq => hsid (SessionStore.key_inj.mp heq)]
      exact h.complete sid data now hnow hheld

theorem Inv.set (h : Inv store s) (request : Option ℕ) (sid : String) (data : D) :
    Inv store (s.set store request sid data) := by
  refine h.command rfl rfl rfl ?_ ?_
  · intro e he
    obtain rfl := Option.some.inj he
    exact .wrote rfl (Nat.le_refl _)
  · intro data' now _ hheld
    cases hheld with
    | wrote heff hsoon => exact ⟨_, rfl, Effect.wrote.inj heff, hsoon⟩
    | touched heff => cases heff

/-- `touch` finds what the session holds. -/
theorem Inv.find (h : Inv store s) {e : Entry D} (he : s.find store sid = some e) :
    Held store.inTime e.data s.clock (s.on sid) := by
  obtain ⟨hkey, hlive⟩ := (Option.filter_eq_some_iff).mp he
  exact (h.sound sid e hkey).inTime_of_le (of_decide_eq_true hlive)

theorem Inv.find_of_held (h : Inv store s) (hheld : Held store.early data s.clock (s.on sid)) :
    ∃ e, s.find store sid = some e ∧ e.data = data := by
  obtain ⟨e, he, hdata, hlive⟩ := h.complete sid data s.clock (Nat.le_refl _) hheld
  exact ⟨e, Option.filter_eq_some_iff.mpr ⟨he, decide_eq_true hlive.le⟩, hdata⟩

theorem Inv.getex (h : Inv store s) (request : Option ℕ) (sid : String) :
    Inv store (s.getex store request sid).1 := by
  refine h.command rfl rfl rfl ?_ ?_
  · intro e he
    obtain ⟨e', he', rfl⟩ := Option.map_eq_some_iff.mp he
    have hheld : Held store.inTime e'.data s.clock (s.on sid) := h.find he'
    exact .touched rfl (Nat.le_refl _) hheld
  · intro data' now _ hheld
    cases hheld with
    | wrote heff => cases heff
    | touched _ hsoon hheld =>
      obtain ⟨e, he, hdata⟩ := h.find_of_held hheld
      exact ⟨⟨e.data, s.clock + store.ttlMs⟩, by rw [he]; rfl, hdata, hsoon⟩

theorem Inv.del (h : Inv store s) (sid : String) : Inv store (s.del store sid) := by
  refine h.command rfl rfl rfl ?_ ?_
  · intro e he
    cases he
  · intro data now _ hheld
    exact absurd hheld (not_held_of_deleted rfl)

/-- Keys, clock and commands are all it is about. -/
theorem Inv.of_eq (h : Inv store s) (hkeys : s'.keys = s.keys) (hclock : s.clock ≤ s'.clock)
    (hlog : s'.log = s.log) : Inv store s' := by
  have hon : ∀ sid, s'.on sid = s.on sid := by
    intro sid
    rw [State.on, State.on, hlog]
  constructor
  · intro sid e he
    rw [hon]
    exact h.sound sid e (hkeys ▸ he)
  · intro sid data now hnow hheld
    rw [hkeys]
    rw [hon] at hheld
    exact h.complete sid data now (hclock.trans hnow) hheld

theorem Inv.expire (h : Inv store s)
    (hended : (s.keys (store.key sid)).any (fun e => decide (e.expireAt ≤ s.clock)) = true) :
    Inv store { s with keys := Function.update s.keys (store.key sid) none } := by
  constructor
  · intro sid' e he
    rcases Slots.found_cases he with ⟨-, hnone⟩ | ⟨-, hold⟩
    · cases hnone
    · exact h.sound sid' e hold
  · intro sid' data now hnow hheld
    obtain ⟨e, he, hdata, hlive⟩ := h.complete sid' data now hnow hheld
    refine ⟨e, ?_, hdata, hlive⟩
    have hne : store.key sid' ≠ store.key sid := by
      intro heq
      rw [heq] at he
      rw [he] at hended
      have hle : e.expireAt ≤ s.clock := of_decide_eq_true hended
      exact absurd (hle.trans hnow) (Nat.not_le.mpr hlive)
    exact (Function.update_of_ne hne ..).trans he

variable [Inhabited D]

/-- **One step.** -/
theorem Inv.step {a : Event D} (h : Inv store s) (hs : s.step store a = some s') :
    Inv store s' := by
  cases a with
  | request r cookie =>
    simp only [State.step] at hs
    split at hs
    · obtain rfl := Option.some.inj hs
      exact h.of_eq rfl (Nat.le_refl _) rfl
    · cases hs
  | touch r =>
    simp only [State.step] at hs
    split at hs
    · rename_i sid _
      obtain rfl := Option.some.inj hs
      exact (h.getex (some r) sid).of_eq rfl (Nat.le_refl _) rfl
    · cases hs
  | create r bytes =>
    simp only [State.step] at hs
    split at hs
    · split_ifs at hs
      obtain rfl := Option.some.inj hs
      exact (h.set (some r) (Base64Url.encode bytes) default).of_eq rfl (Nat.le_refl _) rfl
    · cases hs
  | save r data =>
    simp only [State.step] at hs
    split at hs
    · rename_i session _
      obtain rfl := Option.some.inj hs
      exact h.set (some r) session.id data
    · cases hs
  | finish r =>
    simp only [State.step] at hs
    split at hs
    · cases hs
    · cases hs
    · obtain rfl := Option.some.inj hs
      exact h.of_eq rfl (Nat.le_refl _) rfl
  | destroy sid =>
    obtain rfl := Option.some.inj hs
    exact (h.del sid).of_eq rfl (Nat.le_refl _) rfl
  | tick ms =>
    obtain rfl := Option.some.inj hs
    exact h.of_eq rfl (Nat.le_add_right ..) rfl
  | expire sid =>
    simp only [State.step] at hs
    split_ifs at hs with hended
    obtain rfl := Option.some.inj hs
    exact h.expire hended

theorem inv_reachable (hs : (rolling store D).Reachable s) : Inv store s := by
  refine System.Invariant.reachable (M := rolling store D) (fun _ _ _ h hs => h.step hs) ?_ hs
  intro s hstart
  constructor
  · intro sid e he
    cases (hstart.keys sid).symm.trans he
  · intro sid data now _ hheld
    rw [State.on, hstart.log] at hheld
    cases hheld

/-- **What `touch` finds** is what the session holds: what was written last, as long as no
silence was longer than the ttl. When it finds nothing the middleware begins a new session,
and then some silence took a ttl at least, or the session was destroyed, or never was. -/
theorem touch_finds_held {r : ℕ} (hs : (rolling store D).Reachable s)
    (hr : s.requests r = some (.touch sid)) : ∃ s', s.step store (.touch r) = some s' ∧
    ((∃ data, s'.requests r = some (.handle ⟨sid, data, false⟩) ∧
        Held store.inTime data s.clock (s.on sid)) ∨
      s'.requests r = some .create ∧ ∀ data, ¬ Held store.early data s.clock (s.on sid)) := by
  have hinv := inv_reachable hs
  simp only [State.step, hr, State.getex]
  refine ⟨_, rfl, ?_⟩
  rcases hfind : s.find store sid with _ | e
  · refine .inr ⟨Function.update_self .., fun data hheld => ?_⟩
    obtain ⟨e, he, -⟩ := hinv.find_of_held hheld
    cases hfind.symm.trans he
  · exact .inl ⟨e.data, Function.update_self .., hinv.find hfind⟩

end Held

/-! ## Without the clock -/

section Forget

variable {store} {s s' : State D} {sid : String}

/-- The state as it is seen without the clock: a key whose ttl has passed is not there. -/
def State.forget (store : SessionStore) (s : State D) : Sessions.State D :=
  ⟨fun sid => (s.find store sid).map Entry.data, s.requests, s.known⟩

/-- Every id there is a key for, or a request is about, was seen. -/
structure Seen (store : SessionStore) (s : State D) : Prop where
  keys : ∀ sid e, s.keys (store.key sid) = some e → sid ∈ s.known
  requests : ∀ r pc, s.requests r = some pc → ∀ sid, pc.about = some sid → sid ∈ s.known

theorem Seen.goto (h : Seen store s) {r : ℕ} {pc : RequestPc D}
    (hpc : ∀ sid, pc.about = some sid → sid ∈ s.known) : Seen store (s.goto r pc) :=
  ⟨h.keys, fun _ _ => Slots.forall_found h.requests fun _ hy => Option.some.inj hy ▸ hpc⟩

theorem Seen.set (h : Seen store s) (request : Option ℕ) (data : D) (hsid : sid ∈ s.known) :
    Seen store (s.set store request sid data) := by
  refine ⟨fun sid' e he => ?_, h.requests⟩
  rcases Slots.found_cases he with ⟨heq, -⟩ | ⟨-, hold⟩
  · rw [SessionStore.key_inj.mp heq]
    exact hsid
  · exact h.keys sid' e hold

theorem Seen.more (h : Seen store s) (ids : List String) :
    Seen store { s with known := ids ++ s.known } :=
  ⟨fun sid e he => List.mem_append_right _ (h.keys sid e he),
    fun r pc hr sid hsid => List.mem_append_right _ (h.requests r pc hr sid hsid)⟩

/-- Writing a key that is there already, or taking one away, shows no new id. -/
theorem Seen.update (h : Seen store s) (v : Option (Entry D)) {log : List (Command D)}
    (hv : v.isSome = true → (s.keys (store.key sid)).isSome = true) :
    Seen store { s with keys := Function.update s.keys (store.key sid) v, log := log } := by
  refine ⟨fun sid' e he => ?_, h.requests⟩
  rcases Slots.found_cases he with ⟨heq, hv'⟩ | ⟨-, hold⟩
  · obtain rfl := SessionStore.key_inj.mp heq
    obtain ⟨e', he'⟩ := Option.isSome_iff_exists.mp (hv (hv' ▸ rfl))
    exact h.keys sid' e' he'
  · exact h.keys sid' e hold

/-- To write a key that is alive, or to take one away, is seen. -/
theorem forget_update (sid : String) (v : Option (Entry D)) (log : List (Command D))
    (hv : ∀ e, v = some e → s.clock ≤ e.expireAt) :
    State.forget store { s with keys := Function.update s.keys (store.key sid) v, log := log } =
      { s.forget store with
        sessions := Function.update (s.forget store).sessions sid (v.map Entry.data) } := by
  simp only [State.forget, State.find]
  congr 1
  funext sid'
  by_cases hsid : sid' = sid
  · subst hsid
    rw [Function.update_self, Function.update_self]
    rcases v with _ | e
    · rfl
    · rw [Option.filter_some, if_pos (decide_eq_true (hv e rfl))]
  · rw [Function.update_of_ne hsid, Function.update_of_ne]
    exact fun heq => hsid (SessionStore.key_inj.mp heq)

theorem forget_set (request : Option ℕ) (sid : String) (data : D) :
    (s.set store request sid data).forget store =
      { s.forget store with
        sessions := Function.update (s.forget store).sessions sid (some data) } := by
  refine forget_update sid (some ⟨data, s.clock + store.ttlMs⟩) _ fun e he => ?_
  obtain rfl := Option.some.inj he
  exact Nat.le_add_right ..

/-- `GETEX` gives a session time, which is not seen. -/
theorem forget_getex (request : Option ℕ) (sid : String) :
    (s.getex store request sid).1.forget store = s.forget store := by
  refine (forget_update sid _ _ fun e he => ?_).trans ?_
  · obtain ⟨e', -, rfl⟩ := Option.map_eq_some_iff.mp he
    exact Nat.le_add_right ..
  · have hsame : (s.forget store).sessions sid =
        ((s.find store sid).map fun e => (⟨e.data, s.clock + store.ttlMs⟩ : Entry D)).map
          Entry.data := by
      rw [Option.map_map]
      rfl
    rw [← hsame, Function.update_eq_self]

variable [Inhabited D]

theorem Seen.step {a : Event D} (h : Seen store s) (hs : s.step store a = some s') :
    Seen store s' := by
  cases a with
  | request r cookie =>
    simp only [State.step] at hs
    split at hs
    · obtain rfl := Option.some.inj hs
      refine (h.more cookie.toList).goto fun sid hsid => ?_
      rcases cookie with _ | c
      · cases hsid
      · rw [RequestPc.ofCookie] at hsid
        split_ifs at hsid
        · cases hsid
        · obtain rfl := Option.some.inj hsid
          exact List.mem_cons_self ..
    · cases hs
  | touch r =>
    simp only [State.step] at hs
    split at hs
    · rename_i sid hr
      obtain rfl := Option.some.inj hs
      have hget : Seen store (s.getex store (some r) sid).1 := by
        refine h.update _ fun hv => ?_
        rw [Option.isSome_map] at hv
        obtain ⟨e, he⟩ := Option.isSome_iff_exists.mp hv
        exact Option.isSome_iff_exists.mpr ⟨e, (Option.filter_eq_some_iff.mp he).1⟩
      refine hget.goto fun sid' hsid' => ?_
      rw [State.touched_about hsid']
      exact h.requests r _ hr sid rfl
    · cases hs
  | create r bytes =>
    simp only [State.step] at hs
    split at hs
    · split_ifs at hs
      obtain rfl := Option.some.inj hs
      have hnew : Seen store { s with known := Base64Url.encode bytes :: s.known } :=
        h.more [Base64Url.encode bytes]
      have hset := hnew.set (some r) default (List.mem_cons_self ..)
      refine hset.goto fun sid' hsid' => ?_
      obtain rfl := Option.some.inj hsid'
      exact List.mem_cons_self ..
    · cases hs
  | save r data =>
    simp only [State.step] at hs
    split at hs
    · rename_i session hr
      obtain rfl := Option.some.inj hs
      exact h.set (some r) data (h.requests r _ hr session.id rfl)
    · cases hs
  | finish r =>
    simp only [State.step] at hs
    split at hs
    · cases hs
    · cases hs
    · obtain rfl := Option.some.inj hs
      exact h.goto fun sid hsid => by cases hsid
  | destroy sid =>
    obtain rfl := Option.some.inj hs
    exact (h.update none fun hv => by cases hv).more [sid]
  | tick ms =>
    obtain rfl := Option.some.inj hs
    exact ⟨h.keys, h.requests⟩
  | expire sid =>
    simp only [State.step] at hs
    split_ifs at hs
    obtain rfl := Option.some.inj hs
    exact h.update none fun hv => by cases hv

theorem seen_reachable (hs : (rolling store D).Reachable s) : Seen store s := by
  refine System.Invariant.reachable (M := rolling store D) (fun _ _ _ h hs => h.step hs) ?_ hs
  intro s hstart
  refine ⟨fun sid e he => ?_, fun r pc hr => ?_⟩
  · cases (hstart.keys sid).symm.trans he
  · cases (hstart.requests r).symm.trans hr

/-- Several ttls end. -/
theorem run_expire (sids : List String) (t : Sessions.State D) :
    (Sessions.stores D).run t (sids.map .expire) =
      some { t with
        sessions := fun sid => if sids.contains sid then none else t.sessions sid } := by
  induction sids generalizing t with
  | nil => simp
  | cons a sids ih =>
    have hstep : (Sessions.stores D).step t (.expire a) =
        some { t with sessions := Function.update t.sessions a none } := rfl
    rw [List.map_cons, System.run_cons, hstep, Option.bind_some, ih]
    congr 2
    funext sid
    by_cases hsid : sid = a
    · simp [hsid]
    · simp [hsid]

/-- What an event is without the clock: a tick ends some ttls. -/
def State.plain (store : SessionStore) (s : State D) : Event D → List (Sessions.Event D)
  | .request r cookie => [.request r cookie]
  | .touch r => [.touch r]
  | .create r bytes => [.create r (Base64Url.encode bytes)]
  | .save r data => [.save r data]
  | .finish r =>
    match s.requests r with
    | some (.handle _) => [.finish r]
    | _ => [.fail r]
  | .destroy sid => [.destroy sid]
  | .tick ms => (s.known.filter fun sid => (s.keys (store.key sid)).any fun e =>
      decide (e.expireAt < s.clock + ms)).map .expire
  | .expire sid => [.expire sid]

theorem run_one {t t' : Sessions.State D} {a : Sessions.Event D} (h : t.step a = some t') :
    (Sessions.stores D).run t [a] = some t' := by
  have hstep : (Sessions.stores D).step t a = some t' := h
  rw [System.run_cons, hstep, Option.bind_some, System.run_nil]

/-- As time passes, the keys vanish whose ttl has passed. -/
theorem forget_tick (h : Seen store s) (ms : ℕ) :
    (Sessions.stores D).run (s.forget store) (s.plain store (.tick ms)) =
      some (State.forget store { s with clock := s.clock + ms }) := by
  rw [State.plain, run_expire]
  congr 2
  funext sid
  simp only [State.forget, State.find]
  rcases hkey : s.keys (store.key sid) with _ | e
  · simp
  · have hknown := h.keys sid e hkey
    by_cases hdead : e.expireAt < s.clock + ms
    · simp [hkey, hknown, hdead]
    · have hlive : s.clock + ms ≤ e.expireAt := Nat.not_lt.mp hdead
      have hlive' : s.clock ≤ e.expireAt := by omega
      simp [Option.filter_some, hkey, hdead, hlive, hlive']

/-- **One step** is a run without the clock. -/
theorem step_forget {a : Event D} (h : Seen store s) (hs : s.step store a = some s') :
    (Sessions.stores D).run (s.forget store) (s.plain store a) = some (s'.forget store) := by
  cases a with
  | request r cookie =>
    simp only [State.step] at hs
    split at hs
    · rename_i hr
      obtain rfl := Option.some.inj hs
      refine run_one ?_
      simp only [Sessions.State.step, State.forget, hr]
      rfl
    · cases hs
  | touch r =>
    simp only [State.step] at hs
    split at hs
    · rename_i sid hr
      obtain rfl := Option.some.inj hs
      refine run_one ?_
      have hgoto (pc : RequestPc D) :
          State.forget store ((s.getex store (some r) sid).1.goto r pc) =
            ((s.getex store (some r) sid).1.forget store).goto r pc := rfl
      have hreq : (s.forget store).requests r = some (.touch sid) := hr
      rw [hgoto, forget_getex]
      simp only [Sessions.State.step, hreq]
      rcases hfind : s.find store sid with _ | e
      all_goals simp only [State.getex, State.forget, hfind, Option.map_some, Option.map_none]
      all_goals rfl
    · cases hs
  | create r bytes =>
    simp only [State.step] at hs
    split at hs
    · rename_i hr
      split_ifs at hs with hnew
      obtain rfl := Option.some.inj hs
      obtain ⟨hlength, hknown⟩ := not_or.mp hnew
      have hne : Base64Url.encode bytes ≠ "" := by
        refine Base64Url.encode_ne_empty ?_
        rintro rfl
        exact hlength (by decide)
      have hfresh : ¬ (Base64Url.encode bytes = "" ∨ Base64Url.encode bytes ∈ s.known) := by
        rintro (heq | hmem)
        · exact hne heq
        · exact hknown (List.contains_iff_mem.mpr hmem)
      have hreq : (s.forget store).requests r = some .create := hr
      have hseen : ¬ (Base64Url.encode bytes = "" ∨
          Base64Url.encode bytes ∈ (s.forget store).known) := hfresh
      refine run_one ?_
      simp only [Sessions.State.step, hreq, if_neg hseen]
      have hshape (sid : String) : State.forget store
          { (s.set store (some r) sid default).goto r (.handle ⟨sid, default, true⟩) with
            known := sid :: s.known } =
          { ((s.set store (some r) sid default).forget store).goto r
              (.handle ⟨sid, default, true⟩) with known := sid :: s.known } := rfl
      rw [hshape, forget_set]
      rfl
    · cases hs
  | save r data =>
    simp only [State.step] at hs
    split at hs
    · rename_i session hr
      obtain rfl := Option.some.inj hs
      have hreq : (s.forget store).requests r = some (.handle session) := hr
      refine run_one ?_
      simp only [Sessions.State.step, hreq, forget_set]
    · cases hs
  | finish r =>
    simp only [State.step] at hs
    split at hs
    · cases hs
    · cases hs
    · rename_i pc hpc hr
      obtain rfl := Option.some.inj hs
      cases pc with
      | touch sid | create | handle session =>
        simp only [State.plain, hr]
        refine run_one ?_
        simp only [Sessions.State.step, State.forget, hr]
        rfl
      | ended => exact absurd rfl hpc
  | destroy sid =>
    obtain rfl := Option.some.inj hs
    have hshape : State.forget store { s.del store sid with known := sid :: s.known } =
        { (s.del store sid).forget store with known := sid :: s.known } := rfl
    have hdel : (s.del store sid).forget store = { s.forget store with
        sessions := Function.update (s.forget store).sessions sid none } :=
      forget_update sid none _ fun e he => by cases he
    refine run_one ?_
    rw [hshape, hdel]
    rfl
  | tick ms =>
    obtain rfl := Option.some.inj hs
    exact forget_tick h ms
  | expire sid =>
    simp only [State.step] at hs
    split_ifs at hs
    obtain rfl := Option.some.inj hs
    refine run_one ?_
    rw [forget_update (s := s) sid none s.log fun e he => by cases he]
    rfl

/-- **Without the clock the store is the plain one**: the same events in the same order, with
some ttls that end as time passes, are a run of it to the same sessions and requests. -/
theorem stores_run {as : List (Event D)} (hs : (rolling store D).Reachable s)
    (hrun : (rolling store D).run s as = some s') :
    (Sessions.stores D).run (s.forget store)
      ((rolling store D).trace (State.plain store) s as) = some (s'.forget store) := by
  induction as generalizing s with
  | nil =>
    obtain rfl := Option.some.inj hrun
    rfl
  | cons a as ih =>
    obtain ⟨s₁, hstep, hrest⟩ := System.run_cons_eq_some hrun
    have hfirst := step_forget (seen_reachable hs) hstep
    simp only [System.trace, hstep, Option.map_some, Option.getD_some]
    rw [System.run_append, hfirst]
    exact ih (hs.step hstep) hrest

end Forget

end Store

/-! ## A session that is left alone -/

/-- The store of the demo: a ttl of 20 s. -/
def demoStore : SessionStore := ⟨20, none, by decide⟩

/-- No sessions, and no requests. The data of a session counts its visits. -/
def noKeys : State ℕ := ⟨fun _ => none, 0, fun _ => none, [], []⟩

theorem noKeys_start : noKeys.Start demoStore := ⟨fun _ => rfl, fun _ => rfl, rfl⟩

/-- A visit, and a long silence. -/
def demoSilence : List (Event ℕ) :=
  [.request 0 none, .create 0 (List.replicate 24 7), .save 0 1, .finish 0, .tick 20001]

/-- Without the clock, the session ends by itself. -/
theorem demoSilence_forget : ∃ s, (rolling demoStore ℕ).run noKeys demoSilence = some s ∧
    (Sessions.stores ℕ).run (noKeys.forget demoStore)
      ([.request 0 none, .create 0 (Base64Url.encode (List.replicate 24 7)), .save 0 1,
        .finish 0] ++ [.expire (Base64Url.encode (List.replicate 24 7))]) =
      some (s.forget demoStore) := by
  have htrace : (rolling demoStore ℕ).trace (State.plain demoStore) noKeys demoSilence =
      [.request 0 none, .create 0 (Base64Url.encode (List.replicate 24 7)), .save 0 1,
        .finish 0] ++ [.expire (Base64Url.encode (List.replicate 24 7))] := by
    decide +kernel
  have hsome : ((rolling demoStore ℕ).run noKeys demoSilence).isSome = true := by decide +kernel
  obtain ⟨s, hs⟩ := Option.isSome_iff_exists.mp hsome
  refine ⟨s, hs, ?_⟩
  rw [← htrace]
  exact stores_run ⟨noKeys, [], noKeys_start, rfl⟩ hs

end Marketplace.RollingSessions
