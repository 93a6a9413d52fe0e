import Marketplace.Run
import Marketplace.Slots
import Mathlib.Data.List.Range

/-!
# The publisher

`EventPublisher` of `messaging/publisher.ts` on one confirm channel: any number of calls of
`publishRaw`, the messages they send, and what the broker says of these. A message is named by
its delivery tag, its place among all that were sent.

A call reads the counter of returned messages, sends its message, and waits for the confirms of
all messages that are not confirmed yet, its own among them. What the broker sends meanwhile
is handled as it arrives; the call goes on some time after its wait is over (`resume`), and reads
the counter again.

The counter is shared, so a call may blame itself for the message of another. But it never
misses its own: a return comes before the confirm, and so between the two readings.
-/

namespace Marketplace

namespace Publisher

/-! ## The channel -/

/-- What `publishRaw` sends, with the options it sets. -/
structure Message where
  routingKey : String
  content : List UInt8
  persistent : Bool
  contentType : String
  mandatory : Bool
  messageId : Option String
  type : Option String
  deriving DecidableEq, Repr

/-- The `props` of `publishRaw`. -/
structure Props where
  messageId : Option String
  type : Option String
  throwIfUnroutable : Bool
  deriving DecidableEq, Repr

/-- `basic.ack` or `basic.nack` -/
inductive Confirm where
  | ack
  | nack
  deriving DecidableEq, Repr

/-- What a call is rejected with. -/
inductive PublishError where
  /-- of `publish`, or of `waitForConfirms` -/
  | channelClosed
  /-- of `waitForConfirms` -/
  | nacked
  | unroutable (message : String)
  deriving DecidableEq, Repr

/-- Where a call is. -/
inductive Status where
  /-- it has sent message `tag`, and waits for the confirms of `tags` -/
  | waiting (tag returnedBefore : ℕ) (tags : List ℕ)
  | resolved (tag : ℕ)
  | rejected (error : PublishError)
  deriving DecidableEq, Repr

/-- A call of `publishRaw`. -/
structure Call where
  message : Message
  throwIfUnroutable : Bool
  status : Status
  deriving DecidableEq, Repr

/-- The channel: the counter, the messages with what the broker has said of them, and the
calls. -/
structure Channel where
  returned : ℕ
  sent : List Message
  confirms : ℕ → Option Confirm
  /-- messages that a `basic.return` has come for -/
  returns : ℕ → Bool
  closed : Bool
  calls : ℕ → Option Call

/-- What can happen on the channel. -/
inductive Event where
  /-- somebody calls `publishRaw`, which runs up to its `await` -/
  | publishRaw (c : ℕ) (routingKey : String) (content : List UInt8) (props : Props)
  | basicReturn (tag : ℕ)
  /-- `basic.ack` or `basic.nack`, of one message or of all up to it -/
  | confirm (tag : ℕ) (multiple : Bool) (confirm : Confirm)
  | close
  /-- the wait of a call is over, and it runs to its end -/
  | resume (c : ℕ)
  deriving DecidableEq, Repr

/-- The message of a call of `publishRaw`. -/
def message (routingKey : String) (content : List UInt8) (props : Props) : Message :=
  { routingKey, content
    persistent := true
    contentType := "application/json"
    mandatory := true
    messageId := props.messageId
    type := props.type }

/-- `змаршрутизоване` it was not. -/
def unroutable (routingKey : String) : PublishError :=
  .unroutable ("повідомлення " ++ routingKey ++ " не змаршрутизоване (basic.return)")

namespace Channel

/-- The channel with a call elsewhere. -/
def setCall (s : Channel) (c : ℕ) (call : Call) : Channel :=
  { s with calls := Function.update s.calls c (some call) }

/-- The messages sent so far that are not confirmed. -/
def unconfirmed (s : Channel) : List ℕ :=
  (List.range s.sent.length).filter fun tag => (s.confirms tag).isNone

/-- `waitForConfirms()`, begun when `tags` were not confirmed; `none` while it waits. -/
def waitForConfirms (s : Channel) (tags : List ℕ) : Option (Except PublishError Unit) :=
  if ∀ tag ∈ tags, s.confirms tag = some .ack then some (.ok ())
  else if ∃ tag ∈ tags, s.confirms tag = some .nack then some (.error .nacked)
  else if s.closed then some (.error .channelClosed)
  else none

/-- What the broker confirms. -/
def confirmed (s : Channel) (tag : ℕ) (multiple : Bool) (r : Confirm) (t : ℕ) : Option Confirm :=
  if s.confirms t = none ∧ (t = tag ∨ multiple = true ∧ t < tag) then some r else s.confirms t

/-- How `publishRaw` ends after its wait. -/
def outcome (s : Channel) (call : Call) (tag returnedBefore : ℕ) :
    Except PublishError Unit → Status
  | .error error => .rejected error
  | .ok () =>
    if call.throwIfUnroutable ∧ returnedBefore < s.returned then
      .rejected (unroutable call.message.routingKey)
    else .resolved tag

/-- One event. The broker speaks of messages it has got and not confirmed yet. -/
def step (s : Channel) : Event → Option Channel
  | .publishRaw c routingKey content props =>
    match s.calls c with
    | some _ => none
    | none =>
      let msg := message routingKey content props
      if s.closed then
        some (s.setCall c ⟨msg, props.throwIfUnroutable, .rejected .channelClosed⟩)
      else
        let s' : Channel := { s with sent := s.sent ++ [msg] }
        some (s'.setCall c ⟨msg, props.throwIfUnroutable,
          .waiting s.sent.length s.returned s'.unconfirmed⟩)
  | .basicReturn tag =>
    if tag < s.sent.length ∧ s.confirms tag = none ∧ s.closed = false then
      some { s with returned := s.returned + 1, returns := Function.update s.returns tag true }
    else none
  | .confirm tag multiple r =>
    if tag < s.sent.length ∧ s.confirms tag = none ∧ s.closed = false then
      some { s with confirms := s.confirmed tag multiple r }
    else none
  | .close => some { s with closed := true }
  | .resume c =>
    match s.calls c with
    | some ⟨msg, throws, .waiting tag returnedBefore tags⟩ =>
      (s.waitForConfirms tags).map fun r =>
        s.setCall c ⟨msg, throws,
          s.outcome ⟨msg, throws, .waiting tag returnedBefore tags⟩ tag returnedBefore r⟩
    | _ => none

/-- `EventPublisher.connect()`: nothing has been sent on the channel. -/
structure Start (s : Channel) : Prop where
  returned : s.returned = 0
  sent : s.sent = []
  confirms : ∀ tag, s.confirms tag = none
  returns : ∀ tag, s.returns tag = false
  closed : s.closed = false
  calls : ∀ c, s.calls c = none

end Channel

/-- A publisher and the broker. -/
def channels : System Channel Event := ⟨Channel.Start, Channel.step⟩

/-! ## What a call knows -/

/-- A return is never missed: what a waiting call will see, and what a resolved one has seen. -/
def CallInv (s : Channel) (call : Call) : Prop :=
  match call.status with
  | .waiting tag returnedBefore tags =>
    s.sent[tag]? = some call.message ∧ tag ∈ tags ∧ returnedBefore ≤ s.returned ∧
      (s.returns tag = true → returnedBefore < s.returned)
  | .resolved tag =>
    s.sent[tag]? = some call.message ∧ s.confirms tag = some .ack ∧
      (call.throwIfUnroutable = true → s.returns tag = false)
  | .rejected _ => True

/-- What holds on a channel: nothing is said of messages that were not sent. -/
structure Inv (s : Channel) : Prop where
  unsent : ∀ tag, s.sent.length ≤ tag → s.confirms tag = none ∧ s.returns tag = false
  call : ∀ c call, s.calls c = some call → CallInv s call

section Steps

variable {s s' : Channel} {c : ℕ} {call : Call} {e : Event}

/-- What the channel does not take back: messages and confirms stay, the counter grows, and a
message is returned before it is confirmed, which counts. -/
structure Grows (s s' : Channel) : Prop where
  sent : ∀ (tag : ℕ) (m : Message), s.sent[tag]? = some m → s'.sent[tag]? = some m
  confirms : ∀ tag r, s.confirms tag = some r → s'.confirms tag = some r
  returned : s.returned ≤ s'.returned
  returns : ∀ tag, s'.returns tag = true →
    s.returns tag = true ∨ s.confirms tag = none ∧ s.returned < s'.returned

theorem Grows.setCall : Grows s (s.setCall c call) :=
  ⟨fun _ _ h => h, fun _ _ h => h, le_rfl, fun _ h => .inl h⟩

/-- What a call knows stays true. -/
theorem CallInv.grows (h : CallInv s call) (hg : Grows s s') : CallInv s' call := by
  obtain ⟨m, throws, status⟩ := call
  cases status with
  | waiting tag returnedBefore tags =>
    obtain ⟨hmsg, hmem, hle, hret⟩ := h
    refine ⟨hg.sent tag m hmsg, hmem, hle.trans hg.returned, fun hr => ?_⟩
    rcases hg.returns tag hr with hold | ⟨-, hlt⟩
    · exact (hret hold).trans_le hg.returned
    · exact hle.trans_lt hlt
  | resolved tag =>
    obtain ⟨hmsg, hack, hret⟩ := h
    refine ⟨hg.sent tag m hmsg, hg.confirms tag _ hack, fun ht => ?_⟩
    rw [← Bool.not_eq_true]
    intro hr
    rcases hg.returns tag hr with hold | ⟨hnone, -⟩
    · rw [hret ht] at hold
      cases hold
    · rw [hnone] at hack
      cases hack
  | rejected error => trivial

/-- The end of a wait whose confirms have all come. -/
theorem CallInv.outcome (h : CallInv s call) {tag returnedBefore : ℕ} {tags : List ℕ}
    (hstatus : call.status = .waiting tag returnedBefore tags) {r : Except PublishError Unit}
    (hr : s.waitForConfirms tags = some r) :
    CallInv s ⟨call.message, call.throwIfUnroutable, s.outcome call tag returnedBefore r⟩ := by
  rw [CallInv, hstatus] at h
  obtain ⟨hmsg, hmem, hle, hret⟩ := h
  rcases r with error | _
  · trivial
  · have hacked : ∀ t ∈ tags, s.confirms t = some .ack := by
      unfold Channel.waitForConfirms at hr
      split_ifs at hr with hall hnack hclosed
      · exact hall
      · cases hr
      · cases hr
    unfold Channel.outcome
    dsimp only
    split_ifs with hseen
    · trivial
    · refine ⟨hmsg, hacked tag hmem, fun ht => ?_⟩
      -- had it been returned, the counter would have moved on
      rw [← Bool.not_eq_true]
      exact fun hr => hseen ⟨ht, hret hr⟩

/-- A message that is sent gets the next tag, and is not confirmed. -/
theorem length_mem_unconfirmed (h : Inv s) {msg : Message} :
    s.sent.length ∈ ({ s with sent := s.sent ++ [msg] } : Channel).unconfirmed := by
  simp only [Channel.unconfirmed, List.mem_filter, List.mem_range, List.length_append,
    List.length_singleton, (h.unsent _ le_rfl).1, Option.isNone_none]
  exact ⟨Nat.lt_succ_self _, trivial⟩

/-- **Every event keeps it.** -/
theorem Inv.step (h : Inv s) (hs : s.step e = some s') : Inv s' := by
  cases e with
  | publishRaw c routingKey content props =>
    simp only [Channel.step] at hs
    split at hs
    · cases hs
    · split_ifs at hs with hclosed
      · obtain rfl := Option.some.inj hs
        refine ⟨h.unsent, fun c' call hc => ?_⟩
        rcases Slots.found_cases_some hc with ⟨-, rfl⟩ | ⟨-, hold⟩
        · trivial
        · exact (h.call c' call hold).grows .setCall
      · obtain rfl := Option.some.inj hs
        refine ⟨fun tag htag => ?_, fun c' call hc => ?_⟩
        · refine h.unsent tag ((Nat.le_succ _).trans ?_)
          simpa only [Channel.setCall, List.length_append, List.length_singleton] using htag
        rcases Slots.found_cases_some hc with ⟨-, rfl⟩ | ⟨-, hold⟩
        · refine ⟨List.getElem?_concat_length, length_mem_unconfirmed h, le_rfl, fun hr => ?_⟩
          have hnot : s.returns s.sent.length = true := hr
          rw [(h.unsent _ le_rfl).2] at hnot
          cases hnot
        · refine (h.call c' call hold).grows ⟨fun tag m hm => ?_, fun _ _ hr => hr, le_rfl,
            fun _ hr => .inl hr⟩
          obtain ⟨hlt, -⟩ := List.getElem?_eq_some_iff.mp hm
          exact (List.getElem?_append_left hlt).trans hm
  | basicReturn tag =>
    simp only [Channel.step] at hs
    split_ifs at hs with hok
    obtain rfl := Option.some.inj hs
    refine ⟨fun t ht => ?_, fun c call hc => (h.call c call hc).grows
      ⟨fun _ _ hm => hm, fun _ _ hr => hr, Nat.le_succ _, fun t ht => ?_⟩⟩
    · have hne : t ≠ tag := by
        have htag : s.sent.length ≤ t := ht
        omega
      exact ⟨(h.unsent t ht).1, (Function.update_of_ne hne ..).trans (h.unsent t ht).2⟩
    · by_cases hne : t = tag
      · subst hne
        exact .inr ⟨hok.2.1, Nat.lt_succ_self _⟩
      · exact .inl ((Function.update_of_ne hne ..).symm.trans ht)
  | confirm tag multiple r =>
    simp only [Channel.step] at hs
    split_ifs at hs with hok
    obtain rfl := Option.some.inj hs
    refine ⟨fun t ht => ?_, fun c call hc => (h.call c call hc).grows
      ⟨fun _ _ hm => hm, fun t r' hr' => ?_, le_rfl, fun _ hr => .inl hr⟩⟩
    · have hlt : ¬ (t = tag ∨ multiple = true ∧ t < tag) := by
        have htag : s.sent.length ≤ t := ht
        omega
      refine ⟨?_, (h.unsent t ht).2⟩
      exact (if_neg fun hand => hlt hand.2).trans (h.unsent t ht).1
    · refine (if_neg fun hand => ?_).trans hr'
      rw [hand.1] at hr'
      cases hr'
  | close =>
    obtain rfl := Option.some.inj hs
    exact ⟨h.unsent, fun c call hc => (h.call c call hc).grows
      ⟨fun _ _ hm => hm, fun _ _ hr => hr, le_rfl, fun _ hr => .inl hr⟩⟩
  | resume c =>
    simp only [Channel.step] at hs
    split at hs
    · rename_i msg throws tag returnedBefore tags hc
      obtain ⟨r, hr, rfl⟩ := Option.map_eq_some_iff.mp hs
      refine ⟨h.unsent, fun c' call hc' => ?_⟩
      rcases Slots.found_cases_some hc' with ⟨-, rfl⟩ | ⟨-, hold⟩
      · exact ((h.call c _ hc).outcome rfl hr).grows .setCall
      · exact (h.call c' call hold).grows .setCall
    · cases hs

theorem Channel.Start.inv (h : s.Start) : Inv s where
  unsent := fun tag _ => ⟨h.confirms tag, h.returns tag⟩
  call := fun c call hc => by
    rw [h.calls c] at hc
    cases hc

end Steps

/-- **No wrong success.** When a call that asked for it has resolved, its own message is acked and
was not returned, whatever the other calls and the broker did, before and after. -/
theorem publishRaw_resolves_only_routed {s₀ s : Channel} {es : List Event} (hstart : s₀.Start)
    (hrun : channels.run s₀ es = some s) {c tag : ℕ} {msg : Message}
    (hc : s.calls c = some ⟨msg, true, .resolved tag⟩) :
    s.sent[tag]? = some msg ∧ s.confirms tag = some .ack ∧ s.returns tag = false := by
  have hinv : Inv s :=
    System.Invariant.run (M := channels) (fun _ _ _ h hs => h.step hs) hstart.inv hrun
  obtain ⟨hmsg, hack, hret⟩ := hinv.call c _ hc
  exact ⟨hmsg, hack, hret rfl⟩

/-- Two messages on the way: the first is returned while the second is sent, then both are
acked at once. -/
def demoReturn : List Event :=
  [.publishRaw 0 "nowhere" [] ⟨none, none, true⟩,
    .publishRaw 1 "order.placed" [] ⟨none, none, true⟩, .basicReturn 0,
    .publishRaw 2 "order.placed" [] ⟨none, none, true⟩, .confirm 2 true .ack,
    .resume 0, .resume 1, .resume 2]

/-- A channel on which nothing has been sent. -/
def demoChannel : Channel where
  returned := 0
  sent := []
  confirms := fun _ => none
  returns := fun _ => false
  closed := false
  calls := fun _ => none

/-- The third call resolves, and rightly so. The second fails for the return of the first. -/
theorem demoReturn_resolves_only_routed :
    ∃ s, channels.run demoChannel demoReturn = some s ∧
      s.calls 0 = some ⟨message "nowhere" [] ⟨none, none, true⟩, true,
        .rejected (unroutable "nowhere")⟩ ∧
      s.calls 1 = some ⟨message "order.placed" [] ⟨none, none, true⟩, true,
        .rejected (unroutable "order.placed")⟩ ∧
      s.sent[2]? = some (message "order.placed" [] ⟨none, none, true⟩) ∧
        s.confirms 2 = some .ack ∧ s.returns 2 = false := by
  have hstart : demoChannel.Start :=
    ⟨rfl, rfl, fun _ => rfl, fun _ => rfl, rfl, fun _ => rfl⟩
  have hsome : (channels.run demoChannel demoReturn).any (fun s =>
      decide (s.calls 0 = some ⟨message "nowhere" [] ⟨none, none, true⟩, true,
          .rejected (unroutable "nowhere")⟩) &&
        (decide (s.calls 1 = some ⟨message "order.placed" [] ⟨none, none, true⟩, true,
          .rejected (unroutable "order.placed")⟩) &&
        decide (s.calls 2 = some ⟨message "order.placed" [] ⟨none, none, true⟩, true,
          .resolved 2⟩))) = true := by
    decide +kernel
  obtain ⟨s, hrun, hcalls⟩ := (Option.any_eq_true _ _).mp hsome
  obtain ⟨hfirst, hrest⟩ := Bool.and_eq_true_iff.mp hcalls
  obtain ⟨hsecond, hthird⟩ := Bool.and_eq_true_iff.mp hrest
  exact ⟨s, hrun, of_decide_eq_true hfirst, of_decide_eq_true hsecond,
    publishRaw_resolves_only_routed hstart hrun (of_decide_eq_true hthird)⟩

end Publisher

end Marketplace
