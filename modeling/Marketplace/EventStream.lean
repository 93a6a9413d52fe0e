import Marketplace.OrdersApi

/-!
# What a follower reads

The events of an order, in the order in which they are emitted, are its *history*. The
counter is the length of the history, and the buffer its last hundred events. A follower
has read a contiguous piece of the history; while it is connected, what is on its way to
it reaches to the end (`Reads`).

A connection begins with what the buffer has after the last id that was read. As long as
the buffer has not dropped the event after that one, the next piece begins where the
last one ended.
-/

namespace Marketplace.Api

/-! ## Histories -/

/-- The event of a request. -/
def emitted (s : ApiState) : ApiEvent → List OrderStatusEvent
  | .updateStatus id status ts =>
    match s.getById id with
    | .ok order => [s.orderEvents.event order.id status ts]
    | .error _ => []
  | _ => []

/-- The changes of status, one for each call of `updateStatus` that finds its order. -/
def statusCalls (s : ApiState) : ApiEvent → List (String × OrderStatus)
  | .updateStatus id status _ =>
    match s.getById id with
    | .ok _ => [(id, status)]
    | .error _ => []
  | _ => []

/-- The events of an order along a run. -/
def history (s : ApiState) (as : List ApiEvent) (id : String) : List OrderStatusEvent :=
  (apis.trace emitted s as).filter fun e => e.orderId = id

/-- The events are numbered from one on. -/
def Numbered (h : List OrderStatusEvent) : Prop :=
  h.map OrderStatusEvent.id = List.range' 1 h.length

section Numbered

variable {h r : List OrderStatusEvent} {e : OrderStatusEvent} {k m : ℕ}

theorem Numbered.snoc (hn : Numbered h) (he : e.id = h.length + 1) : Numbered (h ++ [e]) := by
  rw [Numbered, List.map_append, hn, List.length_append, List.map_singleton, he,
    List.length_singleton, List.range'_concat, Nat.one_mul, Nat.add_comm]

theorem Numbered.drop (hn : Numbered h) :
    (h.drop k).map OrderStatusEvent.id = List.range' (k + 1) (h.length - k) := by
  rw [List.map_drop, hn, List.drop_range', Nat.mul_one, Nat.add_comm]

/-- Of a part of the history, what comes after an id. -/
theorem Numbered.filter_drop (hn : Numbered h) (hkm : k ≤ m) :
    (h.drop k).filter (fun e => decide (m < e.id)) = h.drop m := by
  have hsplit : h.drop k = (h.drop k).take (m - k) ++ h.drop m := by
    have hdrop := (List.take_append_drop (m - k) (h.drop k)).symm
    rw [List.drop_drop, Nat.add_sub_cancel' hkm] at hdrop
    exact hdrop
  have hold : ((h.drop k).take (m - k)).filter (fun e => decide (m < e.id)) = [] := by
    rw [List.filter_eq_nil_iff]
    intro e he hlt
    have hid : e.id ∈ ((h.drop k).take (m - k)).map OrderStatusEvent.id := List.mem_map_of_mem he
    have hlt := of_decide_eq_true hlt
    rw [List.map_take, hn.drop] at hid
    rcases Nat.le_total (h.length - k) (m - k) with hle | hle
    · rw [List.take_range'_of_length_le hle] at hid
      have := (List.mem_range'_1.mp hid).2
      omega
    · rw [List.take_range'_of_length_ge hle] at hid
      have := (List.mem_range'_1.mp hid).2
      omega
  have hnew : (h.drop m).filter (fun e => decide (m < e.id)) = h.drop m := by
    rw [List.filter_eq_self]
    intro e he
    have hid : e.id ∈ (h.drop m).map OrderStatusEvent.id := List.mem_map_of_mem he
    rw [hn.drop] at hid
    have := (List.mem_range'_1.mp hid).1
    exact decide_eq_true (by omega)
  rw [hsplit, List.filter_append, hold, hnew, List.nil_append]

/-- The ids of a piece of the history are consecutive. -/
theorem Numbered.piece (hn : Numbered h) (hr : r <+: h.drop m) :
    r.map OrderStatusEvent.id = List.range' (m + 1) r.length := by
  obtain ⟨rest, hrest⟩ := hr
  have htake : r = (h.drop m).take r.length := by
    rw [← hrest, List.take_left]
  have hle : r.length ≤ h.length - m := by
    rw [← List.length_drop, ← hrest, List.length_append]
    exact Nat.le_add_right ..
  have hmap : r.map OrderStatusEvent.id
      = ((h.drop m).map OrderStatusEvent.id).take r.length := by
    rw [← List.map_take, ← htake]
  rw [hmap, hn.drop, List.take_range'_of_length_ge hle]

/-- The last id of a piece of the history. -/
theorem Numbered.last (hn : Numbered h) (hr : r <+: h.drop m) (hne : r ≠ []) :
    r.getLast?.map OrderStatusEvent.id = some (m + r.length) := by
  have hpos : 0 < r.length := List.length_pos_of_ne_nil hne
  rw [← List.getLast?_map, hn.piece hr, List.getLast?_range']
  rw [if_neg (by omega)]
  congr 1
  omega

end Numbered

/-! ## The bus -/

/-- Counters and buffers follow the histories. -/
structure Tracks (hist : String → List OrderStatusEvent) (o : OrderEvents) : Prop where
  counters : ∀ id, o.counters id = (hist id).length
  buffers : ∀ id, o.buffers id = (hist id).drop ((hist id).length - bufferSize)
  numbered : ∀ id, Numbered (hist id)

section Tracks

variable {hist : String → List OrderStatusEvent} {o : OrderEvents} {id : String}
  {status : OrderStatus} {ts : String}

theorem filter_event_self : [o.event id status ts].filter (fun e => decide (e.orderId = id)) =
    [o.event id status ts] :=
  List.filter_cons_of_pos (decide_eq_true rfl)

theorem filter_event_ne {id' : String} (h : id' ≠ id) :
    [o.event id status ts].filter (fun e => decide (e.orderId = id')) = [] :=
  List.filter_cons_of_neg fun heq => h (of_decide_eq_true heq).symm

/-- **Emitting an event** appends it to the history of its order. -/
theorem Tracks.emit (h : Tracks hist o) :
    Tracks (fun id' => hist id' ++ [o.event id status ts].filter fun e => e.orderId = id')
      (o.emitStatusChange id status ts) := by
  refine ⟨?_, ?_, ?_⟩
  · intro id'
    by_cases hid : id' = id
    · subst hid
      rw [filter_event_self, List.length_append, ← h.counters]
      exact Function.update_self ..
    · rw [filter_event_ne hid, List.append_nil, ← h.counters]
      exact Function.update_of_ne hid ..
  · intro id'
    by_cases hid : id' = id
    · subst hid
      -- with the buffer full, its first event makes room
      have hbuffer : (o.emitStatusChange id' status ts).buffers id' =
          if bufferSize < (o.buffers id' ++ [o.event id' status ts]).length then
            (o.buffers id' ++ [o.event id' status ts]).drop 1
          else o.buffers id' ++ [o.event id' status ts] :=
        Function.update_self ..
      have hdrop : o.buffers id' ++ [o.event id' status ts] =
          (hist id' ++ [o.event id' status ts]).drop ((hist id').length - bufferSize) := by
        rw [h.buffers, List.drop_append_of_le_length (Nat.sub_le ..)]
      rw [filter_event_self, hbuffer, hdrop, List.drop_drop, List.length_drop, List.length_append,
        List.length_singleton]
      split_ifs with hfull
      · congr 1
        omega
      · congr 1
        omega
    · rw [filter_event_ne hid, List.append_nil, ← h.buffers]
      exact Function.update_of_ne hid ..
  · intro id'
    by_cases hid : id' = id
    · subst hid
      rw [filter_event_self]
      refine (h.numbered id').snoc ?_
      rw [← h.counters]
      rfl
    · rw [filter_event_ne hid, List.append_nil]
      exact h.numbered id'

/-- **Replay**: as long as the buffer reaches back to the id, it has all that came after. -/
theorem Tracks.missedSince (h : Tracks hist o) {last : ℕ}
    (hreach : o.counters id ≤ last + bufferSize) :
    o.missedSince id last = (hist id).drop last := by
  rw [OrderEvents.missedSince, h.buffers]
  refine (h.numbered id).filter_drop ?_
  rw [h.counters] at hreach
  omega

/-- A client that has read nothing gets the whole buffer. -/
theorem Tracks.missedSince_zero (h : Tracks hist o) :
    o.missedSince id 0 = (hist id).drop ((hist id).length - bufferSize) := by
  rw [OrderEvents.missedSince, h.buffers, List.filter_eq_self]
  intro e he
  have hid : e.id ∈ ((hist id).drop ((hist id).length - bufferSize)).map OrderStatusEvent.id :=
    List.mem_map_of_mem he
  rw [(h.numbered id).drop] at hid
  have := (List.mem_range'_1.mp hid).1
  exact decide_eq_true (by omega)

end Tracks

/-! ## Followers -/

/-- No two followers share a response. -/
structure Alone (s : ApiState) : Prop where
  known : ∀ c f n, s.followers c = some f → f.connection = some n → s.connections n ≠ none
  alone : ∀ c c' f f' n, s.followers c = some f → s.followers c' = some f' →
    f.connection = some n → f'.connection = some n → c = c'

/-- A follower has read a piece of the history, and while it is connected, the rest is on
its way. -/
def Reads (h : List OrderStatusEvent) (connections : ℕ → Option Connection) (f : Follower) : Prop :=
  match f.connection with
  | none => ∃ m, f.received <+: h.drop m
  | some n =>
    ∃ sent m, connections n = some ⟨f.orderId, true, true, sent⟩ ∧ m ≤ h.length - 1 ∧
      f.received ++ sent = h.drop m

/-- Whether connected or not, it has read a piece of the history. -/
theorem Reads.piece {h : List OrderStatusEvent} {connections : ℕ → Option Connection} {f : Follower}
    (hr : Reads h connections f) : ∃ m, f.received <+: h.drop m := by
  rcases hf : f.connection with _ | n
  · rw [Reads, hf] at hr
    exact hr
  · rw [Reads, hf] at hr
    obtain ⟨sent, m, _, _, hm⟩ := hr
    exact ⟨m, hm ▸ List.prefix_append _ _⟩

/-- A step that emits nothing to a follower and does not touch its response. -/
theorem Reads.keep {h : List OrderStatusEvent} {connections connections' : ℕ → Option Connection}
    {f : Follower} (hr : Reads h connections f)
    (hsame : ∀ n, f.connection = some n → connections' n = connections n) :
    Reads h connections' f := by
  rcases hf : f.connection with _ | n
  · rw [Reads, hf] at hr ⊢
    exact hr
  · rw [Reads, hf] at hr ⊢
    obtain ⟨sent, m, hconn, hm⟩ := hr
    exact ⟨sent, m, (hsame n hf).trans hconn, hm⟩

/-- What the invariant of one follower says, with the histories of the run so far. -/
structure Followed (c : ℕ) (hist : String → List OrderStatusEvent) (s : ApiState) : Prop where
  tracks : Tracks hist s.orderEvents
  alone : Alone s
  reads : ∀ f, s.followers c = some f → Reads (hist f.orderId) s.connections f

/-- At every reconnect of the follower, at most a hundred events of its order were emitted
since the last one it has read. -/
def Resumable (c : ℕ) (s : ApiState) (a : ApiEvent) : Prop :=
  ∀ n f last, a = .connect c n → s.followers c = some f → f.lastEventId = some last →
    s.orderEvents.counters f.orderId ≤ last + bufferSize

/-- The same, evaluated. -/
def resumable (c : ℕ) (s : ApiState) : ApiEvent → Bool
  | .connect c' _ => c' ≠ c || (s.followers c).all fun f => f.lastEventId.all fun last =>
      decide (s.orderEvents.counters f.orderId ≤ last + bufferSize)
  | _ => true

section Steps

variable {c : ℕ} {hist : String → List OrderStatusEvent} {s s' : ApiState} {a : ApiEvent}

theorem resumable_of_check : resumable c s a = true → Resumable c s a := by
  rintro h n f last rfl hf hlast
  simpa [resumable, hf, hlast] using h

theorem id_of_getById {id : String} {o : Order} (h : s.getById id = .ok o) : o.id = id := by
  unfold ApiState.getById at h
  split at h
  · rename_i order hfind
    cases h
    exact of_decide_eq_true (List.find?_some (p := fun o : Order => decide (o.id = id)) hfind)
  · cases h

/-- Requests that have nothing to do with events. -/
theorem Followed.frame (h : Followed c hist s) (hevents : s'.orderEvents = s.orderEvents)
    (hconnections : s'.connections = s.connections) (hfollowers : s'.followers = s.followers) :
    Followed c hist s' := by
  refine ⟨?_, ⟨?_, ?_⟩, ?_⟩
  · rw [hevents]
    exact h.tracks
  · rw [hfollowers, hconnections]
    exact h.alone.known
  · rw [hfollowers]
    exact h.alone.alone
  · rw [hfollowers, hconnections]
    exact h.reads

/-- **A change of status** goes to the follower of its order. -/
theorem Followed.emit (h : Followed c hist s) {id : String} (status : OrderStatus) (ts : String)
    (hevents : s'.orderEvents = s.orderEvents.emitStatusChange id status ts)
    (hconnections : s'.connections = s.publish (s.orderEvents.event id status ts))
    (hfollowers : s'.followers = s.followers) :
    Followed c (fun id' => hist id' ++ [s.orderEvents.event id status ts].filter
      fun e => e.orderId = id') s' := by
  refine ⟨?_, ⟨?_, ?_⟩, ?_⟩
  · rw [hevents]
    exact h.tracks.emit
  · rw [hfollowers, hconnections]
    intro c f n hf hn hnone
    refine h.alone.known c f n hf hn ?_
    exact Option.map_eq_none_iff.mp hnone
  · rw [hfollowers]
    exact h.alone.alone
  · rw [hfollowers, hconnections]
    intro f hf
    have hr := h.reads f hf
    rcases hfc : f.connection with _ | n
    · rw [Reads, hfc] at hr ⊢
      obtain ⟨m, hm⟩ := hr
      by_cases hle : m ≤ (hist f.orderId).length
      · refine ⟨m, ?_⟩
        rw [List.drop_append_of_le_length hle]
        exact hm.trans (List.prefix_append _ _)
      · -- a piece beyond the end is empty
        have hnil : f.received = [] := by
          rw [List.drop_eq_nil_of_le (by omega)] at hm
          exact List.prefix_nil.mp hm
        exact ⟨0, hnil ▸ List.nil_prefix⟩
    · rw [Reads, hfc] at hr ⊢
      obtain ⟨sent, m, hconn, hlast, hm⟩ := hr
      have hle : m ≤ (hist f.orderId).length := hlast.trans (Nat.sub_le ..)
      have hnext : ∀ es : List OrderStatusEvent,
          m ≤ (hist f.orderId ++ es).length - 1 := by
        intro es
        rw [List.length_append]
        omega
      by_cases hid : id = f.orderId
      · subst hid
        refine ⟨sent ++ [s.orderEvents.event f.orderId status ts], m, ?_, hnext _, ?_⟩
        · rw [ApiState.publish, hconn, Option.map_some, if_pos ⟨rfl, rfl⟩]
        · rw [filter_event_self, List.drop_append_of_le_length hle, ← hm, List.append_assoc]
      · refine ⟨sent, m, ?_, hnext _, ?_⟩
        · rw [ApiState.publish, hconn, Option.map_some, if_neg fun h => hid h.2]
        · rw [filter_event_ne (Ne.symm hid), List.append_nil]
          exact hm

/-- **A follower moves on**: its response is its own, and those of the others stay. -/
theorem Followed.moved (h : Followed c hist s) {c' : ℕ} {f' : Follower}
    (hevents : s'.orderEvents = s.orderEvents)
    (hfollowers : s'.followers = Function.update s.followers c' (some f'))
    (hmine : ∀ n, f'.connection = some n → s'.connections n ≠ none ∧
      ∀ c'' f, c'' ≠ c' → s.followers c'' = some f → f.connection ≠ some n)
    (hothers : ∀ c'' f n, c'' ≠ c' → s.followers c'' = some f → f.connection = some n →
      s'.connections n = s.connections n)
    (hself : c = c' → Reads (hist f'.orderId) s'.connections f') : Followed c hist s' := by
  have hcases : ∀ c'' f, s'.followers c'' = some f →
      (c'' = c' ∧ f = f') ∨ (c'' ≠ c' ∧ s.followers c'' = some f) := by
    intro c'' f hf
    rw [hfollowers] at hf
    exact Slots.found_cases_some hf
  refine ⟨?_, ⟨?_, ?_⟩, ?_⟩
  · rw [hevents]
    exact h.tracks
  · intro c'' f n hf hn
    rcases hcases c'' f hf with ⟨rfl, rfl⟩ | ⟨hc, hf⟩
    · exact (hmine n hn).1
    · rw [hothers c'' f n hc hf hn]
      exact h.alone.known c'' f n hf hn
  · intro c₁ c₂ f₁ f₂ n hf₁ hf₂ hn₁ hn₂
    rcases hcases c₁ f₁ hf₁ with ⟨rfl, rfl⟩ | ⟨h₁, hf₁⟩
    · rcases hcases c₂ f₂ hf₂ with ⟨rfl, -⟩ | ⟨h₂, hf₂⟩
      · rfl
      · exact absurd hn₂ ((hmine n hn₁).2 c₂ f₂ h₂ hf₂)
    · rcases hcases c₂ f₂ hf₂ with ⟨rfl, rfl⟩ | ⟨h₂, hf₂⟩
      · exact absurd hn₁ ((hmine n hn₂).2 c₁ f₁ h₁ hf₁)
      · exact h.alone.alone c₁ c₂ f₁ f₂ n hf₁ hf₂ hn₁ hn₂
  · intro f hf
    rcases hcases c f hf with ⟨hc, rfl⟩ | ⟨hc, hf⟩
    · exact hself hc
    · exact (h.reads f hf).keep fun n hn => hothers c f n hc hf hn

/-- **A connection begins where the last one ended.** -/
theorem Followed.connects (h : Followed c hist s) {n : ℕ} {f : Follower}
    (hf : s.followers c = some f) (hnone : f.connection = none)
    (hok : Resumable c s (.connect c n)) :
    ∃ m, m ≤ (hist f.orderId).length - 1 ∧
      f.received ++ s.orderEvents.missedSince f.orderId (f.lastEventId.getD 0) =
        (hist f.orderId).drop m := by
  have hr := h.reads f hf
  rw [Reads, hnone] at hr
  obtain ⟨m, hm⟩ := hr
  by_cases hnil : f.received = []
  · refine ⟨(hist f.orderId).length - bufferSize, Nat.sub_le_sub_left (by decide) _, ?_⟩
    rw [Follower.lastEventId, hnil]
    exact h.tracks.missedSince_zero
  · have hlast : f.lastEventId = some (m + f.received.length) :=
      (h.tracks.numbered f.orderId).last hm hnil
    have hreach := hok n f _ rfl hf hlast
    obtain ⟨rest, hrest⟩ := hm
    have hdrop : (hist f.orderId).drop (m + f.received.length) = rest := by
      rw [← List.drop_drop, ← hrest, List.drop_left]
    refine ⟨m, ?_, ?_⟩
    · by_contra hlt
      rw [List.drop_eq_nil_of_le (by omega)] at hrest
      exact hnil (List.append_eq_nil_iff.mp hrest).1
    · rw [hlast, Option.getD_some, h.tracks.missedSince hreach, hdrop, hrest]

/-- A connected follower reads the next event on its way. -/
theorem Followed.receive (h : Followed c hist s) {c' n : ℕ} {user : AuthUser}
    {orderId orderId' : String} {received sent : List OrderStatusEvent} {alive subscribed : Bool}
    {event : OrderStatusEvent} (hf : s.followers c' = some ⟨user, orderId, received, some n⟩)
    (hn : s.connections n = some ⟨orderId', alive, subscribed, event :: sent⟩) :
    Followed c hist { s with
      connections := Function.update s.connections n (some ⟨orderId', alive, subscribed, sent⟩)
      followers := Function.update s.followers c'
        (some ⟨user, orderId, received ++ [event], some n⟩) } := by
  have halone : ∀ c'' f, c'' ≠ c' → s.followers c'' = some f → f.connection ≠ some n :=
    fun c'' f hc hf' hn' => hc (h.alone.alone c'' c' f _ n hf' hf hn' rfl)
  refine Followed.moved h rfl (rfl : _ = Function.update s.followers c' _) ?_ ?_ ?_
  · rintro n' ⟨⟩
    refine ⟨?_, halone⟩
    simp only [Function.update_self]
    exact fun h => by cases h
  · intro c'' f n' hc hf' hn'
    refine Function.update_of_ne ?_ ..
    rintro rfl
    exact halone c'' f hc hf' hn'
  · rintro rfl
    have hr := h.reads _ hf
    obtain ⟨sent', m, hconn, hle, hm⟩ := hr
    obtain ⟨rfl, rfl, rfl, rfl⟩ := Connection.mk.inj (Option.some.inj (hn.symm.trans hconn))
    exact ⟨sent, m, Function.update_self .., hle, by rw [← hm, List.append_assoc]; rfl⟩

/-- A connection breaks, with what is on its way. -/
theorem Followed.disconnect (h : Followed c hist s) {c' n : ℕ} {user : AuthUser} {orderId : String}
    {received : List OrderStatusEvent}
    (hf : s.followers c' = some ⟨user, orderId, received, some n⟩) :
    Followed c hist { s with
      connections := Function.update s.connections n
        ((s.connections n).map fun x => { x with alive := false })
      followers := Function.update s.followers c' (some ⟨user, orderId, received, none⟩) } := by
  refine Followed.moved h rfl (rfl : _ = Function.update s.followers c' _)
    (fun n' hn' => by cases hn') ?_ ?_
  · intro c'' f n' hc hf' hn'
    refine Function.update_of_ne ?_ ..
    rintro rfl
    exact hc (h.alone.alone c'' c' f _ n' hf' hf hn' rfl)
  · rintro rfl
    exact (h.reads _ hf).piece

/-- The server stops writing a response that nobody reads. -/
theorem Followed.close (h : Followed c hist s) {n : ℕ} {orderId : String} {subscribed : Bool}
    {sent : List OrderStatusEvent}
    (hn : s.connections n = some ⟨orderId, false, subscribed, sent⟩) :
    Followed c hist { s with
      connections := Function.update s.connections n (some ⟨orderId, false, false, sent⟩) } := by
  refine ⟨h.tracks, ⟨?_, h.alone.alone⟩, ?_⟩
  · intro c' f n' hf hn'
    by_cases hne : n' = n
    · subst hne
      simp only [Function.update_self]
      exact fun h => by cases h
    · simp only [Function.update_of_ne hne]
      exact h.alone.known c' f n' hf hn'
  · intro f hf
    have hr := h.reads f hf
    refine hr.keep fun n' hn' => Function.update_of_ne ?_ ..
    rintro rfl
    rw [Reads, hn'] at hr
    obtain ⟨sent', m, hconn, -⟩ := hr
    cases hn.symm.trans hconn

/-- A follower connects. -/
theorem Followed.connect (h : Followed c hist s) {c' n : ℕ} {user : AuthUser} {orderId : String}
    {received : List OrderStatusEvent}
    (hf : s.followers c' = some ⟨user, orderId, received, none⟩) (hn : s.connections n = none)
    (hok : Resumable c s (.connect c' n)) :
    Followed c hist { s with
      connections := Function.update s.connections n (some ⟨orderId, true, true,
        s.orderEvents.missedSince orderId
          ((Follower.lastEventId ⟨user, orderId, received, none⟩).getD 0)⟩)
      followers := Function.update s.followers c' (some ⟨user, orderId, received, some n⟩) } := by
  have hfree : ∀ c'' f, s.followers c'' = some f → f.connection ≠ some n :=
    fun c'' f hf' hn' => h.alone.known c'' f n hf' hn' hn
  refine Followed.moved h rfl (rfl : _ = Function.update s.followers c' _) ?_ ?_ ?_
  · rintro n' ⟨⟩
    refine ⟨?_, fun c'' f _ hf' => hfree c'' f hf'⟩
    simp only [Function.update_self]
    exact fun h => by cases h
  · intro c'' f n' _ hf' hn'
    refine Function.update_of_ne ?_ ..
    rintro rfl
    exact hfree c'' f hf' hn'
  · rintro rfl
    obtain ⟨m, hle, hm⟩ := h.connects hf rfl hok
    exact ⟨_, m, Function.update_self .., hle, hm⟩

/-- Somebody begins to follow an order. -/
theorem Followed.follow (h : Followed c hist s) (c' : ℕ) (user : AuthUser) (orderId : String) :
    Followed c hist { s with
      followers := Function.update s.followers c' (some ⟨user, orderId, [], none⟩) } :=
  h.moved rfl rfl (fun n hn => by cases hn) (fun _ _ _ _ _ _ => rfl)
    fun _ => ⟨0, List.nil_prefix⟩

/-- **Every step** keeps what a follower reads in one piece. -/
theorem Followed.step (h : Followed c hist s) (hok : Resumable c s a) (hs : s.step a = some s') :
    Followed c (fun id => hist id ++ (emitted s a).filter fun e => e.orderId = id) s' := by
  have hquiet : emitted s a = [] → Followed c hist s' →
      Followed c (fun id => hist id ++ (emitted s a).filter fun e => e.orderId = id) s' := by
    intro he h'
    simpa only [he, List.filter_nil, List.append_nil] using h'
  cases a with
  | updateStatus id status ts =>
    simp only [ApiState.step, ApiState.updateStatus] at hs
    rcases hget : s.getById id with e | order
    · rw [hget] at hs
      obtain rfl := Option.some.inj hs
      exact hquiet (by simp only [emitted, hget]) h
    · rw [hget] at hs
      obtain rfl := Option.some.inj hs
      simp only [emitted, hget]
      exact h.emit status ts rfl rfl rfl
  | follow c' user orderId =>
    refine hquiet rfl ?_
    simp only [ApiState.step] at hs
    split at hs
    · rename_i hnone
      obtain rfl := Option.some.inj hs
      exact h.follow c' user orderId
    · cases hs
  | connect c' n =>
    refine hquiet rfl ?_
    simp only [ApiState.step] at hs
    split at hs
    · rename_i user orderId received hf hn
      simp only [ApiState.events] at hs
      rcases howned : s.getOwned orderId user with e | order
      · rw [howned] at hs
        obtain rfl := Option.some.inj hs
        exact h
      · rw [howned] at hs
        obtain rfl := Option.some.inj hs
        exact h.connect hf hn hok
    · cases hs
  | receive c' =>
    refine hquiet rfl ?_
    simp only [ApiState.step] at hs
    split at hs
    · rename_i user orderId received n hf
      split at hs
      · rename_i orderId' alive subscribed event sent hn
        obtain rfl := Option.some.inj hs
        exact h.receive hf hn
      · cases hs
    · cases hs
  | disconnect c' =>
    refine hquiet rfl ?_
    simp only [ApiState.step] at hs
    split at hs
    · rename_i user orderId received n hf
      obtain rfl := Option.some.inj hs
      exact h.disconnect hf
    · cases hs
  | close n =>
    refine hquiet rfl ?_
    simp only [ApiState.step] at hs
    split at hs
    · rename_i orderId subscribed sent hn
      obtain rfl := Option.some.inj hs
      exact h.close hn
    · cases hs
  | createOrder r createdAt =>
    refine hquiet rfl ?_
    simp only [ApiState.step] at hs
    split_ifs at hs
    obtain rfl := Option.some.inj hs
    exact h.frame rfl rfl rfl
  | createProduct name priceCents =>
    simp only [ApiState.step] at hs
    split_ifs at hs
    obtain rfl := Option.some.inj hs
    exact hquiet rfl (h.frame rfl rfl rfl)
  | walkOrders w user | walkProducts w =>
    refine hquiet rfl ?_
    simp only [ApiState.step] at hs
    split at hs
    · obtain rfl := Option.some.inj hs
      exact h.frame rfl rfl rfl
    · cases hs
  | listOrders w limit | listProducts w limit =>
    refine hquiet rfl ?_
    simp only [ApiState.step] at hs
    split at hs
    · split_ifs at hs
      obtain ⟨walk, -, rfl⟩ := Option.map_eq_some_iff.mp hs
      exact h.frame rfl rfl rfl
    · cases hs

end Steps

/-! ## Along a run -/

theorem history_snoc {s t : ApiState} {as : List ApiEvent} {a : ApiEvent}
    (h : apis.run s as = some t) (id : String) :
    history s (as ++ [a]) id = history s as id ++ (emitted t a).filter fun e => e.orderId = id := by
  rw [history, System.trace_snoc h, List.filter_append]
  rfl

/-- Before the first request there are no events and no followers. -/
theorem ApiState.Start.followed {s : ApiState} (h : s.Start) (c : ℕ) :
    Followed c (history s []) s where
  tracks := ⟨h.counters, h.buffers, fun _ => rfl⟩
  alone :=
    { known := fun c f n hf => by rw [h.followers c] at hf; cases hf
      alone := fun c c' f f' n hf => by rw [h.followers c] at hf; cases hf }
  reads := fun f hf => by rw [h.followers c] at hf; cases hf

theorem followed_run {s₀ s : ApiState} {as : List ApiEvent} (h₀ : s₀.Start)
    (hrun : apis.run s₀ as = some s) {c : ℕ} (hok : apis.Meets (Resumable c) s₀ as) :
    Followed c (history s₀ as) s := by
  refine System.run_induction
    (J := fun as s => apis.Meets (Resumable c) s₀ as → Followed c (history s₀ as) s)
    (fun _ => h₀.followed c) ?_ hrun hok
  intro as t a t' hrun ih hs hok
  obtain ⟨hbefore, hlast⟩ := System.Meets.snoc hok
  have hstep := (ih hbefore).step (hlast t hrun) hs
  have hhist : history s₀ (as ++ [a]) =
      fun id => history s₀ as id ++ (emitted t a).filter fun e => e.orderId = id :=
    funext fun id => history_snoc hrun id
  rwa [hhist]

/-- The events of an order are those of its calls of `updateStatus`, one for one. -/
theorem history_status (s : ApiState) (as : List ApiEvent) (id : String) :
    (history s as id).map (fun e => (e.orderId, e.status)) =
      (apis.trace statusCalls s as).filter fun x => x.1 = id := by
  have hcalls : statusCalls = fun s a => (emitted s a).map fun e => (e.orderId, e.status) := by
    funext s a
    cases a with
    | updateStatus id status ts =>
      simp only [statusCalls, emitted]
      rcases hget : s.getById id with e | order
      · rfl
      · simp only [List.map_singleton, OrderEvents.event, id_of_getById hget]
    | _ => rfl
  rw [hcalls, System.trace_map, history, List.filter_map]
  rfl

/-- **The stream of an order has no gaps and no duplicates**, over all connections of a
client. -/
theorem stream_gap_free {s₀ s : ApiState} {as : List ApiEvent} (h₀ : s₀.Start)
    (hrun : apis.run s₀ as = some s) {c : ℕ} (hok : apis.Meets (Resumable c) s₀ as)
    {f : Follower} (hf : s.followers c = some f) :
    (∃ m, f.received.map OrderStatusEvent.id = List.range' (m + 1) f.received.length) ∧
      (∀ e ∈ f.received, e.orderId = f.orderId ∧ 1 ≤ e.id ∧
        ((apis.trace statusCalls s₀ as).filter fun x => x.1 = f.orderId)[e.id - 1]? =
          some (f.orderId, e.status)) ∧
      ∀ n, f.connection = some n → ∃ x m, s.connections n = some x ∧
        (f.received ++ x.sent).map OrderStatusEvent.id =
          List.range' (m + 1) (s.orderEvents.counters f.orderId - m) ∧
        (x.sent = [] → f.lastEventId.getD 0 = s.orderEvents.counters f.orderId) := by
  have hfollowed := followed_run h₀ hrun hok
  have hn := hfollowed.tracks.numbered f.orderId
  have hreads := hfollowed.reads f hf
  obtain ⟨m, hm⟩ := hreads.piece
  refine ⟨⟨m, hn.piece hm⟩, ?_, ?_⟩
  · intro e he
    have hmem : e ∈ history s₀ as f.orderId := List.mem_of_mem_drop (hm.subset he)
    have howner : e.orderId = f.orderId := of_decide_eq_true (List.mem_filter.mp hmem).2
    obtain ⟨i, hi, hget⟩ := List.getElem_of_mem hmem
    -- the event at index `i` has the number `i + 1`
    have hid : e.id = i + 1 := by
      have hids : (history s₀ as f.orderId).map OrderStatusEvent.id =
          List.range' 1 (history s₀ as f.orderId).length := hn
      have hi' := congrArg (fun l => l[i]?) hids
      simp only [List.getElem?_map, List.getElem?_eq_getElem hi, hget, Option.map_some,
        List.getElem?_range' hi] at hi'
      have := Option.some.inj hi'
      omega
    refine ⟨howner, by omega, ?_⟩
    rw [← history_status, List.getElem?_map, hid, Nat.add_sub_cancel, List.getElem?_eq_getElem hi,
      hget, Option.map_some, howner]
  · intro n hn'
    rw [Reads, hn'] at hreads
    obtain ⟨sent, m, hconn, hle, hm⟩ := hreads
    refine ⟨_, m, hconn, ?_, ?_⟩
    · rw [hm, hn.drop, hfollowed.tracks.counters]
    · rintro rfl
      rw [List.append_nil] at hm
      rw [hfollowed.tracks.counters]
      by_cases hnil : f.received = []
      · rw [Follower.lastEventId, hnil]
        rw [hnil] at hm
        have hlen := congrArg List.length hm
        rw [List.length_drop, List.length_nil] at hlen
        change 0 = _
        omega
      · have hpre : f.received <+: (history s₀ as f.orderId).drop m := hm ▸ List.prefix_rfl
        have hlen := congrArg List.length hm
        rw [List.length_drop] at hlen
        have hpos := List.length_pos_of_ne_nil hnil
        have hlast : f.lastEventId = some (m + f.received.length) := hn.last hpre hnil
        rw [hlast, Option.getD_some]
        omega

/-- The buyer of the first order. -/
def demoBuyer : AuthUser := ⟨"u1", .customer, "j", 0, "f"⟩

/-- A client that misses two events between its connections, one of them on its way. -/
def demoReconnect : List ApiEvent :=
  [.updateStatus "o1" .packed "t1", .follow 0 demoBuyer "o1", .connect 0 0, .receive 0,
    .updateStatus "o2" .packed "t2", .updateStatus "o1" .shipped "t3", .disconnect 0, .close 0,
    .updateStatus "o1" .delivered "t4", .connect 0 1, .receive 0, .receive 0]

theorem demoReconnect_gap_free :
    ∃ s, apis.run initial demoReconnect = some s ∧ ∃ f, s.followers 0 = some f ∧
      f.received.map OrderStatusEvent.id = [1, 2, 3] ∧
      ((∃ m, f.received.map OrderStatusEvent.id = List.range' (m + 1) f.received.length) ∧
        (∀ e ∈ f.received, e.orderId = f.orderId ∧ 1 ≤ e.id ∧
          ((apis.trace statusCalls initial demoReconnect).filter
            fun x => x.1 = f.orderId)[e.id - 1]? = some (f.orderId, e.status)) ∧
        ∀ n, f.connection = some n → ∃ x m, s.connections n = some x ∧
          (f.received ++ x.sent).map OrderStatusEvent.id =
            List.range' (m + 1) (s.orderEvents.counters f.orderId - m) ∧
          (x.sent = [] → f.lastEventId.getD 0 = s.orderEvents.counters f.orderId)) := by
  have hsome : (apis.run initial demoReconnect).any (fun s =>
      decide ((s.followers 0).map (fun f => f.received.map OrderStatusEvent.id) =
        some [1, 2, 3])) = true := by
    decide +kernel
  have hchecks : apis.checks (resumable 0) initial demoReconnect = true := by decide +kernel
  have hok : apis.Meets (Resumable 0) initial demoReconnect :=
    System.Meets.of_checks (fun _ _ => resumable_of_check) hchecks
  obtain ⟨s, hrun, hs⟩ := (Option.any_eq_true _ _).mp hsome
  obtain ⟨f, hf, hids⟩ := Option.map_eq_some_iff.mp (of_decide_eq_true hs)
  exact ⟨s, hrun, f, hf, hids, stream_gap_free initial_start hrun hok hf⟩

end Marketplace.Api
