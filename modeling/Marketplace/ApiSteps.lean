import Marketplace.CursorWalk
import Marketplace.Slots

/-!
# What one request does

Every event around the API, with what has to hold before it and the state after it
(`ApiStep`). What follows for all states that a run reaches (`ApiState.Kept`):

* an id of an order that does not exist has neither events nor a counter;
* the response of a connected follower writes the events of its order, and no other follower
  reads it;
* whoever is connected may see the order.
-/

namespace Marketplace.Api

/-- The event and the state after it. -/
inductive ApiStep (s : ApiState) : ApiEvent → ApiState → Prop
  | createOrder (r : CreateRequest) (createdAt : String)
      (hroom : s.orders.length < maxLength) :
      ApiStep s (.createOrder r createdAt) (s.create r.body.items r.user.id createdAt)
  | updateStatus (id : String) (status : OrderStatus) (ts : String) (order : Order)
      (hfound : s.getById id = .ok order) :
      ApiStep s (.updateStatus id status ts) { s with
        orders := s.setStatus id status
        orderEvents := s.orderEvents.emitStatusChange order.id status ts
        connections := s.publish (s.orderEvents.event order.id status ts) }
  | statusRefused (id : String) (status : OrderStatus) (ts : String) (e : ApiError)
      (hmissing : s.getById id = .error e) : ApiStep s (.updateStatus id status ts) s
  | createProduct (name : String) (priceCents : ℤ) :
      ApiStep s (.createProduct name priceCents) (s.createProduct name priceCents)
  | walkOrders (w : ℕ) (user : AuthUser) (hfree : s.orderWalks w = none) :
      ApiStep s (.walkOrders w user) { s with
        orderWalks := Function.update s.orderWalks w (some ⟨user, [], .going none⟩) }
  | listOrders (w limit : ℕ) (x : OrderWalk) (walk : Walk Order) (hx : s.orderWalks w = some x)
      (hwalk : x.walk.request (s.visible x.user) limit = some walk) :
      ApiStep s (.listOrders w limit) { s with
        orderWalks := Function.update s.orderWalks w (some { x with walk }) }
  | walksProducts (a : ApiEvent) (walks : ℕ → Option (Walk Product))
      (ha : (∃ w, a = .walkProducts w) ∨ ∃ w limit, a = .listProducts w limit) :
      ApiStep s a { s with productWalks := walks }
  | follow (c : ℕ) (user : AuthUser) (orderId : String) (hfree : s.followers c = none) :
      ApiStep s (.follow c user orderId) { s with
        followers := Function.update s.followers c (some ⟨user, orderId, [], none⟩) }
  | connect (c n : ℕ) (f : Follower) (order : Order) (hf : s.followers c = some f)
      (hidle : f.connection = none) (hfree : s.connections n = none)
      (howned : s.getOwned f.orderId f.user = .ok order) :
      ApiStep s (.connect c n) { s with
        connections := Function.update s.connections n (some ⟨f.orderId, true, true,
          s.orderEvents.missedSince f.orderId (f.lastEventId.getD 0)⟩)
        followers := Function.update s.followers c (some { f with connection := some n }) }
  | connectRefused (c n : ℕ) (f : Follower) (e : ApiError) (hf : s.followers c = some f)
      (hidle : f.connection = none) (hrefused : s.getOwned f.orderId f.user = .error e) :
      ApiStep s (.connect c n) s
  | receive (c n : ℕ) (f : Follower) (x : Connection) (event : OrderStatusEvent)
      (sent : List OrderStatusEvent) (hf : s.followers c = some f) (hn : f.connection = some n)
      (hx : s.connections n = some x) (hsent : x.sent = event :: sent) :
      ApiStep s (.receive c) { s with
        connections := Function.update s.connections n (some { x with sent })
        followers := Function.update s.followers c
          (some { f with received := f.received ++ [event] }) }
  | disconnect (c n : ℕ) (f : Follower) (hf : s.followers c = some f)
      (hn : f.connection = some n) :
      ApiStep s (.disconnect c) { s with
        connections := Function.update s.connections n
          ((s.connections n).map fun x => { x with alive := false })
        followers := Function.update s.followers c (some { f with connection := none }) }
  | close (n : ℕ) (x : Connection) (hx : s.connections n = some x) (hdead : x.alive = false) :
      ApiStep s (.close n) { s with
        connections := Function.update s.connections n (some { x with subscribed := false }) }

section Steps

variable {s s' : ApiState} {a : ApiEvent}

/-- **Inversion** of a step. -/
theorem apiStep_of_step (hs : s.step a = some s') : ApiStep s a s' := by
  cases a with
  | createOrder r createdAt =>
    simp only [ApiState.step] at hs
    split_ifs at hs with hok
    obtain rfl := Option.some.inj hs
    exact .createOrder r createdAt hok.2
  | updateStatus id status ts =>
    simp only [ApiState.step, ApiState.updateStatus] at hs
    rcases hget : s.getById id with e | order
    · rw [hget] at hs
      obtain rfl := Option.some.inj hs
      exact .statusRefused id status ts e hget
    · rw [hget] at hs
      obtain rfl := Option.some.inj hs
      exact .updateStatus id status ts order hget
  | createProduct name priceCents =>
    simp only [ApiState.step] at hs
    split_ifs at hs
    obtain rfl := Option.some.inj hs
    exact .createProduct name priceCents
  | walkOrders w user =>
    simp only [ApiState.step] at hs
    split at hs
    · rename_i hfree
      obtain rfl := Option.some.inj hs
      exact .walkOrders w user hfree
    · cases hs
  | listOrders w limit =>
    simp only [ApiState.step] at hs
    split at hs
    · rename_i x hx
      split_ifs at hs
      obtain ⟨walk, hwalk, rfl⟩ := Option.map_eq_some_iff.mp hs
      exact .listOrders w limit x walk hx hwalk
    · cases hs
  | walkProducts w =>
    simp only [ApiState.step] at hs
    split at hs
    · obtain rfl := Option.some.inj hs
      exact .walksProducts _ _ (.inl ⟨w, rfl⟩)
    · cases hs
  | listProducts w limit =>
    simp only [ApiState.step] at hs
    split at hs
    · split_ifs at hs
      obtain ⟨walk, -, rfl⟩ := Option.map_eq_some_iff.mp hs
      exact .walksProducts _ _ (.inr ⟨w, limit, rfl⟩)
    · cases hs
  | follow c user orderId =>
    simp only [ApiState.step] at hs
    split at hs
    · rename_i hfree
      obtain rfl := Option.some.inj hs
      exact .follow c user orderId hfree
    · cases hs
  | connect c n =>
    simp only [ApiState.step, ApiState.events] at hs
    split at hs
    · rename_i user orderId received hf hn
      rcases howned : s.getOwned orderId user with e | order
      · rw [howned] at hs
        obtain rfl := Option.some.inj hs
        exact .connectRefused c n _ e hf rfl howned
      · rw [howned] at hs
        obtain rfl := Option.some.inj hs
        exact .connect c n _ order hf rfl hn howned
    · cases hs
  | receive c =>
    simp only [ApiState.step] at hs
    split at hs
    · rename_i user orderId received n hf
      split at hs
      · rename_i orderId' alive subscribed event sent hn
        obtain rfl := Option.some.inj hs
        exact .receive c n _ _ event sent hf rfl hn rfl
      · cases hs
    · cases hs
  | disconnect c =>
    simp only [ApiState.step] at hs
    split at hs
    · rename_i user orderId received n hf
      obtain rfl := Option.some.inj hs
      exact .disconnect c n _ hf rfl
    · cases hs
  | close n =>
    simp only [ApiState.step] at hs
    split at hs
    · rename_i orderId subscribed sent hn
      obtain rfl := Option.some.inj hs
      exact .close n _ hn rfl
    · cases hs

/-! ## What every run keeps -/

/-- Who may see an order: its owner, and an admin. -/
def ApiState.Allowed (s : ApiState) (user : AuthUser) (id : String) : Prop :=
  user.role = .admin ∨ (id, user.id) ∈ s.owners

/-- What is kept of events and followers. -/
structure ApiState.Kept (s : ApiState) : Prop where
  ids : s.Ids
  /-- nothing is stored under an id that no order has -/
  quiet : ∀ id, (∀ o ∈ s.orders, o.id ≠ id) →
    s.orderEvents.buffers id = [] ∧ s.orderEvents.counters id = 0
  /-- the response of a follower is alive, subscribed, and of its order -/
  streams : ∀ c f n, s.followers c = some f → f.connection = some n →
    ∃ sent, s.connections n = some ⟨f.orderId, true, true, sent⟩
  /-- no two followers share one -/
  alone : ∀ c c' f f' n, s.followers c = some f → s.followers c' = some f' →
    f.connection = some n → f'.connection = some n → c = c'
  allowed : ∀ c f, s.followers c = some f → f.connection ≠ none → s.Allowed f.user f.orderId

theorem mem_owners {id owner : String} :
    (id, owner) ∈ s.owners ↔ ∃ o ∈ s.orders, o.id = id ∧ o.buyerId = owner := by
  simp only [ApiState.owners, List.mem_map, Prod.mk.injEq]

theorem getById_mem {id : String} {o : Order} (h : s.getById id = .ok o) :
    o ∈ s.orders ∧ o.id = id := by
  unfold ApiState.getById at h
  split at h
  · rename_i order hfind
    cases h
    exact ⟨List.mem_of_find?_eq_some hfind, of_decide_eq_true (List.find?_some
      (p := fun o : Order => decide (o.id = id)) hfind)⟩
  · cases h

/-- Whom `getOwned` lets see an order. -/
theorem getOwned_allowed {id : String} {user : AuthUser} {o : Order}
    (h : s.getOwned id user = .ok o) : s.Allowed user id := by
  simp only [ApiState.getOwned] at h
  rcases hget : s.getById id with e | order
  · rw [hget] at h
    cases h
  · rw [hget] at h
    obtain ⟨hmem, hid⟩ := getById_mem hget
    by_cases hadmin : user.role = .admin
    · exact .inl hadmin
    · refine .inr (mem_owners.mpr ⟨order, hmem, hid, ?_⟩)
      by_contra hne
      simp [bind, Except.bind, throw, throwThe, MonadExceptOf.throw, hne, hadmin] at h

theorem ApiState.Allowed.grow {user : AuthUser} {id : String} (h : s.Allowed user id)
    (hgrow : s.owners <+: s'.owners) : s'.Allowed user id :=
  h.imp_right fun hmem => hgrow.subset hmem

/-- A step that touches neither followers nor what is written to them. -/
theorem ApiState.Kept.frame (h : s.Kept) (hids : s'.Ids) (hgrow : s.owners <+: s'.owners)
    (hevents : s'.orderEvents = s.orderEvents) (hconnections : s'.connections = s.connections)
    (hfollowers : s'.followers = s.followers) : s'.Kept where
  ids := hids
  quiet id hid := by
    rw [hevents]
    refine h.quiet id fun o ho hoid => ?_
    have hmem : (id, o.buyerId) ∈ s'.owners := hgrow.subset (mem_owners.mpr ⟨o, ho, hoid, rfl⟩)
    obtain ⟨o', ho', hoid', -⟩ := mem_owners.mp hmem
    exact hid o' ho' hoid'
  streams := by
    rw [hfollowers, hconnections]
    exact h.streams
  alone := by
    rw [hfollowers]
    exact h.alone
  allowed c f hf hconn := by
    rw [hfollowers] at hf
    exact (h.allowed c f hf hconn).grow hgrow

/-- **A follower moves on**, and its response with it; those of the others stay. -/
theorem ApiState.Kept.moved (h : s.Kept) {c : ℕ} {f' : Follower}
    {connections' : ℕ → Option Connection}
    (hmine : ∀ n, f'.connection = some n →
      (∃ sent, connections' n = some ⟨f'.orderId, true, true, sent⟩) ∧
        ∀ c' f, c' ≠ c → s.followers c' = some f → f.connection ≠ some n)
    (hothers : ∀ c' f n, c' ≠ c → s.followers c' = some f → f.connection = some n →
      connections' n = s.connections n)
    (hallowed : f'.connection ≠ none → s.Allowed f'.user f'.orderId) :
    ApiState.Kept { s with
      connections := connections'
      followers := Function.update s.followers c (some f') } where
  ids := ⟨h.ids.orders, h.ids.products, h.ids.lengths⟩
  quiet := h.quiet
  streams c' f n hf hn := by
    rcases Slots.found_cases_some hf with ⟨-, rfl⟩ | ⟨hc, hf⟩
    · exact (hmine n hn).1
    · obtain ⟨sent, hsent⟩ := h.streams c' f n hf hn
      exact ⟨sent, (hothers c' f n hc hf hn).trans hsent⟩
  alone c₁ c₂ f₁ f₂ n hf₁ hf₂ hn₁ hn₂ := by
    rcases Slots.found_cases_some hf₁ with ⟨rfl, rfl⟩ | ⟨h₁, hold₁⟩
    · rcases Slots.found_cases_some hf₂ with ⟨rfl, -⟩ | ⟨h₂, hold₂⟩
      · rfl
      · exact absurd hn₂ ((hmine n hn₁).2 c₂ f₂ h₂ hold₂)
    · rcases Slots.found_cases_some hf₂ with ⟨rfl, rfl⟩ | ⟨-, hold₂⟩
      · exact absurd hn₁ ((hmine n hn₂).2 c₁ f₁ h₁ hold₁)
      · exact h.alone c₁ c₂ f₁ f₂ n hold₁ hold₂ hn₁ hn₂
  allowed c' f hf hconn := by
    rcases Slots.found_cases_some hf with ⟨-, rfl⟩ | ⟨-, hf⟩
    · exact hallowed hconn
    · exact h.allowed c' f hf hconn

/-- The others do not read the response of a follower. -/
theorem ApiState.Kept.ne_connection (h : s.Kept) {c c' n : ℕ} {f f' : Follower}
    (hf : s.followers c = some f) (hn : f.connection = some n) (hc : c' ≠ c)
    (hf' : s.followers c' = some f') : f'.connection ≠ some n :=
  fun hn' => hc (h.alone c' c f' f n hf' hf hn' hn)

/-- What the bus does to the response of a follower. -/
theorem publish_stream {event : OrderStatusEvent} {n : ℕ} {id : String}
    {sent : List OrderStatusEvent} (hn : s.connections n = some ⟨id, true, true, sent⟩) :
    s.publish event n =
      some ⟨id, true, true, sent ++ if event.orderId = id then [event] else []⟩ := by
  rw [ApiState.publish, hn, Option.map_some]
  split_ifs with hself hid hid
  · rfl
  · exact absurd hself.2 hid
  · exact absurd ⟨rfl, hid⟩ hself
  · rw [List.append_nil]

/-- **Every step** keeps it. -/
theorem kept_invariant : apis.Invariant ApiState.Kept := by
  intro s a s' h hs
  have hids := ids_invariant s a s' h.ids hs
  have hgrow := (step_frame hs).1.grows.1
  cases apiStep_of_step hs with
  | createOrder _ _ _ | createProduct _ _ | walkOrders _ _ _ | listOrders _ _ _ _ _ _
    | walksProducts _ _ _ => exact h.frame hids hgrow rfl rfl rfl
  | statusRefused _ _ _ _ _ | connectRefused _ _ _ _ _ _ _ => exact h
  | updateStatus id status ts order hfound =>
    obtain ⟨hmem, hid⟩ := getById_mem hfound
    refine ⟨hids, ?_, ?_, h.alone, fun c f hf hconn => (h.allowed c f hf hconn).grow hgrow⟩
    · intro id' hid'
      have howners : (order.id, order.buyerId) ∈ s.owners := mem_owners.mpr ⟨order, hmem, rfl, rfl⟩
      obtain ⟨o, ho, hoid, -⟩ := mem_owners.mp (hgrow.subset howners)
      have hne : id' ≠ order.id := fun heq => hid' o ho (hoid.trans heq.symm)
      have hold : ∀ o ∈ s.orders, o.id ≠ id' := by
        intro o ho hoid
        have hmem' : (id', o.buyerId) ∈ s.owners := mem_owners.mpr ⟨o, ho, hoid, rfl⟩
        obtain ⟨o', ho', hoid', -⟩ := mem_owners.mp (hgrow.subset hmem')
        exact hid' o' ho' hoid'
      obtain ⟨hbuffer, hcounter⟩ := h.quiet id' hold
      exact ⟨(Function.update_of_ne hne ..).trans hbuffer,
        (Function.update_of_ne hne ..).trans hcounter⟩
    · intro c f n hf hn
      obtain ⟨sent, hsent⟩ := h.streams c f n hf hn
      exact ⟨_, publish_stream hsent⟩
  | follow c user orderId hfree =>
    exact h.moved (fun n hn => by cases hn) (fun _ _ _ _ _ _ => rfl) fun hne => absurd rfl hne
  | connect c n f order hf hidle hfree howned =>
    have hnew : ∀ c' f', s.followers c' = some f' → f'.connection ≠ some n := by
      intro c' f' hf' hn'
      obtain ⟨sent, hsent⟩ := h.streams c' f' n hf' hn'
      cases hfree.symm.trans hsent
    refine h.moved ?_ ?_ fun _ => getOwned_allowed howned
    · rintro n' ⟨⟩
      exact ⟨⟨_, Function.update_self ..⟩, fun c' f' _ hf' => hnew c' f' hf'⟩
    · intro c' f' n' _ hf' hn'
      refine Function.update_of_ne ?_ ..
      rintro rfl
      exact hnew c' f' hf' hn'
  | receive c n f x event sent hf hn hx hsent =>
    have hallowed := h.allowed c f hf fun hnone => by cases hn.symm.trans hnone
    refine h.moved ?_ ?_ fun _ => hallowed
    · intro n' hn'
      obtain rfl := Option.some.inj (hn.symm.trans hn')
      obtain ⟨sent', hx'⟩ := h.streams c f n hf hn
      obtain rfl := Option.some.inj (hx.symm.trans hx')
      exact ⟨⟨sent, Function.update_self ..⟩, fun c' f' hc hf' => h.ne_connection hf hn hc hf'⟩
    · intro c' f' n' hc hf' hn'
      refine Function.update_of_ne ?_ ..
      rintro rfl
      exact h.ne_connection hf hn hc hf' hn'
  | disconnect c n f hf hn =>
    refine h.moved (fun n' hn' => by cases hn') ?_ fun hne => absurd rfl hne
    intro c' f' n' hc hf' hn'
    refine Function.update_of_ne ?_ ..
    rintro rfl
    exact h.ne_connection hf hn hc hf' hn'
  | close n x hx hdead =>
    refine ⟨hids, h.quiet, ?_, h.alone, h.allowed⟩
    intro c f n' hf hn
    obtain ⟨sent, hsent⟩ := h.streams c f n' hf hn
    refine ⟨sent, (Function.update_of_ne ?_ ..).trans hsent⟩
    rintro rfl
    -- a response that a follower reads is alive
    obtain rfl := Option.some.inj (hx.symm.trans hsent)
    cases hdead

theorem ApiState.Start.kept (h : s.Start) : s.Kept where
  ids := h.ids
  quiet id _ := ⟨h.buffers id, h.counters id⟩
  streams c f n hf _ := by
    rw [h.followers c] at hf
    cases hf
  alone c _ f _ _ hf _ _ _ := by
    rw [h.followers c] at hf
    cases hf
  allowed c f hf _ := by
    rw [h.followers c] at hf
    cases hf

theorem kept_reachable (h : apis.Reachable s) : s.Kept :=
  kept_invariant.reachable (fun _ hs => hs.kept) h

end Steps

end Marketplace.Api
