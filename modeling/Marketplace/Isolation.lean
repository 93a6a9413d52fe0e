import Marketplace.ApiSteps
import Marketplace.Views

/-!
# What a customer learns of the others

A customer sees the orders he placed, the events and pages he asked for, and the catalogue
(`CustomerView`). Of the orders of the others he learns one thing: which ids exist, since
`getOwned` answers 403 for those and 404 for the rest. What shows itself to him of a run is
listed in `CustomerEvent`: his own requests, the changes of status of his own orders, new
products, and that somebody else placed an order.

His view is closed (`customer_closed`): whatever the others order, follow and read, and
whatever becomes of their orders, two runs that look alike to him have the same answers for
him.
-/

namespace Marketplace.Api

/-! ## The view -/

/-- A token of this customer; the same user as an admin is no customer. -/
def Mine (u : String) (user : AuthUser) : Prop := user.id = u ∧ user.role ≠ .admin

instance (u : String) (user : AuthUser) : Decidable (Mine u user) :=
  inferInstanceAs (Decidable (user.id = u ∧ user.role ≠ .admin))

/-- A follower, with what is on its way to it while it is connected. -/
structure CustomerFollower where
  user : AuthUser
  orderId : String
  received : List OrderStatusEvent
  stream : Option (List OrderStatusEvent)
  deriving DecidableEq

/-- What a customer sees. -/
@[ext]
structure CustomerView where
  customer : String
  /-- the ids of all orders -/
  ids : List String
  nextOrder : ℕ
  products : List Product
  nextProduct : ℕ
  /-- his orders -/
  orders : List Order
  /-- the events of his orders -/
  orderEvents : OrderEvents
  followers : ℕ → Option CustomerFollower
  walks : ℕ → Option OrderWalk

/-- What is on its way to a follower. -/
def ApiState.stream (s : ApiState) (f : Follower) : Option (List OrderStatusEvent) :=
  f.connection.bind fun n => (s.connections n).map Connection.sent

/-- A follower of the customer. -/
def ApiState.customerFollower (s : ApiState) (u : String) (f : Follower) :
    Option CustomerFollower :=
  if Mine u f.user then some ⟨f.user, f.orderId, f.received, s.stream f⟩ else none

/-- The events of the orders of the customer. -/
def ApiState.eventsOf (s : ApiState) (u : String) : OrderEvents where
  buffers id := if s.owners.contains (id, u) then s.orderEvents.buffers id else []
  counters id := if s.owners.contains (id, u) then s.orderEvents.counters id else 0

/-- The view of the customer. -/
def ApiState.view (u : String) (s : ApiState) : CustomerView where
  customer := u
  ids := s.orders.map Order.id
  nextOrder := s.nextOrder
  products := s.products
  nextProduct := s.nextProduct
  orders := s.orders.filter fun o => o.buyerId = u
  orderEvents := s.eventsOf u
  followers c := (s.followers c).bind (s.customerFollower u)
  walks w := (s.orderWalks w).filter fun x => Mine u x.user

/-! ## How it goes on -/

/-- What shows itself to a customer. -/
inductive CustomerEvent where
  /-- he places an order -/
  | ordered (items : List OrderItem) (createdAt : String)
  /-- somebody else does -/
  | othersOrdered
  /-- the status of one of his orders is changed -/
  | status (id : String) (status : OrderStatus) (ts : String)
  /-- there is a new product -/
  | product (name : String) (priceCents : ℤ)
  | walk (w : ℕ) (user : AuthUser)
  | list (w limit : ℕ)
  | follow (c : ℕ) (user : AuthUser) (orderId : String)
  | connect (c : ℕ)
  | receive (c : ℕ)
  | disconnect (c : ℕ)
  deriving DecidableEq

/-- A follower is written an event of its order. -/
def CustomerFollower.write (f : CustomerFollower) (e : OrderStatusEvent) :
    CustomerFollower :=
  { f with stream := f.stream.map fun sent => sent ++ if e.orderId = f.orderId then [e] else [] }

/-- It reads the next one. -/
def CustomerFollower.receive (f : CustomerFollower) : CustomerFollower :=
  { f with
    received := f.received ++ (f.stream.bind List.head?).toList
    stream := f.stream.map List.tail }

namespace CustomerView

/-- `getOwned`, as the customer knows it. -/
def getOwned (v : CustomerView) (id : String) : Except ApiError Order :=
  match v.orders.find? fun o => o.id = id with
  | some order => .ok order
  | none => .error (if id ∈ v.ids then notOwner else orderNotFound id)

/-- The price of an item in the catalogue. -/
def price (v : CustomerView) (item : OrderItem) : ℤ :=
  ((v.products.filter fun p => p.id ∈ [item.productId]).head?.map Product.priceCents).getD 0

/-- The id of the next order. -/
def nextId (v : CustomerView) : String := "o" ++ toString v.nextOrder

/-- The order he gets. -/
def newOrder (v : CustomerView) (items : List OrderItem) (createdAt : String) : Order where
  id := v.nextId
  buyerId := v.customer
  items := items
  totalCents := items.foldl (fun sum item => sum + v.price item * item.quantity) 0
  status := .new
  createdAt := createdAt

/-- Somebody orders. -/
def draw (v : CustomerView) : CustomerView :=
  { v with ids := v.ids ++ [v.nextId], nextOrder := v.nextOrder + 1 }

/-- A follower connects, if its order is his. -/
def connect (v : CustomerView) (f : CustomerFollower) : CustomerFollower :=
  match v.getOwned f.orderId with
  | .ok _ =>
    { f with
      stream := some (v.orderEvents.missedSince f.orderId
        ((f.received.getLast?.map OrderStatusEvent.id).getD 0)) }
  | .error _ => f

/-- One of his followers moves on. -/
def move (v : CustomerView) (c : ℕ) (g : CustomerFollower → CustomerFollower) : CustomerView :=
  { v with followers := Function.update v.followers c ((v.followers c).map g) }

/-- The next view. -/
def next (v : CustomerView) : CustomerEvent → CustomerView
  | .ordered items createdAt => { v.draw with orders := v.orders ++ [v.newOrder items createdAt] }
  | .othersOrdered => v.draw
  | .status id status ts =>
    { v with
      orders := v.orders.map fun o => if o.id = id then { o with status } else o
      orderEvents := v.orderEvents.emitStatusChange id status ts
      followers := fun c =>
        (v.followers c).map fun f => f.write (v.orderEvents.event id status ts) }
  | .product name priceCents =>
    { v with
      products := v.products ++ [⟨"p" ++ toString v.nextProduct, name, priceCents⟩]
      nextProduct := v.nextProduct + 1 }
  | .walk w user => { v with walks := Function.update v.walks w (some ⟨user, [], .going none⟩) }
  | .list w limit =>
    { v with
      walks := Function.update v.walks w ((v.walks w).map fun x =>
        { x with walk := (x.walk.request v.orders limit).getD x.walk }) }
  | .follow c user orderId =>
    { v with followers := Function.update v.followers c (some ⟨user, orderId, [], none⟩) }
  | .connect c => v.move c v.connect
  | .receive c => v.move c CustomerFollower.receive
  | .disconnect c => v.move c fun f => { f with stream := none }

/-- What shows itself to the customer of an event around the API. -/
def signals (v : CustomerView) : ApiEvent → List CustomerEvent
  | .createOrder r createdAt =>
    if r.user.id = v.customer then [.ordered r.body.items createdAt] else [.othersOrdered]
  | .updateStatus id status ts =>
    if ∃ o ∈ v.orders, o.id = id then [.status id status ts] else []
  | .createProduct name priceCents => [.product name priceCents]
  | .walkOrders w user => if Mine v.customer user then [.walk w user] else []
  | .listOrders w limit => if v.walks w = none then [] else [.list w limit]
  | .follow c user orderId => if Mine v.customer user then [.follow c user orderId] else []
  | .connect c _ => if v.followers c = none then [] else [.connect c]
  | .receive c => if v.followers c = none then [] else [.receive c]
  | .disconnect c => if v.followers c = none then [] else [.disconnect c]
  | .walkProducts _ | .listProducts _ _ | .close _ => []

end CustomerView

/-- A customer, as a party of the API. -/
def customer (u : String) : Party apis CustomerView CustomerEvent where
  view := ApiState.view u
  signals := CustomerView.signals
  next := CustomerView.next

section Views

variable {s s' : ApiState} {u : String}

/-! ## Orders -/

/-- Changing the status of the order that was found changes that of every order with its id. -/
theorem setStatus_eq_map (h : (s.orders.map Order.id).Nodup) (id : String) (status : OrderStatus) :
    s.setStatus id status = s.orders.map fun o => if o.id = id then { o with status } else o := by
  unfold ApiState.setStatus
  split
  · rename_i i hi
    obtain ⟨hlt, hid, -⟩ := List.findIdx?_eq_some_iff_getElem.mp hi
    have hid : s.orders[i].id = id := of_decide_eq_true hid
    refine List.ext_getElem? fun j => ?_
    rw [List.getElem?_modify, List.getElem?_map]
    rcases hj : s.orders[j]? with _ | o
    · rfl
    · obtain ⟨hjlt, rfl⟩ := List.getElem?_eq_some_iff.mp hj
      refine congrArg some ?_
      by_cases hij : i = j
      · subst hij
        exact (if_pos rfl).trans (if_pos hid).symm
      · have hne : s.orders[j].id ≠ id := by
          intro heq
          have hi : i < (s.orders.map Order.id).length := by simpa using hlt
          have hj : j < (s.orders.map Order.id).length := by simpa using hjlt
          have hmap : (s.orders.map Order.id)[i] = (s.orders.map Order.id)[j] := by
            rw [List.getElem_map, List.getElem_map, hid, heq]
          exact hij ((List.Nodup.getElem_inj_iff h).mp hmap)
        exact (if_neg hij).trans (if_neg hne).symm
  · rename_i hnone
    rw [List.findIdx?_eq_none_iff] at hnone
    refine (List.map_id'' (fun _ => rfl) s.orders).symm.trans (List.map_congr_left fun o ho => ?_)
    exact (if_neg (of_decide_eq_false (hnone o ho))).symm

/-- An order is found among those of its owner, and of nobody else. -/
theorem find_visible (h : s.Ids) {o : Order} (ho : o ∈ s.orders) :
    ((s.orders.filter fun o => decide (o.buyerId = u)).find? fun o' => decide (o'.id = o.id)) =
      if o.buyerId = u then some o else none := by
  have huniq : ∀ o' ∈ s.orders, o'.id = o.id → o' = o := fun o' ho' hid =>
    List.inj_on_of_nodup_map h.orders.distinct ho' ho hid
  split_ifs with hu
  · rcases hfind : (s.orders.filter fun o => decide (o.buyerId = u)).find?
      fun o' => decide (o'.id = o.id) with _ | o'
    · rw [List.find?_eq_none] at hfind
      refine absurd (decide_eq_true rfl) (hfind o (List.mem_filter.mpr ⟨ho, decide_eq_true hu⟩))
    · have hmem := (List.mem_filter.mp (List.mem_of_find?_eq_some hfind)).1
      have hid := of_decide_eq_true
        (List.find?_some (p := fun o' : Order => decide (o'.id = o.id)) hfind)
      rw [hfind, huniq o' hmem hid]
  · rw [List.find?_eq_none]
    intro o' ho' hid
    obtain ⟨hmem, hbuyer⟩ := List.mem_filter.mp ho'
    obtain rfl := huniq o' hmem (of_decide_eq_true hid)
    exact hu (of_decide_eq_true hbuyer)

/-- **The answer of `getOwned`** is known to the customer. -/
theorem view_getOwned (h : s.Ids) {user : AuthUser} (hu : Mine u user) (id : String) :
    s.getOwned id user = (s.view u).getOwned id := by
  rw [ApiState.getOwned, CustomerView.getOwned]
  rcases hget : s.getById id with e | o
  · have hnone : ∀ o ∈ s.orders, o.id ≠ id := by
      intro o ho hid
      unfold ApiState.getById at hget
      split at hget
      · cases hget
      · rename_i hfind
        exact List.find?_eq_none.mp hfind o ho (decide_eq_true hid)
    have he : e = orderNotFound id := by
      unfold ApiState.getById at hget
      split at hget <;> cases hget
      rfl
    have hmiss : (s.view u).orders.find? (fun o => decide (o.id = id)) = none := by
      rw [List.find?_eq_none]
      intro o ho hid
      exact hnone o (List.mem_filter.mp ho).1 (of_decide_eq_true hid)
    have hids : id ∉ (s.view u).ids := by
      intro hid
      obtain ⟨o, ho, hoid⟩ := List.mem_map.mp hid
      exact hnone o ho hoid
    rw [hmiss, if_neg hids, he]
    rfl
  · obtain ⟨hmem, rfl⟩ := getById_mem hget
    have hids : o.id ∈ (s.view u).ids := List.mem_map_of_mem hmem
    have hfind : (s.view u).orders.find? (fun o' => decide (o'.id = o.id)) =
        if o.buyerId = u then some o else none := find_visible h hmem
    rw [hfind]
    by_cases hbuyer : o.buyerId = u
    · rw [if_pos hbuyer]
      simp [bind, Except.bind, hbuyer, hu.1, pure, Except.pure]
    · rw [if_neg hbuyer, if_pos hids]
      simp [bind, Except.bind, hbuyer, hu.1, hu.2, throw, throwThe, MonadExceptOf.throw]

/-- The list of a customer is known to him. -/
theorem view_visible {user : AuthUser} (hu : Mine u user) :
    s.visible user = (s.view u).orders := by
  rw [ApiState.visible, if_neg hu.2, hu.1]
  rfl

/-! ## Events and followers -/

/-- A new order has no events yet, whoever placed it. -/
theorem eventsOf_create (h : s.Kept) (items : List OrderItem) (buyerId createdAt : String) :
    (s.create items buyerId createdAt).eventsOf u = s.eventsOf u := by
  have hfresh : ∀ o ∈ s.orders, o.id ≠ "o" ++ toString s.nextOrder := by
    intro o ho hid
    obtain ⟨k, hk, heq⟩ := h.ids.orders.drawn o.id (List.mem_map_of_mem ho)
    have hdrawn := (String.append_right_inj "o").mp (heq.symm.trans hid)
    have := NumericLiteral.toString_injective hdrawn
    omega
  obtain ⟨hbuffer, hcounter⟩ := h.quiet _ hfresh
  have howners : ∀ id, (id, u) ∈ (s.create items buyerId createdAt).owners ↔
      (id, u) ∈ s.owners ∨ id = "o" ++ toString s.nextOrder ∧ u = buyerId := by
    intro id
    simp [ApiState.owners, ApiState.create, ApiState.newOrder]
  have hmask : ∀ {β : Type} (f : String → β) (d : β), f ("o" ++ toString s.nextOrder) = d →
      (fun id => if (s.create items buyerId createdAt).owners.contains (id, u) then f id else d) =
        fun id => if s.owners.contains (id, u) then f id else d := by
    intro β f d hd
    funext id
    by_cases hid : id = "o" ++ toString s.nextOrder
    · subst hid
      rw [hd, ite_self, ite_self]
    · have hiff : (s.create items buyerId createdAt).owners.contains (id, u) =
          s.owners.contains (id, u) := by
        rw [Bool.eq_iff_iff, List.contains_iff_mem, List.contains_iff_mem, howners]
        exact or_iff_left fun hand => hid hand.1
      simp only [hiff]
  exact congrArg₂ OrderEvents.mk (hmask _ _ hbuffer) (hmask _ _ hcounter)

/-- A change of the status of an order of the customer. -/
theorem eventsOf_status (howners : s'.owners = s.owners) {id : String} {status : OrderStatus}
    {ts : String} (hevents : s'.orderEvents = s.orderEvents.emitStatusChange id status ts)
    (hmine : (id, u) ∈ s.owners) :
    s'.eventsOf u = (s.eventsOf u).emitStatusChange id status ts := by
  have hmine := List.contains_iff_mem.mpr hmine
  have hbuffer : (s.eventsOf u).buffers id = s.orderEvents.buffers id := if_pos hmine
  have hcounter : (s.eventsOf u).counters id = s.orderEvents.counters id := if_pos hmine
  have hmask : ∀ {β : Type} (f : String → β) (d x : β),
      (fun id' => if s.owners.contains (id', u) then Function.update f id x id' else d) =
        Function.update (fun id' => if s.owners.contains (id', u) then f id' else d) id x := by
    intro β f d x
    funext id'
    by_cases hid : id' = id
    · subst hid
      rw [if_pos hmine, Function.update_self, Function.update_self]
    · rw [Function.update_of_ne hid, Function.update_of_ne hid]
  simp only [OrderEvents.emitStatusChange, OrderEvents.event, hbuffer, hcounter]
  rw [ApiState.eventsOf, hevents, howners]
  exact congrArg₂ OrderEvents.mk (hmask _ _ _) (hmask _ _ _)

/-- A change of the status of an order of somebody else. -/
theorem eventsOf_status_other (howners : s'.owners = s.owners) {id : String} {status : OrderStatus}
    {ts : String} (hevents : s'.orderEvents = s.orderEvents.emitStatusChange id status ts)
    (hother : (id, u) ∉ s.owners) : s'.eventsOf u = s.eventsOf u := by
  have hother : ¬ s.owners.contains (id, u) := fun h => hother (List.contains_iff_mem.mp h)
  have hmask : ∀ {β : Type} (f : String → β) (d x : β),
      (fun id' => if s.owners.contains (id', u) then Function.update f id x id' else d) =
        fun id' => if s.owners.contains (id', u) then f id' else d := by
    intro β f d x
    funext id'
    by_cases hid : id' = id
    · subst hid
      rw [if_neg hother, if_neg hother]
    · rw [Function.update_of_ne hid]
  rw [ApiState.eventsOf, hevents, howners]
  exact congrArg₂ OrderEvents.mk (hmask _ _ _) (hmask _ _ _)

/-- What the bus does, as a follower sees it. -/
theorem stream_publish (h : s.Kept) {c : ℕ} {f : Follower} (hf : s.followers c = some f)
    (event : OrderStatusEvent) (hs' : s'.connections = s.publish event) :
    s'.stream f =
      (s.stream f).map fun sent => sent ++ if event.orderId = f.orderId then [event] else [] := by
  rcases hn : f.connection with _ | n
  · simp only [ApiState.stream, hn, Option.bind_none, Option.map_none]
  · obtain ⟨sent, hsent⟩ := h.streams c f n hf hn
    simp only [ApiState.stream, hn, Option.bind_some, hs', publish_stream hsent, hsent,
      Option.map_some]

/-- A connected follower of the customer follows one of his orders. -/
theorem ApiState.Kept.mine (h : s.Kept) {c : ℕ} {f : Follower} (hf : s.followers c = some f)
    (hu : Mine u f.user) (hconn : f.connection ≠ none) : (f.orderId, u) ∈ s.owners := by
  rcases h.allowed c f hf hconn with hadmin | hmem
  · exact absurd hadmin hu.2
  · exact hu.1 ▸ hmem

/-- A signal about a follower that is not his shows nothing. -/
theorem foldl_move {v : CustomerView} {c : ℕ} {e : CustomerEvent}
    {g : CustomerFollower → CustomerFollower} (hnext : v.next e = v.move c g) :
    (if v.followers c = none then [] else [e]).foldl CustomerView.next v = v.move c g := by
  split_ifs with hnone
  · rw [CustomerView.move, hnone, Option.map_none, ← hnone, Function.update_eq_self]
    rfl
  · exact hnext

/-- **A follower moves on**, and what is on its way to it. -/
theorem view_moved {c : ℕ} {f f' : Follower} {connections' : ℕ → Option Connection}
    {g : CustomerFollower → CustomerFollower} (hf : s.followers c = some f)
    (huser : f'.user = f.user)
    (hothers : ∀ c' f n, c' ≠ c → s.followers c' = some f → f.connection = some n →
      connections' n = s.connections n)
    (hself : Mine u f.user → CustomerFollower.mk f.user f'.orderId f'.received
        (f'.connection.bind fun n => (connections' n).map Connection.sent) =
      g ⟨f.user, f.orderId, f.received, s.stream f⟩) :
    ApiState.view u { s with
        connections := connections'
        followers := Function.update s.followers c (some f') } = (s.view u).move c g := by
  refine CustomerView.ext rfl rfl rfl rfl rfl rfl rfl ?_ rfl
  funext c'
  by_cases hc : c' = c
  · subst hc
    simp only [CustomerView.move, ApiState.view, Function.update_self, hf, Option.bind_some,
      ApiState.customerFollower, huser]
    split_ifs with hmine
    · exact congrArg some (hself hmine)
    · rfl
  · simp only [CustomerView.move, ApiState.view, Function.update_of_ne hc]
    rcases hf' : s.followers c' with _ | f''
    · rfl
    · have hstream : (f''.connection.bind fun n => (connections' n).map Connection.sent) =
          s.stream f'' := by
        rcases hn : f''.connection with _ | n
        · simp only [ApiState.stream, hn, Option.bind_none]
        · simp only [ApiState.stream, hn, Option.bind_some, hothers c' f'' n hc hf' hn]
      simp only [Option.bind_some, ApiState.customerFollower, ApiState.stream] at hstream ⊢
      rw [hstream]

/-! ## Steps -/

theorem view_orders_eq_map {id : String} {status : OrderStatus}
    (horders : s'.orders = s.orders.map fun o => if o.id = id then { o with status } else o) :
    (s'.view u).orders =
      (s.view u).orders.map fun o => if o.id = id then { o with status } else o := by
  have hbuyer : ((fun o : Order => decide (o.buyerId = u)) ∘
      fun o => if o.id = id then { o with status } else o) = fun o => decide (o.buyerId = u) := by
    funext o
    simp only [Function.comp_apply]
    split_ifs <;> rfl
  simp only [ApiState.view, horders, List.filter_map, hbuyer]

/-- An order is placed. -/
theorem view_create (h : s.Kept) (r : CreateRequest) (createdAt : String) :
    (s.create r.body.items r.user.id createdAt).view u =
      ((s.view u).signals (.createOrder r createdAt)).foldl CustomerView.next (s.view u) := by
  have hids : (s.create r.body.items r.user.id createdAt).orders.map Order.id =
      s.orders.map Order.id ++ ["o" ++ toString s.nextOrder] := by
    simp [ApiState.create, ApiState.newOrder]
  simp only [CustomerView.signals]
  split_ifs with hu
  · refine CustomerView.ext rfl hids rfl rfl rfl ?_ (eventsOf_create h _ _ _) rfl rfl
    have hu : r.user.id = u := hu
    have hnew : [s.newOrder r.body.items r.user.id createdAt].filter
        (fun o => decide (o.buyerId = u)) = [s.newOrder r.body.items r.user.id createdAt] :=
      List.filter_cons_of_pos (decide_eq_true hu)
    simp only [ApiState.view, ApiState.create, List.filter_append, hnew]
    rw [ApiState.newOrder, hu]
    rfl
  · refine CustomerView.ext rfl hids rfl rfl rfl ?_ (eventsOf_create h _ _ _) rfl rfl
    have hnew : [s.newOrder r.body.items r.user.id createdAt].filter
        (fun o => decide (o.buyerId = u)) = [] :=
      List.filter_cons_of_neg fun heq => hu (of_decide_eq_true heq)
    simp only [ApiState.view, ApiState.create, List.filter_append, hnew, List.append_nil]
    rfl

/-- The status of an order is changed. -/
theorem view_status (h : s.Kept) {id : String} {status : OrderStatus} {ts : String} {order : Order}
    (hfound : s.getById id = .ok order)
    (hs' : s' = { s with
      orders := s.setStatus id status
      orderEvents := s.orderEvents.emitStatusChange order.id status ts
      connections := s.publish (s.orderEvents.event order.id status ts) }) :
    s'.view u =
      ((s.view u).signals (.updateStatus id status ts)).foldl CustomerView.next (s.view u) := by
  obtain ⟨hmem, rfl⟩ := getById_mem hfound
  have horders : s'.orders =
      s.orders.map fun o => if o.id = order.id then { o with status } else o :=
    hs' ▸ setStatus_eq_map h.ids.orders.distinct order.id status
  have howners : s'.owners = s.owners :=
    hs' ▸ map_setStatus (fun _ _ => rfl) s order.id status
  have hids : (s'.view u).ids = (s.view u).ids :=
    hs' ▸ map_setStatus (fun _ _ => rfl) s order.id status
  have hconnections : s'.connections = s.publish (s.orderEvents.event order.id status ts) := by
    rw [hs']
  have hstream : ∀ c f, s.followers c = some f → s'.stream f = (s.stream f).map fun sent =>
      sent ++ if order.id = f.orderId then [s.orderEvents.event order.id status ts] else [] :=
    fun c f hf => stream_publish h hf _ hconnections
  have hfollowers : s'.followers = s.followers := by rw [hs']
  have hview : (s.view u).orders.map
        (fun o => if o.id = order.id then { o with status } else o) = (s'.view u).orders :=
    (view_orders_eq_map horders).symm
  simp only [CustomerView.signals]
  split_ifs with hu
  · obtain ⟨o, ho, hid⟩ := hu
    obtain ⟨ho, hbuyer⟩ := List.mem_filter.mp ho
    have hmine : (order.id, u) ∈ s.owners :=
      mem_owners.mpr ⟨o, ho, hid, of_decide_eq_true hbuyer⟩
    have hcounter : (s.eventsOf u).event order.id status ts =
        s.orderEvents.event order.id status ts := by
      simp only [OrderEvents.event, ApiState.eventsOf, if_pos (List.contains_iff_mem.mpr hmine)]
    refine CustomerView.ext rfl hids (by rw [hs']; rfl) (by rw [hs']; rfl) (by rw [hs']; rfl)
      hview.symm (eventsOf_status howners (by rw [hs']) hmine) ?_ (by rw [hs']; rfl)
    funext c
    simp only [ApiState.view, List.foldl_cons, List.foldl_nil, CustomerView.next, hfollowers]
    rcases hf : s.followers c with _ | f
    · rfl
    · simp only [Option.bind_some, ApiState.customerFollower, hcounter]
      split_ifs
      · simp only [Option.map_some, CustomerFollower.write, hstream c f hf]
        rfl
      · rfl
  · have hother : (order.id, u) ∉ s.owners := by
      intro hmine
      obtain ⟨o, ho, hid, hbuyer⟩ := mem_owners.mp hmine
      exact hu ⟨o, List.mem_filter.mpr ⟨ho, decide_eq_true hbuyer⟩, hid⟩
    refine CustomerView.ext rfl hids (by rw [hs']; rfl) (by rw [hs']; rfl) (by rw [hs']; rfl)
      ?_ (eventsOf_status_other howners (by rw [hs']) hother) ?_ (by rw [hs']; rfl)
    · have hkeep : (s.view u).orders.map
            (fun o => if o.id = order.id then { o with status } else o) =
          (s.view u).orders.map fun o => o :=
        List.map_congr_left fun o ho => if_neg fun hid => hu ⟨o, ho, hid⟩
      exact hview.symm.trans (hkeep.trans (List.map_id' _))
    · funext c
      simp only [ApiState.view, List.foldl_nil, hfollowers]
      rcases hf : s.followers c with _ | f
      · rfl
      · simp only [Option.bind_some, ApiState.customerFollower]
        split_ifs with hmine
        · -- he follows his own orders only, and this is none of them
          have hsame : s'.stream f = s.stream f := by
            rw [hstream c f hf]
            rcases hn : f.connection with _ | n
            · simp only [ApiState.stream, hn, Option.bind_none, Option.map_none]
            · have hne : order.id ≠ f.orderId := by
                intro heq
                exact hother (heq ▸ h.mine hf hmine fun hnone => by cases hn.symm.trans hnone)
              simp only [if_neg hne, List.append_nil]
              exact Option.map_id'
          rw [hsame]
        · rfl

/-- Somebody begins to follow an order. -/
theorem view_follow {c : ℕ} {user : AuthUser} {orderId : String} (hfree : s.followers c = none) :
    ApiState.view u { s with
        followers := Function.update s.followers c (some ⟨user, orderId, [], none⟩) } =
      ((s.view u).signals (.follow c user orderId)).foldl CustomerView.next (s.view u) := by
  have hnone : (s.view u).followers c = none := by
    simp only [ApiState.view, hfree, Option.bind_none]
  have hfollowers : (fun c' => (Function.update s.followers c
        (some ⟨user, orderId, [], none⟩) c').bind (s.customerFollower u)) =
      Function.update (s.view u).followers c
        (s.customerFollower u ⟨user, orderId, [], none⟩) := by
    funext c'
    by_cases hc : c' = c
    · subst hc
      simp only [Function.update_self, Option.bind_some]
    · simp only [Function.update_of_ne hc]
      rfl
  have hsignals : (s.view u).signals (.follow c user orderId) =
      if Mine u user then [.follow c user orderId] else [] := rfl
  rw [hsignals]
  split_ifs with hu
  · refine CustomerView.ext rfl rfl rfl rfl rfl rfl rfl (hfollowers.trans ?_) rfl
    rw [ApiState.customerFollower, if_pos hu]
    rfl
  · refine CustomerView.ext rfl rfl rfl rfl rfl rfl rfl (hfollowers.trans ?_) rfl
    rw [ApiState.customerFollower, if_neg hu, ← hnone]
    exact Function.update_eq_self ..

/-- Somebody begins to walk through the orders. -/
theorem view_walk {w : ℕ} {user : AuthUser} (hfree : s.orderWalks w = none) :
    ApiState.view u { s with
        orderWalks := Function.update s.orderWalks w (some ⟨user, [], .going none⟩) } =
      ((s.view u).signals (.walkOrders w user)).foldl CustomerView.next (s.view u) := by
  have hnone : (s.view u).walks w = none := by
    simp only [ApiState.view, hfree, Option.filter_none]
  have hwalks : (fun w' => (Function.update s.orderWalks w
        (some ⟨user, [], .going none⟩) w').filter fun x => decide (Mine u x.user)) =
      Function.update (s.view u).walks w
        (if Mine u user then some ⟨user, [], .going none⟩ else none) := by
    funext w'
    by_cases hw : w' = w
    · subst hw
      simp only [Function.update_self, Option.filter_some, decide_eq_true_eq]
    · simp only [Function.update_of_ne hw]
      rfl
  have hsignals : (s.view u).signals (.walkOrders w user) =
      if Mine u user then [.walk w user] else [] := rfl
  rw [hsignals]
  split_ifs with hu
  · refine CustomerView.ext rfl rfl rfl rfl rfl rfl rfl rfl (hwalks.trans ?_)
    rw [if_pos hu]
    rfl
  · refine CustomerView.ext rfl rfl rfl rfl rfl rfl rfl rfl (hwalks.trans ?_)
    rw [if_neg hu, ← hnone]
    exact Function.update_eq_self ..

/-- The next page of a walk. -/
theorem view_list {w limit : ℕ} {x : OrderWalk} {walk : Walk Order}
    (hx : s.orderWalks w = some x)
    (hwalk : x.walk.request (s.visible x.user) limit = some walk) :
    ApiState.view u { s with
        orderWalks := Function.update s.orderWalks w (some { x with walk }) } =
      ((s.view u).signals (.listOrders w limit)).foldl CustomerView.next (s.view u) := by
  have hview : (s.view u).walks w = if Mine u x.user then some x else none := by
    simp only [ApiState.view, hx, Option.filter_some, decide_eq_true_eq]
  have hwalks : (fun w' => (Function.update s.orderWalks w (some { x with walk }) w').filter
        fun x => decide (Mine u x.user)) =
      Function.update (s.view u).walks w
        (if Mine u x.user then some { x with walk } else none) := by
    funext w'
    by_cases hw : w' = w
    · subst hw
      simp only [Function.update_self, Option.filter_some, decide_eq_true_eq]
    · simp only [Function.update_of_ne hw]
      rfl
  simp only [CustomerView.signals]
  by_cases hu : Mine u x.user
  · rw [if_pos hu] at hview hwalks
    rw [if_neg (by rw [hview]; exact Option.some_ne_none x)]
    refine CustomerView.ext rfl rfl rfl rfl rfl rfl rfl rfl (hwalks.trans ?_)
    simp only [List.foldl_cons, List.foldl_nil, CustomerView.next, hview, ← view_visible hu,
      Option.map_some, hwalk, Option.getD_some]
  · rw [if_neg hu] at hview hwalks
    rw [if_pos hview]
    refine CustomerView.ext rfl rfl rfl rfl rfl rfl rfl rfl (hwalks.trans ?_)
    rw [← hview]
    exact Function.update_eq_self ..

end Views

/-- **The view of a customer is closed.** -/
theorem customer_closed (u : String) : (customer u).Closed ApiState.Kept := by
  intro s a s' h hs
  simp only [customer]
  cases apiStep_of_step hs with
  | createOrder r createdAt hroom => exact view_create h r createdAt
  | updateStatus id status ts order hfound => exact view_status h hfound rfl
  | statusRefused id status ts e hmissing =>
    have hnone : ¬ ∃ o ∈ (s.view u).orders, o.id = id := by
      rintro ⟨o, ho, hid⟩
      unfold ApiState.getById at hmissing
      split at hmissing
      · cases hmissing
      · rename_i hfind
        exact List.find?_eq_none.mp hfind o (List.mem_filter.mp ho).1 (decide_eq_true hid)
    simp only [CustomerView.signals, if_neg hnone, List.foldl_nil]
  | createProduct name priceCents => rfl
  | walkOrders w user hfree => exact view_walk hfree
  | listOrders w limit x walk hx hwalk => exact view_list hx hwalk
  | walksProducts a walks ha =>
    rcases ha with ⟨w, rfl⟩ | ⟨w, limit, rfl⟩
    · rfl
    · rfl
  | follow c user orderId hfree => exact view_follow hfree
  | connect c n f order hf hidle hfree howned =>
    have hnew : ∀ c' f' n', c' ≠ c → s.followers c' = some f' → f'.connection = some n' →
        n' ≠ n := by
      rintro c' f' n' - hf' hn' rfl
      obtain ⟨sent, hsent⟩ := h.streams c' f' n' hf' hn'
      cases hfree.symm.trans hsent
    refine Eq.trans (b := (s.view u).move c (s.view u).connect) ?_ (foldl_move rfl).symm
    refine view_moved hf rfl (fun c' f' n' hc hf' hn' =>
      Function.update_of_ne (hnew c' f' n' hc hf' hn') ..) fun hmine => ?_
    have hmem : (f.orderId, u) ∈ s.owners := by
      rcases getOwned_allowed howned with hadmin | hmem
      · exact absurd hadmin hmine.2
      · exact hmine.1 ▸ hmem
    have hbuffer : (s.eventsOf u).buffers f.orderId = s.orderEvents.buffers f.orderId :=
      if_pos (List.contains_iff_mem.mpr hmem)
    simp only [CustomerView.connect, ← view_getOwned h.ids hmine, howned, Option.bind_some,
      Function.update_self, Option.map_some, Follower.lastEventId, OrderEvents.missedSince]
    rw [← hbuffer]
    rfl
  | connectRefused c n f e hf hidle hrefused =>
    refine Eq.trans ?_ (foldl_move (g := (s.view u).connect) rfl).symm
    have hview : (s.view u).followers c = s.customerFollower u f := by
      simp only [ApiState.view, hf, Option.bind_some]
    have hsame : ((s.view u).followers c).map (s.view u).connect = (s.view u).followers c := by
      rw [hview, ApiState.customerFollower]
      split_ifs with hmine
      · simp only [Option.map_some, CustomerView.connect, ← view_getOwned h.ids hmine, hrefused]
      · rfl
    rw [CustomerView.move, hsame, Function.update_eq_self]
  | receive c n f x event sent hf hn hx hsent =>
    refine Eq.trans (b := (s.view u).move c CustomerFollower.receive) ?_ (foldl_move rfl).symm
    refine view_moved hf rfl (fun c' f' n' hc hf' hn' => Function.update_of_ne ?_ ..)
      fun hmine => ?_
    · rintro rfl
      exact h.ne_connection hf hn hc hf' hn'
    · simp only [CustomerFollower.receive, ApiState.stream, hn, hx, Option.bind_some,
        Function.update_self, Option.map_some, hsent, List.head?_cons, Option.toList_some,
        List.tail_cons]
  | disconnect c n f hf hn =>
    refine Eq.trans (b := (s.view u).move c fun f => { f with stream := none }) ?_
      (foldl_move rfl).symm
    refine view_moved hf rfl (fun c' f' n' hc hf' hn' => Function.update_of_ne ?_ ..)
      fun hmine => ?_
    · rintro rfl
      exact h.ne_connection hf hn hc hf' hn'
    · simp only [Option.bind_none]
  | close n x hx hdead =>
    refine CustomerView.ext rfl rfl rfl rfl rfl rfl rfl ?_ rfl
    funext c
    simp only [ApiState.view, CustomerView.signals, List.foldl_nil]
    rcases hf : s.followers c with _ | f
    · rfl
    · have hsame : ApiState.stream { s with
          connections := Function.update s.connections n (some { x with subscribed := false }) } f =
          s.stream f := by
        rcases hn : f.connection with _ | n'
        · simp only [ApiState.stream, hn, Option.bind_none]
        · have hne : n' ≠ n := by
            rintro rfl
            obtain ⟨sent, hsent⟩ := h.streams c f n' hf hn
            obtain rfl := Option.some.inj (hx.symm.trans hsent)
            cases hdead
          simp only [ApiState.stream, hn, Option.bind_some, Function.update_of_ne hne]
      simp only [Option.bind_some, ApiState.customerFollower, hsame]

/-- **A customer learns nothing of the orders of others** but which ids they have: two runs that
look alike to him have the same answers for him. -/
theorem customers_isolated {s₁ s₂ t₁ t₂ : ApiState} {as₁ as₂ : List ApiEvent} {u : String}
    (h₁ : apis.Reachable s₁) (h₂ : apis.Reachable s₂) (hrun₁ : apis.run s₁ as₁ = some t₁)
    (hrun₂ : apis.run s₂ as₂ = some t₂) (hview : s₁.view u = s₂.view u)
    (hseen : (customer u).seen s₁ as₁ = (customer u).seen s₂ as₂) :
    t₁.view u = t₂.view u ∧ ∀ user, user.id = u → user.role ≠ .admin →
      (∀ id, t₁.getOwned id user = t₂.getOwned id user) ∧
        ∀ limit cursor, paginate (t₁.visible user) limit cursor =
          paginate (t₂.visible user) limit cursor := by
  have hsame : t₁.view u = t₂.view u :=
    (customer_closed u).noninterference kept_invariant (kept_reachable h₁) (kept_reachable h₂)
      hrun₁ hrun₂ hview hseen
  refine ⟨hsame, fun user hid hrole => ⟨fun id => ?_, fun limit cursor => ?_⟩⟩
  · rw [view_getOwned (kept_reachable (h₁.run hrun₁)).ids ⟨hid, hrole⟩,
      view_getOwned (kept_reachable (h₂.run hrun₂)).ids ⟨hid, hrole⟩, hsame]
  · rw [view_visible ⟨hid, hrole⟩, view_visible ⟨hid, hrole⟩, hsame]

/-- What `u1` does, while `u2` orders, and the status of an order of `u2` is changed. -/
def demoOthers (items : List OrderItem) (status : OrderStatus) : List ApiEvent :=
  [.follow 0 ⟨"u1", .customer, "j", 0, "f"⟩ "o1", .connect 0 0,
    .createOrder ⟨⟨"u2", .customer, "j2", 0, "f2"⟩, "key", ⟨items, none⟩⟩ "at",
    .updateStatus "o2" status "t1", .updateStatus "o1" .packed "t2", .receive 0]

/-- Whatever `u2` orders and whatever becomes of it, `u1` reads the same. -/
theorem demoOthers_isolated : ∃ t₁ t₂,
    apis.run initial (demoOthers [⟨"p4", 1⟩] .packed) = some t₁ ∧
      apis.run initial (demoOthers [⟨"p1", 7⟩, ⟨"p3", 2⟩] .cancelled) = some t₂ ∧
      t₁.view "u1" = t₂.view "u1" := by
  have hrun₁ : (apis.run initial (demoOthers [⟨"p4", 1⟩] .packed)).isSome := by decide +kernel
  have hrun₂ : (apis.run initial (demoOthers [⟨"p1", 7⟩, ⟨"p3", 2⟩] .cancelled)).isSome := by
    decide +kernel
  obtain ⟨t₁, hrun₁⟩ := Option.isSome_iff_exists.mp hrun₁
  obtain ⟨t₂, hrun₂⟩ := Option.isSome_iff_exists.mp hrun₂
  have hstart : apis.Reachable initial := ⟨initial, [], initial_start, rfl⟩
  exact ⟨t₁, t₂, hrun₁, hrun₂, (customers_isolated hstart hstart hrun₁ hrun₂ rfl
    (by decide +kernel)).1⟩

end Marketplace.Api
