import Marketplace.Auth
import Marketplace.Texts
import Marketplace.Utf8

/-!
# The orders API

The HTTP layer of orders and products: the services with their in-memory tables, the
cursor pages, the bus of status events with its buffers, and the requests of the
controllers. No handler awaits anything, so each request is one step of the process.

The clients are part of the picture as far as they carry state between their requests:

* one who *walks* through a list passes the `next_cursor` of each page to the request
  for the next, until it is null;
* one who *follows* an order reads its event stream. What the server has written and the
  client has not read yet is on its way; it is lost when the client disconnects. Then the
  client connects again, with the last id it has read.
-/

namespace Marketplace.Api

/-! ## Data -/

/-- `OrderItem` -/
structure OrderItem where
  productId : String
  quantity : ℤ
  deriving DecidableEq

/-- `OrderStatus` of the HTTP layer -/
inductive OrderStatus where
  | new
  | packed
  | shipped
  | delivered
  | cancelled
  deriving DecidableEq

/-- `Order` of the HTTP layer -/
structure Order where
  id : String
  buyerId : String
  items : List OrderItem
  totalCents : ℤ
  status : OrderStatus
  createdAt : String
  deriving DecidableEq

/-- `Product` of the HTTP layer -/
structure Product where
  id : String
  name : String
  priceCents : ℤ
  deriving DecidableEq

/-- `OrderStatusEvent`; the id counts the events of its order. -/
structure OrderStatusEvent where
  id : ℕ
  orderId : String
  status : OrderStatus
  ts : String
  deriving DecidableEq

/-- What a handler throws: the status of the answer, and what its body says. -/
structure ApiError where
  status : ℕ
  code : Option String
  detail : String
  deriving DecidableEq

/-- `NotFoundException` of `getById` -/
def orderNotFound (id : String) : ApiError :=
  ⟨404, none, "замовлення \"" ++ id ++ "\" не знайдено"⟩

/-- `ForbiddenException` of `getOwned` -/
def notOwner : ApiError :=
  ⟨403, some "not-owner", "це замовлення належить іншому користувачеві"⟩

/-- `BadRequestException` of `decodeCursor` -/
def badCursor : ApiError :=
  ⟨400, some "bad-cursor", "cursor не розпізнано — він непрозорий і належить серверу"⟩

/-! ## Pages -/

/-- `Page` -/
structure Page (α : Type) where
  items : List α
  nextCursor : Option String
  deriving DecidableEq

/-- `encodeCursor` -/
def encodeCursor (offset : ℕ) : String :=
  Base64Url.encode (Utf8.encode (NumericLiteral.text offset).toList)

/-- What the bytes of a cursor say. -/
def cursorText (raw : String) : String := .ofList (Utf8.decode (Base64Url.decode raw))

/-- `decodeCursor` -/
def decodeCursor (raw : String) : Except ApiError ℕ :=
  match NumericLiteral.number (cursorText raw) with
  | some offset => if offset.den = 1 ∧ 0 ≤ offset then return offset.num.toNat else throw badCursor
  | none => throw badCursor

/-- The offset of a page: an empty cursor is none. -/
def offsetOf : Option String → Except ApiError ℕ
  | none => .ok 0
  | some cursor => if cursor = "" then .ok 0 else decodeCursor cursor

/-- `paginate` -/
def paginate {α : Type} (all : List α) (limit : ℕ) (cursor : Option String) :
    Except ApiError (Page α) := do
  let offset ← offsetOf cursor
  let items := (all.drop offset).take limit
  let nextOffset := offset + items.length
  return ⟨items, if nextOffset < all.length then some (encodeCursor nextOffset) else none⟩

/-! ## The bus of status events -/

/-- `BUFFER_SIZE` -/
def bufferSize : ℕ := 100

/-- `OrderEventsService`: its buffers and counters, empty and zero where nothing is set. -/
structure OrderEvents where
  buffers : String → List OrderStatusEvent
  counters : String → ℕ

/-- The event of a change of status. -/
def OrderEvents.event (o : OrderEvents) (orderId : String) (status : OrderStatus) (ts : String) :
    OrderStatusEvent :=
  ⟨o.counters orderId + 1, orderId, status, ts⟩

/-- `emitStatusChange`, as far as buffer and counter go. -/
def OrderEvents.emitStatusChange (o : OrderEvents) (orderId : String) (status : OrderStatus)
    (ts : String) : OrderEvents :=
  let event := o.event orderId status ts
  let buffer := o.buffers orderId ++ [event]
  let buffer := if bufferSize < buffer.length then buffer.drop 1 else buffer
  { buffers := Function.update o.buffers orderId buffer
    counters := Function.update o.counters orderId event.id }

/-- `missedSince` -/
def OrderEvents.missedSince (o : OrderEvents) (orderId : String) (lastEventId : ℕ) :
    List OrderStatusEvent :=
  (o.buffers orderId).filter fun e => lastEventId < e.id

/-! ## Requests and clients -/

/-- `CreateOrderBody` -/
structure CreateOrderBody where
  items : List OrderItem
  buyerId : Option String
  deriving DecidableEq

/-- A request `POST /orders`. -/
structure CreateRequest where
  user : AuthUser
  idempotencyKey : String
  body : CreateOrderBody
  deriving DecidableEq

/-- What the specification asks of the request. -/
def CreateRequest.Accepted (r : CreateRequest) : Prop :=
  r.idempotencyKey ≠ "" ∧ r.body.items ≠ [] ∧ ∀ i ∈ r.body.items, 1 ≤ i.quantity

instance (r : CreateRequest) : Decidable r.Accepted :=
  inferInstanceAs (Decidable
    (r.idempotencyKey ≠ "" ∧ r.body.items ≠ [] ∧ ∀ i ∈ r.body.items, 1 ≤ i.quantity))

/-- Where a walk is. -/
inductive WalkStatus where
  /-- the next request has this cursor -/
  | going (cursor : Option String)
  /-- `next_cursor` was null -/
  | ended
  /-- a request was refused -/
  | refused
  deriving DecidableEq

/-- A walk through a list, with the pages it has got. -/
structure Walk (α : Type) where
  pages : List (List α)
  status : WalkStatus
  deriving DecidableEq

/-- A walk through the orders a user sees. -/
structure OrderWalk where
  user : AuthUser
  walk : Walk Order
  deriving DecidableEq

/-- An SSE response. -/
structure Connection where
  orderId : String
  /-- the client has not disconnected -/
  alive : Bool
  /-- the server writes the events of the bus -/
  subscribed : Bool
  /-- what is written and not yet read -/
  sent : List OrderStatusEvent
  deriving DecidableEq

/-- A client that follows an order. -/
structure Follower where
  user : AuthUser
  orderId : String
  /-- everything it has read, over all its connections -/
  received : List OrderStatusEvent
  connection : Option ℕ
  deriving DecidableEq

/-- The header it sends: the last id it has read. -/
def Follower.lastEventId (f : Follower) : Option ℕ := f.received.getLast?.map OrderStatusEvent.id

/-- The process and its clients. -/
structure ApiState where
  orders : List Order
  nextOrder : ℕ
  products : List Product
  nextProduct : ℕ
  orderEvents : OrderEvents
  connections : ℕ → Option Connection
  followers : ℕ → Option Follower
  orderWalks : ℕ → Option OrderWalk
  productWalks : ℕ → Option (Walk Product)

namespace ApiState

/-! ## Services -/

/-- `findByIds` -/
def findByIds (s : ApiState) (ids : List String) : List Product :=
  s.products.filter fun p => p.id ∈ ids

/-- The price that `create` counts for an item. -/
def price (s : ApiState) (item : OrderItem) : ℤ :=
  ((s.findByIds [item.productId]).head?.map Product.priceCents).getD 0

/-- The order that `create` makes. -/
def newOrder (s : ApiState) (items : List OrderItem) (buyerId createdAt : String) : Order :=
  { id := "o" ++ toString s.nextOrder
    buyerId, items
    totalCents := items.foldl (fun sum item => sum + s.price item * item.quantity) 0
    status := .new
    createdAt }

/-- `OrdersService.create` -/
def create (s : ApiState) (items : List OrderItem) (buyerId createdAt : String) : ApiState :=
  { s with
    orders := s.orders ++ [s.newOrder items buyerId createdAt]
    nextOrder := s.nextOrder + 1 }

/-- `ProductsService.create` -/
def createProduct (s : ApiState) (name : String) (priceCents : ℤ) : ApiState :=
  { s with
    products := s.products ++ [⟨"p" ++ toString s.nextProduct, name, priceCents⟩]
    nextProduct := s.nextProduct + 1 }

/-- `getById` -/
def getById (s : ApiState) (id : String) : Except ApiError Order :=
  match s.orders.find? fun o => o.id = id with
  | some order => .ok order
  | none => .error (orderNotFound id)

/-- `getOwned` -/
def getOwned (s : ApiState) (id : String) (user : AuthUser) : Except ApiError Order := do
  let order ← s.getById id
  if order.buyerId ≠ user.id ∧ user.role ≠ .admin then throw notOwner
  return order

/-- The orders that `listFor` shows to a user. -/
def visible (s : ApiState) (user : AuthUser) : List Order :=
  if user.role = .admin then s.orders else s.orders.filter fun o => o.buyerId = user.id

/-- Write the new status into the order that was found. -/
def setStatus (s : ApiState) (id : String) (status : OrderStatus) : List Order :=
  match s.orders.findIdx? fun o => o.id = id with
  | some i => s.orders.modify i fun o => { o with status }
  | none => s.orders

/-- What the bus does with an event: every subscription to its order writes it. -/
def publish (s : ApiState) (event : OrderStatusEvent) : ℕ → Option Connection := fun n =>
  (s.connections n).map fun c =>
    if c.subscribed ∧ event.orderId = c.orderId then { c with sent := c.sent ++ [event] } else c

/-- `OrdersService.updateStatus` -/
def updateStatus (s : ApiState) (id : String) (status : OrderStatus) (ts : String) :
    Except ApiError ApiState := do
  let order ← s.getById id
  return { s with
    orders := s.setStatus id status
    orderEvents := s.orderEvents.emitStatusChange order.id status ts
    connections := s.publish (s.orderEvents.event order.id status ts) }

/-- `OrdersController.events`: what was missed is written first, then the live events. -/
def events (s : ApiState) (n : ℕ) (id : String) (user : AuthUser) (lastEventId : Option ℕ) :
    Except ApiError ApiState := do
  let _ ← s.getOwned id user
  let missed := s.orderEvents.missedSince id (lastEventId.getD 0)
  return { s with connections := Function.update s.connections n (some ⟨id, true, true, missed⟩) }

end ApiState

/-- The longest array. -/
def maxLength : ℕ := 2 ^ 32 - 1

/-! ## Steps -/

/-- Ask for the next page. -/
def Walk.request {α : Type} (w : Walk α) (all : List α) (limit : ℕ) : Option (Walk α) :=
  match w.status with
  | .going cursor =>
    match paginate all limit cursor with
    | .ok page =>
      some ⟨w.pages ++ [page.items],
        match page.nextCursor with
        | some cursor => .going (some cursor)
        | none => .ended⟩
    | .error _ => some ⟨w.pages, .refused⟩
  | _ => none

/-- What can happen around the API. -/
inductive ApiEvent where
  /-- `POST /orders` -/
  | createOrder (request : CreateRequest) (createdAt : String)
  /-- `PATCH /orders/{id}/status` -/
  | updateStatus (id : String) (status : OrderStatus) (ts : String)
  /-- `POST /products` -/
  | createProduct (name : String) (priceCents : ℤ)
  /-- somebody begins to walk through the orders -/
  | walkOrders (w : ℕ) (user : AuthUser)
  /-- `GET /orders` of a walk -/
  | listOrders (w limit : ℕ)
  /-- somebody begins to walk through the products -/
  | walkProducts (w : ℕ)
  /-- `GET /products` of a walk -/
  | listProducts (w limit : ℕ)
  /-- somebody begins to follow an order -/
  | follow (c : ℕ) (user : AuthUser) (orderId : String)
  /-- `GET /orders/{id}/events`, the response having the number `n` -/
  | connect (c n : ℕ)
  /-- the client reads the next event -/
  | receive (c : ℕ)
  /-- the connection of the client breaks -/
  | disconnect (c : ℕ)
  /-- the server notices that nobody reads the response -/
  | close (n : ℕ)

/-- One event around the API; nothing is put into an array that has no place for it. -/
def ApiState.step (s : ApiState) : ApiEvent → Option ApiState
  | .createOrder r createdAt =>
    if r.Accepted ∧ s.orders.length < maxLength then
      some (s.create r.body.items r.user.id createdAt)
    else none
  | .updateStatus id status ts =>
    match s.updateStatus id status ts with
    | .ok s' => some s'
    | .error _ => some s
  | .createProduct name priceCents =>
    if s.products.length < maxLength then some (s.createProduct name priceCents) else none
  | .walkOrders w user =>
    match s.orderWalks w with
    | none =>
      some { s with
        orderWalks := Function.update s.orderWalks w (some ⟨user, [], .going none⟩) }
    | some _ => none
  | .listOrders w limit =>
    match s.orderWalks w with
    | some x =>
      if 1 ≤ limit then
        (x.walk.request (s.visible x.user) limit).map fun walk =>
          { s with orderWalks := Function.update s.orderWalks w (some { x with walk }) }
      else none
    | none => none
  | .walkProducts w =>
    match s.productWalks w with
    | none =>
      some { s with productWalks := Function.update s.productWalks w (some ⟨[], .going none⟩) }
    | some _ => none
  | .listProducts w limit =>
    match s.productWalks w with
    | some x =>
      if 1 ≤ limit then
        (x.request s.products limit).map fun walk =>
          { s with productWalks := Function.update s.productWalks w (some walk) }
      else none
    | none => none
  | .follow c user orderId =>
    match s.followers c with
    | none =>
      some { s with followers := Function.update s.followers c (some ⟨user, orderId, [], none⟩) }
    | some _ => none
  | .connect c n =>
    match s.followers c, s.connections n with
    | some ⟨user, orderId, received, none⟩, none =>
      match s.events n orderId user (Follower.lastEventId ⟨user, orderId, received, none⟩) with
      | .ok s' =>
        some { s' with
          followers := Function.update s.followers c (some ⟨user, orderId, received, some n⟩) }
      | .error _ => some s
    | _, _ => none
  | .receive c =>
    match s.followers c with
    | some ⟨user, orderId, received, some n⟩ =>
      match s.connections n with
      | some ⟨orderId', alive, subscribed, event :: sent⟩ =>
        some { s with
          connections := Function.update s.connections n (some ⟨orderId', alive, subscribed, sent⟩)
          followers := Function.update s.followers c
            (some ⟨user, orderId, received ++ [event], some n⟩) }
      | _ => none
    | _ => none
  | .disconnect c =>
    match s.followers c with
    | some ⟨user, orderId, received, some n⟩ =>
      some { s with
        connections := Function.update s.connections n
          ((s.connections n).map fun x => { x with alive := false })
        followers := Function.update s.followers c (some ⟨user, orderId, received, none⟩) }
    | _ => none
  | .close n =>
    match s.connections n with
    | some ⟨orderId, false, _, sent⟩ =>
      some { s with
        connections := Function.update s.connections n (some ⟨orderId, false, false, sent⟩) }
    | _ => none

/-- An API before its first request: the tables it is started with, whose ids are counted
by the sequences, and nothing else. -/
structure ApiState.Start (s : ApiState) : Prop where
  orders : ∀ o ∈ s.orders, ∃ k < s.nextOrder, o.id = "o" ++ toString k
  distinctOrders : (s.orders.map Order.id).Nodup
  products : ∀ p ∈ s.products, ∃ k < s.nextProduct, p.id = "p" ++ toString k
  distinctProducts : (s.products.map Product.id).Nodup
  lengths : s.orders.length ≤ maxLength ∧ s.products.length ≤ maxLength
  buffers : ∀ id, s.orderEvents.buffers id = []
  counters : ∀ id, s.orderEvents.counters id = 0
  connections : ∀ n, s.connections n = none
  followers : ∀ c, s.followers c = none
  orderWalks : ∀ w, s.orderWalks w = none
  productWalks : ∀ w, s.productWalks w = none

/-- The API and its clients, request by request. -/
def apis : System ApiState ApiEvent := ⟨ApiState.Start, ApiState.step⟩

/-- The process as it starts: the tables `ORDERS` and `PRODUCTS`. -/
def initial : ApiState where
  orders :=
    [⟨"o1", "u1", [⟨"p1", 1⟩], 129900, .new, "2026-08-01T10:00:00.000Z"⟩,
      ⟨"o2", "u2", [⟨"p2", 2⟩, ⟨"p3", 1⟩], 45900 * 2 + 12900, .new, "2026-08-02T11:30:00.000Z"⟩]
  nextOrder := 3
  products :=
    [⟨"p1", "Клавіатура механічна", 129900⟩, ⟨"p2", "Мишка бездротова", 45900⟩,
      ⟨"p3", "Килимок для миші", 12900⟩, ⟨"p4", "Монітор 27\"", 899900⟩,
      ⟨"p5", "Навушники", 219900⟩]
  nextProduct := 6
  orderEvents := ⟨fun _ => [], fun _ => 0⟩
  connections := fun _ => none
  followers := fun _ => none
  orderWalks := fun _ => none
  productWalks := fun _ => none

theorem initial_start : initial.Start where
  orders := by decide +kernel
  distinctOrders := by decide +kernel
  products := by decide +kernel
  distinctProducts := by decide +kernel
  lengths := by decide +kernel
  buffers := fun _ => rfl
  counters := fun _ => rfl
  connections := fun _ => rfl
  followers := fun _ => rfl
  orderWalks := fun _ => rfl
  productWalks := fun _ => rfl

end Marketplace.Api
