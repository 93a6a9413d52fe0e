import Marketplace.Schema

/-!
# The consumer of `order.placed`

What `handle` does with one delivery: parse the message, apply it in one
transaction, acknowledge it. `applyOrderPlaced` writes the inbox and the receipt,
both with `ON CONFLICT DO NOTHING`; a conflict on the inbox ends it at once.

A message that does not parse is rejected for good. When the transaction fails,
the message is rejected for another try, and the broker puts it back or, at its
delivery limit, into the dead letter queue.
-/

namespace Marketplace

/-- `CONSUMER_NAME` -/
def consumerName : String := "order-receipts"

/-- The formats that the schema leaves to its library. -/
structure Formats where
  /-- `z.string().uuid()` -/
  uuid : String → Bool
  /-- `z.string().datetime()` -/
  datetime : String → Bool

/-- `OrderPlacedSchema.parse` accepts the event. The text of an order id is never
empty. -/
def OrderPlacedEvent.parses (fmt : Formats) (e : OrderPlacedEvent) : Bool :=
  fmt.uuid e.eventId && decide (e.type = orderPlaced) && fmt.datetime e.occurredAt &&
    decide (e.data.buyerId ≠ "") && decide (e.data.productId ≠ "") &&
    decide (0 < e.data.quantity) && decide (0 ≤ e.data.totalAmount)

/-- The row of `INSERT INTO order_receipts`. -/
def OrderPlacedEvent.receipt (arith : Arith) (e : OrderPlacedEvent) : OrderReceipt :=
  { eventId := e.eventId, orderId := e.data.orderId, buyerId := e.data.buyerId
    totalAmount := roundCents (arith.text e.data.totalAmount) }

/-- Where a handler waits, with its local variables. -/
inductive ConsumerPc where
  /-- `ch.reject(msg, false)` -/
  | reject
  /-- `INSERT INTO processed_messages … ON CONFLICT DO NOTHING` -/
  | insertProcessed
  /-- `INSERT INTO order_receipts … ON CONFLICT DO NOTHING` -/
  | insertReceipt
  /-- COMMIT, with the result of the transaction -/
  | commit (applied : Bool)
  /-- `ch.ack(msg)` -/
  | ack (applied : Bool)
  /-- `ch.reject(msg, true)` -/
  | requeue
  deriving DecidableEq

/-- A handler is running or has ended. -/
inductive ConsumerStatus where
  | running (pc : ConsumerPc)
  | ended
  deriving DecidableEq

/-- A delivery: its message, whether the broker counts it as unacknowledged, and
its handler. -/
structure Delivery where
  message : OrderPlacedEvent
  held : Bool
  status : ConsumerStatus
  deriving DecidableEq

/-- The first point at which the handler waits. -/
def OrderPlacedEvent.entry (fmt : Formats) (e : OrderPlacedEvent) : ConsumerPc :=
  if e.parses fmt then .insertProcessed else .reject

end Marketplace
