import Marketplace.Checkout
import Marketplace.Consumer
import Marketplace.Relay

/-!
# From the outbox to the receipt

Checkouts, relays and consumers over one database, with the broker between them.
Each takes its steps statement by statement, as in the checkout; the broker's
steps are its own.

A message is on the *wire* while nobody knows whether the broker will keep it: the
relay has got an error, or died, while publishing. The broker takes it from there
into the work queue, or it is lost. A publication that is confirmed is in the
queue. From the queue a message goes to a consumer, in any order; the broker may
take it back at any moment, while its handler goes on; only an `ack` of a delivery
that the broker still holds, or a rejection, ends it.
-/

namespace Marketplace

/-- What surrounds the pipeline. -/
structure PipelineRuntime extends Runtime where
  formats : Formats

/-- The shop, the broker's queues, the deliveries and the passes. -/
structure Pipeline where
  shop : Shop
  wire : List OrderPlacedEvent
  /-- `shop.order-placed` -/
  queue : List OrderPlacedEvent
  /-- `shop.order-placed.dlq` -/
  dlq : List OrderPlacedEvent
  deliveries : ℕ → Option Delivery
  relays : ℕ → Option RelayCall

namespace Pipeline

/-- The database. -/
def db (s : Pipeline) : Engine Database Change Lock Client := s.shop.db

/-- Replace the database. -/
def setDb (s : Pipeline) (e : Engine Database Change Lock Client) : Pipeline :=
  { s with shop := { s.shop with db := e } }

@[simp] theorem setDb_db (s : Pipeline) (e : Engine Database Change Lock Client) :
    (s.setDb e).db = e := rfl

/-- Pass `k` is now in the given status. -/
def setRelay (s : Pipeline) (k : ℕ) (c : RelayCall) (status : RelayStatus) : Pipeline :=
  { s with relays := Function.update s.relays k (some { c with status }) }

/-- Delivery `d` is now `x`. -/
def setDelivery (s : Pipeline) (d : ℕ) (x : Delivery) : Pipeline :=
  { s with deliveries := Function.update s.deliveries d (some x) }

/-! ## Relays -/

/-- Run the pending statement, publication or hook of pass `k`. A publication that
runs is confirmed. -/
def relayExec (s : Pipeline) (k : ℕ) (c : RelayCall) (now : ℕ) : RelayPc → Option Pipeline
  | .scan =>
    some (s.setRelay k c
      (.running (.lockRows ((claimable (s.db.view (.relay k))).map OutboxRow.id) [])))
  | .lockRows [] rows => some (s.setRelay k c (.running (Batch.start rows).next))
  | .lockRows (id :: left) rows =>
    if rows.length = c.batchSize then some (s.setRelay k c (.running (Batch.start rows).next))
    else if s.db.free (.relay k) (.outbox id) then
      match (Table.lookup OutboxRow.id id (s.db.view (.relay k)).outbox).filter
          (·.publishedAt = none) with
      | none => some (s.setRelay k c (.running (.lockRows left rows)))
      | some row =>
        some ((s.setDb (s.db.acquire (.relay k) (.outbox id))).setRelay k c
          (.running (.lockRows left (rows ++ [row]))))
    else
      -- SKIP LOCKED
      some (s.setRelay k c (.running (.lockRows left rows)))
  | .publish b =>
    match b.todo with
    | [] => none
    | row :: todo =>
      some (({ s with queue := s.queue ++ [row.payload] } : Pipeline).setRelay k c
        (.running (.afterPublish (b.confirm row todo))))
  | .afterPublish b => some (s.setRelay k c (.running b.next))
  | .markPublished b =>
    some ((s.setDb ((b.done.map fun id => .setPublished id now).foldl
      (fun e ch => e.write (.relay k) ch) s.db)).setRelay k c (.running b.afterUpdate))
  | .addAttempt b =>
    match b.failed with
    | none => none
    | some id =>
      some ((s.setDb (s.db.write (.relay k) (.addAttempt id))).setRelay k c
        (.running (.commit b)))
  | .commit b => some ((s.setDb (s.db.commit (.relay k))).setRelay k c (.ended (.returned b.pass)))

/-- The publication of pass `k` fails; the message may be on the wire. -/
def publishFails (s : Pipeline) (k : ℕ) (c : RelayCall) (sent : Bool) : RelayPc → Option Pipeline
  | .publish b =>
    match b.todo with
    | [] => none
    | row :: todo =>
      some (({ s with wire := if sent then s.wire ++ [row.payload] else s.wire }
        : Pipeline).setRelay k c (.running (b.fail row todo).next))
  | _ => none


/-- Pass `k` ends with ROLLBACK. -/
def endRelay (s : Pipeline) (k : ℕ) (c : RelayCall) (o : RelayOutcome) : Pipeline :=
  (s.setDb (s.db.abort (.relay k))).setRelay k c (.ended o)

/-- The process of pass `k` dies; a message it was publishing may be on the wire. -/
def relayCrashes (s : Pipeline) (k : ℕ) (c : RelayCall) (sent : Bool) : RelayPc → Pipeline
  | .publish b =>
    ({ s with wire := if sent then s.wire ++ (b.todo.take 1).map OutboxRow.payload else s.wire }
      : Pipeline).endRelay k c .crashed
  | _ => s.endRelay k c .crashed

/-! ## The broker -/

/-- The broker takes a message back from a delivery: into the queue, or at the
delivery limit into the dead letter queue. -/
def giveBack (s : Pipeline) (x : Delivery) (dead : Bool) : Pipeline :=
  if x.held then
    if dead then { s with dlq := s.dlq ++ [x.message] }
    else { s with queue := s.queue ++ [x.message] }
  else s

/-! ## Consumers -/

/-- Run the pending statement of the handler of delivery `d`, or its answer to the
broker; `dead` says whether a message rejected for another try has come to its
limit. -/
def consumerExec (rt : PipelineRuntime) (s : Pipeline) (d : ℕ) (x : Delivery) (dead : Bool) :
    ConsumerPc → Option Pipeline
  | .reject =>
    some ((s.giveBack x true).setDelivery d { x with held := false, status := .ended })
  | .insertProcessed =>
    let e := x.message
    if (e.eventId, consumerName) ∈ (s.db.view (.consumer d)).processedMessages then
      some (s.setDelivery d { x with status := .running (.commit false) })
    else if s.db.free (.consumer d) (.processed e.eventId consumerName) then
      some ((s.setDb ((s.db.acquire (.consumer d) (.processed e.eventId consumerName)).write
        (.consumer d) (.insertProcessed e.eventId consumerName))).setDelivery d
          { x with status := .running .insertReceipt })
    else none
  | .insertReceipt =>
    let row := x.message.receipt rt.arith
    if ¬ FitsNumeric row.totalAmount then
      -- the value does not fit its column: ROLLBACK and the `catch` block
      some ((s.setDb (s.db.abort (.consumer d))).setDelivery d
        { x with status := .running .requeue })
    else if ∃ r ∈ (s.db.view (.consumer d)).orderReceipts,
        r.eventId = row.eventId ∨ r.orderId = row.orderId then
      some (s.setDelivery d { x with status := .running (.commit false) })
    else if s.db.free (.consumer d) (.receiptEvent row.eventId) &&
        s.db.free (.consumer d) (.receiptOrder row.orderId) then
      some ((s.setDb (((s.db.acquire (.consumer d) (.receiptEvent row.eventId)).acquire
        (.consumer d) (.receiptOrder row.orderId)).write (.consumer d)
          (.insertReceipt row))).setDelivery d { x with status := .running (.commit true) })
    else none
  | .commit applied =>
    some ((s.setDb (s.db.commit (.consumer d))).setDelivery d
      { x with status := .running (.ack applied) })
  | .ack _ => some (s.setDelivery d { x with held := false, status := .ended })
  | .requeue =>
    some ((s.giveBack x dead).setDelivery d { x with held := false, status := .ended })

/-- The pending statement fails: ROLLBACK and the `catch` block. An answer to the
broker fails without effect. -/
def consumerFails (s : Pipeline) (d : ℕ) (x : Delivery) : ConsumerPc → Pipeline
  | .insertProcessed | .insertReceipt | .commit _ =>
    (s.setDb (s.db.abort (.consumer d))).setDelivery d { x with status := .running .requeue }
  | .ack _ => s.setDelivery d { x with status := .running .requeue }
  | .reject | .requeue => s.setDelivery d { x with status := .ended }

end Pipeline

/-! ## Events -/

/-- What can happen. -/
inductive PipelineEvent where
  /-- a step of the checkouts -/
  | checkout (a : CheckoutEvent)
  /-- a pass begins -/
  | relay (k batchSize : ℕ)
  /-- the pending statement, publication or hook of pass `k` runs -/
  | relayExec (k now : ℕ)
  /-- the publication of pass `k` fails -/
  | publishFails (k : ℕ) (sent : Bool)
  /-- the pending statement, hook or COMMIT of pass `k` throws, without effect -/
  | relayFails (k : ℕ)
  | relayCrashes (k : ℕ) (sent : Bool)
  /-- the COMMIT of pass `k` takes effect and its answer is lost -/
  | relayLosesAnswer (k : ℕ)
  /-- the broker takes a message from the wire -/
  | arrive (n : ℕ)
  /-- a message on the wire is lost -/
  | drop (n : ℕ)
  /-- the broker delivers a message -/
  | deliver (d n : ℕ)
  /-- the broker takes the message of delivery `d` back -/
  | takeBack (d : ℕ) (dead : Bool)
  /-- the handler of delivery `d` goes on -/
  | consumerExec (d : ℕ) (dead : Bool)
  | consumerFails (d : ℕ)
  /-- the process of the handler of delivery `d` dies; the broker takes the message
  back -/
  | consumerCrashes (d : ℕ) (dead : Bool)
  /-- the COMMIT of the handler of delivery `d` takes effect and its answer is lost -/
  | consumerLosesAnswer (d : ℕ)
  /-- a row of the inbox is deleted -/
  | prune (messageId consumer : String)

/-- One event. -/
def Pipeline.step (rt : PipelineRuntime) (s : Pipeline) : PipelineEvent → Option Pipeline
  | .checkout a => (s.shop.step rt.toRuntime a).map fun shop => { s with shop }
  | .relay k batchSize =>
    match s.relays k with
    | none => some (s.setRelay k ⟨batchSize, .running .scan⟩ (.running .scan))
    | some _ => none
  | .relayExec k now =>
    match s.relays k with
    | some ⟨batchSize, .running pc⟩ => s.relayExec k ⟨batchSize, .running pc⟩ now pc
    | _ => none
  | .publishFails k sent =>
    match s.relays k with
    | some ⟨batchSize, .running pc⟩ => s.publishFails k ⟨batchSize, .running pc⟩ sent pc
    | _ => none
  | .relayFails k =>
    match s.relays k with
    -- the loop catches what `publishRaw` throws
    | some ⟨_, .running (.publish _)⟩ => none
    | some ⟨batchSize, .running pc⟩ => some (s.endRelay k ⟨batchSize, .running pc⟩ .thrown)
    | _ => none
  | .relayCrashes k sent =>
    match s.relays k with
    | some ⟨batchSize, .running pc⟩ =>
      some (s.relayCrashes k ⟨batchSize, .running pc⟩ sent pc)
    | _ => none
  | .relayLosesAnswer k =>
    match s.relays k with
    | some ⟨batchSize, .running (.commit b)⟩ =>
      some ((s.setDb (s.db.commit (.relay k))).setRelay k ⟨batchSize, .running (.commit b)⟩
        (.ended .lost))
    | _ => none
  | .arrive n =>
    match s.wire[n]? with
    | some e => some { s with wire := s.wire.eraseIdx n, queue := s.queue ++ [e] }
    | none => none
  | .drop n => some { s with wire := s.wire.eraseIdx n }
  | .deliver d n =>
    match s.deliveries d, s.queue[n]? with
    | none, some e =>
      some (({ s with queue := s.queue.eraseIdx n } : Pipeline).setDelivery d
        ⟨e, true, .running (e.entry rt.formats)⟩)
    | _, _ => none
  | .takeBack d dead =>
    match s.deliveries d with
    | some x => some ((s.giveBack x dead).setDelivery d { x with held := false })
    | none => none
  | .consumerExec d dead =>
    match s.deliveries d with
    | some ⟨message, held, .running pc⟩ =>
      s.consumerExec rt d ⟨message, held, .running pc⟩ dead pc
    | _ => none
  | .consumerFails d =>
    match s.deliveries d with
    | some ⟨message, held, .running pc⟩ =>
      some (s.consumerFails d ⟨message, held, .running pc⟩ pc)
    | _ => none
  | .consumerCrashes d dead =>
    match s.deliveries d with
    | some ⟨message, held, .running pc⟩ =>
      some (((s.giveBack ⟨message, held, .running pc⟩ dead).setDb
        (s.db.abort (.consumer d))).setDelivery d ⟨message, false, .ended⟩)
    | _ => none
  | .consumerLosesAnswer d =>
    match s.deliveries d with
    | some ⟨message, held, .running (.commit _)⟩ =>
      some ((s.setDb (s.db.commit (.consumer d))).setDelivery d
        ⟨message, held, .running .requeue⟩)
    | _ => none
  | .prune messageId consumer =>
    if s.db.free .pruner (.processed messageId consumer) then
      some (s.setDb (((s.db.acquire .pruner (.processed messageId consumer)).write .pruner
        (.deleteProcessed messageId consumer)).commit .pruner))
    else none

/-! ## Where runs start -/

/-- The event carries the order. -/
structure Carries (rt : Runtime) (o : Order) (e : OrderPlacedEvent) : Prop where
  eventId : e.eventId = eventIdFor rt.sha1 orderPlaced (toString o.id)
  orderId : e.data.orderId = o.id
  buyerId : rt.int8in e.data.buyerId = some o.buyerId
  totalAmount : roundCents (rt.arith.text e.data.totalAmount) = o.totalAmount

/-- The receipt is one for the order. -/
structure Receipted (rt : Runtime) (o : Order) (r : OrderReceipt) : Prop where
  eventId : r.eventId = eventIdFor rt.sha1 orderPlaced (toString o.id)
  orderId : r.orderId = o.id
  buyerId : rt.int8in r.buyerId = some o.buyerId
  totalAmount : r.totalAmount = o.totalAmount

/-- The event has had its effect. -/
def Effected (db : Database) (eventId : String) : Prop :=
  ∃ r ∈ db.orderReceipts, r.eventId = eventId

/-- Every order has its row in the outbox, receipts are for orders, one for each,
and what the inbox has seen has had its effect. -/
structure Piped (rt : Runtime) (db : Database) : Prop where
  outbox : ∀ r ∈ db.outbox, ∃ o ∈ db.orders, r.aggregateId = o.id ∧ Carries rt o r.payload
  announced : ∀ o ∈ db.orders, ∃ r ∈ db.outbox, r.aggregateId = o.id
  receipts : ∀ r ∈ db.orderReceipts, ∃ o ∈ db.orders, Receipted rt o r
  receiptOrders : (db.orderReceipts.map OrderReceipt.orderId).Nodup
  processed : ∀ eventId, (eventId, consumerName) ∈ db.processedMessages → Effected db eventId

/-- The pipeline before the first call, with an empty broker: what earlier runs
have published has had its effect. -/
structure Pipeline.Start (rt : PipelineRuntime) (s : Pipeline) : Prop where
  shop : s.shop.Start
  piped : Piped rt.toRuntime s.db.committed
  published : ∀ r ∈ s.db.committed.outbox, r.publishedAt ≠ none →
    Effected s.db.committed r.payload.eventId
  wire : s.wire = []
  queue : s.queue = []
  dlq : s.dlq = []
  deliveries : ∀ d, s.deliveries d = none
  relays : ∀ k, s.relays k = none

/-- Concurrent checkouts, relays and consumers. -/
def pipelines (rt : PipelineRuntime) : System Pipeline PipelineEvent :=
  ⟨Pipeline.Start rt, Pipeline.step rt⟩

end Marketplace
