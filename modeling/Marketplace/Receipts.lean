import Marketplace.PipelineRun

/-!
# No order is lost, and each has one receipt

The outbox, the relay and the consumer together: in every reachable state an order
is still to be published, or the broker has its message, or its receipt is there.
There is at most one receipt for an order, however often its message comes and
whatever is pruned from the inbox, because the receipt has the order's id as its
key.

An event id is cut from a digest of the order's id. If two orders had the same, the
second would get no receipt: `event_id` is the primary key.
-/

namespace Marketplace

variable {rt : PipelineRuntime} {s₀ s : Pipeline}

/-- No two orders have the same event id. -/
def NoCollision (rt : Runtime) (db : Database) : Prop :=
  ∀ o ∈ db.orders, ∀ o' ∈ db.orders,
    eventIdFor rt.sha1 orderPlaced (toString o.id) =
      eventIdFor rt.sha1 orderPlaced (toString o'.id) → o.id = o'.id

/-- There is a receipt for the order. -/
def Receipt (db : Database) (o : Order) : Prop := ∃ r ∈ db.orderReceipts, r.orderId = o.id

/-- What the pipeline promises of its orders and receipts. -/
structure Lossless (rt : Runtime) (s : Pipeline) : Prop where
  /-- an order is announced by its row -/
  announced : ∀ o ∈ s.db.committed.orders, ∃ r ∈ s.db.committed.outbox, r.aggregateId = o.id
  /-- it is to be published, or the broker has its message, or its receipt is there -/
  kept : ∀ o ∈ s.db.committed.orders, ∀ r ∈ s.db.committed.outbox, r.aggregateId = o.id →
    r.publishedAt = none ∨ s.Kept r.payload ∨ Receipt s.db.committed o
  /-- at most one receipt for an order -/
  single : (s.db.committed.orderReceipts.map OrderReceipt.orderId).Nodup
  /-- a receipt is for an order, its buyer and its total -/
  receipts : ∀ r ∈ s.db.committed.orderReceipts, ∃ o ∈ s.db.committed.orders, Receipted rt o r

/-- An event that has had its effect has left the receipt of its order. -/
theorem Piped.receipt {rt : Runtime} {db : Database} (h : Piped rt db) (hno : NoCollision rt db)
    {o : Order} (ho : o ∈ db.orders) {r : OutboxRow} (hr : r ∈ db.outbox)
    (hor : r.aggregateId = o.id) (heffected : Effected db r.payload.eventId) : Receipt db o := by
  obtain ⟨x, hx, heq⟩ := heffected
  obtain ⟨o₁, _, hrow, hc⟩ := h.outbox r hr
  obtain ⟨o₂, ho₂, hreceipted⟩ := h.receipts x hx
  have hid : o₁.id = o.id := hrow.symm.trans hor
  have hsame : o₂.id = o.id := by
    refine hno o₂ ho₂ o ho ?_
    rw [← hreceipted.eventId, heq, hc.eventId, hid]
  exact ⟨x, hx, hreceipted.orderId.trans hsame⟩

theorem Pipeline.Inv.lossless (h : s.Inv rt) (hno : NoCollision rt.toRuntime s.db.committed) :
    Lossless rt.toRuntime s where
  announced := h.piped.announced
  kept := by
    intro o ho r hr hor
    by_cases hpub : r.publishedAt = none
    · exact .inl hpub
    · rcases h.published r hr hpub with hkept | heffected
      · exact .inr (.inl hkept)
      · exact .inr (.inr (h.piped.receipt hno ho hr hor heffected))
  single := h.piped.receiptOrders
  receipts := h.piped.receipts

/-- **No order is lost and none has two receipts**, for any checkouts, relays and
consumers and any interleaving of their statements and failures. -/
theorem outbox_to_receipt_lossless {as : List PipelineEvent} (hstart : s₀.Start rt)
    (hrun : (pipelines rt).run s₀ as = some s)
    (hno : NoCollision rt.toRuntime s.db.committed) : Lossless rt.toRuntime s :=
  (pipelines_invariant.run hstart.inv hrun).lossless hno

/-- The small shop with a broker, before the first call. -/
def demoPipeline : Pipeline where
  shop := demoShop
  wire := []
  queue := []
  dlq := []
  deliveries := fun _ => none
  relays := fun _ => none

/-- The formats of the small shop's only event. -/
def demoPipelineRuntime : PipelineRuntime where
  toRuntime := demoRuntime .exact
  formats :=
    { uuid := fun s => s = "28e7680c-7ec6-5428-a949-06ac9502fc92"
      datetime := fun s => s = "1970-01-01T00:00:00.000Z" }

theorem demoPipeline_start (rt : PipelineRuntime) : demoPipeline.Start rt where
  shop := demoShop_start
  piped :=
    { outbox := fun _ hr => absurd hr List.not_mem_nil
      announced := fun _ ho => absurd ho List.not_mem_nil
      receipts := fun _ hr => absurd hr List.not_mem_nil
      receiptOrders := List.nodup_nil
      processed := fun _ hm => absurd hm List.not_mem_nil }
  published := fun _ hr => absurd hr List.not_mem_nil
  wire := rfl
  queue := rfl
  dlq := rfl
  deliveries := fun _ => rfl
  relays := fun _ => rfl

/-- A relay dies between the confirmation and its UPDATE, the next one publishes the
event again; the inbox is pruned between the two deliveries. -/
def demoCrashRelay : List PipelineEvent :=
  (demoCall 0 ⟨"1", "1", 1, none⟩ 1 11).map .checkout ++
    [.relay 0 10] ++ List.replicate 4 (.relayExec 0 0) ++ [.relayCrashes 0 false] ++
    [.relay 1 10] ++ List.replicate 7 (.relayExec 1 0) ++
    [.deliver 0 0] ++ List.replicate 4 (.consumerExec 0 false) ++
    [.prune "28e7680c-7ec6-5428-a949-06ac9502fc92" consumerName] ++
    [.deliver 1 0] ++ List.replicate 4 (.consumerExec 1 false)

instance (rt : Runtime) (db : Database) : Decidable (NoCollision rt db) :=
  inferInstanceAs (Decidable (∀ o ∈ db.orders, ∀ o' ∈ db.orders, _ → o.id = o'.id))

theorem demoCrashRelay_lossless :
    ∃ s, (pipelines demoPipelineRuntime).run demoPipeline demoCrashRelay = some s ∧
      s.queue = [] ∧ s.db.committed.orderReceipts.map OrderReceipt.orderId = [1] ∧
      Lossless demoPipelineRuntime.toRuntime s := by
  have hsome : ((pipelines demoPipelineRuntime).run demoPipeline demoCrashRelay).any (fun s =>
      (s.queue = [] ∧ s.db.committed.orderReceipts.map OrderReceipt.orderId = [1]) ∧
        NoCollision demoPipelineRuntime.toRuntime s.db.committed) = true := by
    decide +kernel
  obtain ⟨s, hrun, hs⟩ := (Option.any_eq_true _ _).mp hsome
  obtain ⟨⟨hqueue, hreceipts⟩, hno⟩ := of_decide_eq_true hs
  exact ⟨s, hrun, hqueue, hreceipts,
    outbox_to_receipt_lossless (demoPipeline_start _) hrun hno⟩

end Marketplace
