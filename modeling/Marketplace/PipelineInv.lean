import Marketplace.Ledger
import Marketplace.Pipeline

/-!
# What the pipeline keeps

An event is *safe* when a message with it is in the work queue, unacknowledged or
in the dead letter queue, or when it has had its effect. What is safe stays safe:
the queues only hand messages on, and an `ack` comes after the effect. A relay
marks a row only when its event is safe; that is the whole of the argument that
nothing is lost.

The invariant says for every point of a pass and of a handler what its
transaction has written and locked, as for the checkout.
-/

namespace Marketplace

/-! ## Safety of an event -/

namespace Pipeline

/-- The broker has a message with the event, in the queue, unacknowledged or in the
dead letter queue. -/
def Kept (s : Pipeline) (e : OrderPlacedEvent) : Prop :=
  e ∈ s.queue ∨ e ∈ s.dlq ∨ ∃ d x, s.deliveries d = some x ∧ x.held = true ∧ x.message = e

/-- The broker has the event, or it has had its effect. -/
def Safe (s : Pipeline) (e : OrderPlacedEvent) : Prop :=
  s.Kept e ∨ Effected s.db.committed e.eventId

/-- There is a message with the event somewhere. -/
def Has (s : Pipeline) (e : OrderPlacedEvent) : Prop :=
  e ∈ s.wire ∨ e ∈ s.queue ∨ e ∈ s.dlq ∨ ∃ d x, s.deliveries d = some x ∧ x.message = e

end Pipeline

/-- The event is that of a row of the outbox. -/
def Genuine (db : Database) (e : OrderPlacedEvent) : Prop := ∃ r ∈ db.outbox, r.payload = e

/-- What commits of the pipeline never take back. -/
structure Database.Grows (db db' : Database) : Prop where
  outbox : ∀ r ∈ db.outbox, ∃ r' ∈ db'.outbox, r'.payload = r.payload
  orderReceipts : ∀ r ∈ db.orderReceipts, r ∈ db'.orderReceipts

theorem Database.Grows.refl (db : Database) : db.Grows db :=
  ⟨fun r hr => ⟨r, hr, rfl⟩, fun _ hr => hr⟩

theorem Effected.grows {db db' : Database} {eventId : String} (h : Effected db eventId)
    (hg : db.Grows db') : Effected db' eventId := by
  obtain ⟨r, hr, heq⟩ := h
  exact ⟨r, hg.orderReceipts r hr, heq⟩

theorem Genuine.grows {db db' : Database} {e : OrderPlacedEvent} (h : Genuine db e)
    (hg : db.Grows db') : Genuine db' e := by
  obtain ⟨r, hr, rfl⟩ := h
  exact hg.outbox r hr

/-! ## What a pass holds -/

section Held

variable (e : Engine Database Change Lock Client)

/-- The pass has locked these rows. -/
def Claims (k : ℕ) (rows : List OutboxRow) : Prop :=
  ∀ r ∈ rows, e.holder (.outbox r.id) = some (.relay k) ∧
    Table.lookup OutboxRow.id r.id e.committed.outbox = some r

/-- The batch of a pass: its rows are locked, and what is done is safe. -/
structure Batched (safe : OrderPlacedEvent → Prop) (k : ℕ) (b : Batch) : Prop where
  claims : Claims e k b.rows
  todo : ∀ r ∈ b.todo, r ∈ b.rows
  done : ∀ id ∈ b.done, ∃ r ∈ b.rows, r.id = id ∧ safe r.payload
  failed : ∀ id, b.failed = some id → ∃ r ∈ b.rows, r.id = id

/-- The changes of the `UPDATE` that marks what is done. -/
def marks (now : ℕ) (ids : List ℕ) : List Change := ids.map fun id => .setPublished id now

/-- What a pass knows at each of its points. -/
def RelayPcInv (safe : OrderPlacedEvent → Prop) (k : ℕ) : RelayPc → Prop
  | .scan => e.Quiet (.relay k)
  | .lockRows _ rows => e.log (.relay k) = [] ∧ Claims e k rows
  | .publish b | .afterPublish b | .markPublished b =>
    e.log (.relay k) = [] ∧ Batched e safe k b
  | .addAttempt b => (∃ now, e.log (.relay k) = marks now b.done) ∧ Batched e safe k b
  | .commit b =>
    (∃ now, e.log (.relay k) = marks now b.done ++ b.failed.toList.map .addAttempt) ∧
      Batched e safe k b

/-- A pass that is not running has nothing open. -/
def RelayInv (safe : OrderPlacedEvent → Prop) (k : ℕ) : Option RelayCall → Prop
  | some ⟨_, .running pc⟩ => RelayPcInv e safe k pc
  | _ => e.Quiet (.relay k)

/-! ## What a handler holds -/

/-- What a handler is about to commit: nothing, since the event has had its effect;
or a row of the inbox, for the same reason; or both rows. -/
inductive Prepared (arith : Arith) (d : ℕ) (m : OrderPlacedEvent) : Prop
  | seen (hlog : e.log (.consumer d) = []) (heffected : Effected e.committed m.eventId)
  | known (hlog : e.log (.consumer d) = [.insertProcessed m.eventId consumerName])
    (heffected : Effected e.committed m.eventId)
  | new (hlog : e.log (.consumer d)
      = [.insertProcessed m.eventId consumerName, .insertReceipt (m.receipt arith)])
    (hheld : e.holder (.receiptOrder m.data.orderId) = some (.consumer d))
    (hnew : Table.lookup OrderReceipt.orderId m.data.orderId e.committed.orderReceipts = none)

/-- What a handler knows at each of its points. -/
def ConsumerPcInv (arith : Arith) (d : ℕ) (m : OrderPlacedEvent) : ConsumerPc → Prop
  | .reject | .insertProcessed | .requeue => e.Quiet (.consumer d)
  | .insertReceipt => e.log (.consumer d) = [.insertProcessed m.eventId consumerName]
  | .commit _ => Prepared e arith d m
  | .ack _ => e.Quiet (.consumer d) ∧ Effected e.committed m.eventId

/-- A handler that is not running has nothing open. -/
def ConsumerInv (arith : Arith) (d : ℕ) : Option Delivery → Prop
  | some ⟨m, _, .running pc⟩ => ConsumerPcInv e arith d m pc
  | _ => e.Quiet (.consumer d)

end Held

/-! ## Stability -/

section Stable

variable {e e' : Engine Database Change Lock Client} {safe safe' : OrderPlacedEvent → Prop}
  {k d : ℕ} {arith : Arith} {m : OrderPlacedEvent}

theorem Claims.stable {rows : List OutboxRow} (h : Claims e k rows) (hk : e.Keeps e' (.relay k)) :
    Claims e' k rows := by
  intro r hr
  obtain ⟨hheld, hrow⟩ := h r hr
  -- a locked row is as it was when the pass took it
  have hsame : Table.lookup OutboxRow.id r.id e'.committed.outbox
      = Table.lookup OutboxRow.id r.id e.committed.outbox := hk.row _ hheld
  exact ⟨hk.held _ hheld, hsame.trans hrow⟩

theorem Batched.stable {b : Batch} (h : Batched e safe k b) (hk : e.Keeps e' (.relay k))
    (hsafe : ∀ e, safe e → safe' e) : Batched e' safe' k b := by
  refine ⟨h.claims.stable hk, h.todo, ?_, h.failed⟩
  intro id hid
  obtain ⟨r, hr, hrid, hs⟩ := h.done id hid
  exact ⟨r, hr, hrid, hsafe _ hs⟩

/-- What a pass knows stays true while others take their steps. -/
theorem RelayInv.stable {c : Option RelayCall} (h : RelayInv e safe k c)
    (hu : e.Undisturbed e' (.relay k)) (hsafe : ∀ e, safe e → safe' e) :
    RelayInv e' safe' k c := by
  rcases c with _ | ⟨n, pc | o⟩
  · exact hu.quiet h
  · cases pc with
    | scan => exact hu.quiet h
    | lockRows left rows => exact ⟨hu.log.trans h.1, h.2.stable hu.keeps⟩
    | publish b => exact ⟨hu.log.trans h.1, h.2.stable hu.keeps hsafe⟩
    | afterPublish b => exact ⟨hu.log.trans h.1, h.2.stable hu.keeps hsafe⟩
    | markPublished b => exact ⟨hu.log.trans h.1, h.2.stable hu.keeps hsafe⟩
    | addAttempt b =>
      obtain ⟨⟨now, hlog⟩, hb⟩ := h
      exact ⟨⟨now, hu.log.trans hlog⟩, hb.stable hu.keeps hsafe⟩
    | commit b =>
      obtain ⟨⟨now, hlog⟩, hb⟩ := h
      exact ⟨⟨now, hu.log.trans hlog⟩, hb.stable hu.keeps hsafe⟩
  · exact hu.quiet h

theorem Prepared.stable (h : Prepared e arith d m) (hu : e.Undisturbed e' (.consumer d))
    (hg : e.committed.Grows e'.committed) : Prepared e' arith d m := by
  cases h with
  | seen hlog heffected => exact .seen (hu.log.trans hlog) (heffected.grows hg)
  | known hlog heffected => exact .known (hu.log.trans hlog) (heffected.grows hg)
  | new hlog hheld hnew =>
    -- the lock on the order's receipt keeps it from others
    have hsame : Table.lookup OrderReceipt.orderId m.data.orderId e'.committed.orderReceipts
        = Table.lookup OrderReceipt.orderId m.data.orderId e.committed.orderReceipts :=
      hu.row _ hheld
    exact .new (hu.log.trans hlog) (hu.keeps.held _ hheld) (hsame.trans hnew)

/-- What a handler knows stays true while others take their steps. -/
theorem ConsumerInv.stable {x : Option Delivery} (h : ConsumerInv e arith d x)
    (hu : e.Undisturbed e' (.consumer d)) (hg : e.committed.Grows e'.committed) :
    ConsumerInv e' arith d x := by
  rcases x with _ | ⟨m, held, pc | _⟩
  · exact hu.quiet h
  · cases pc with
    | reject => exact hu.quiet h
    | insertProcessed => exact hu.quiet h
    | insertReceipt => exact hu.log.trans h
    | commit applied => exact Prepared.stable h hu hg
    | ack applied => exact ⟨hu.quiet h.1, h.2.grows hg⟩
    | requeue => exact hu.quiet h
  · exact hu.quiet h

end Stable

/-! ## The invariant -/

/-- What the pipeline keeps. -/
structure Pipeline.Inv (rt : PipelineRuntime) (s : Pipeline) : Prop where
  shop : s.shop.Inv rt.toRuntime
  piped : Piped rt.toRuntime s.db.committed
  published : ∀ r ∈ s.db.committed.outbox, r.publishedAt ≠ none → s.Safe r.payload
  genuine : ∀ e, s.Has e → Genuine s.db.committed e
  relays : ∀ k, RelayInv s.db s.Safe k (s.relays k)
  consumers : ∀ d, ConsumerInv s.db rt.arith d (s.deliveries d)
  pruner : s.db.Quiet .pruner

namespace Pipeline

variable {rt : PipelineRuntime} {s s' : Pipeline} {k d : ℕ}

/-- The pipeline before the first call keeps it. -/
theorem Start.inv (h : s.Start rt) : s.Inv rt := by
  have hidle : s.db = Engine.idle s.db.committed := h.shop.idle
  have hquiet : ∀ t, s.db.Quiet t := by
    intro t
    rw [hidle]
    exact Engine.quiet_idle _ _
  refine ⟨h.shop.inv, h.piped, fun r hr hp => .inr (h.published r hr hp), ?_, ?_, ?_, hquiet _⟩
  · rintro e (hw | hq | hd | ⟨d, x, hx, _⟩)
    · rw [h.wire] at hw
      exact absurd hw List.not_mem_nil
    · rw [h.queue] at hq
      exact absurd hq List.not_mem_nil
    · rw [h.dlq] at hd
      exact absurd hd List.not_mem_nil
    · rw [h.deliveries d] at hx
      cases hx
  · intro k
    rw [h.relays k]
    exact hquiet _
  · intro d
    rw [h.deliveries d]
    exact hquiet _

/-- The event of a row that is published stays safe. -/
theorem Safe.mono {e : OrderPlacedEvent} (h : s.Safe e) (hkept : s.Kept e → s'.Safe e)
    (hg : s.db.committed.Grows s'.db.committed) : s'.Safe e := by
  rcases h with h | h
  · exact hkept h
  · exact .inr (h.grows hg)

end Pipeline

end Marketplace
