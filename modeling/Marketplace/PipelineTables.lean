import Marketplace.PipelineInv

/-!
# What transactions make of the tables

A sale adds an order with its row, a pass marks rows of the outbox, a handler adds a
receipt, the pruner takes a row out of the inbox. Each kind of transaction is a
relation between what was committed before and after; the pipeline's facts about the
tables follow from the relation.
-/

namespace Marketplace

section Tables

variable {rt : Runtime} {db db' db'' : Database} {safe : OrderPlacedEvent → Prop}

/-- The event of a sale carries its order. -/
theorem Sale.Valid.carries {p : CheckoutParams} {x : Sale} (hx : x.Valid rt p db) :
    Carries rt (x.order rt p) (x.outboxRow rt p).payload :=
  ⟨hx.announces.eventId, hx.announces.orderId, hx.announces.buyerId, hx.announces.totalAmount⟩

/-- A sale adds an order together with its row. -/
theorem Piped.sale (h : Piped rt db) {p : CheckoutParams} {x : Sale} (hx : x.Valid rt p db) :
    Piped rt (x.apply rt p db) where
  outbox := by
    intro r hr
    rcases List.mem_append.mp hr with hr | hr
    · obtain ⟨o, ho, hrest⟩ := h.outbox r hr
      exact ⟨o, List.mem_append_left _ ho, hrest⟩
    · obtain rfl := List.mem_singleton.mp hr
      exact ⟨_, List.mem_append_right _ (List.mem_singleton_self _), rfl, hx.carries⟩
  announced := by
    intro o ho
    rcases List.mem_append.mp ho with ho | ho
    · obtain ⟨r, hr, heq⟩ := h.announced o ho
      exact ⟨r, List.mem_append_left _ hr, heq⟩
    · obtain rfl := List.mem_singleton.mp ho
      exact ⟨_, List.mem_append_right _ (List.mem_singleton_self _), rfl⟩
  receipts := by
    intro r hr
    obtain ⟨o, ho, hrest⟩ := h.receipts r hr
    exact ⟨o, List.mem_append_left _ ho, hrest⟩
  receiptOrders := h.receiptOrders
  processed := h.processed

/-- A pass marks rows of the outbox whose events are safe, and counts attempts. -/
structure Marked (safe : OrderPlacedEvent → Prop) (db db' : Database) : Prop where
  rest : db' = { db with outbox := db'.outbox }
  ids : db'.outbox.map OutboxRow.id = db.outbox.map OutboxRow.id
  rows : ∀ r' ∈ db'.outbox, ∃ r ∈ db.outbox, r'.id = r.id ∧ r'.payload = r.payload ∧
    r'.aggregateId = r.aggregateId ∧
    (r'.publishedAt ≠ none → r.publishedAt ≠ none ∨ safe r.payload)
  kept : ∀ r ∈ db.outbox, ∃ r' ∈ db'.outbox, r'.payload = r.payload ∧
    r'.aggregateId = r.aggregateId

theorem Marked.refl (db : Database) : Marked safe db db :=
  ⟨rfl, rfl, fun r hr => ⟨r, hr, rfl, rfl, rfl, .inl⟩, fun r hr => ⟨r, hr, rfl, rfl⟩⟩

theorem Marked.of_eq (h : db' = db) : Marked safe db db' := by
  rw [h]
  exact .refl db

theorem Marked.trans (h : Marked safe db db') (h' : Marked safe db' db'') :
    Marked safe db db'' where
  rest := by rw [h'.rest, h.rest]
  ids := h'.ids.trans h.ids
  rows := by
    intro r'' hr''
    obtain ⟨r', hr', hid', hpay', hagg', hpub'⟩ := h'.rows r'' hr''
    obtain ⟨r, hr, hid, hpay, hagg, hpub⟩ := h.rows r' hr'
    refine ⟨r, hr, hid'.trans hid, hpay'.trans hpay, hagg'.trans hagg, ?_⟩
    intro hp
    rcases hpub' hp with hp | hs
    · exact hpub hp
    · exact .inr (hpay ▸ hs)
  kept := by
    intro r hr
    obtain ⟨r', hr', hpay, hagg⟩ := h.kept r hr
    obtain ⟨r'', hr'', hpay', hagg'⟩ := h'.kept r' hr'
    exact ⟨r'', hr'', hpay'.trans hpay, hagg'.trans hagg⟩

/-- Rewriting the row with one id. -/
theorem Marked.mapOutbox {id : ℕ} {f : OutboxRow → OutboxRow} (hid : ∀ r, (f r).id = r.id)
    (hpayload : ∀ r, (f r).payload = r.payload)
    (haggregate : ∀ r, (f r).aggregateId = r.aggregateId)
    (hpublished : ∀ r ∈ db.outbox, r.id = id → (f r).publishedAt ≠ none →
      r.publishedAt ≠ none ∨ safe r.payload) :
    Marked safe db (db.mapOutbox id f) where
  rest := rfl
  ids := Table.map_modify hid
  rows := by
    intro r' hr'
    obtain ⟨r, hr, rfl⟩ := Table.mem_modify.mp hr'
    refine ⟨r, hr, ?_⟩
    split_ifs with heq
    · exact ⟨hid r, hpayload r, haggregate r, hpublished r hr heq⟩
    · exact ⟨rfl, rfl, rfl, .inl⟩
  kept := by
    intro r hr
    refine ⟨_, Table.mem_modify.mpr ⟨r, hr, rfl⟩, ?_⟩
    split_ifs with heq
    · exact ⟨hpayload r, haggregate r⟩
    · exact ⟨rfl, rfl⟩

/-- A change a pass may make: it marks a row whose event is safe, or counts an
attempt. -/
def Markable (safe : OrderPlacedEvent → Prop) (db : Database) : Change → Prop
  | .setPublished id _ => ∀ r ∈ db.outbox, r.id = id → safe r.payload
  | .addAttempt _ => True
  | _ => False

/-- **A pass marks safe rows only**, change by change. -/
theorem Marked.foldl {cs : List Change} (h : ∀ c ∈ cs, Markable safe db c) :
    Marked safe db (cs.foldl Database.redo db) := by
  induction cs generalizing db with
  | nil => exact .refl db
  | cons c cs ih =>
    have hc : Markable safe db c := h c (List.mem_cons_self ..)
    have hfirst : Marked safe db (db.redo c) := by
      cases c with
      | setPublished id now =>
        exact .mapOutbox (fun _ => rfl) (fun _ => rfl) (fun _ => rfl)
          fun r hr heq _ => .inr (hc r hr heq)
      | addAttempt id =>
        exact .mapOutbox (fun _ => rfl) (fun _ => rfl) (fun _ => rfl) fun _ _ _ => .inl
      | _ => exact hc.elim
    refine hfirst.trans (ih ?_)
    intro c' hc'
    have hold := h c' (List.mem_cons_of_mem _ hc')
    cases c' with
    | setPublished id now =>
      intro r' hr' heq
      obtain ⟨r, hr, hid, hpay, _⟩ := hfirst.rows r' hr'
      rw [hpay]
      exact hold r hr (hid.symm.trans heq)
    | addAttempt id => trivial
    | _ => exact hold.elim

theorem Marked.grows (h : Marked safe db db') : db.Grows db' where
  outbox := by
    intro r hr
    obtain ⟨r', hr', hpay, _⟩ := h.kept r hr
    exact ⟨r', hr', hpay⟩
  orderReceipts := by
    rw [h.rest]
    exact fun _ hr => hr

theorem Marked.orders (h : Marked safe db db') : db'.orders = db.orders := by rw [h.rest]

theorem Marked.orderReceipts (h : Marked safe db db') : db'.orderReceipts = db.orderReceipts := by
  rw [h.rest]

theorem Marked.wellFormed (h : Marked safe db db') (hwf : db.WellFormed) : db'.WellFormed := by
  obtain ⟨hproducts, husers, hkeys, horders, hitems, houtbox⟩ := hwf
  have hids := h.ids
  rw [h.rest]
  exact ⟨hproducts, husers, hkeys, horders, hitems, by rw [hids]; exact houtbox⟩

theorem Marked.extends (h : Marked safe db db') : db.Extends db' := by
  rw [h.rest]
  exact ⟨fun _ _ hk => hk, fun _ ho => ho⟩

theorem Marked.piped (h : Marked safe db db') (hp : Piped rt db) : Piped rt db' where
  outbox := by
    intro r' hr'
    obtain ⟨r, hr, _, hpay, hagg, _⟩ := h.rows r' hr'
    obtain ⟨o, ho, hrest⟩ := hp.outbox r hr
    rw [h.orders, hpay, hagg]
    exact ⟨o, ho, hrest⟩
  announced := by
    rw [h.orders]
    intro o ho
    obtain ⟨r, hr, heq⟩ := hp.announced o ho
    obtain ⟨r', hr', _, hagg⟩ := h.kept r hr
    exact ⟨r', hr', hagg.trans heq⟩
  receipts := by
    rw [h.orders, h.orderReceipts]
    exact hp.receipts
  receiptOrders := by
    rw [h.orderReceipts]
    exact hp.receiptOrders
  processed := by
    intro eventId hmem
    have hsame : db'.processedMessages = db.processedMessages := by rw [h.rest]
    rw [hsame] at hmem
    exact (hp.processed eventId hmem).grows h.grows

/-- A handler or the pruner changes the inbox and the receipts only. -/
structure Received (db db' : Database) : Prop where
  rest : db' = { db with
    processedMessages := db'.processedMessages
    orderReceipts := db'.orderReceipts }
  grows : ∀ r ∈ db.orderReceipts, r ∈ db'.orderReceipts

theorem Received.refl (db : Database) : Received db db := ⟨rfl, fun _ hr => hr⟩

theorem Received.outbox (h : Received db db') : db'.outbox = db.outbox := by rw [h.rest]

theorem Received.orders (h : Received db db') : db'.orders = db.orders := by rw [h.rest]

theorem Received.database_grows (h : Received db db') : db.Grows db' where
  outbox := by
    rw [h.outbox]
    exact fun r hr => ⟨r, hr, rfl⟩
  orderReceipts := h.grows

theorem Received.wellFormed (h : Received db db') (hwf : db.WellFormed) : db'.WellFormed := by
  obtain ⟨hproducts, husers, hkeys, horders, hitems, houtbox⟩ := hwf
  rw [h.rest]
  exact ⟨hproducts, husers, hkeys, horders, hitems, houtbox⟩

theorem Received.extends (h : Received db db') : db.Extends db' := by
  rw [h.rest]
  exact ⟨fun _ _ hk => hk, fun _ ho => ho⟩

/-- A row of the inbox comes after the effect. -/
theorem Piped.insertProcessed (h : Piped rt db) {eventId : String}
    (heffected : Effected db eventId) :
    Piped rt (db.redo (.insertProcessed eventId consumerName)) := by
  refine ⟨h.outbox, h.announced, h.receipts, h.receiptOrders, ?_⟩
  intro eventId' hmem
  rcases List.mem_append.mp hmem with hmem | hmem
  · exact h.processed eventId' hmem
  · obtain ⟨rfl, _⟩ := Prod.mk.inj (List.mem_singleton.mp hmem)
    exact heffected

/-- A receipt is one for the order of its event. -/
theorem Piped.insertReceipt (h : Piped rt db) {m : OrderPlacedEvent} (hm : Genuine db m)
    (hnew : Table.lookup OrderReceipt.orderId m.data.orderId db.orderReceipts = none) :
    Piped rt (db.redo (.insertReceipt (m.receipt rt.arith))) where
  outbox := h.outbox
  announced := h.announced
  receipts := by
    intro r hr
    rcases List.mem_append.mp hr with hr | hr
    · exact h.receipts r hr
    · obtain rfl := List.mem_singleton.mp hr
      obtain ⟨row, hrow, rfl⟩ := hm
      obtain ⟨o, ho, _, hc⟩ := h.outbox row hrow
      exact ⟨o, ho, hc.eventId, hc.orderId, hc.buyerId, hc.totalAmount⟩
  receiptOrders := by
    change ((db.orderReceipts ++ [m.receipt rt.arith]).map OrderReceipt.orderId).Nodup
    rw [List.map_append, List.map_singleton]
    refine List.Nodup.append h.receiptOrders (List.nodup_singleton _) ?_
    rw [List.disjoint_singleton]
    intro hmem
    obtain ⟨r, hr, heq⟩ := List.mem_map.mp hmem
    exact Table.lookup_eq_none.mp hnew r hr heq
  processed := by
    intro eventId hmem
    obtain ⟨r, hr, heq⟩ := h.processed eventId hmem
    exact ⟨r, List.mem_append_left _ hr, heq⟩

/-- Pruning takes a row out of the inbox. -/
theorem Piped.deleteProcessed (h : Piped rt db) (messageId consumer : String) :
    Piped rt (db.redo (.deleteProcessed messageId consumer)) := by
  refine ⟨h.outbox, h.announced, h.receipts, h.receiptOrders, ?_⟩
  exact fun eventId hmem => h.processed eventId (List.mem_of_mem_filter hmem)

/-- **What COMMIT of a handler makes of the tables**, and that the event has then had
its effect. -/
theorem Prepared.view {e : Engine Database Change Lock Client} {d : ℕ} {m : OrderPlacedEvent}
    (h : Prepared e rt.arith d m) (hp : Piped rt e.committed) (hm : Genuine e.committed m) :
    Received e.committed (e.view (.consumer d)) ∧ Piped rt (e.view (.consumer d)) ∧
      Effected (e.view (.consumer d)) m.eventId := by
  cases h with
  | seen hlog heffected =>
    rw [Engine.view, hlog]
    exact ⟨.refl _, hp, heffected⟩
  | known hlog heffected =>
    rw [Engine.view, hlog]
    exact ⟨⟨rfl, fun _ hr => hr⟩, hp.insertProcessed heffected, heffected⟩
  | new hlog hheld hnew =>
    have hview : e.view (.consumer d)
        = (e.committed.redo (.insertReceipt (m.receipt rt.arith))).redo
            (.insertProcessed m.eventId consumerName) := by
      rw [Engine.view, hlog]
      rfl
    rw [hview]
    -- the two rows are in different tables, so their order does not matter
    have heffected : Effected (e.committed.redo (.insertReceipt (m.receipt rt.arith))) m.eventId :=
      ⟨_, List.mem_append_right _ (List.mem_singleton_self _), rfl⟩
    exact ⟨⟨rfl, fun _ hr => List.mem_append_left _ hr⟩,
      (hp.insertReceipt hm hnew).insertProcessed heffected, heffected⟩

end Tables

/-! ## What a pass knows of its batch -/

section Batches

variable {e e' : Engine Database Change Lock Client} {safe safe' : OrderPlacedEvent → Prop}
  {k now : ℕ} {b : Batch}

/-- The batch knows as much at the head of the loop, and after it. -/
theorem relayPcInv_next (hlog : e.log (.relay k) = []) (hb : Batched e safe k b) :
    RelayPcInv e safe k b.next := by
  unfold Batch.next
  split_ifs with htodo hdone
  · exact ⟨hlog, hb⟩
  · exact ⟨hlog, hb⟩
  · rw [not_not] at hdone
    unfold Batch.afterUpdate
    rcases hfailed : b.failed with _ | id
    · exact ⟨⟨0, by rw [hlog, hdone, hfailed]; rfl⟩, hb⟩
    · exact ⟨⟨0, by rw [hlog, hdone]; rfl⟩, hb⟩

theorem relayPcInv_afterUpdate (hlog : e.log (.relay k) = marks now b.done)
    (hb : Batched e safe k b) : RelayPcInv e safe k b.afterUpdate := by
  unfold Batch.afterUpdate
  rcases hfailed : b.failed with _ | id
  · exact ⟨⟨now, by rw [hlog, hfailed, Option.toList_none, List.map_nil, List.append_nil]⟩, hb⟩
  · exact ⟨⟨now, hlog⟩, hb⟩

theorem batched_start {rows : List OutboxRow} (h : Claims e k rows) :
    Batched e safe k (Batch.start rows) where
  claims := h
  todo := fun _ hr => hr
  done := fun _ hid => absurd hid List.not_mem_nil
  failed := fun _ hid => by cases hid

/-- The log of a pass marks the rows done, whose events are safe. -/
theorem Batched.markable (h : Batched e safe k b) (hwf : e.committed.WellFormed)
    {log : List Change} (hlog : log = marks now b.done ++ b.failed.toList.map .addAttempt) :
    ∀ ch ∈ log, Markable safe e.committed ch := by
  rw [hlog]
  intro ch hch
  rcases List.mem_append.mp hch with hch | hch
  · obtain ⟨id, hid, rfl⟩ := List.mem_map.mp hch
    obtain ⟨row, hrow, rfl, hs⟩ := h.done id hid
    intro r hr hrid
    -- the row is the one locked
    have hmem := Table.mem_of_lookup (h.claims row hrow).2
    obtain rfl := List.inj_on_of_nodup_map hwf.outbox hr hmem hrid
    exact hs
  · obtain ⟨id, _, rfl⟩ := List.mem_map.mp hch
    trivial

/-- Writing rows one after another. -/
theorem write_foldl {t : Client} (cs : List Change) :
    (cs.foldl (fun e ch => e.write t ch) e).committed = e.committed ∧
      (cs.foldl (fun e ch => e.write t ch) e).holder = e.holder ∧
      (cs.foldl (fun e ch => e.write t ch) e).log t = e.log t ++ cs := by
  induction cs generalizing e with
  | nil => exact ⟨rfl, rfl, (List.append_nil _).symm⟩
  | cons c cs ih =>
    obtain ⟨hcommitted, hholder, hlog⟩ := ih (e := e.write t c)
    refine ⟨hcommitted, hholder, ?_⟩
    rw [List.foldl_cons, hlog, Engine.write_log_self, List.append_assoc]
    rfl

theorem wellLocked_write_foldl {t : Client}
    (h : e.WellLocked) (cs : List Change)
    (hheld : ∀ c ∈ cs, ∀ l, c.Touches l → e.holder l = some t) :
    (cs.foldl (fun e ch => e.write t ch) e).WellLocked := by
  induction cs generalizing e with
  | nil => exact h
  | cons c cs ih =>
    refine ih (h.write (hheld c (List.mem_cons_self ..))) ?_
    exact fun c' hc' l hl => hheld c' (List.mem_cons_of_mem _ hc') l hl

theorem undisturbed_write_foldl {t t' : Client}
    (cs : List Change) (hne : t' ≠ t) :
    e.Undisturbed (cs.foldl (fun e ch => e.write t ch) e) t' := by
  induction cs generalizing e with
  | nil => exact .refl _ _
  | cons c cs ih => exact (Engine.undisturbed_write e c hne).trans ih

/-- What a pass knows of its batch depends on its locks and what is committed. -/
theorem Batched.of_eq (h : Batched e safe k b)
    (hcommitted : e'.committed = e.committed) (hholder : e'.holder = e.holder)
    (hsafe : ∀ e, safe e → safe' e) : Batched e' safe' k b := by
  refine ⟨?_, h.todo, ?_, h.failed⟩
  · intro r hr
    rw [hcommitted, hholder]
    exact h.claims r hr
  · intro id hid
    obtain ⟨r, hr, hrid, hs⟩ := h.done id hid
    exact ⟨r, hr, hrid, hsafe _ hs⟩

/-- The event of a row to publish is one of the outbox. -/
theorem Batched.genuine (h : Batched e safe k b) {row : OutboxRow} (hrow : row ∈ b.todo) :
    Genuine e.committed row.payload :=
  ⟨row, Table.mem_of_lookup (h.claims row (h.todo row hrow)).2, rfl⟩

end Batches

end Marketplace
