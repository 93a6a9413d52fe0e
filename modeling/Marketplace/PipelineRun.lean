import Marketplace.Passes

/-!
# Every step of the pipeline keeps the invariant

One lemma for each kind of step says what has to be shown of it: of a checkout, of a
pass, of a handler or of the broker. Then one case for each point of a pass and of a
handler, and one for each event.
-/

namespace Marketplace

/-! ## The steps of the actors -/

namespace Pipeline

variable {rt : PipelineRuntime} {s s' : Pipeline} {k d : ℕ}

/-- The step of a checkout adds rows that are not published, and changes none. -/
theorem outbox_checkout (h : s.shop.Inv rt.toRuntime) {a : CheckoutEvent} {shop : Shop}
    (hs : s.shop.step rt.toRuntime a = some shop) :
    s.db.committed.Grows shop.db.committed ∧
      (∀ r ∈ s.db.committed.outbox, r ∈ shop.db.committed.outbox) ∧
      ∀ r ∈ shop.db.committed.outbox, r.publishedAt ≠ none → r ∈ s.db.committed.outbox := by
  rcases h.committed_step hs with heq | ⟨p, x, hx, heq, _⟩
  · rw [heq]
    exact ⟨.refl _, fun _ hr => hr, fun _ hr _ => hr⟩
  · rw [heq]
    refine ⟨⟨fun r hr => ⟨r, List.mem_append_left _ hr, rfl⟩, fun _ hr => hr⟩,
      fun _ hr => List.mem_append_left _ hr, fun r hr hpub => ?_⟩
    rcases List.mem_append.mp hr with hr | hr
    · exact hr
    · obtain rfl := List.mem_singleton.mp hr
      exact absurd rfl hpub

/-- **The step of a checkout.** -/
theorem Inv.checkout (h : s.Inv rt) {a : CheckoutEvent} {shop : Shop}
    (hs : s.shop.step rt.toRuntime a = some shop) :
    ({ s with shop } : Pipeline).Inv rt := by
  have hothers : ∀ t, (∀ i, t ≠ .checkout i) → s.db.Undisturbed shop.db t :=
    fun t ht => h.shop.others_step hs (ht a.id)
  have hpiped : Piped rt.toRuntime shop.db.committed := by
    rcases h.shop.committed_step hs with heq | ⟨p, x, hx, heq, _⟩
    · rw [heq]
      exact h.piped
    · rw [heq]
      exact h.piped.sale hx
  obtain ⟨hgrows, -, houtbox⟩ := outbox_checkout h.shop hs
  have hsafe : ∀ e, s.Safe e → ({ s with shop } : Pipeline).Safe e :=
    fun e he => he.mono .inl hgrows
  refine ⟨checkouts_invariant _ _ _ h.shop hs, hpiped, ?_, ?_, ?_, ?_, ?_⟩
  · exact fun r hr hpub => hsafe _ (h.published r (houtbox r hr hpub) hpub)
  · exact fun e he => (h.genuine e he).grows hgrows
  · exact fun k => (h.relays k).stable (hothers _ fun i hi => by cases hi) hsafe
  · exact fun d => (h.consumers d).stable (hothers _ fun i hi => by cases hi) hgrows
  · exact (hothers _ fun i hi => by cases hi).quiet h.pruner

section RelayTook

variable {n : ℕ} {pc : RelayPc} {st : RelayStatus}

/-- A pass takes no event back. -/
theorem RelayTook.safe (took : RelayTook s s' k n pc st) (e : OrderPlacedEvent) (he : s.Safe e) :
    s'.Safe e :=
  he.mono (fun hk => .inl (safe_of_subset took.queue (fun _ he => took.dlq ▸ he)
    took.deliveries hk)) took.marked.grows

/-- What holds of the shop is kept. -/
theorem RelayTook.shopInv (took : RelayTook s s' k n pc st) (h : s.shop.Inv rt.toRuntime) :
    s'.shop.Inv rt.toRuntime := by
  have hcalls : s'.shop.calls = s.shop.calls := by rw [took.shop]
  have hnext : s'.shop.nextOrder = s.shop.nextOrder := by rw [took.shop]
  exact h.other hcalls hnext took.locked (fun i => took.others _ fun hi => by cases hi)
    (took.marked.wellFormed h.wellFormed) took.marked.extends took.marked.orders

/-- What holds of every pass is kept. -/
theorem RelayTook.relaysInv (took : RelayTook s s' k n pc st)
    (h : ∀ k, RelayInv s.db s.Safe k (s.relays k)) (k' : ℕ) :
    RelayInv s'.db s'.Safe k' (s'.relays k') := by
  rw [took.relays]
  refine (Function.forall_update_iff s.relays fun k c => RelayInv s'.db s'.Safe k c).mpr
    ⟨took.self, fun k' hk => ?_⟩ k'
  exact (h k').stable (took.others _ fun hi => hk (Client.relay.inj hi)) took.safe

end RelayTook

/-- **The step of a pass.** -/
theorem Inv.relay_next (h : s.Inv rt) {n : ℕ} {pc : RelayPc} {st : RelayStatus}
    (took : RelayTook s s' k n pc st) : s'.Inv rt := by
  refine ⟨took.shopInv h.shop, took.marked.piped h.piped, ?_, ?_, took.relaysInv h.relays, ?_, ?_⟩
  · intro r' hr' hpub
    obtain ⟨r, hr, _, hpay, _, hwhy⟩ := took.marked.rows r' hr'
    rw [hpay]
    rcases hwhy hpub with hpub | hs
    · exact took.safe _ (h.published r hr hpub)
    · exact took.safe _ hs
  · intro e he
    rcases took.has e he with he | he
    · exact (h.genuine e he).grows took.marked.grows
    · exact he.grows took.marked.grows
  · intro d
    rw [took.deliveries]
    exact (h.consumers d).stable (took.others _ fun hi => by cases hi) took.marked.grows
  · exact (took.others _ fun hi => by cases hi).quiet h.pruner

/-- A pass that begins has nothing open. -/
theorem Inv.relay_began (h : s.Inv rt) {n : ℕ} (hnone : s.relays k = none) :
    (s.setRelay k ⟨n, .running .scan⟩ (.running .scan)).Inv rt := by
  refine ⟨h.shop, h.piped, h.published, h.genuine, ?_, h.consumers, h.pruner⟩
  have hquiet := h.relays k
  rw [hnone] at hquiet
  exact (Function.forall_update_iff s.relays fun k c => RelayInv s.db s.Safe k c).mpr
    ⟨hquiet, fun k' _ => h.relays k'⟩

/-- **The events of a pass.** -/
theorem Inv.relay (h : s.Inv rt) {a : PipelineEvent} (ha : a.pass = some k)
    (hs : s.step rt a = some s') : s'.Inv rt := by
  cases relay_stepped h.shop.locked h.shop.wellFormed (h.relays k) ha hs with
  | began n hnone heq => exact heq ▸ h.relay_began hnone
  | moved n pc st hc took => exact h.relay_next took

/-- **The step of a handler or of the broker with a delivery**: the message of the
delivery goes nowhere but to a queue, unless its event has had its effect. -/
theorem Inv.delivery_next (h : s.Inv rt) {x' : Delivery}
    (hshop : s'.shop = { s.shop with db := s'.db }) (hrelays : s'.relays = s.relays)
    (hdeliveries : s'.deliveries = Function.update s.deliveries d (some x'))
    (hhas : ∀ e, s'.Has e → s.Has e) (hkept : ∀ e, s.Kept e → s'.Safe e)
    (hlocked : s'.db.WellLocked)
    (hothers : ∀ t, t ≠ .consumer d → Engine.Undisturbed s.db s'.db t)
    (hreceived : Received s.db.committed s'.db.committed)
    (hpiped : Piped rt.toRuntime s'.db.committed)
    (hself : ConsumerInv s'.db rt.arith d (some x')) : s'.Inv rt := by
  have hgrows := hreceived.database_grows
  have hsafe : ∀ e, s.Safe e → s'.Safe e := fun e he => he.mono (hkept e) hgrows
  have hcalls : s'.shop.calls = s.shop.calls := by rw [hshop]
  have hnext : s'.shop.nextOrder = s.shop.nextOrder := by rw [hshop]
  refine ⟨?_, hpiped, ?_, ?_, ?_, ?_, ?_⟩
  · exact h.shop.other hcalls hnext hlocked (fun i => hothers _ fun hi => by cases hi)
      (hreceived.wellFormed h.shop.wellFormed) hreceived.extends hreceived.orders
  · rw [hreceived.outbox]
    exact fun r hr hpub => hsafe _ (h.published r hr hpub)
  · exact fun e he => (h.genuine e (hhas e he)).grows hgrows
  · intro k
    rw [hrelays]
    exact (h.relays k).stable (hothers _ fun hi => by cases hi) hsafe
  · rw [hdeliveries]
    refine (Function.forall_update_iff s.deliveries fun d x => ConsumerInv s'.db rt.arith d x).mpr
      ⟨hself, fun d' hd => ?_⟩
    exact (h.consumers d').stable (hothers _ fun hi => hd (Client.consumer.inj hi)) hgrows
  · exact (hothers _ fun hi => by cases hi).quiet h.pruner

/-! ## Handlers -/

section Handlers

variable {x y : Delivery} {m : OrderPlacedEvent} {held dead : Bool}

theorem Inv.consumer_running (h : s.Inv rt) {pc : ConsumerPc}
    (hx : s.deliveries d = some ⟨m, held, .running pc⟩) :
    ConsumerPcInv s.db rt.arith d m pc := by
  have := h.consumers d
  rwa [hx] at this

/-- The message of a delivery is genuine. -/
theorem Inv.genuine_delivery (h : s.Inv rt) (hx : s.deliveries d = some x) :
    Genuine s.db.committed x.message :=
  h.genuine _ (.inr (.inr (.inr ⟨d, x, hx, rfl⟩)))

/-- The queues keep what they have and get at most the message of the delivery. -/
structure Handed (s s' : Pipeline) (x : Delivery) : Prop where
  wire : s'.wire = s.wire
  queue : ∀ e ∈ s.queue, e ∈ s'.queue
  dlq : ∀ e ∈ s.dlq, e ∈ s'.dlq
  fresh : ∀ e, e ∈ s'.queue ∨ e ∈ s'.dlq → e ∈ s.queue ∨ e ∈ s.dlq ∨ e = x.message

theorem Handed.refl (s : Pipeline) (x : Delivery) : Handed s s x :=
  ⟨rfl, fun _ he => he, fun _ he => he, fun _ he => he.imp_right .inl⟩

/-- Giving back hands over the message, if the broker still counts on it. -/
theorem handed_giveBack (s : Pipeline) (x : Delivery) (dead : Bool) :
    Handed s (s.giveBack x dead) x := by
  unfold giveBack
  split_ifs
  · refine ⟨rfl, fun _ he => he, fun _ he => List.mem_append_left _ he, ?_⟩
    rintro e (he | he)
    · exact .inl he
    · exact .inr ((List.mem_append.mp he).imp_right List.mem_singleton.mp)
  · refine ⟨rfl, fun _ he => List.mem_append_left _ he, fun _ he => he, ?_⟩
    rintro e (he | he)
    · exact (List.mem_append.mp he).imp_right fun he => .inr (List.mem_singleton.mp he)
    · exact .inr (.inl he)
  · exact .refl s x

theorem giveBack_shop : (s.giveBack x dead).shop = s.shop := by
  unfold giveBack
  split_ifs <;> rfl

theorem giveBack_relays : (s.giveBack x dead).relays = s.relays := by
  unfold giveBack
  split_ifs <;> rfl

theorem giveBack_deliveries : (s.giveBack x dead).deliveries = s.deliveries := by
  unfold giveBack
  split_ifs <;> rfl

/-- What is given back is in a queue. -/
theorem mem_giveBack (hheld : x.held = true) :
    x.message ∈ (s.giveBack x dead).queue ∨ x.message ∈ (s.giveBack x dead).dlq := by
  unfold giveBack
  rw [if_pos hheld]
  split_ifs
  · exact .inr (List.mem_append_right _ (List.mem_singleton_self _))
  · exact .inl (List.mem_append_right _ (List.mem_singleton_self _))

/-- **The step of a handler**, of the broker with its delivery, or of both. When the
broker no longer counts on the delivery, its message is in a queue or its event has
had its effect. -/
theorem Inv.handler_next (h : s.Inv rt) (hx : s.deliveries d = some x)
    (hmessage : y.message = x.message)
    (hshop : s'.shop = { s.shop with db := s'.db }) (hrelays : s'.relays = s.relays)
    (hdeliveries : s'.deliveries = Function.update s.deliveries d (some y))
    (hhanded : Handed s s' x)
    (hheld : x.held = true → y.held = true ∨ x.message ∈ s'.queue ∨ x.message ∈ s'.dlq ∨
      Effected s'.db.committed x.message.eventId)
    (hlocked : s'.db.WellLocked)
    (hothers : ∀ t, t ≠ .consumer d → Engine.Undisturbed s.db s'.db t)
    (hreceived : Received s.db.committed s'.db.committed)
    (hpiped : Piped rt.toRuntime s'.db.committed)
    (hself : ConsumerInv s'.db rt.arith d (some y)) : s'.Inv rt := by
  have hself' : s'.deliveries d = some y := by rw [hdeliveries, Function.update_self]
  have hother : ∀ d', d' ≠ d → s'.deliveries d' = s.deliveries d' := by
    intro d' hd
    rw [hdeliveries, Function.update_of_ne hd]
  refine h.delivery_next hshop hrelays hdeliveries ?_ ?_ hlocked hothers hreceived hpiped hself
  · have hmine : s.Has x.message := .inr (.inr (.inr ⟨d, x, hx, rfl⟩))
    have hqueues : ∀ e, e ∈ s'.queue ∨ e ∈ s'.dlq → s.Has e := by
      intro e he
      rcases hhanded.fresh e he with he | he | rfl
      · exact .inr (.inl he)
      · exact .inr (.inr (.inl he))
      · exact hmine
    rintro e (he | he | he | ⟨d', z, hz, rfl⟩)
    · exact .inl (hhanded.wire ▸ he)
    · exact hqueues e (.inl he)
    · exact hqueues e (.inr he)
    · by_cases hd : d' = d
      · subst hd
        obtain rfl := Option.some.inj (hself'.symm.trans hz)
        rw [hmessage]
        exact hmine
      · exact .inr (.inr (.inr ⟨d', z, (hother d' hd).symm.trans hz, rfl⟩))
  · rintro e (he | he | ⟨d', z, hz, hzheld, rfl⟩)
    · exact .inl (.inl (hhanded.queue e he))
    · exact .inl (.inr (.inl (hhanded.dlq e he)))
    · by_cases hd : d' = d
      · subst hd
        obtain rfl := Option.some.inj (hx.symm.trans hz)
        rcases hheld hzheld with hkeep | hq | hd | heffected
        · exact .inl (.inr (.inr ⟨_, y, hself', hkeep, hmessage⟩))
        · exact .inl (.inl hq)
        · exact .inl (.inr (.inl hd))
        · exact .inr heffected
      · exact .inl (.inr (.inr ⟨d', z, (hother d' hd).trans hz, hzheld, rfl⟩))

/-- A handler takes its step; its delivery stays as it is. -/
theorem Inv.handler_goto (h : s.Inv rt) (hx : s.deliveries d = some x)
    {e : Engine Database Change Lock Client} {status : ConsumerStatus} (hlocked : e.WellLocked)
    (hothers : ∀ t, t ≠ .consumer d → s.db.Undisturbed e t)
    (hreceived : Received s.db.committed e.committed)
    (hpiped : Piped rt.toRuntime e.committed)
    (hself : ConsumerInv e rt.arith d (some { x with status })) :
    ((s.setDb e).setDelivery d { x with status }).Inv rt := by
  have hh : Handed s s x := .refl s x
  exact h.handler_next (y := { x with status }) hx rfl rfl rfl rfl
    ⟨hh.wire, hh.queue, hh.dlq, hh.fresh⟩ .inl hlocked hothers hreceived hpiped hself

/-- The broker gets the message back. -/
theorem Inv.handler_gives (h : s.Inv rt) (hx : s.deliveries d = some x)
    {e : Engine Database Change Lock Client} {status : ConsumerStatus} (hlocked : e.WellLocked)
    (hothers : ∀ t, t ≠ .consumer d → s.db.Undisturbed e t)
    (hcommitted : e.committed = s.db.committed)
    (hself : ConsumerInv e rt.arith d (some { x with held := false, status })) :
    (((s.giveBack x dead).setDb e).setDelivery d { x with held := false, status }).Inv rt := by
  have hh := handed_giveBack s x dead
  refine h.handler_next (y := { x with held := false, status }) hx rfl ?_ giveBack_relays ?_
    ⟨hh.wire, hh.queue, hh.dlq, hh.fresh⟩ ?_ hlocked hothers ?_ ?_ hself
  · change { (s.giveBack x dead).shop with db := e } = _
    rw [giveBack_shop]
    rfl
  · change Function.update (s.giveBack x dead).deliveries d _ = _
    rw [giveBack_deliveries]
  · intro hheld
    have hback : x.message ∈ (s.giveBack x dead).queue ∨ x.message ∈ (s.giveBack x dead).dlq :=
      mem_giveBack hheld
    rcases hback with hq | hd
    · exact .inr (.inl hq)
    · exact .inr (.inr (.inl hd))
  · change Received s.db.committed e.committed
    rw [hcommitted]
    exact .refl _
  · change Piped rt.toRuntime e.committed
    rw [hcommitted]
    exact h.piped

/-- As it is, without a statement of the handler. -/
theorem Inv.handler_returns (h : s.Inv rt) (hx : s.deliveries d = some x)
    {status : ConsumerStatus}
    (hself : ConsumerInv s.db rt.arith d (some { x with held := false, status })) :
    ((s.giveBack x dead).setDelivery d { x with held := false, status }).Inv rt := by
  have hnext : (((s.giveBack x dead).setDb s.db).setDelivery d
      { x with held := false, status }).Inv rt :=
    h.handler_gives hx h.shop.locked (fun _ _ => .refl _ _) rfl hself
  have hsame : (s.giveBack x dead).setDb s.db = s.giveBack x dead := by
    unfold giveBack
    split_ifs <;> rfl
  rwa [hsame] at hnext

/-- A receipt with the event or the order of a genuine message is the one for its
event: an event id belongs to its order. -/
theorem Inv.effected_of_conflict (h : s.Inv rt) (hm : Genuine s.db.committed m)
    {r : OrderReceipt} (hr : r ∈ s.db.committed.orderReceipts)
    (hconflict : r.eventId = m.eventId ∨ r.orderId = m.data.orderId) :
    Effected s.db.committed m.eventId := by
  refine ⟨r, hr, ?_⟩
  rcases hconflict with heq | heq
  · exact heq
  · obtain ⟨row, hrow, rfl⟩ := hm
    obtain ⟨o, _, _, hc⟩ := h.piped.outbox row hrow
    obtain ⟨o', _, hc'⟩ := h.piped.receipts r hr
    have hid : o'.id = o.id := by rw [← hc'.orderId, heq, hc.orderId]
    rw [hc'.eventId, hc.eventId, hid]

/-- What COMMIT of a handler does. -/
theorem Inv.consumer_commit (h : s.Inv rt) {applied : Bool} {pc : ConsumerPc}
    (hx : s.deliveries d = some ⟨m, held, .running (.commit applied)⟩)
    (hpc : pc = .ack applied ∨ pc = .requeue) :
    ((s.setDb (s.db.commit (.consumer d))).setDelivery d ⟨m, held, .running pc⟩).Inv rt := by
  have hprepared : Prepared s.db rt.arith d m := h.consumer_running hx
  obtain ⟨hreceived, hpiped, heffected⟩ := hprepared.view h.piped (h.genuine_delivery hx)
  refine h.handler_goto hx (h.shop.locked.commit _)
    (fun _ hne => Engine.undisturbed_commit h.shop.locked hne) hreceived hpiped ?_
  rcases hpc with rfl | rfl
  · exact ⟨Engine.quiet_commit _ _, heffected⟩
  · exact Engine.quiet_commit _ _

/-- ROLLBACK of a handler. -/
theorem Inv.consumer_abort (h : s.Inv rt) {st : ConsumerStatus}
    (hx : s.deliveries d = some ⟨m, held, st⟩) :
    ((s.setDb (s.db.abort (.consumer d))).setDelivery d ⟨m, held, .running .requeue⟩).Inv rt :=
  h.handler_goto hx (h.shop.locked.abort _) (fun _ hne => Engine.undisturbed_abort _ hne)
    (.refl _) h.piped (Engine.quiet_abort _ _)

/-- **Every step of a handler keeps the invariant.** -/
theorem Inv.consumerExec (h : s.Inv rt) {pc : ConsumerPc}
    (hx : s.deliveries d = some ⟨m, held, .running pc⟩)
    (hs : s.consumerExec rt d ⟨m, held, .running pc⟩ dead pc = some s') : s'.Inv rt := by
  have hself := h.consumer_running hx
  have hm : Genuine s.db.committed m := h.genuine_delivery hx
  cases pc with
  | reject =>
    obtain rfl := Option.some.inj hs
    exact h.handler_returns hx hself
  | insertProcessed =>
    have hquiet : s.db.Quiet (.consumer d) := hself
    simp only [Pipeline.consumerExec] at hs
    rw [hquiet.view] at hs
    split_ifs at hs with hseen hfree
    · obtain rfl := Option.some.inj hs
      exact h.handler_goto hx h.shop.locked (fun _ _ => .refl _ _) (.refl _) h.piped
        (.seen hquiet.1 (h.piped.processed _ hseen))
    · obtain rfl := Option.some.inj hs
      refine h.handler_goto hx ((h.shop.locked.acquire hfree).write ?_)
        (fun _ hne => (Engine.undisturbed_acquire hfree hne).trans
          (Engine.undisturbed_write _ _ hne)) (.refl _) h.piped ?_
      · rintro l rfl
        exact Engine.acquire_holder_self ..
      · refine (Engine.write_log_self ..).trans ?_
        rw [Engine.acquire_log, hquiet.1]
        rfl
  | insertReceipt =>
    have hlog : s.db.log (.consumer d) = [.insertProcessed m.eventId consumerName] := hself
    have hview : (s.db.view (.consumer d)).orderReceipts = s.db.committed.orderReceipts := by
      rw [Engine.view, hlog]
      rfl
    simp only [Pipeline.consumerExec] at hs
    rw [hview] at hs
    split_ifs at hs with hfits hconflict hfree
    · obtain rfl := Option.some.inj hs
      obtain ⟨r, hr, hr'⟩ := hconflict
      exact h.handler_goto hx h.shop.locked (fun _ _ => .refl _ _) (.refl _) h.piped
        (.known hlog (h.effected_of_conflict hm hr hr'))
    · obtain rfl := Option.some.inj hs
      rw [Bool.and_eq_true] at hfree
      obtain ⟨hfirst, hsecond⟩ := hfree
      have hsecond' : (s.db.acquire (.consumer d) (.receiptEvent m.eventId)).free (.consumer d)
          (.receiptOrder m.data.orderId) = true := hsecond
      refine h.handler_goto hx (((h.shop.locked.acquire hfirst).acquire hsecond').write ?_)
        (fun _ hne => ((Engine.undisturbed_acquire hfirst hne).trans
          (Engine.undisturbed_acquire hsecond' hne)).trans (Engine.undisturbed_write _ _ hne))
        (.refl _) h.piped (.new ?_ ?_ ?_)
      · rintro l (rfl | rfl)
        · exact (Engine.acquire_holder_ne _ _ (by simp)).trans (Engine.acquire_holder_self ..)
        · exact Engine.acquire_holder_self ..
      · refine (Engine.write_log_self ..).trans ?_
        rw [Engine.acquire_log, Engine.acquire_log, hlog]
        rfl
      · exact Engine.acquire_holder_self ..
      · rw [Table.lookup_eq_none]
        exact fun r hr heq => hconflict ⟨r, hr, .inr heq⟩
    · obtain rfl := Option.some.inj hs
      exact h.consumer_abort hx
  | commit applied =>
    obtain rfl := Option.some.inj hs
    exact h.consumer_commit hx (.inl rfl)
  | ack applied =>
    obtain rfl := Option.some.inj hs
    obtain ⟨hquiet, heffected⟩ := hself
    have hh : Handed s s ⟨m, held, .running (.ack applied)⟩ := .refl s _
    exact h.handler_next (y := ⟨m, false, .ended⟩) hx rfl rfl rfl rfl
      ⟨hh.wire, hh.queue, hh.dlq, hh.fresh⟩ (fun _ => .inr (.inr (.inr heffected)))
      h.shop.locked (fun _ _ => .refl _ _) (.refl _) h.piped hquiet
  | requeue =>
    obtain rfl := Option.some.inj hs
    exact h.handler_returns hx hself

/-- A statement or an answer to the broker that fails. -/
theorem Inv.consumerFails (h : s.Inv rt) {pc : ConsumerPc}
    (hx : s.deliveries d = some ⟨m, held, .running pc⟩) :
    (s.consumerFails d ⟨m, held, .running pc⟩ pc).Inv rt := by
  have hself := h.consumer_running hx
  cases pc with
  | reject | requeue =>
    exact h.handler_goto hx h.shop.locked (fun _ _ => .refl _ _) (.refl _) h.piped hself
  | insertProcessed | insertReceipt | commit applied => exact h.consumer_abort hx
  | ack applied =>
    exact h.handler_goto hx h.shop.locked (fun _ _ => .refl _ _) (.refl _) h.piped hself.1

end Handlers

/-! ## Events -/

/-- The broker moves messages between its queues, or loses some on the wire. -/
theorem Inv.broker_next (h : s.Inv rt) (hshop : s'.shop = s.shop)
    (hrelays : s'.relays = s.relays) (hdeliveries : s'.deliveries = s.deliveries)
    (hkept : ∀ e, s.Kept e → s'.Kept e) (hhas : ∀ e, s'.Has e → s.Has e) : s'.Inv rt := by
  have hdb : s'.db = s.db := by rw [Pipeline.db, Pipeline.db, hshop]
  have hsafe : ∀ e, s.Safe e → s'.Safe e := by
    intro e he
    refine he.mono (fun hk => .inl (hkept e hk)) ?_
    rw [hdb]
    exact .refl _
  refine ⟨?_, ?_, ?_, ?_, ?_, ?_, ?_⟩
  · rw [hshop]
    exact h.shop
  · rw [hdb]
    exact h.piped
  · rw [hdb]
    exact fun r hr hpub => hsafe _ (h.published r hr hpub)
  · rw [hdb]
    exact fun e he => h.genuine e (hhas e he)
  · intro k
    rw [hdb, hrelays]
    exact (h.relays k).stable (.refl _ _) hsafe
  · rw [hdb, hdeliveries]
    exact h.consumers
  · rw [hdb]
    exact h.pruner

/-- A row of the inbox goes; the receipts stay. -/
theorem Inv.prune (h : s.Inv rt) {messageId consumer : String}
    (hfree : s.db.free .pruner (.processed messageId consumer) = true) :
    (s.setDb (((s.db.acquire .pruner (.processed messageId consumer)).write .pruner
      (.deleteProcessed messageId consumer)).commit .pruner)).Inv rt := by
  have hlocked := h.shop.locked.acquire hfree
  have hwritten := hlocked.write (c := .deleteProcessed messageId consumer) (t := .pruner) (by
    rintro l rfl
    exact Engine.acquire_holder_self ..)
  have hothers : ∀ t, t ≠ .pruner → s.db.Undisturbed (((s.db.acquire .pruner
      (.processed messageId consumer)).write .pruner
        (.deleteProcessed messageId consumer)).commit .pruner) t := fun t hne =>
    ((Engine.undisturbed_acquire hfree hne).trans (Engine.undisturbed_write _ _ hne)).trans
      (Engine.undisturbed_commit hwritten hne)
  have hcommitted : (((s.db.acquire .pruner (.processed messageId consumer)).write .pruner
      (.deleteProcessed messageId consumer)).commit .pruner).committed
        = s.db.committed.redo (.deleteProcessed messageId consumer) := by
    rw [Engine.commit_committed, Engine.view, Engine.write_log_self, Engine.acquire_log,
      h.pruner.1]
    rfl
  have hreceived : Received s.db.committed
      (s.db.committed.redo (.deleteProcessed messageId consumer)) := ⟨rfl, fun _ hr => hr⟩
  have hgrows := hreceived.database_grows
  rw [← hcommitted] at hreceived hgrows
  have hsafe : ∀ e, s.Safe e → (s.setDb (((s.db.acquire .pruner (.processed messageId
      consumer)).write .pruner (.deleteProcessed messageId consumer)).commit .pruner)).Safe e :=
    fun e he => he.mono .inl hgrows
  refine ⟨?_, ?_, ?_, ?_, ?_, ?_, Engine.quiet_commit _ _⟩
  · exact h.shop.other rfl rfl (hwritten.commit _)
      (fun i => hothers _ fun hi => by cases hi) (hreceived.wellFormed h.shop.wellFormed)
      hreceived.extends hreceived.orders
  · rw [setDb_db, hcommitted]
    exact h.piped.deleteProcessed ..
  · rw [setDb_db, hreceived.outbox]
    exact fun r hr hpub => hsafe _ (h.published r hr hpub)
  · exact fun e he => (h.genuine e he).grows hgrows
  · exact fun k => (h.relays k).stable (hothers _ fun hi => by cases hi) hsafe
  · exact fun d => (h.consumers d).stable (hothers _ fun hi => by cases hi) hgrows

/-- The broker takes a message from the wire. -/
theorem Inv.arrive (h : s.Inv rt) {n : ℕ} {e : OrderPlacedEvent} (hn : s.wire[n]? = some e) :
    ({ s with wire := s.wire.eraseIdx n, queue := s.queue ++ [e] } : Pipeline).Inv rt := by
  refine h.broker_next rfl rfl rfl ?_ ?_
  · intro e' he'
    refine safe_of_subset (s := s) ?_ ?_ ?_ he'
    · exact fun _ he => List.mem_append_left _ he
    · exact fun _ he => he
    · rfl
  · rintro e' (he | he | he)
    · exact .inl (List.mem_of_mem_eraseIdx he)
    · rcases List.mem_append.mp he with he | he
      · exact .inr (.inl he)
      · obtain rfl := List.mem_singleton.mp he
        exact .inl (List.mem_of_getElem? hn)
    · exact .inr (.inr he)

/-- A message on the wire is lost. -/
theorem Inv.drop (h : s.Inv rt) {n : ℕ} :
    ({ s with wire := s.wire.eraseIdx n } : Pipeline).Inv rt := by
  refine h.broker_next rfl rfl rfl (fun _ he => he) ?_
  rintro e (he | he)
  · exact .inl (List.mem_of_mem_eraseIdx he)
  · exact .inr he

/-- The broker delivers a message: it leaves the queue and is unacknowledged. -/
theorem Inv.deliver (h : s.Inv rt) {n : ℕ} {e : OrderPlacedEvent} (hd : s.deliveries d = none)
    (hn : s.queue[n]? = some e) :
    (({ s with queue := s.queue.eraseIdx n } : Pipeline).setDelivery d
      ⟨e, true, .running (e.entry rt.formats)⟩).Inv rt := by
  have hquiet : s.db.Quiet (.consumer d) := by
    have := h.consumers d
    rwa [hd] at this
  refine h.delivery_next rfl rfl rfl ?_ ?_ h.shop.locked (fun _ _ => .refl _ _) (.refl _)
    h.piped ?_
  · rintro e' (he | he | he | ⟨d', x, hx, rfl⟩)
    · exact .inl he
    · exact .inr (.inl (List.mem_of_mem_eraseIdx he))
    · exact .inr (.inr (.inl he))
    · rcases Slots.found_cases_some hx with ⟨-, rfl⟩ | ⟨-, hold⟩
      · exact .inr (.inl (List.mem_of_getElem? hn))
      · exact .inr (.inr (.inr ⟨d', x, hold, rfl⟩))
  · rintro e' (he | he | ⟨d', x, hx, hheld, rfl⟩)
    · by_cases heq : e' = e
      · subst heq
        exact .inl (.inr (.inr ⟨d, _, Function.update_self .., rfl, rfl⟩))
      · refine .inl (.inl ?_)
        refine (List.mem_eraseIdx_iff_getElem?).mpr ?_
        obtain ⟨i, hi⟩ := List.mem_iff_getElem?.mp he
        refine ⟨i, ?_, hi⟩
        rintro rfl
        exact heq (Option.some.inj (hi.symm.trans hn))
    · exact .inl (.inr (.inl he))
    · exact .inl (.inr (.inr ⟨d', x, Slots.found_of_free hd hx, hheld, rfl⟩))
  · unfold OrderPlacedEvent.entry
    split_ifs
    · exact hquiet
    · exact hquiet

/-- **Every step keeps the invariant.** -/
theorem Inv.step (h : s.Inv rt) {a : PipelineEvent} (hs : s.step rt a = some s') :
    s'.Inv rt := by
  cases a with
  | checkout a =>
    obtain ⟨shop, hshop, rfl⟩ := Option.map_eq_some_iff.mp hs
    exact h.checkout hshop
  | relay k _ | relayExec k _ | publishFails k _ | relayFails k | relayCrashes k _
  | relayLosesAnswer k => exact h.relay rfl hs
  | arrive n =>
    simp only [Pipeline.step] at hs
    split at hs
    · rename_i hn
      obtain rfl := Option.some.inj hs
      exact h.arrive hn
    · cases hs
  | drop n =>
    obtain rfl := Option.some.inj hs
    exact h.drop
  | deliver d n =>
    simp only [Pipeline.step] at hs
    split at hs
    · rename_i hd hn
      obtain rfl := Option.some.inj hs
      exact h.deliver hd hn
    · cases hs
  | takeBack d dead =>
    simp only [Pipeline.step] at hs
    split at hs
    · rename_i x hx
      obtain rfl := Option.some.inj hs
      have hself := h.consumers d
      rw [hx] at hself
      obtain ⟨m, held, pc | _⟩ := x
      · exact h.handler_returns hx hself
      · exact h.handler_returns hx hself
    · cases hs
  | consumerExec d dead =>
    simp only [Pipeline.step] at hs
    split at hs
    · rename_i hx
      exact h.consumerExec hx hs
    · cases hs
  | consumerFails d =>
    simp only [Pipeline.step] at hs
    split at hs
    · rename_i hx
      obtain rfl := Option.some.inj hs
      exact h.consumerFails hx
    · cases hs
  | consumerCrashes d dead =>
    simp only [Pipeline.step] at hs
    split at hs
    · rename_i hx
      obtain rfl := Option.some.inj hs
      exact h.handler_gives hx (h.shop.locked.abort _)
        (fun _ hne => Engine.undisturbed_abort _ hne) rfl (Engine.quiet_abort _ _)
    · cases hs
  | consumerLosesAnswer d =>
    simp only [Pipeline.step] at hs
    split at hs
    · rename_i hx
      obtain rfl := Option.some.inj hs
      exact h.consumer_commit hx (.inr rfl)
    · cases hs
  | prune messageId consumer =>
    simp only [Pipeline.step] at hs
    split_ifs at hs with hfree
    obtain rfl := Option.some.inj hs
    exact h.prune hfree

end Pipeline

/-- The pipeline keeps its invariant. -/
theorem pipelines_invariant {rt : PipelineRuntime} :
    (pipelines rt).Invariant (Pipeline.Inv rt) := by
  intro s a s' h hs
  exact h.step hs

end Marketplace
