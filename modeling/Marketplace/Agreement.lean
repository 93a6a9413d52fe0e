import Marketplace.Doubles
import Marketplace.Files
import Marketplace.IsoDate
import Marketplace.Jsonb
import Marketplace.OrderPlaced
import Marketplace.Receipts

/-!
# Producer and consumer agree

The producer never runs the schema that the consumer parses with. Between the two the event is
written as JSON, stored as `jsonb`, read, written again, sent and read: what arrives is the value
that was written (`Publishes.parse`), so all depends on the event that a checkout builds. Its id
is a UUID, its date is one of the calendar, its quantity and its total are doubles in the ranges
that the tables check (`Sold.parses`). So no delivery of such an event is ever rejected for good
(`producer_consumer_agree`).

An instant beyond the years `0` to `9999` is written with a sign and six digits; of these the
schema's format says nothing.
-/

namespace Marketplace

open Json

/-! ## A message -/

/-- One attempt to publish an event: the row is read, and its payload is the body; the message id
is the `eventId` of that payload. -/
inductive Publishes (jsonb : List Char → Option (List Char)) (e : OrderPlacedEvent) :
    Units → List UInt8 → Prop
  | intro {out text : List Char} {payload : Value} {messageId : Units}
    (hout : jsonb (stringify e.tree) = some out) (hpayload : jsonParse out = some payload)
    (hid : payload.get? "eventId" = some (.string messageId)) (htext : Stringified payload text) :
    Publishes jsonb e messageId (Utf8.encode text)

/-- `OrderPlacedSchema.parse(JSON.parse(msg.content.toString()))` -/
def parseContent (fmt : Formats) (content : List UInt8) : Option ParsedOrderPlaced :=
  (jsonParse (Utf8.decode content)).bind (OrderPlacedSchema.parse fmt)

section Message

variable {jsonb : List Char → Option (List Char)} {e : OrderPlacedEvent} {fmt : Formats}

theorem OrderPlacedEvent.distinct (e : OrderPlacedEvent) : e.tree.Distinct :=
  ⟨e.members_nodup, trivial, trivial, trivial,
    ⟨e.data.members_nodup, trivial, trivial, trivial, trivial, trivial, trivial⟩, trivial⟩

theorem OrderPlacedEvent.plain (hquantity : (jsNumber e.data.quantity).Plain)
    (htotal : (jsNumber e.data.totalAmount).Plain) : e.tree.Plain :=
  ⟨trivial, trivial, trivial, ⟨trivial, trivial, trivial, hquantity, htotal, trivial⟩, trivial⟩

/-- The id of the event is found in its value. -/
theorem get?_eventId (e : OrderPlacedEvent) :
    e.tree.value.get? "eventId" = some (.string (jsString e.eventId)) :=
  get?_object e.members_nodup (k := 0) rfl

/-- **What arrives is what was written.** -/
theorem Publishes.parse (hjsonb : KeepsDocuments jsonb) (hplain : e.tree.Plain) {messageId : Units}
    {content : List UInt8} (h : Publishes jsonb e messageId content) (fmt : Formats) :
    messageId = jsString e.eventId ∧
      parseContent fmt content = if e.parses fmt then some e.parsed else none := by
  obtain ⟨hout, hpayload, hid, htext⟩ := h
  rw [hjsonb _ hplain e.distinct _ hout] at hpayload
  obtain rfl := Option.some.inj hpayload
  rw [get?_eventId] at hid
  refine ⟨(Value.string.inj (Option.some.inj hid)).symm, ?_⟩
  rw [parseContent, Utf8.decode_encode, htext.parse hplain, Option.bind_some, parse_tree]

/-- What is stored can be published. -/
theorem exists_publishes (hjsonb : KeepsDocuments jsonb) (hplain : e.tree.Plain) {out : List Char}
    (hout : jsonb (stringify e.tree) = some out) :
    ∃ messageId content, Publishes jsonb e messageId content :=
  ⟨_, _, .intro hout (hjsonb _ hplain e.distinct _ hout) (get?_eventId e)
    ⟨e.tree, e.distinct, rfl, rfl⟩⟩

end Message

/-! ## Numbers -/

section Numbers

theorem jsNumber_plain {x : ℚ} (hx : 0 ≤ x) (h : Binary64.double x = some x) :
    (jsNumber x).Plain := by
  rw [jsNumber, abs_of_nonneg hx]
  exact ⟨hx, h, fun hneg => absurd (of_decide_eq_true hneg) (not_lt.mpr hx)⟩

/-- A quantity of a column. -/
theorem quantity_plain {n : ℤ} (hpos : 0 < n) (hfits : FitsInt4 n) : (jsNumber n).Plain := by
  obtain ⟨k, rfl⟩ := Int.eq_ofNat_of_zero_le hpos.le
  have hlt : k < 2 ^ 53 := by
    have hbound := hfits.2
    omega
  refine jsNumber_plain (by exact_mod_cast hpos.le) ?_
  exact_mod_cast Binary64.representable_of_lt hlt

/-- Amounts of money are neither small nor large. -/
theorem double_money {x : ℚ} (hself : Binary64.nearest x = x) (hlow : 1 / 200 ≤ x)
    (hhigh : x < 2 ^ (36 : ℤ)) : Binary64.double x = some x := by
  have hpos : 0 < x := lt_of_lt_of_le (by norm_num) hlow
  have hsmall : ¬ |x| < 2 ^ (-1022 : ℤ) := by
    rw [abs_of_pos hpos, not_lt]
    calc (2 : ℚ) ^ (-1022 : ℤ) ≤ 2 ^ (-8 : ℤ) := zpow_le_zpow_right₀ (by norm_num) (by norm_num)
      _ ≤ 1 / 200 := by norm_num
      _ ≤ x := hlow
  have hlarge : |x| < 2 ^ (1024 : ℤ) := by
    rw [abs_of_pos hpos]
    exact hhigh.trans_le (zpow_le_zpow_right₀ (by norm_num) (by norm_num))
  simp only [Binary64.double, if_neg hsmall, hself, if_pos hlarge]

/-- What fits the column is below `10 ^ 10`. -/
theorem lt_of_fitsNumeric {x : ℚ} (hx : 0 ≤ x) (h : FitsNumeric (roundCents x)) : x < 10 ^ 10 := by
  have hfloor : ⌊100 * x + 1 / 2⌋ < 10 ^ 12 := by
    have hlt := (abs_lt.mp h).2
    rwa [roundCents, if_pos hx] at hlt
  have hlt := Int.floor_lt.mp hfloor
  push_cast at hlt
  linarith

/-- **A total that fits its column is a double.** -/
theorem total_plain (P : Printer) {price quantity : ℤ} (hprice : 0 ≤ price)
    (hquantity : 0 < quantity)
    (hfits : FitsNumeric (roundCents (P.arith.lineTotal price quantity))) :
    0 ≤ P.arith.mul (P.arith.number (amount price)) quantity ∧
      (jsNumber (P.arith.mul (P.arith.number (amount price)) quantity)).Plain := by
  set t : ℚ := Binary64.nearest (Binary64.nearest (amount price) * quantity) with ht
  change 0 ≤ t ∧ (jsNumber t).Plain
  have hamount : 0 ≤ amount price := by
    rw [amount]
    positivity
  have hfactor : 0 ≤ Binary64.nearest (amount price) * quantity :=
    mul_nonneg (Binary64.nearest_nonneg hamount) (by exact_mod_cast hquantity.le)
  have hnonneg : 0 ≤ t := Binary64.nearest_nonneg hfactor
  refine ⟨hnonneg, jsNumber_plain hnonneg ?_⟩
  rcases hprice.eq_or_lt with rfl | hpos
  · have hzero : t = 0 := by
      rw [ht, amount, Int.cast_zero, zero_div, Binary64.nearest_zero, zero_mul,
        Binary64.nearest_zero]
    rw [hzero, Binary64.double_zero]
  · obtain ⟨htotal, hline⟩ := P.total_error hprice hquantity
    rw [← ht] at htotal
    have hbelow : P.arith.lineTotal price quantity < 10 ^ 10 :=
      lt_of_fitsNumeric (P.text_nonneg hfactor) hfits
    -- a cent at least
    have hexact : (1 : ℚ) / 100 ≤ amount (price * quantity) := by
      have hcents : 1 ≤ price * quantity := one_le_mul_of_one_le_of_one_le hpos hquantity
      rw [amount]
      gcongr
      exact_mod_cast hcents
    have h₁ := abs_le.mp htotal
    have h₂ := abs_le.mp hline
    norm_num at h₁ h₂
    refine double_money (Binary64.nearest_nearest _) ?_ ?_
    · linarith [h₁.1]
    · norm_num
      linarith [h₁.2, h₂.1]

end Numbers

/-! ## A sale -/

/-- What the code relies on: Postgres does not take an empty text for a `bigint` and keeps
documents, JavaScript computes with doubles, and the formats of the schema take the texts they
are documented to take. -/
structure Documented (rt : PipelineRuntime) (P : Printer)
    (jsonb : List Char → Option (List Char)) : Prop where
  int8in : rt.int8in "" = none
  jsonb : KeepsDocuments jsonb
  toISOString : rt.toISOString = IsoDate.toISOString
  arith : rt.arith = P.arith
  uuid : ∀ s a b c d e, IsUuid s a b c d e → rt.formats.uuid s = true
  datetime : ∀ m : IsoDate.Moment, m.Real → rt.formats.datetime (String.ofList m.text) = true

/-- The event is that of a checkout that could commit, placed at the instant `t`. -/
def Sold (rt : Runtime) (t : ℤ) (e : OrderPlacedEvent) : Prop :=
  ∃ (p : CheckoutParams) (x : Sale) (db : Database), db.WellFormed ∧ x.Valid rt p db ∧
    x.draw.placedAt = t ∧ e = (x.outboxRow rt p).payload

/-- What producer and consumer agree on, of an event. -/
structure Agreed (rt : PipelineRuntime) (jsonb : List Char → Option (List Char))
    (e : OrderPlacedEvent) : Prop where
  uuid : IsUuid5 e.eventId
  /-- the id depends on the type and the order only -/
  derived : e.eventId = eventIdFor rt.sha1 orderPlaced (toString e.data.orderId)
  /-- an attempt has the id, and is accepted with the fields that were written -/
  accepted : ∀ messageId content, Publishes jsonb e messageId content →
    messageId = jsString e.eventId ∧ parseContent rt.formats content = some e.parsed
  /-- there is one, if the event was stored -/
  published : ∀ out, jsonb (stringify e.tree) = some out →
    ∃ messageId content, Publishes jsonb e messageId content

section Sales

variable {rt : PipelineRuntime} {P : Printer} {jsonb : List Char → Option (List Char)} {t : ℤ}
  {e : OrderPlacedEvent}

/-- The numbers of a sale are doubles, and in their ranges. -/
theorem Sold.plain (hrt : Documented rt P jsonb) (h : Sold rt.toRuntime t e) :
    e.tree.Plain ∧ 0 < e.data.quantity ∧ 0 ≤ e.data.totalAmount := by
  obtain ⟨p, x, db, hwf, hx, -, rfl⟩ := h
  -- what is sold was in stock, so the quantity fits the column as the stock does
  obtain ⟨hprice, -, hstock⟩ := hwf.products _ _ hx.product
  have hquantity : 0 < p.quantity := hx.item.1
  have hfits : FitsInt4 p.quantity := by
    have henough := hx.enough
    unfold FitsInt4 at hstock ⊢
    omega
  have hrow : FitsNumeric (roundCents (P.arith.lineTotal x.product.price p.quantity)) := by
    have hcheck := hx.order.2
    simp only [Sale.order, Runtime.orderRow, Runtime.total, Runtime.totalAmount, Sale.unitPrice,
      hrt.arith] at hcheck
    exact hcheck
  obtain ⟨hnonneg, htotal⟩ := total_plain P hprice hquantity hrow
  have hdata : ((x.outboxRow rt.toRuntime p).payload).data.totalAmount =
      P.arith.mul (P.arith.number (amount x.product.price)) p.quantity := by
    simp only [Sale.outboxRow, Runtime.outboxRow, toOrderPlacedEvent, Runtime.totalAmount,
      Sale.unitPrice, hrt.arith]
  refine ⟨OrderPlacedEvent.plain (quantity_plain hquantity hfits) ?_, hquantity, ?_⟩
  · rw [hdata]
    exact htotal
  · rw [hdata]
    exact hnonneg

/-- **The event of a sale parses**, in the years `0` to `9999`. -/
theorem Sold.parses (hrt : Documented rt P jsonb) (h : Sold rt.toRuntime t e)
    (ht : IsoDate.InYears t) : e.parses rt.formats = true := by
  obtain ⟨-, hquantity, htotal⟩ := h.plain hrt
  obtain ⟨p, x, db, -, hx, rfl, rfl⟩ := h
  -- the ids went through a `bigint` parameter
  have hempty : ∀ {s : String} {n : ℤ}, rt.int8in s = some n → s ≠ "" := by
    rintro s n hs rfl
    rw [hrt.int8in] at hs
    cases hs
  obtain ⟨a, b, c, d, e, hid, -⟩ := eventIdFor_isUuid5 rt.sha1 orderPlaced (toString x.orderId)
  have huuid := hrt.uuid _ _ _ _ _ _ hid
  have hdatetime : rt.formats.datetime (rt.toISOString x.draw.placedAt) = true := by
    rw [hrt.toISOString, IsoDate.toISOString_eq ht]
    exact hrt.datetime _ (IsoDate.moment_real ht)
  simp only [OrderPlacedEvent.parses, Bool.and_eq_true, decide_eq_true_eq]
  exact ⟨⟨⟨⟨⟨⟨huuid, rfl⟩, hdatetime⟩, hempty hx.buyerId⟩, hempty hx.productId⟩, hquantity⟩, htotal⟩

theorem Sold.agreed (hrt : Documented rt P jsonb) (h : Sold rt.toRuntime t e)
    (ht : IsoDate.InYears t) : Agreed rt jsonb e := by
  -- the producer does not run the schema; that it would accept is a fact about sales
  have hparses := h.parses hrt ht
  obtain ⟨hplain, -, -⟩ := h.plain hrt
  obtain ⟨p, x, db, -, hx, -, rfl⟩ := h
  refine ⟨eventIdFor_isUuid5 .., rfl, fun messageId content hpub => ?_, fun out hout =>
    exists_publishes hrt.jsonb hplain hout⟩
  have harrives := hpub.parse hrt.jsonb hplain rt.formats
  rwa [if_pos hparses] at harrives

end Sales

/-! ## Runs -/

/-- Every row of the outbox is of a sale, and a delivery is rejected only if its message does not
parse. -/
structure Vouched (rt : PipelineRuntime) (s : Pipeline) : Prop where
  outbox : ∀ r ∈ s.db.committed.outbox, ∃ t, Sold rt.toRuntime t r.payload
  rejected : ∀ d x, s.deliveries d = some x → x.status = .running .reject →
    x.message.parses rt.formats = false

section Runs

variable {rt : PipelineRuntime} {s s' : Pipeline} {a : PipelineEvent} {d : ℕ}

/-- A step that touches no delivery, and no payload in the outbox. -/
theorem Vouched.keep (h : Vouched rt s)
    (hoccurs : ∀ r' ∈ s'.db.committed.outbox,
      ∃ r ∈ s.db.committed.outbox, r'.payload = r.payload)
    (hdeliveries : s'.deliveries = s.deliveries) : Vouched rt s' := by
  refine ⟨fun r' hr' => ?_, fun d x hx => h.rejected d x (hdeliveries ▸ hx)⟩
  obtain ⟨r, hr, heq⟩ := hoccurs r' hr'
  exact heq ▸ h.outbox r hr

/-- A step of one delivery. -/
theorem Vouched.handle (h : Vouched rt s) {x : Delivery}
    (houtbox : s'.db.committed.outbox = s.db.committed.outbox)
    (hdeliveries : s'.deliveries = Function.update s.deliveries d (some x))
    (hx : x.status = .running .reject → x.message.parses rt.formats = false) :
    Vouched rt s' := by
  refine ⟨houtbox ▸ h.outbox, fun d' y hy => ?_⟩
  rw [hdeliveries] at hy
  rcases Slots.found_cases_some hy with ⟨-, rfl⟩ | ⟨-, hold⟩
  · exact hx
  · exact h.rejected d' y hold

/-- A step of a checkout leaves the outbox as it is, or puts the event of its sale there. -/
theorem Vouched.checkout (h : Vouched rt s) (hinv : s.Inv rt) {a : CheckoutEvent} {shop : Shop}
    (hs : s.shop.step rt.toRuntime a = some shop) : Vouched rt { s with shop } := by
  refine ⟨fun r hr => ?_, h.rejected⟩
  change r ∈ shop.db.committed.outbox at hr
  rcases hinv.shop.committed_step hs with heq | ⟨p, x, hx, heq, -⟩
  · rw [heq] at hr
    exact h.outbox r hr
  · rw [heq] at hr
    rcases List.mem_append.mp hr with hr | hr
    · exact h.outbox r hr
    · obtain rfl := List.mem_singleton.mp hr
      exact ⟨_, p, x, _, hinv.shop.wellFormed, hx, rfl, rfl⟩

/-- COMMIT of a handler leaves the outbox as it is. -/
theorem outbox_commit (hinv : s.Inv rt) {m : OrderPlacedEvent} {held applied : Bool}
    (hx : s.deliveries d = some ⟨m, held, .running (.commit applied)⟩) :
    (s.db.view (.consumer d)).outbox = s.db.committed.outbox :=
  ((hinv.consumer_running hx).view hinv.piped (hinv.genuine_delivery hx)).1.outbox

/-- The message may go back to the broker. -/
theorem Vouched.returns (h : Vouched rt s) {x y : Delivery} {dead : Bool}
    (hy : y.status = .running .reject → y.message.parses rt.formats = false) :
    Vouched rt ((s.giveBack x dead).setDelivery d y) := by
  refine h.handle (d := d) ?_ ?_ hy
  · exact congrArg (fun shop : Shop => shop.db.committed.outbox) Pipeline.giveBack_shop
  · simp only [Pipeline.setDelivery, Pipeline.giveBack_deliveries]

/-- Pruning leaves the outbox as it is. -/
theorem outbox_prune (hinv : s.Inv rt) (messageId consumer : String) :
    (((s.db.acquire .pruner (.processed messageId consumer)).write .pruner
      (.deleteProcessed messageId consumer)).view .pruner).outbox = s.db.committed.outbox := by
  have hlog : ((s.db.acquire .pruner (.processed messageId consumer)).write .pruner
      (.deleteProcessed messageId consumer)).log .pruner =
        [.deleteProcessed messageId consumer] := by
    rw [Engine.write_log_self, Engine.acquire_log, hinv.pruner.1, List.nil_append]
  rw [Engine.view, hlog]
  rfl

/-- The handler of a delivery goes on. -/
theorem Vouched.consumerExec (h : Vouched rt s) (hinv : s.Inv rt) {m : OrderPlacedEvent}
    {held dead : Bool} {pc : ConsumerPc} (hx : s.deliveries d = some ⟨m, held, .running pc⟩)
    (hs : s.consumerExec rt d ⟨m, held, .running pc⟩ dead pc = some s') : Vouched rt s' := by
  cases pc with
  | reject | requeue =>
    obtain rfl := Option.some.inj hs
    exact h.returns (by simp)
  | insertProcessed =>
    simp only [Pipeline.consumerExec] at hs
    split_ifs at hs
    · obtain rfl := Option.some.inj hs
      exact h.handle rfl rfl (by simp)
    · obtain rfl := Option.some.inj hs
      exact h.handle rfl rfl (by simp)
  | insertReceipt =>
    simp only [Pipeline.consumerExec] at hs
    split_ifs at hs
    · obtain rfl := Option.some.inj hs
      exact h.handle rfl rfl (by simp)
    · obtain rfl := Option.some.inj hs
      exact h.handle rfl rfl (by simp)
    · obtain rfl := Option.some.inj hs
      exact h.handle rfl rfl (by simp)
  | commit applied =>
    obtain rfl := Option.some.inj hs
    exact h.handle (outbox_commit hinv hx) rfl (by simp)
  | ack applied =>
    obtain rfl := Option.some.inj hs
    exact h.handle rfl rfl (by simp)

/-- **Every step keeps what is known of the outbox and of the deliveries.** -/
theorem vouched_step (hinv : s.Inv rt) (h : Vouched rt s) (hs : s.step rt a = some s') :
    Vouched rt s' := by
  cases a with
  | checkout a =>
    obtain ⟨shop, hshop, rfl⟩ := Option.map_eq_some_iff.mp hs
    exact h.checkout hinv hshop
  | relay k _ | relayExec k _ | publishFails k _ | relayFails k | relayCrashes k _
  | relayLosesAnswer k =>
    cases Pipeline.relay_stepped hinv.shop.locked hinv.shop.wellFormed (hinv.relays k) rfl hs with
    | began n hnone heq =>
      subst heq
      exact h.keep (fun r hr => ⟨r, hr, rfl⟩) rfl
    | moved n pc st hc took =>
      refine h.keep (fun r' hr' => ?_) took.deliveries
      obtain ⟨r, hr, -, hpayload, -⟩ := took.marked.rows r' hr'
      exact ⟨r, hr, hpayload⟩
  | arrive n =>
    simp only [Pipeline.step] at hs
    split at hs
    · obtain rfl := Option.some.inj hs
      exact h.keep (fun r hr => ⟨r, hr, rfl⟩) rfl
    · cases hs
  | drop n =>
    obtain rfl := Option.some.inj hs
    exact h.keep (fun r hr => ⟨r, hr, rfl⟩) rfl
  | deliver d n =>
    simp only [Pipeline.step] at hs
    split at hs
    · obtain rfl := Option.some.inj hs
      refine h.handle rfl rfl fun hreject => ?_
      -- a handler starts at `reject` only if the message does not parse
      have hentry := ConsumerStatus.running.inj hreject
      unfold OrderPlacedEvent.entry at hentry
      split_ifs at hentry with hparses
      exact Bool.not_eq_true _ ▸ hparses
    · cases hs
  | takeBack d dead =>
    simp only [Pipeline.step] at hs
    split at hs
    · rename_i x hx
      obtain rfl := Option.some.inj hs
      exact h.returns (h.rejected d x hx)
    · cases hs
  | consumerExec d dead =>
    simp only [Pipeline.step] at hs
    split at hs
    · rename_i hx
      exact h.consumerExec hinv hx hs
    · cases hs
  | consumerFails d =>
    simp only [Pipeline.step] at hs
    split at hs
    · rename_i pc hx
      obtain rfl := Option.some.inj hs
      cases pc with
      | reject | requeue | insertProcessed | insertReceipt | commit | ack =>
        exact h.handle rfl rfl (by simp)
    · cases hs
  | consumerCrashes d dead =>
    simp only [Pipeline.step] at hs
    split at hs
    · rename_i m held pc hx
      obtain rfl := Option.some.inj hs
      refine h.handle (d := d) (x := ⟨m, false, .ended⟩) rfl ?_ (by simp)
      exact congrArg (Function.update · d _) Pipeline.giveBack_deliveries
    · cases hs
  | consumerLosesAnswer d =>
    simp only [Pipeline.step] at hs
    split at hs
    · rename_i hx
      obtain rfl := Option.some.inj hs
      exact h.handle (outbox_commit hinv hx) rfl (by simp)
    · cases hs
  | prune messageId consumer =>
    simp only [Pipeline.step] at hs
    split_ifs at hs with hfree
    obtain rfl := Option.some.inj hs
    exact h.keep (fun r hr => ⟨r, outbox_prune hinv messageId consumer ▸ hr, rfl⟩) rfl

theorem vouched_run {s₀ : Pipeline} {as : List PipelineEvent} (hstart : s₀.Start rt)
    (hsold : ∀ r ∈ s₀.db.committed.outbox, ∃ t, Sold rt.toRuntime t r.payload)
    (hrun : (pipelines rt).run s₀ as = some s) : Vouched rt s := by
  have hboth : s.Inv rt ∧ Vouched rt s := by
    refine System.run_induction (J := fun _ s => s.Inv rt ∧ Vouched rt s) ⟨hstart.inv, hsold, ?_⟩
      (fun _ t a t' _ h hs => ⟨h.1.step hs, vouched_step h.1 h.2 hs⟩) hrun
    intro d x hx
    rw [hstart.deliveries] at hx
    cases hx
  exact hboth.2

end Runs

section Agreement

variable {rt : PipelineRuntime} {P : Printer} {jsonb : List Char → Option (List Char)}
  {s₀ s : Pipeline} {as : List PipelineEvent}

/-- What producer and consumer agree on, in a state. -/
structure Agreement (rt : PipelineRuntime) (jsonb : List Char → Option (List Char))
    (s : Pipeline) : Prop where
  /-- every row is the event of a sale -/
  sold : ∀ r ∈ s.db.committed.outbox, ∃ t, Sold rt.toRuntime t r.payload
  agreed : ∀ r ∈ s.db.committed.outbox, ∀ t, Sold rt.toRuntime t r.payload →
    IsoDate.InYears t → Agreed rt jsonb r.payload
  /-- every message is the event of a row -/
  relayed : ∀ e, s.Has e → Genuine s.db.committed e
  kept : ∀ d x, s.deliveries d = some x → ∀ t, Sold rt.toRuntime t x.message →
    IsoDate.InYears t → x.status ≠ .running .reject

/-- **Producer and consumer agree on the contract**: in every run of checkouts, relays and
consumers, every row of the outbox is the event of a sale, and if the sale was placed in the years
`0` to `9999`, each attempt to publish it is accepted with the fields that were written, under the
event's own id, a UUID of version 5; and no delivery of it is rejected for good. -/
theorem producer_consumer_agree (hrt : Documented rt P jsonb) (hstart : s₀.Start rt)
    (hsold : ∀ r ∈ s₀.db.committed.outbox, ∃ t, Sold rt.toRuntime t r.payload)
    (hrun : (pipelines rt).run s₀ as = some s) : Agreement rt jsonb s := by
  have hvouched := vouched_run hstart hsold hrun
  have hinv := pipelines_invariant.run hstart.inv hrun
  refine ⟨hvouched.outbox, fun r _ t ht => ht.agreed hrt, hinv.genuine, ?_⟩
  intro d x hx t ht hyears hreject
  have hnot := hvouched.rejected d x hx hreject
  rw [ht.parses hrt hyears] at hnot
  cases hnot

end Agreement

/-! ## A run -/

section Demo

/-- A group of digits has no dash. -/
theorem HexDigits.notMem {n : ℕ} {g : List Char} (h : HexDigits n g) : '-' ∉ g := by
  intro hmem
  have hdash : ¬ ('-'.isDigit = true ∨ 'a' ≤ '-' ∧ '-' ≤ 'f') := by decide
  exact hdash (h.2 _ hmem)

/-- What is a UUID matches the pattern of one. -/
theorem IsUuid.isUuid {s : String} {a b c d e : List Char} (h : IsUuid s a b c d e) :
    isUuid s = true := by
  have hgroups : s.toList.splitOn '-' = [a, b, c, d, e] := by
    rw [h.text]
    refine List.splitOn_intercalate '-' (fun g hg => ?_) (List.cons_ne_nil _ _)
    simp only [List.mem_cons, List.not_mem_nil, or_false] at hg
    rcases hg with rfl | rfl | rfl | rfl | rfl
    · exact h.first.notMem
    · exact h.second.notMem
    · exact h.third.notMem
    · exact h.fourth.notMem
    · exact h.last.notMem
  simp only [Marketplace.isUuid, hgroups, List.map_cons, List.map_nil, List.all_cons,
    List.all_nil, Bool.and_eq_true, Bool.and_true, decide_eq_true_eq, List.all_eq_true,
    Bool.or_eq_true]
  refine ⟨?_, h.first.2, h.second.2, h.third.2, h.fourth.2, h.last.2⟩
  rw [h.first.1, h.second.1, h.third.1, h.fourth.1, h.last.1]

/-- A text is a date if it is the text of the fields that are read of it, and these are real. -/
def isDatetime (s : String) : Bool :=
  decide ((IsoDate.read s.toList).Real ∧ (IsoDate.read s.toList).text = s.toList)

theorem isDatetime_text {m : IsoDate.Moment} (h : m.Real) :
    isDatetime (String.ofList m.text) = true := by
  rw [isDatetime, String.toList_ofList, IsoDate.read_text h]
  exact decide_eq_true ⟨h, rfl⟩

/-- The small shop, with the dates, the numbers and the formats that are documented. -/
def demoContractRuntime : PipelineRuntime where
  toRuntime :=
    { demoRuntime Printer.allDigits.arith with toISOString := IsoDate.toISOString }
  formats := { uuid := isUuid, datetime := isDatetime }

theorem demoContract_documented : Documented demoContractRuntime Printer.allDigits sorts where
  int8in := rfl
  jsonb := sorts_keepsDocuments
  toISOString := rfl
  arith := rfl
  uuid := fun _ _ _ _ _ _ h => h.isUuid
  datetime := by
    intro m h
    have hdatetime : demoContractRuntime.formats.datetime = isDatetime := rfl
    rw [hdatetime]
    exact isDatetime_text h

theorem demoCrashRelay_agree :
    ∃ s, (pipelines demoContractRuntime).run demoPipeline demoCrashRelay = some s ∧
      s.db.committed.outbox.map (fun r => r.payload.occurredAt) = ["1970-01-01T00:00:00.000Z"] ∧
      Agreement demoContractRuntime sorts s := by
  have hsome : ((pipelines demoContractRuntime).run demoPipeline demoCrashRelay).any (fun s =>
      s.db.committed.outbox.map (fun r => r.payload.occurredAt) =
        ["1970-01-01T00:00:00.000Z"]) = true := by
    decide +kernel
  obtain ⟨s, hrun, hs⟩ := (Option.any_eq_true _ _).mp hsome
  exact ⟨s, hrun, of_decide_eq_true hs, producer_consumer_agree demoContract_documented
    (demoPipeline_start _) (fun _ hr => absurd hr List.not_mem_nil) hrun⟩

end Demo

end Marketplace
