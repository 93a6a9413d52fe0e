import Marketplace.CheckoutInv

/-!
# Every statement keeps the invariant

One lemma for each statement of `checkout`: what the statement reads, and why
the call then knows what the next program counter says (`Shop.Inv.exec`). Only
COMMIT changes what is committed, and it changes it by one whole valid sale
(`Shop.Inv.committed_step`); that is all the ledger has to look at.
-/

namespace Marketplace

variable {rt : Runtime}

/-! ## What statements read -/

/-- Claiming a key changes no table but its own. -/
theorem foldl_claimLog (p : CheckoutParams) (db : Database) :
    ∃ keys, p.claimLog.foldl Database.redo db = { db with idempotencyKeys := keys } := by
  unfold CheckoutParams.claimLog
  rcases p.idempotencyKey with _ | key
  · exact ⟨_, rfl⟩
  · exact ⟨_, rfl⟩

theorem matchStock_eq_some {db : Database} {productId quantity : ℤ} {r : Product} :
    matchStock db productId quantity = some r ↔
      db.products productId = some r ∧ quantity ≤ r.stock := by
  rw [matchStock, Option.filter_eq_some_iff, decide_eq_true_iff]

theorem matchBalance_eq_some {db : Database} {buyerId : ℤ} {total : ℚ} {r : User} :
    matchBalance db buyerId total = some r ↔
      db.users buyerId = some r ∧ total ≤ amount r.balance := by
  rw [matchBalance, Option.filter_eq_some_iff, decide_eq_true_iff]

/-- The replay finds the order recorded under the key. -/
theorem matchReplay_eq {db : Database} (hwf : db.WellFormed) {key : String} {o : Order}
    (ho : Recorded db key o) : matchReplay db key = some (o.id, o.totalAmount) := by
  simp only [matchReplay, ho.2, Table.lookup_of_mem hwf.orders ho.1, Option.map_some]

namespace Shop

variable {s s' : Shop} {i : ℕ} {p : CheckoutParams} {x : Sale} {d : Draw}

theorem view_eq {cs : List Change} (hlog : s.db.log (.checkout i) = p.claimLog ++ cs) :
    ∃ keys, s.view i
      = cs.foldl Database.redo { s.db.committed with idempotencyKeys := keys } := by
  obtain ⟨keys, hkeys⟩ := foldl_claimLog p s.db.committed
  refine ⟨keys, ?_⟩
  rw [view, Engine.view, hlog, List.foldl_append, ← hkeys]
  rfl

/-- Before the call sells anything, it reads the committed products. -/
theorem view_matchStock (hlog : s.db.log (.checkout i) = p.claimLog) :
    matchStock (s.view i) = matchStock s.db.committed := by
  have hlog' : s.db.log (.checkout i) = p.claimLog ++ [] := hlog.trans (List.append_nil _).symm
  obtain ⟨keys, hview⟩ := view_eq hlog'
  rw [hview]
  rfl

/-- Before the call charges anybody, it reads the committed users. -/
theorem view_matchBalance
    (hlog : s.db.log (.checkout i) = p.claimLog ++ (x.rows rt p).take 1) :
    matchBalance (s.view i) = matchBalance s.db.committed := by
  obtain ⟨keys, hview⟩ := view_eq hlog
  rw [hview]
  rfl

/-- The e-mail address is that of the user charged. -/
theorem view_email (hx : Charged rt s.db i p x)
    (hlog : s.db.log (.checkout i) = p.claimLog ++ (x.rows rt p).take 2) :
    (((s.view i).users x.buyerId).map User.email).getD "" = x.user.email := by
  obtain ⟨keys, hview⟩ := view_eq hlog
  have huser : (s.view i).users x.buyerId
      = some { x.user with balance := (x.chargedUser rt p).balance } := by
    rw [hview]
    refine (Function.update_self ..).trans ?_
    exact congrArg _ hx.user
  rw [huser]
  rfl

theorem pending_running {pc : Pc} (hc : s.calls i = some ⟨p, .running pc⟩) :
    s.pending i = pc.orderId := by
  rw [pending, hc]
  rfl

/-! ## The statements -/

theorem Inv.claimKey (h : s.Inv rt) {key : String}
    (hc : s.calls i = some ⟨p, .running (.claimKey key)⟩)
    (hs : s.exec rt i p d (.claimKey key) = some s') :
    Took rt s s' i p (.claimKey key) := by
  obtain ⟨hkey, hquiet⟩ := h.running hc
  have hview : s.view i = s.db.committed := hquiet.view
  simp only [exec, hview] at hs
  split_ifs at hs with hfree
  rcases hv : s.db.committed.idempotencyKeys key with _ | v
  · -- the key is new: it is locked until the call ends
    rw [hv] at hs
    obtain rfl := Option.some.inj hs
    refine h.lockWrite hfree (fun _ hl => hl) ⟨?_, ?_⟩ (fun _ ho => by cases ho) (.keeps rfl)
    · intro key' hkey'
      obtain rfl := Option.some.inj (hkey.symm.trans hkey')
      exact ⟨Engine.acquire_holder_self .., hv⟩
    · rw [Engine.write_log_self, Engine.acquire_log, hquiet.1, CheckoutParams.claimLog, hkey]
      rfl
  · -- somebody has committed it, with an order
    rw [hv] at hs
    obtain rfl := Option.some.inj hs
    obtain ⟨o, ho, rfl⟩ := h.wellFormed.keys key v hv
    exact h.goto ⟨hkey, hquiet, o, ho, hv⟩ (fun _ ho => by cases ho) (.keeps rfl)

theorem Inv.selectReplay (h : s.Inv rt) {key : String}
    (hc : s.calls i = some ⟨p, .running (.selectReplay key)⟩)
    (hs : s.exec rt i p d (.selectReplay key) = some s') :
    Took rt s s' i p (.selectReplay key) := by
  obtain ⟨hkey, hquiet, o, ho⟩ := h.running hc
  have hview : s.view i = s.db.committed := hquiet.view
  simp only [exec, hview, matchReplay_eq h.wellFormed ho] at hs
  obtain rfl := Option.some.inj hs
  exact h.goto ⟨hquiet, key, o, hkey, ho, rfl⟩ (fun _ ho => by cases ho)
    (.decides rfl rfl (.replay hkey ho))

theorem Inv.rollbackReplay (h : s.Inv rt) {prev : Option (OrderId × ℤ)}
    (hs : s.exec rt i p d (.rollbackReplay prev) = some s') :
    Took rt s s' i p (.rollbackReplay prev) := by
  rcases prev with _ | ⟨orderId, total⟩
  · obtain rfl := Option.some.inj hs
    exact h.throw
  · obtain rfl := Option.some.inj hs
    exact h.finish (.keeps rfl)

theorem Inv.scanStock (h : s.Inv rt) (hc : s.calls i = some ⟨p, .running .scanStock⟩)
    (hs : s.exec rt i p d .scanStock = some s') : Took rt s s' i p .scanStock := by
  obtain ⟨hclaimed, hlog⟩ := h.running hc
  simp only [exec, view_matchStock hlog] at hs
  rcases hid : rt.int8in p.productId with _ | productId
  · rw [hid] at hs
    obtain rfl := Option.some.inj hs
    exact h.throw
  · simp only [hid] at hs
    split_ifs at hs with hint
    · rcases hm : matchStock s.db.committed productId p.quantity with _ | r
      · rw [hm] at hs
        obtain rfl := Option.some.inj hs
        exact h.goto trivial (fun _ ho => by cases ho)
          (.decides rfl rfl (.outOfStock hclaimed.unrecorded hid hm))
      · rw [hm] at hs
        obtain rfl := Option.some.inj hs
        exact h.goto ⟨hclaimed, hlog, hid⟩ (fun _ ho => by cases ho) (.keeps rfl)
    · obtain rfl := Option.some.inj hs
      exact h.throw

theorem Inv.lockStock (h : s.Inv rt) {productId : ℤ}
    (hc : s.calls i = some ⟨p, .running (.lockStock productId)⟩)
    (hs : s.exec rt i p d (.lockStock productId) = some s') :
    Took rt s s' i p (.lockStock productId) := by
  obtain ⟨hclaimed, hlog, hid⟩ := h.running hc
  simp only [exec, view_matchStock hlog] at hs
  split_ifs at hs with hfree
  rcases hm : matchStock s.db.committed productId p.quantity with _ | r
  · -- the last pieces were sold while the `UPDATE` waited
    rw [hm] at hs
    obtain rfl := Option.some.inj hs
    exact h.goto trivial (fun _ ho => by cases ho)
      (.decides rfl rfl (.outOfStock hclaimed.unrecorded hid hm))
  · simp only [hm] at hs
    split_ifs at hs with hcheck
    · obtain rfl := Option.some.inj hs
      obtain ⟨hrow, henough⟩ := matchStock_eq_some.mp hm
      have hk : s.db.Keeps ((s.db.acquire (.checkout i) (.product productId)).write
          (.checkout i) (.setStock productId (r.sell p.quantity).stock)) (.checkout i) :=
        (Engine.keeps_acquire hfree).trans (Engine.keeps_write ..)
      -- only the product of the sale is known by now
      let x : Sale := ⟨productId, r, 0, ⟨"", 0⟩, 0, 0, d⟩
      have hx : Reserved rt _ i p x :=
        { claimed := hclaimed.stable hk
          productId := hid
          heldProduct := Engine.acquire_holder_self ..
          product := hrow
          enough := henough
          soldProduct := hcheck }
      refine h.lockWrite hfree (fun _ hl => hl) ⟨x, hx, ?_, rfl⟩ (fun _ ho => by cases ho)
        (.keeps rfl)
      rw [Engine.write_log_self, Engine.acquire_log, hlog]
      rfl
    · obtain rfl := Option.some.inj hs
      exact h.throw

theorem Inv.scanBalance (h : s.Inv rt) {unitPrice : ℚ}
    (hc : s.calls i = some ⟨p, .running (.scanBalance unitPrice)⟩)
    (hs : s.exec rt i p d (.scanBalance unitPrice) = some s') :
    Took rt s s' i p (.scanBalance unitPrice) := by
  obtain ⟨x, hx, hlog, rfl⟩ := h.running hc
  simp only [exec, view_matchBalance hlog] at hs
  rcases hid : rt.int8in p.buyerId with _ | buyerId
  · rw [hid] at hs
    obtain rfl := Option.some.inj hs
    exact h.throw
  · simp only [hid] at hs
    rcases hm : matchBalance s.db.committed buyerId (rt.total p (x.unitPrice rt)) with _ | r
    · rw [hm] at hs
      obtain rfl := Option.some.inj hs
      exact h.goto trivial (fun _ ho => by cases ho)
        (.decides rfl rfl (.insufficientFunds hx.claimed.unrecorded hx.productId hx.matchStock
          hid hm))
    · rw [hm] at hs
      obtain rfl := Option.some.inj hs
      exact h.goto ⟨x, hx, hlog, rfl, hid⟩ (fun _ ho => by cases ho) (.keeps rfl)

theorem Inv.lockBalance (h : s.Inv rt) {unitPrice : ℚ} {buyerId : ℤ}
    (hc : s.calls i = some ⟨p, .running (.lockBalance unitPrice buyerId)⟩)
    (hs : s.exec rt i p d (.lockBalance unitPrice buyerId) = some s') :
    Took rt s s' i p (.lockBalance unitPrice buyerId) := by
  obtain ⟨x, hx, hlog, rfl, hid⟩ := h.running hc
  simp only [exec, view_matchBalance hlog] at hs
  split_ifs at hs with hfree
  rcases hm : matchBalance s.db.committed buyerId (rt.total p (x.unitPrice rt)) with _ | r
  · rw [hm] at hs
    obtain rfl := Option.some.inj hs
    -- the row of the product is still locked, so the stock is still enough
    exact h.goto trivial (fun _ ho => by cases ho)
      (.decides rfl rfl (.insufficientFunds hx.claimed.unrecorded hx.productId hx.matchStock
        hid hm))
  · simp only [hm] at hs
    split_ifs at hs with hcheck
    · obtain rfl := Option.some.inj hs
      obtain ⟨hrow, hafford⟩ := matchBalance_eq_some.mp hm
      have hk : s.db.Keeps ((s.db.acquire (.checkout i) (.user buyerId)).write (.checkout i)
          (.setBalance buyerId (r.charge (rt.total p (x.unitPrice rt))).balance)) (.checkout i) :=
        (Engine.keeps_acquire hfree).trans (Engine.keeps_write ..)
      -- now the buyer is known too
      let y : Sale := { x with buyerId := buyerId, user := r }
      have hy : Charged rt _ i p y :=
        { claimed := hx.claimed.stable hk
          productId := hx.productId
          heldProduct := hk.held _ hx.heldProduct
          product := hx.product
          enough := hx.enough
          soldProduct := hx.soldProduct
          buyerId := hid
          heldUser := Engine.acquire_holder_self ..
          user := hrow
          afford := hafford
          chargedUser := hcheck }
      refine h.lockWrite hfree (fun _ hl => hl) ⟨y, hy, ?_, rfl, rfl⟩ (fun _ ho => by cases ho)
        (.keeps rfl)
      rw [Engine.write_log_self, Engine.acquire_log, hlog, List.append_assoc]
      rfl
    · obtain rfl := Option.some.inj hs
      exact h.throw

theorem Inv.selectEmail (h : s.Inv rt) {unitPrice : ℚ} {buyerId : ℤ}
    (hc : s.calls i = some ⟨p, .running (.selectEmail unitPrice buyerId)⟩)
    (hs : s.exec rt i p d (.selectEmail unitPrice buyerId) = some s') :
    Took rt s s' i p (.selectEmail unitPrice buyerId) := by
  obtain ⟨x, hx, hlog, hprice, rfl⟩ := h.running hc
  obtain rfl := Option.some.inj hs
  exact h.goto ⟨x, hx, hlog, hprice, rfl, view_email hx hlog⟩ (fun _ ho => by cases ho)
    (.keeps rfl)

theorem Inv.insertOrder (h : s.Inv rt) {unitPrice : ℚ} {buyerId : ℤ} {customerEmail : String}
    (hc : s.calls i = some ⟨p, .running (.insertOrder unitPrice buyerId customerEmail)⟩)
    (hs : s.exec rt i p d (.insertOrder unitPrice buyerId customerEmail) = some s') :
    Took rt s s' i p (.insertOrder unitPrice buyerId customerEmail) := by
  obtain ⟨x, hx, hlog, rfl, rfl, rfl⟩ := h.running hc
  simp only [exec] at hs
  split_ifs at hs with hcheck
  · obtain rfl := Option.some.inj hs
    let y : Sale := { x with orderId := s.nextOrder }
    have hy : Charged rt (s.db.write (.checkout i) (.insertOrder (y.order rt p))) i p y :=
      (hx.redraw s.nextOrder x.jobId x.draw).stable (Engine.keeps_write ..)
    have hlog' : (s.db.write (.checkout i) (.insertOrder (y.order rt p))).log (.checkout i)
        = p.claimLog ++ (y.rows rt p).take 3 := by
      rw [Engine.write_log_self, hlog, List.append_assoc]
      rfl
    exact h.wrote rfl rfl (fun _ hl => hl.elim) ⟨y, hy, hcheck, hlog', rfl, rfl⟩
      (h.ids.draw rfl rfl rfl rfl) (.keeps rfl)
  · -- the id is drawn all the same: sequences do not roll back
    obtain rfl := Option.some.inj hs
    exact h.ended rfl rfl (h.ids.keep rfl rfl (Nat.le_succ _) fun _ ho => by cases ho)
      (.stops (.inl rfl))

theorem Inv.insertItem (h : s.Inv rt) {unitPrice : ℚ} {orderId : OrderId}
    (hc : s.calls i = some ⟨p, .running (.insertItem unitPrice orderId)⟩)
    (hs : s.exec rt i p d (.insertItem unitPrice orderId) = some s') :
    Took rt s s' i p (.insertItem unitPrice orderId) := by
  obtain ⟨x, hx, horder, hlog, rfl, rfl⟩ := h.running hc
  simp only [exec, hx.productId] at hs
  split_ifs at hs with hcheck
  · obtain rfl := Option.some.inj hs
    refine h.write (fun _ hl => hl.elim)
      ⟨x, ⟨hx.stable (Engine.keeps_write ..), horder, hcheck⟩, ?_, rfl, rfl⟩
      (fun _ ho => (pending_running hc).trans ho) (.keeps rfl)
    rw [Engine.write_log_self, hlog, List.append_assoc]
    rfl
  · obtain rfl := Option.some.inj hs
    exact h.throw

theorem Inv.insertJob (h : s.Inv rt) {unitPrice : ℚ} {orderId : OrderId}
    (hc : s.calls i = some ⟨p, .running (.insertJob unitPrice orderId)⟩)
    (hs : s.exec rt i p d (.insertJob unitPrice orderId) = some s') :
    Took rt s s' i p (.insertJob unitPrice orderId) := by
  obtain ⟨x, hx, hlog, rfl, rfl⟩ := h.running hc
  let y : Sale := { x with jobId := s.nextJob }
  have hy : Ordered rt (s.db.write (.checkout i) (.insertJob y.job)) i p y :=
    (hx.redraw s.nextJob x.draw).stable (Engine.keeps_write ..)
  have hlog' : (s.db.write (.checkout i) (.insertJob y.job)).log (.checkout i)
      = p.claimLog ++ y.rows rt p := by
    rw [Engine.write_log_self, hlog, List.append_assoc]
    rfl
  simp only [exec] at hs
  -- without a key nothing is recorded, and the log is complete up to the event
  rcases hkey : p.idempotencyKey with _ | key
  · rw [hkey] at hs
    obtain rfl := Option.some.inj hs
    have hrecord : p.claimLog ++ y.rows rt p
        = p.claimLog ++ y.rows rt p ++ p.recordLog y.orderId := by
      rw [CheckoutParams.recordLog, hkey, List.append_nil]
    exact h.wrote rfl rfl (fun _ hl => by cases hl.1) ⟨y, hy, hlog'.trans hrecord, rfl, rfl⟩
      (h.ids.keep rfl rfl le_rfl fun _ ho => (pending_running hc).trans ho) (.keeps rfl)
  · rw [hkey] at hs
    obtain rfl := Option.some.inj hs
    exact h.wrote rfl rfl (fun _ hl => by cases hl.1) ⟨y, hy, hlog', rfl, rfl⟩
      (h.ids.keep rfl rfl le_rfl fun _ ho => (pending_running hc).trans ho) (.keeps rfl)

theorem Inv.setKeyOrder (h : s.Inv rt) {unitPrice : ℚ} {orderId : OrderId}
    (hc : s.calls i = some ⟨p, .running (.setKeyOrder unitPrice orderId)⟩)
    (hs : s.exec rt i p d (.setKeyOrder unitPrice orderId) = some s') :
    Took rt s s' i p (.setKeyOrder unitPrice orderId) := by
  obtain ⟨x, hx, hlog, rfl, rfl⟩ := h.running hc
  simp only [exec] at hs
  rcases hkey : p.idempotencyKey with _ | key
  · rw [hkey] at hs
    cases hs
  · rw [hkey] at hs
    obtain rfl := Option.some.inj hs
    refine h.write ?_ ⟨x, hx.stable (Engine.keeps_write ..), ?_, rfl, rfl⟩
      (fun _ ho => (pending_running hc).trans ho) (.keeps rfl)
    · rintro l rfl
      exact (hx.claimed key hkey).1
    · rw [Engine.write_log_self, hlog, CheckoutParams.recordLog, hkey]

theorem Inv.insertOutbox (h : s.Inv rt) {unitPrice : ℚ} {orderId : OrderId}
    (hc : s.calls i = some ⟨p, .running (.insertOutbox unitPrice orderId)⟩)
    (hs : s.exec rt i p d (.insertOutbox unitPrice orderId) = some s') :
    Took rt s s' i p (.insertOutbox unitPrice orderId) := by
  obtain ⟨x, hx, hlog, rfl, rfl⟩ := h.running hc
  let y : Sale := { x with draw := d }
  simp only [exec] at hs
  split_ifs at hs with hnew
  obtain ⟨hfree, hnone⟩ := Bool.and_eq_true_iff.mp hnew
  obtain rfl := Option.some.inj hs
  have hk : s.db.Keeps ((s.db.acquire (.checkout i) (.outbox d.uuid)).write (.checkout i)
      (.insertOutbox (y.outboxRow rt p))) (.checkout i) :=
    (Engine.keeps_acquire hfree).trans (Engine.keeps_write ..)
  have hy : Announced rt _ i p y :=
    { toOrdered := (hx.redraw x.jobId d).stable hk
      heldOutbox := Engine.acquire_holder_self ..
      newOutbox := Table.lookup_eq_none.mpr (of_decide_eq_true hnone) }
  refine h.lockWrite hfree (fun _ hl => hl) ⟨y, hy, ?_, rfl, rfl⟩
    (fun _ ho => (pending_running hc).trans ho) (.keeps rfl)
  rw [Engine.write_log_self, Engine.acquire_log, hlog]
  rfl

/-! ## COMMIT -/

/-- Before COMMIT the call has made a whole valid sale. -/
theorem Inv.valid (h : s.Inv rt) {unitPrice : ℚ}
    (hc : s.calls i = some ⟨p, .running (.commit unitPrice x.orderId)⟩)
    (hx : Announced rt s.db i p x) : x.Valid rt p s.db.committed where
  productId := hx.productId
  product := hx.product
  enough := hx.enough
  soldProduct := hx.soldProduct
  buyerId := hx.buyerId
  user := hx.user
  afford := hx.afford
  chargedUser := hx.chargedUser
  order := hx.order
  item := hx.item
  key := fun key hkey => (hx.claimed key hkey).2
  newOrder := h.ids.fresh i _ (pending_running hc)
  newOutbox := Table.lookup_eq_none.mp hx.newOutbox

/-- **COMMIT makes the sale at once**, on the newest committed state. -/
theorem Inv.sale (h : s.Inv rt) {unitPrice : ℚ} {orderId : OrderId}
    (hc : s.calls i = some ⟨p, .running (.commit unitPrice orderId)⟩) :
    ∃ x : Sale, x.Valid rt p s.db.committed ∧ s.view i = x.apply rt p s.db.committed ∧
      unitPrice = x.unitPrice rt ∧ orderId = x.orderId := by
  obtain ⟨x, hx, hlog, rfl, rfl⟩ := h.running hc
  have hvalid := h.valid hc hx
  refine ⟨x, hvalid, ?_, rfl, rfl⟩
  rw [view, Engine.view, hlog]
  exact Sale.redo_changes hvalid

theorem Inv.commit (h : s.Inv rt) {unitPrice : ℚ} {orderId : OrderId}
    (hc : s.calls i = some ⟨p, .running (.commit unitPrice orderId)⟩) {o : Outcome}
    (ho : (Status.done o).decision rt
      = some (.success orderId (rt.totalAmount p unitPrice) false)) :
    Took rt s ((s.commit i).setStatus i p (.done o)) i p (.commit unitPrice orderId) := by
  obtain ⟨x, hvalid, hview, rfl, rfl⟩ := h.sale hc
  have hdb : (s.db.commit (.checkout i)).committed = x.apply rt p s.db.committed := hview
  have hothers : ∀ t, t ≠ .checkout i →
      Engine.Undisturbed s.db (s.db.commit (.checkout i)) t :=
    fun _ hne => Engine.undisturbed_commit h.locked hne
  refine ⟨?_, hothers, _, rfl, .decides rfl ho ?_⟩
  · refine h.next rfl (h.locked.commit _) ?_ ?_ hothers (Engine.quiet_commit _ _)
      (h.ids.commit rfl (o := x.order rt p) ?_ rfl (pending_running hc) rfl)
    · exact hdb ▸ hvalid.wellFormed h.wellFormed
    · exact hdb ▸ hvalid.extends
    · exact congrArg Database.orders hdb
  · exact hdb ▸ Decided.sale hvalid

/-! ## Steps -/

/-- Every statement keeps the invariant and moves its call on. -/
theorem Inv.exec (h : s.Inv rt) {pc : Pc} (hc : s.calls i = some ⟨p, .running pc⟩)
    (hs : s.exec rt i p d pc = some s') : Took rt s s' i p pc := by
  cases pc with
  | claimKey key => exact h.claimKey hc hs
  | selectReplay key => exact h.selectReplay hc hs
  | rollbackReplay prev => exact h.rollbackReplay hs
  | scanStock => exact h.scanStock hc hs
  | lockStock productId => exact h.lockStock hc hs
  | rollbackFailure reason =>
    obtain rfl := Option.some.inj hs
    exact h.finish (.keeps rfl)
  | scanBalance unitPrice => exact h.scanBalance hc hs
  | lockBalance unitPrice buyerId => exact h.lockBalance hc hs
  | selectEmail unitPrice buyerId => exact h.selectEmail hc hs
  | insertOrder unitPrice buyerId customerEmail => exact h.insertOrder hc hs
  | insertItem unitPrice orderId => exact h.insertItem hc hs
  | insertJob unitPrice orderId => exact h.insertJob hc hs
  | setKeyOrder unitPrice orderId => exact h.setKeyOrder hc hs
  | insertOutbox unitPrice orderId => exact h.insertOutbox hc hs
  | afterOutboxInsert unitPrice orderId =>
    obtain ⟨x, hx, hlog, hprice, hid⟩ := h.running hc
    obtain rfl := Option.some.inj hs
    exact h.goto ⟨x, hx, hlog, hprice, hid⟩ (fun _ ho => (pending_running hc).trans ho)
      (.keeps rfl)
  | commit unitPrice orderId =>
    obtain rfl := Option.some.inj hs
    exact h.commit hc rfl

/-- A call with nothing open may start. -/
theorem pcInv_entry {e : Engine Database Change Lock Client} (hquiet : e.Quiet (.checkout i)) :
    PcInv rt e i p p.entry := by
  rcases hkey : p.idempotencyKey with _ | key
  · simp only [CheckoutParams.entry, hkey]
    refine ⟨fun key hk => ?_, ?_⟩
    · rw [hkey] at hk
      cases hk
    · rw [hquiet.1, CheckoutParams.claimLog, hkey]
  · simp only [CheckoutParams.entry, hkey]
    exact ⟨hkey, hquiet⟩

theorem entry_orderId : p.entry.orderId = none := by
  rcases hkey : p.idempotencyKey with _ | key
  · simp only [CheckoutParams.entry, hkey]
    rfl
  · simp only [CheckoutParams.entry, hkey]
    rfl

/-- **What one event does**: somebody calls, or a running call moves on. -/
theorem Inv.step (h : s.Inv rt) {a : CheckoutEvent} (hs : s.step rt a = some s') :
    (∃ p, s.calls a.id = none ∧ s' = s.goto a.id p p.entry ∧ s'.Inv rt) ∨
      ∃ p pc, s.calls a.id = some ⟨p, .running pc⟩ ∧ Took rt s s' a.id p pc := by
  cases a with
  | call i p =>
    simp only [Shop.step] at hs
    split at hs
    · rename_i hnone
      obtain rfl := Option.some.inj hs
      have hquiet : s.db.Quiet (.checkout i) := by
        have := h.call i
        rwa [hnone] at this
      refine .inl ⟨p, hnone, rfl, ?_⟩
      refine h.next rfl h.locked h.wellFormed (.refl _) (fun _ _ => .refl _ _) ?_
        (h.ids.keep rfl rfl le_rfl ?_)
      · exact pcInv_entry hquiet
      · intro orderId ho
        rw [Status.orderId, entry_orderId] at ho
        cases ho
    · cases hs
  | exec i d =>
    simp only [Shop.step] at hs
    split at hs
    · rename_i p pc hc
      exact .inr ⟨p, pc, hc, h.exec hc hs⟩
    · cases hs
  | fail i =>
    simp only [Shop.step] at hs
    split at hs
    · rename_i p pc hc
      obtain rfl := Option.some.inj hs
      exact .inr ⟨p, pc, hc, h.throw⟩
    · cases hs
  | crash i =>
    simp only [Shop.step] at hs
    split at hs
    · rename_i p pc hc
      obtain rfl := Option.some.inj hs
      exact .inr ⟨p, pc, hc, h.finish (.stops (.inr rfl))⟩
    · cases hs
  | loseAnswer i =>
    simp only [Shop.step] at hs
    split at hs
    · rename_i p unitPrice orderId hc
      obtain rfl := Option.some.inj hs
      exact .inr ⟨p, _, hc, h.commit hc rfl⟩
    · cases hs

end Shop

/-! ## Runs -/

/-- The invariant holds along every run. -/
theorem checkouts_invariant : (checkouts rt).Invariant (Shop.Inv rt) := by
  intro s a s' h hs
  rcases h.step hs with ⟨_, _, _, hinv⟩ | ⟨_, _, _, htook⟩
  · exact hinv
  · exact htook.inv

/-- Transactions of other programs notice nothing of a checkout. -/
theorem Shop.Inv.others_step {s s' : Shop} (h : s.Inv rt) {a : CheckoutEvent}
    (hs : s.step rt a = some s') {t : Client} (ht : t ≠ .checkout a.id) :
    Engine.Undisturbed s.db s'.db t := by
  rcases h.step hs with ⟨p, _, rfl, _⟩ | ⟨p, pc, _, htook⟩
  · exact .refl _ _
  · exact htook.others t ht

/-- Call `i` was made with `p` and is bound to answer `r`: it has returned it, or
lost it after COMMIT, or has only to roll back. -/
def Shop.Answers (rt : Runtime) (s : Shop) (i : ℕ) (p : CheckoutParams) (r : CheckoutResult) :
    Prop :=
  ∃ st, s.calls i = some ⟨p, st⟩ ∧ st.decision rt = some r

namespace Shop

variable {s s' : Shop} {i : ℕ} {p : CheckoutParams} {r : CheckoutResult}

theorem Answers.of_returned (hc : s.calls i = some ⟨p, .done (.returned r)⟩) :
    s.Answers rt i p r :=
  ⟨_, hc, rfl⟩

theorem Answers.of_lost (hc : s.calls i = some ⟨p, .done (.lost r)⟩) : s.Answers rt i p r :=
  ⟨_, hc, rfl⟩

/-- A call answers once. -/
theorem Answers.unique {p' : CheckoutParams} {r' : CheckoutResult} (h : s.Answers rt i p r)
    (h' : s.Answers rt i p' r') : p = p' ∧ r = r' := by
  obtain ⟨st, hc, hr⟩ := h
  obtain ⟨st', hc', hr'⟩ := h'
  obtain ⟨rfl, rfl⟩ := Call.mk.inj (Option.some.inj (hc.symm.trans hc'))
  exact ⟨rfl, Option.some.inj (hr.symm.trans hr')⟩

/-- A running call has not placed an order. -/
theorem running_decision_ne {pc : Pc} {orderId : OrderId} {total : ℚ} :
    (Status.running pc).decision rt ≠ some (.success orderId total false) := by
  intro h
  cases pc with
  | rollbackReplay prev =>
    rcases prev with _ | ⟨o, t⟩
    · cases h
    · cases h
  | _ => cases h

/-- The answers after a step that touches call `i` only. -/
theorem Answers.of_update {st : Status}
    (hcalls : s'.calls = Function.update s.calls i (some ⟨p, st⟩)) {j : ℕ} {q : CheckoutParams}
    (h : s'.Answers rt j q r) :
    (j ≠ i ∧ s.Answers rt j q r) ∨ (j = i ∧ q = p ∧ st.decision rt = some r) := by
  obtain ⟨st', hc, hr⟩ := h
  rw [hcalls] at hc
  rcases Slots.found_cases_some hc with ⟨hji, hcall⟩ | ⟨hji, hold⟩
  · obtain ⟨rfl, rfl⟩ := Call.mk.inj hcall
    exact .inr ⟨hji, rfl, hr⟩
  · exact .inl ⟨hji, st', hold, hr⟩

/-- **A step decides at most one answer**, and the database it leaves is the one
that answer calls for. -/
theorem Inv.answers_step (h : s.Inv rt) {a : CheckoutEvent} (hs : s.step rt a = some s') :
    (s'.db.committed = s.db.committed ∧
        ∀ j q r, s'.Answers rt j q r → s.Answers rt j q r) ∨
      ∃ p r, Decided rt p s.db.committed r s'.db.committed ∧ s'.Answers rt a.id p r ∧
        (∀ q r', ¬ s.Answers rt a.id q r') ∧
        ∀ j q r', s'.Answers rt j q r' → s.Answers rt j q r' ∨ (j = a.id ∧ q = p ∧ r' = r) := by
  rcases h.step hs with ⟨p, hnone, rfl, _⟩ | ⟨p, pc, hc, htook⟩
  · refine .inl ⟨rfl, fun j q r hj => ?_⟩
    rcases hj.of_update rfl with ⟨_, hj⟩ | ⟨_, _, hr⟩
    · exact hj
    · rcases hkey : p.idempotencyKey with _ | key
      · rw [CheckoutParams.entry, hkey] at hr
        cases hr
      · rw [CheckoutParams.entry, hkey] at hr
        cases hr
  · obtain ⟨st, hcalls, hm⟩ := htook.moves
    have hself : ∀ q r', s.Answers rt a.id q r' → (Status.running pc).decision rt = some r' := by
      rintro q r' ⟨st', hc', hr'⟩
      obtain ⟨rfl, rfl⟩ := Call.mk.inj (Option.some.inj (hc'.symm.trans hc))
      exact hr'
    generalize hdb : s'.db.committed = db' at hm
    cases hm with
    | keeps hkeeps =>
      refine .inl ⟨rfl, fun j q r hj => ?_⟩
      rcases hj.of_update hcalls with ⟨_, hj⟩ | ⟨rfl, rfl, hr⟩
      · exact hj
      · exact ⟨_, hc, hkeeps.symm.trans hr⟩
    | stops hstops =>
      refine .inl ⟨rfl, fun j q r hj => ?_⟩
      rcases hj.of_update hcalls with ⟨_, hj⟩ | ⟨_, _, hr⟩
      · exact hj
      · rcases hstops with rfl | rfl
        · cases hr
        · cases hr
    | decides hnone hsome hd =>
      refine .inr ⟨p, _, hd, ⟨st, ?_, hsome⟩, ?_, ?_⟩
      · rw [hcalls, Function.update_self]
      · intro q r' hr'
        have := hself q r' hr'
        rw [hnone] at this
        cases this
      · intro j q r' hj
        rcases hj.of_update hcalls with ⟨_, hj⟩ | ⟨rfl, rfl, hr⟩
        · exact .inl hj
        · exact .inr ⟨rfl, rfl, Option.some.inj (hr.symm.trans hsome)⟩

/-- An order placed stays placed. -/
theorem Inv.placed_step (h : s.Inv rt) {a : CheckoutEvent} (hs : s.step rt a = some s')
    {orderId : OrderId} {total : ℚ} (hp : s.Answers rt i p (.success orderId total false)) :
    s'.Answers rt i p (.success orderId total false) := by
  obtain ⟨st, hc, hr⟩ := hp
  have hstays : ∀ call, s'.calls = Function.update s.calls a.id (some call) → i ≠ a.id →
      s'.Answers rt i p (.success orderId total false) := by
    intro call hcalls hne
    exact ⟨st, by rw [hcalls, Function.update_of_ne hne, hc], hr⟩
  rcases h.step hs with ⟨q, hnone, rfl, _⟩ | ⟨q, pc, hq, htook⟩
  · refine hstays _ rfl ?_
    rintro rfl
    rw [hnone] at hc
    cases hc
  · obtain ⟨st', hcalls, _⟩ := htook.moves
    refine hstays _ hcalls ?_
    rintro rfl
    obtain ⟨rfl, rfl⟩ := Call.mk.inj (Option.some.inj (hc.symm.trans hq))
    exact running_decision_ne hr

/-- **Every step commits one valid sale or nothing.** -/
theorem Inv.committed_step (h : s.Inv rt) {a : CheckoutEvent} (hs : s.step rt a = some s') :
    s'.db.committed = s.db.committed ∨
      ∃ (p : CheckoutParams) (x : Sale), x.Valid rt p s.db.committed ∧
        s'.db.committed = x.apply rt p s.db.committed ∧ s'.Answers rt a.id p (x.answer rt p) := by
  rcases h.answers_step hs with ⟨heq, _⟩ | ⟨p, r, hd, hr, _⟩
  · exact .inl heq
  · generalize hdb : s'.db.committed = db' at hd
    cases hd with
    | replay hkey ho => exact .inl rfl
    | outOfStock hnew hproduct hnone => exact .inl rfl
    | insufficientFunds hnew hproduct hs hbuyer hnone => exact .inl rfl
    | sale hx => exact .inr ⟨p, _, hx, rfl, hr⟩

end Shop

end Marketplace
