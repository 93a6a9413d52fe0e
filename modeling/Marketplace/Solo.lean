import Marketplace.CheckoutRun

/-!
# A call on its own

When nobody holds the rows a call needs, and the committed database can serve
it, the call goes through: its statements run one after the other and none of
them waits, fails or finds too little (`Shop.goes_through`). Other calls may be
open at the same time, in other rows.

The proof follows the statements from the last to the first: `Returns` says that
the call gets from here to an answer, `Goes` that it is the one of a sale, and
each lemma adds one statement in front. What comes before the buyer is charged
only needs the product (`Sale.InStock`), and is the same for every answer.
-/

namespace Marketplace

variable {rt : Runtime}

/-- The product of the sale can be sold: enough is in stock, and the key is new. -/
structure Sale.InStock (rt : Runtime) (p : CheckoutParams) (x : Sale) (db : Database) : Prop where
  productId : rt.int8in p.productId = some x.productId
  product : db.products x.productId = some x.product
  fits : FitsInt4 p.quantity
  enough : p.quantity ≤ x.product.stock
  soldProduct : (x.soldProduct p).Check
  key : ∀ key, p.idempotencyKey = some key → db.idempotencyKeys key = none

/-- A positive quantity that is in stock fits its column. -/
theorem Product.Check.fitsInt4 {r : Product} (h : r.Check) {quantity : ℤ} (hpos : 0 < quantity)
    (henough : quantity ≤ r.stock) : FitsInt4 quantity :=
  ⟨by omega, henough.trans_lt h.2.2.2⟩

theorem Sale.Valid.inStock {p : CheckoutParams} {x : Sale} {db : Database}
    (h : x.Valid rt p db) (hwf : db.WellFormed) : x.InStock rt p db where
  productId := h.productId
  product := h.product
  fits := (hwf.products _ _ h.product).fitsInt4 h.item.1 h.enough
  enough := h.enough
  soldProduct := h.soldProduct
  key := h.key

namespace Shop

variable {s : Shop} {i : ℕ} {p : CheckoutParams} {x : Sale} {db : Database}

/-- Left to itself, call `i` returns `r`. -/
def Returns (rt : Runtime) (s : Shop) (i : ℕ) (p : CheckoutParams) (d : Draw)
    (r : CheckoutResult) : Prop :=
  ∃ n s', (checkouts rt).run s (List.replicate n (.exec i d)) = some s' ∧
    s'.calls i = some ⟨p, .done (.returned r)⟩

/-- Left to itself, call `i` places the order of the sale. -/
def Goes (rt : Runtime) (s : Shop) (i : ℕ) (p : CheckoutParams) (x : Sale) : Prop :=
  ∃ n s', (checkouts rt).run s (List.replicate n (.exec i x.draw)) = some s' ∧
    s'.calls i = some ⟨p, .done (.returned (x.answer rt p))⟩

/-- One statement in front. -/
theorem Returns.cons {s' : Shop} {pc : Pc} {d : Draw} {r : CheckoutResult}
    (hc : s.calls i = some ⟨p, .running pc⟩) (hs : s.exec rt i p d pc = some s')
    (h : Returns rt s' i p d r) : Returns rt s i p d r := by
  obtain ⟨n, t, hrun, ht⟩ := h
  refine ⟨n + 1, t, ?_, ht⟩
  have hstep : (checkouts rt).step s (.exec i d) = some s' := by
    change s.step rt (.exec i d) = some s'
    simp only [Shop.step, hc]
    exact hs
  rw [List.replicate_succ, System.run_cons, hstep]
  exact hrun

theorem Goes.cons {s' : Shop} {pc : Pc} (hc : s.calls i = some ⟨p, .running pc⟩)
    (hs : s.exec rt i p x.draw pc = some s') (h : Goes rt s' i p x) : Goes rt s i p x :=
  Returns.cons hc hs h

/-- What the call relies on at program counter `pc`: the committed database is
`db`, and nobody else holds the rows of the sale. -/
structure Alone (s : Shop) (i : ℕ) (p : CheckoutParams) (x : Sale) (db : Database) (pc : Pc) :
    Prop where
  call : s.calls i = some ⟨p, .running pc⟩
  committed : s.db.committed = db
  key : ∀ key, p.idempotencyKey = some key → s.free i (.key key) = true
  product : s.free i (.product x.productId) = true
  user : s.free i (.user x.buyerId) = true
  outbox : s.free i (.outbox x.draw.uuid) = true

/-- A lock that is free stays so when the transaction takes another. -/
theorem free_acquire {e : Engine Database Change Lock Client} {t : Client} {l l' : Lock}
    (h : e.free t l = true) : (e.acquire t l').free t l = true := by
  rw [Engine.free_iff] at h ⊢
  intro t' ht'
  by_cases hne : t' = t
  · exact hne
  · exact h t' (Engine.acquire_holder_eq_some hne ht')

theorem lockWrite_log {l : Lock} {c : Change} {pc : Pc} :
    (((s.lock i l).write i c).goto i p pc).db.log (.checkout i)
      = s.db.log (.checkout i) ++ [c] :=
  Engine.write_log_self ..

namespace Alone

variable {pc pc' : Pc}

theorem goto (h : Alone s i p x db pc) : Alone (s.goto i p pc') i p x db pc' :=
  { h with call := Function.update_self .. }

theorem write (h : Alone s i p x db pc) {c : Change} :
    Alone ((s.write i c).goto i p pc') i p x db pc' :=
  { h with call := Function.update_self .. }

theorem lockWrite (h : Alone s i p x db pc) {l : Lock} {c : Change} :
    Alone (((s.lock i l).write i c).goto i p pc') i p x db pc' where
  call := Function.update_self ..
  committed := h.committed
  key := fun key hkey => free_acquire (h.key key hkey)
  product := free_acquire h.product
  user := free_acquire h.user
  outbox := free_acquire h.outbox

/-- The sequences do not matter. -/
theorem sequences (h : Alone s i p x db pc) (nextOrder : OrderId) (nextJob : ℕ) :
    Alone { s with nextOrder, nextJob } i p x db pc :=
  ⟨h.call, h.committed, h.key, h.product, h.user, h.outbox⟩

/-! ## From the last statement to the first -/

theorem commit (h : Alone s i p x db (.commit (x.unitPrice rt) x.orderId)) :
    Goes rt s i p x :=
  .cons h.call rfl ⟨0, _, rfl, Function.update_self ..⟩

theorem afterOutboxInsert
    (h : Alone s i p x db (.afterOutboxInsert (x.unitPrice rt) x.orderId)) : Goes rt s i p x :=
  .cons h.call rfl h.goto.commit

theorem insertOutbox (h : Alone s i p x db (.insertOutbox (x.unitPrice rt) x.orderId))
    (hx : x.Valid rt p db) : Goes rt s i p x := by
  have hnew : (s.free i (.outbox x.draw.uuid)
      && decide (∀ r ∈ s.db.committed.outbox, r.id ≠ x.draw.uuid)) = true := by
    rw [h.outbox, Bool.true_and, h.committed]
    exact decide_eq_true hx.newOutbox
  exact .cons h.call (if_pos hnew) h.lockWrite.afterOutboxInsert

theorem setKeyOrder (h : Alone s i p x db (.setKeyOrder (x.unitPrice rt) x.orderId))
    (hx : x.Valid rt p db) {key : String} (hkey : p.idempotencyKey = some key) :
    Goes rt s i p x := by
  refine .cons h.call ?_ ((h.write (c := .setKeyOrder key x.orderId)).insertOutbox hx)
  simp only [exec, hkey]

theorem insertJob (h : Alone s i p x db (.insertJob (x.unitPrice rt) x.orderId))
    (hx : x.Valid rt p db) : Goes rt s i p x := by
  have h' := h.sequences s.nextOrder (s.nextJob + 1)
  rcases hkey : p.idempotencyKey with _ | key
  · refine .cons h.call ?_ ((h'.write (c := .insertJob (Runtime.jobRow s.nextJob
      x.orderId))).insertOutbox hx)
    simp only [exec, hkey]
  · refine .cons h.call ?_ ((h'.write (c := .insertJob (Runtime.jobRow s.nextJob
      x.orderId))).setKeyOrder hx hkey)
    simp only [exec, hkey]

theorem insertItem (h : Alone s i p x db (.insertItem (x.unitPrice rt) x.orderId))
    (hx : x.Valid rt p db) : Goes rt s i p x := by
  refine .cons h.call ?_ ((h.write (c := .insertItem (x.item rt p))).insertJob hx)
  simp only [exec, hx.productId]
  exact if_pos hx.item

theorem insertOrder {customerEmail : String}
    (h : Alone s i p x db (.insertOrder (x.unitPrice rt) x.buyerId customerEmail))
    (hx : x.Valid rt p db) (hnext : s.nextOrder = x.orderId) : Goes rt s i p x := by
  have h' := h.sequences (s.nextOrder + 1) s.nextJob
  refine .cons h.call ?_ ((h'.write (c := .insertOrder (rt.orderRow p (x.unitPrice rt) x.buyerId
    customerEmail x.orderId))).insertItem hx)
  simp only [exec, hnext]
  exact if_pos hx.order

theorem selectEmail (h : Alone s i p x db (.selectEmail (x.unitPrice rt) x.buyerId))
    (hx : x.Valid rt p db) (hnext : s.nextOrder = x.orderId) : Goes rt s i p x :=
  .cons h.call rfl (h.goto.insertOrder hx hnext)

theorem lockBalance (h : Alone s i p x db (.lockBalance (x.unitPrice rt) x.buyerId))
    (hx : x.Valid rt p db) (hnext : s.nextOrder = x.orderId)
    (hlog : s.db.log (.checkout i) = p.claimLog ++ (x.rows rt p).take 1) : Goes rt s i p x := by
  have hmatch : matchBalance s.db.committed x.buyerId (rt.total p (x.unitPrice rt))
      = some x.user := by
    rw [h.committed]
    exact matchBalance_eq_some.mpr ⟨hx.user, hx.afford⟩
  refine .cons h.call ?_ ((h.lockWrite (l := .user x.buyerId)
    (c := .setBalance x.buyerId (x.chargedUser rt p).balance)).selectEmail hx hnext)
  simp only [exec, view_matchBalance hlog, hmatch, h.user, if_true]
  exact if_pos hx.chargedUser

theorem scanBalance (h : Alone s i p x db (.scanBalance (x.unitPrice rt)))
    (hx : x.Valid rt p db) (hnext : s.nextOrder = x.orderId)
    (hlog : s.db.log (.checkout i) = p.claimLog ++ (x.rows rt p).take 1) : Goes rt s i p x := by
  have hmatch : matchBalance s.db.committed x.buyerId (rt.total p (x.unitPrice rt))
      = some x.user := by
    rw [h.committed]
    exact matchBalance_eq_some.mpr ⟨hx.user, hx.afford⟩
  refine .cons h.call ?_ (h.goto.lockBalance hx hnext hlog)
  simp only [exec, hx.buyerId, view_matchBalance hlog, hmatch]

/-! ### Up to the charge -/

section ToCharge

variable {r : CheckoutResult}

/-- What the call does from the charge on, if it gets there. -/
def Then (rt : Runtime) (s : Shop) (i : ℕ) (p : CheckoutParams) (x : Sale) (db : Database)
    (r : CheckoutResult) : Prop :=
  ∀ s', Alone s' i p x db (.scanBalance (x.unitPrice rt)) → s'.nextOrder = s.nextOrder →
    s'.db.log (.checkout i) = p.claimLog ++ (x.rows rt p).take 1 → Returns rt s' i p x.draw r

theorem lockStock (h : Alone s i p x db (.lockStock x.productId)) (hx : x.InStock rt p db)
    (hlog : s.db.log (.checkout i) = p.claimLog) (hthen : Then rt s i p x db r) :
    Returns rt s i p x.draw r := by
  have hmatch : matchStock s.db.committed x.productId p.quantity = some x.product := by
    rw [h.committed]
    exact matchStock_eq_some.mpr ⟨hx.product, hx.enough⟩
  refine .cons h.call ?_ (hthen _ (h.lockWrite (l := .product x.productId)
    (c := .setStock x.productId (x.soldProduct p).stock)) rfl ?_)
  · simp only [exec, view_matchStock hlog, hmatch, h.product, if_true]
    exact if_pos hx.soldProduct
  · rw [lockWrite_log, hlog]
    rfl

theorem scanStock (h : Alone s i p x db .scanStock) (hx : x.InStock rt p db)
    (hlog : s.db.log (.checkout i) = p.claimLog) (hthen : Then rt s i p x db r) :
    Returns rt s i p x.draw r := by
  have hmatch : matchStock s.db.committed x.productId p.quantity = some x.product := by
    rw [h.committed]
    exact matchStock_eq_some.mpr ⟨hx.product, hx.enough⟩
  refine .cons h.call ?_ (h.goto.lockStock hx hlog hthen)
  simp only [exec, hx.productId, view_matchStock hlog, hmatch, if_pos hx.fits]

theorem claimKey {key : String} (h : Alone s i p x db (.claimKey key)) (hx : x.InStock rt p db)
    (hkey : p.idempotencyKey = some key) (hquiet : s.db.Quiet (.checkout i))
    (hthen : Then rt s i p x db r) : Returns rt s i p x.draw r := by
  have hview : s.view i = db := hquiet.view.trans h.committed
  refine .cons h.call ?_ ((h.lockWrite (l := .key key) (c := .insertKey key)).scanStock hx ?_
    hthen)
  · simp only [exec, hview, hx.key key hkey, h.key key hkey, if_true]
  · rw [lockWrite_log, hquiet.1, CheckoutParams.claimLog, hkey]
    rfl

end ToCharge

end Alone

/-- A call that finds its product gets as far as the charge, if nobody else holds its rows. -/
theorem Inv.to_charge (h : s.Inv rt) (hnone : s.calls i = none)
    (hx : x.InStock rt p s.db.committed)
    (hkey : ∀ key, p.idempotencyKey = some key → s.free i (.key key) = true)
    (hproduct : s.free i (.product x.productId) = true)
    (huser : s.free i (.user x.buyerId) = true)
    (houtbox : s.free i (.outbox x.draw.uuid) = true) {r : CheckoutResult}
    (hthen : Alone.Then rt s i p x s.db.committed r) :
    ∃ n s', (checkouts rt).run s (.call i p :: List.replicate n (.exec i x.draw)) = some s' ∧
      s'.calls i = some ⟨p, .done (.returned r)⟩ := by
  have hquiet : s.db.Quiet (.checkout i) := by
    have := h.call i
    rwa [hnone] at this
  have halone : Alone (s.goto i p p.entry) i p x s.db.committed p.entry :=
    ⟨Function.update_self .., rfl, hkey, hproduct, huser, houtbox⟩
  -- with a key the call claims it first
  have hreturns : Returns rt (s.goto i p p.entry) i p x.draw r := by
    rcases hk : p.idempotencyKey with _ | key
    · rw [CheckoutParams.entry, hk] at halone ⊢
      refine halone.scanStock hx ?_ hthen
      rw [CheckoutParams.claimLog, hk]
      exact hquiet.1
    · rw [CheckoutParams.entry, hk] at halone ⊢
      exact halone.claimKey hx hk hquiet hthen
  obtain ⟨n, s', hrun, hs'⟩ := hreturns
  refine ⟨n, s', ?_, hs'⟩
  have hstep : (checkouts rt).step s (.call i p) = some (s.goto i p p.entry) := by
    change s.step rt (.call i p) = _
    simp only [Shop.step, hnone]
  rw [System.run_cons, hstep]
  exact hrun

/-- **A call that can be served goes through**, if nobody else holds its rows. -/
theorem Inv.goes_through (h : s.Inv rt) (hnone : s.calls i = none)
    (hx : x.Valid rt p s.db.committed) (hnext : s.nextOrder = x.orderId)
    (hkey : ∀ key, p.idempotencyKey = some key → s.free i (.key key) = true)
    (hproduct : s.free i (.product x.productId) = true)
    (huser : s.free i (.user x.buyerId) = true)
    (houtbox : s.free i (.outbox x.draw.uuid) = true) :
    ∃ n s', (checkouts rt).run s (.call i p :: List.replicate n (.exec i x.draw)) = some s' ∧
      s'.calls i = some ⟨p, .done (.returned (x.answer rt p))⟩ :=
  h.to_charge hnone (hx.inStock h.wellFormed) hkey hproduct huser houtbox
    fun _ halone hsame hlog => halone.scanBalance hx (hsame.trans hnext) hlog

/-- **A call whose buyer cannot pay is told so**, if nobody else holds its rows. -/
theorem Inv.refused_alone (h : s.Inv rt) (hnone : s.calls i = none)
    (hx : x.InStock rt p s.db.committed) (hbuyer : rt.int8in p.buyerId = some x.buyerId)
    (hshort : matchBalance s.db.committed x.buyerId (x.total rt p) = none)
    (hkey : ∀ key, p.idempotencyKey = some key → s.free i (.key key) = true)
    (hproduct : s.free i (.product x.productId) = true)
    (huser : s.free i (.user x.buyerId) = true)
    (houtbox : s.free i (.outbox x.draw.uuid) = true) :
    ∃ n s', (checkouts rt).run s (.call i p :: List.replicate n (.exec i x.draw)) = some s' ∧
      s'.calls i = some ⟨p, .done (.returned (.failure .insufficientFunds))⟩ := by
  refine h.to_charge hnone hx hkey hproduct huser houtbox fun s' halone _ hlog => ?_
  have hmatch : matchBalance s'.db.committed x.buyerId (rt.total p (x.unitPrice rt)) = none := by
    rw [halone.committed]
    exact hshort
  have hrollback : Alone (s'.goto i p (.rollbackFailure .insufficientFunds)) i p x _ _ :=
    halone.goto
  refine .cons halone.call ?_ (.cons hrollback.call rfl ⟨0, _, rfl, Function.update_self ..⟩)
  simp only [Shop.exec, hbuyer, view_matchBalance hlog, hmatch]

end Shop

end Marketplace
