import Marketplace.Idempotency
import Mathlib.Data.Fintype.EquivFin

/-!
# Money to the cent

An order of `quantity` pieces at `price` costs `price * quantity` cents. JavaScript rounds that
product, so the number it gets is a little off, but less than half a cent: whatever is stored is
the exact amount, and a balance that is not exactly the amount is compared as the amount would be.
Only the buyer who has exactly what the order costs may be refused: when the product was rounded
up, its decimal is above the balance.
-/

namespace Marketplace

/-- A JavaScript number stands for so many cents: a `numeric(12,2)` column would store them. -/
def Denotes (x : ℚ) (cents : ℤ) : Prop := roundCents x = cents

/-! ## Rounding -/

section Rounding

variable {x : ℚ} {cents balance : ℤ}

/-- What is relatively close to an amount that fits the column stands for it. -/
theorem close_of_le (hnonneg : 0 ≤ cents) (hfits : FitsNumeric cents)
    (h : |x - amount cents| ≤ amount cents / 2 ^ (51 : ℤ)) : |100 * x - cents| < 1 / 2 := by
  have hcents : 100 * amount cents = cents := by
    rw [amount, mul_div_cancel₀ _ (by norm_num)]
  have hsmall : (cents : ℚ) < 10 ^ 12 := by
    rw [FitsNumeric, abs_of_nonneg hnonneg] at hfits
    exact_mod_cast hfits
  obtain ⟨hlo, hhi⟩ := abs_le.mp h
  norm_num at hlo hhi hsmall
  rw [← hcents] at hsmall ⊢
  rw [abs_lt]
  constructor <;> linarith

/-- The number of an amount. -/
theorem nearest_close (hnonneg : 0 ≤ cents) (hfits : FitsNumeric cents) :
    |100 * Binary64.nearest (amount cents) - cents| < 1 / 2 := by
  refine close_of_le hnonneg hfits ((Binary64.abs_nearest_sub_le _).trans ?_)
  have hamount : 0 ≤ amount cents := by
    rw [amount]
    positivity
  rw [abs_of_nonneg hamount]
  norm_num
  linarith

/-- **The comparison** with a balance that is not exactly the amount is exact. -/
theorem le_amount_iff (hclose : |100 * x - cents| < 1 / 2) (hne : balance ≠ cents) :
    x ≤ amount balance ↔ cents ≤ balance := by
  obtain ⟨hlo, hhi⟩ := abs_lt.mp hclose
  rw [amount, le_div_iff₀ (by norm_num)]
  rcases lt_or_gt_of_ne hne with hlt | hgt
  · have hcast : (balance : ℚ) + 1 ≤ cents := by exact_mod_cast hlt
    refine ⟨fun h => ?_, fun h => absurd h (not_le.mpr hlt)⟩
    linarith
  · have hcast : (cents : ℚ) + 1 ≤ balance := by exact_mod_cast hgt
    refine ⟨fun _ => hgt.le, fun _ => ?_⟩
    linarith

theorem denotes_of_close (h : |100 * x - cents| < 1 / 2) : Denotes x cents :=
  roundCents_eq h

/-- An amount that is paid without being exceeded leaves nothing negative. -/
theorem le_of_le_amount (hclose : |100 * x - cents| < 1 / 2) (hle : x ≤ amount balance) :
    cents ≤ balance := by
  by_cases heq : balance = cents
  · exact heq.ge
  · exact (le_amount_iff hclose heq).mp hle

end Rounding

/-! ## When the exact balance suffices -/

/-- What the order costs can be paid with exactly that: the number of its total is below the
number of the cost, or it is that number and is not printed as more. -/
def Payable (P : Printer) (price quantity : ℤ) : Prop :=
  Binary64.nearest (Binary64.nearest (amount price) * quantity)
      < Binary64.nearest (amount (price * quantity)) ∨
    (Binary64.nearest (Binary64.nearest (amount price) * quantity)
        = Binary64.nearest (amount (price * quantity)) ∧
      P.text (Binary64.nearest (amount (price * quantity))) ≤ amount (price * quantity))

/-- The comparison of the exact balance. -/
theorem Printer.lineTotal_le_iff (P : Printer) {price quantity : ℤ} (hprice : 0 ≤ price)
    (hquantity : 0 < quantity) :
    P.arith.lineTotal price quantity ≤ amount (price * quantity) ↔ Payable P price quantity := by
  have hamount : ∀ {n : ℤ}, 0 ≤ n → 0 ≤ amount n := fun hn => by
    rw [amount]
    positivity
  have hproduct : 0 ≤ Binary64.nearest (amount price) * (quantity : ℚ) :=
    mul_nonneg (Binary64.nearest_nonneg (hamount hprice)) (Int.cast_nonneg hquantity.le)
  exact P.text_le_iff hproduct (hamount (mul_nonneg hprice hquantity.le))

/-! ## The rows a request meets -/

/-- The request is about these rows: enough of the product is in stock, the order has an amount,
and its key is new. -/
structure CheckoutParams.Finds (rt : Runtime) (p : CheckoutParams) (db : Database)
    (product : Product) (user : User) : Prop where
  productRow : ∃ id, rt.int8in p.productId = some id ∧ db.products id = some product
  enough : p.quantity ≤ product.stock
  positive : 0 < p.quantity
  userRow : ∃ id, rt.int8in p.buyerId = some id ∧ db.users id = some user
  fits : FitsNumeric (product.price * p.quantity)
  unrecorded : p.Unrecorded db

/-- The step `a` decides what its call answers. -/
structure Shop.Decides (rt : Runtime) (s : Shop) (a : CheckoutEvent) (s' : Shop)
    (p : CheckoutParams) (r : CheckoutResult) : Prop where
  step : (checkouts rt).step s a = some s'
  undecided : ∀ q r', ¬ s.Answers rt a.id q r'
  answers : s'.Answers rt a.id p r

section Finds

variable {rt : Runtime} {P : Printer} {p : CheckoutParams} {db db' : Database} {product : Product}
  {user : User} {r : CheckoutResult}

/-- Such a request is refused for want of money, or it is a sale of these rows. -/
theorem CheckoutParams.Finds.decided (h : p.Finds rt db product user)
    (hd : Decided rt p db r db') :
    (r = .failure .insufficientFunds ∧
        ¬ rt.total p (rt.arith.number (amount product.price)) ≤ amount user.balance) ∨
      ∃ x : Sale, x.Valid rt p db ∧ x.product = product ∧ x.user = user ∧ r = x.answer rt p ∧
        db' = x.apply rt p db := by
  obtain ⟨productId, hproductId, hproduct⟩ := h.productRow
  obtain ⟨buyerId, hbuyerId, huser⟩ := h.userRow
  cases hd with
  | replay hkey ho =>
    have hnone := h.unrecorded _ hkey
    rw [ho.2] at hnone
    cases hnone
  | outOfStock hnew hid hnone =>
    obtain rfl := Option.some.inj (hproductId.symm.trans hid)
    have hsome := matchStock_eq_some.mpr ⟨hproduct, h.enough⟩
    rw [hnone] at hsome
    cases hsome
  | insufficientFunds hnew hid hsome hbuyer hnone =>
    obtain rfl := Option.some.inj (hproductId.symm.trans hid)
    obtain rfl := Option.some.inj (hbuyerId.symm.trans hbuyer)
    obtain rfl := Option.some.inj (hproduct.symm.trans (matchStock_eq_some.mp hsome).1)
    refine .inl ⟨rfl, fun hle => ?_⟩
    have hpays := matchBalance_eq_some.mpr ⟨huser, hle⟩
    rw [hnone] at hpays
    cases hpays
  | @sale x hx =>
    have hsameProduct := Option.some.inj (hproductId.symm.trans hx.productId)
    have hsameBuyer := Option.some.inj (hbuyerId.symm.trans hx.buyerId)
    have hsold := hx.product
    have hcharged := hx.user
    rw [← hsameProduct, hproduct] at hsold
    rw [← hsameBuyer, huser] at hcharged
    exact .inr ⟨x, hx, (Option.some.inj hsold).symm, (Option.some.inj hcharged).symm, rfl, rfl⟩

/-- The product has a price. -/
theorem CheckoutParams.Finds.price_nonneg (h : p.Finds rt db product user)
    (hwf : db.WellFormed) : 0 ≤ product.price := by
  obtain ⟨productId, _, hproduct⟩ := h.productRow
  exact (hwf.products productId product hproduct).1

/-- What is left of the product passes its constraints. -/
theorem CheckoutParams.Finds.sell_check (h : p.Finds rt db product user) (hwf : db.WellFormed) :
    (product.sell p.quantity).Check := by
  obtain ⟨productId, _, hproduct⟩ := h.productRow
  obtain ⟨hprice, _, hint4⟩ := hwf.products productId product hproduct
  have hleft := sub_nonneg.mpr h.enough
  have hpositive := h.positive
  refine ⟨hprice, hleft, ?_, ?_⟩
  · change -2 ^ 31 ≤ product.stock - p.quantity
    omega
  · change product.stock - p.quantity < 2 ^ 31
    linarith [hint4.2]

/-- The number of the total and its decimal are less than half a cent off. -/
theorem CheckoutParams.Finds.close (h : p.Finds rt db product user) (hwf : db.WellFormed)
    (harith : rt.arith = P.arith) :
    |100 * rt.totalAmount p (rt.arith.number (amount product.price))
          - (product.price * p.quantity : ℤ)| < 1 / 2 ∧
      |100 * rt.total p (rt.arith.number (amount product.price))
          - (product.price * p.quantity : ℤ)| < 1 / 2 := by
  have hprice := h.price_nonneg hwf
  have hcents := mul_nonneg hprice h.positive.le
  obtain ⟨hnumber, hdecimal⟩ := P.total_error hprice h.positive
  rw [Runtime.total, Runtime.totalAmount, harith]
  exact ⟨close_of_le hcents h.fits hnumber, close_of_le hcents h.fits hdecimal⟩

end Finds

/-! ## Exact money -/

/-- The money of one checkout is exact: the call that answers `r`, in the step to `s'`, was asked
for `cents` by a buyer with `balance`. -/
structure MoneyExact (rt : Runtime) (s' : Shop) (p : CheckoutParams) (cents balance : ℤ)
    (r : CheckoutResult) : Prop where
  /-- the buyer is refused exactly for want of money -/
  refused : r = .failure .insufficientFunds ↔ balance < cents
  /-- what the caller is told -/
  returned : ∀ orderId total, r = .success orderId total false → Denotes total cents
  /-- what the order says -/
  stored : ∀ orderId total, r = .success orderId total false →
    ∃ o ∈ s'.db.committed.orders, o.id = orderId ∧ o.totalAmount = cents
  /-- what the event says, as a number and as the decimal it is stored as -/
  published : ∀ orderId total, r = .success orderId total false →
    ∃ e ∈ s'.db.committed.outbox, e.aggregateId = orderId ∧
      Denotes e.payload.data.totalAmount cents ∧
      Denotes (rt.arith.text e.payload.data.totalAmount) cents
  /-- what every later replay is told -/
  replayed : ∀ orderId total key, r = .success orderId total false →
    p.idempotencyKey = some key → ∀ bs t, (checkouts rt).run s' bs = some t →
      ∀ j q orderId' total', q.idempotencyKey = some key →
        t.Answers rt j q (.success orderId' total' true) →
          orderId' = orderId ∧ Denotes total' cents

section Exact

variable {rt : Runtime} {P : Printer} {p : CheckoutParams} {product : Product} {user : User}
  {r : CheckoutResult} {s₀ s s' t : Shop} {as bs : List CheckoutEvent} {a : CheckoutEvent}

/-- Commits take nothing back, whatever happens next. -/
theorem Shop.Inv.extends_run (h : s.Inv rt) (hrun : (checkouts rt).run s bs = some t) :
    s.db.committed.Extends t.db.committed := by
  refine checkouts_invariant.run_rel (R := fun u u' => u.db.committed.Extends u'.db.committed)
    (fun _ => .refl _) (fun h₁ h₂ => h₁.trans h₂) (fun u a u' hu hs => ?_) h hrun
  rcases hu.committed_step hs with heq | ⟨_, x, hx, heq, _⟩
  · rw [heq]
    exact .refl _
  · rw [heq]
    exact hx.extends

/-- **What a replay is told** about an order that was placed under its key. -/
theorem replay_total (harith : rt.arith = P.arith) (hstart : s₀.Start)
    (hrun : (checkouts rt).run s₀ as = some s') {i : ℕ} {orderId : OrderId} {total : ℚ}
    (hplaced : s'.Answers rt i p (.success orderId total false)) {key : String}
    (hkey : p.idempotencyKey = some key) {o : Order} (ho : o ∈ s'.db.committed.orders)
    (hid : o.id = orderId) (hnonneg : 0 ≤ o.totalAmount) (hfits : FitsNumeric o.totalAmount)
    (hrest : (checkouts rt).run s' bs = some t) {j : ℕ} {q : CheckoutParams} {orderId' : OrderId}
    {total' : ℚ} (hq : q.idempotencyKey = some key)
    (hreplay : t.Answers rt j q (.success orderId' total' true)) :
    orderId' = orderId ∧ Denotes total' o.totalAmount := by
  obtain ⟨hinv, -⟩ : _ ∧ KeyInv rt _ _ := keyInv_run hstart hrun
  have hall : (checkouts rt).run s₀ (as ++ bs) = some t := by
    rw [System.run_append, hrun]
    exact hrest
  obtain ⟨htinv, hkeys⟩ : t.Inv rt ∧ KeyInv rt s₀ t := keyInv_run hstart hall
  -- the key is recorded with the order placed, and the replay with the order recorded
  have hrecorded := hkeys.recorded i p orderId total key (placed_run hinv hrest hplaced) hkey
  obtain ⟨key', o', hkey', hrec, rfl, rfl⟩ := hkeys.replayed j q orderId' total' hreplay
  obtain rfl := Option.some.inj (hq.symm.trans hkey')
  have hsame : o'.id = orderId := Option.some.inj (Option.some.inj (hrec.2.symm.trans hrecorded))
  have hmem := (hinv.extends_run hrest).orders o ho
  obtain rfl := List.inj_on_of_nodup_map htinv.wellFormed.orders hrec.1 hmem
    (hsame.trans hid.symm)
  refine ⟨hsame, denotes_of_close ?_⟩
  rw [harith]
  exact nearest_close hnonneg hfits

/-- **The answer and the balance**: the buyer is refused exactly if the decimal of the total
exceeds the balance. -/
theorem refused_iff (hinv : s.Inv rt) (hfinds : p.Finds rt s.db.committed product user)
    (hd : s.Decides rt a s' p r) :
    r = .failure .insufficientFunds ↔
      ¬ rt.total p (rt.arith.number (amount product.price)) ≤ amount user.balance := by
  rcases hinv.answers_step hd.step with ⟨_, hold⟩ | ⟨p', r', hdecided, hself, _, _⟩
  · exact absurd (hold _ _ _ hd.answers) (hd.undecided p r)
  · obtain ⟨rfl, rfl⟩ := hd.answers.unique hself
    rcases hfinds.decided hdecided with ⟨hr, hshort⟩ | ⟨x, hx, rfl, rfl, rfl, _⟩
    · exact ⟨fun _ => hshort, fun _ => hr⟩
    · refine ⟨fun hr => ?_, fun hshort => absurd hx.afford hshort⟩
      cases hr

/-- **A sale is made to the cent**, whatever the rounding of the total. -/
theorem sale_exact (harith : rt.arith = P.arith) (hstart : s₀.Start)
    (hrun : (checkouts rt).run s₀ as = some s) (hfinds : p.Finds rt s.db.committed product user)
    (hd : s.Decides rt a s' p r)
    (hrefused : r = .failure .insufficientFunds ↔ user.balance < product.price * p.quantity) :
    MoneyExact rt s' p (product.price * p.quantity) user.balance r := by
  obtain ⟨hinv, -⟩ : _ ∧ KeyInv rt _ _ := keyInv_run hstart hrun
  rcases hinv.answers_step hd.step with ⟨_, hold⟩ | ⟨p', r', hdecided, hself, _, _⟩
  · exact absurd (hold _ _ _ hd.answers) (hd.undecided p r)
  · obtain ⟨rfl, rfl⟩ := hd.answers.unique hself
    have hnonneg := mul_nonneg (hfinds.price_nonneg hinv.wellFormed) hfinds.positive.le
    obtain ⟨hnumber, hdecimal⟩ := hfinds.close hinv.wellFormed harith
    rcases hfinds.decided hdecided with ⟨rfl, _⟩ | ⟨x, hx, rfl, rfl, rfl, hdb⟩
    · refine ⟨hrefused, ?_, ?_, ?_, ?_⟩ <;> intros <;> contradiction
    · have hmem : x.order rt p ∈ s'.db.committed.orders := by
        rw [hdb]
        exact List.mem_append_right _ (List.mem_singleton_self _)
      have htotal : (x.order rt p).totalAmount = x.product.price * p.quantity :=
        roundCents_eq hdecimal
      refine ⟨hrefused, ?_, ?_, ?_, ?_⟩
      · rintro _ _ ⟨⟩
        exact denotes_of_close hnumber
      · rintro _ _ ⟨⟩
        exact ⟨x.order rt p, hmem, rfl, htotal⟩
      · rintro _ _ ⟨⟩
        refine ⟨x.outboxRow rt p, ?_, rfl, denotes_of_close hnumber, denotes_of_close hdecimal⟩
        rw [hdb]
        exact List.mem_append_right _ (List.mem_singleton_self _)
      · rintro _ _ key ⟨⟩ hkey bs t hrest j q orderId' total' hq hreplay
        rw [← htotal] at hnonneg ⊢
        have hfits := hfinds.fits
        rw [← htotal] at hfits
        exact replay_total harith hstart (System.run_snoc hrun hd.step) hself hkey hmem rfl
          hnonneg hfits hrest hq hreplay

/-- The sale of these rows is valid when the buyer can pay. -/
theorem CheckoutParams.Finds.valid {db : Database} (harith : rt.arith = P.arith)
    (hwf : db.WellFormed) (h : p.Finds rt db product user) {x : Sale}
    (hproductId : rt.int8in p.productId = some x.productId)
    (hproduct : db.products x.productId = some product) (hsame : x.product = product)
    (hbuyerId : rt.int8in p.buyerId = some x.buyerId) (huser : db.users x.buyerId = some user)
    (hsameUser : x.user = user) (hafford : x.total rt p ≤ amount user.balance)
    (horder : ∀ o ∈ db.orders, o.id ≠ x.orderId) (houtbox : ∀ e ∈ db.outbox, e.id ≠ x.draw.uuid) :
    x.Valid rt p db := by
  subst hsame hsameUser
  have hprice := h.price_nonneg hwf
  have hnonneg := mul_nonneg hprice h.positive.le
  have hclose := (h.close hwf harith).2
  obtain ⟨hbalance, hfitsBalance⟩ := hwf.users _ _ huser
  have hleft : (x.chargedUser rt p).balance = x.user.balance - x.product.price * p.quantity :=
    roundCents_amount_sub hclose
  have htotal : (x.order rt p).totalAmount = x.product.price * p.quantity := roundCents_eq hclose
  have hpays := le_of_le_amount hclose hafford
  -- one piece is priced as an order of one piece would be
  have hfitsPrice : FitsNumeric x.product.price := by
    have hfits := h.fits
    have hpositive := h.positive
    rw [FitsNumeric, abs_of_nonneg hnonneg] at hfits
    rw [FitsNumeric, abs_of_nonneg hprice]
    nlinarith
  have hunit : (x.item rt p).unitPrice = x.product.price := by
    have hone := (P.total_error hprice one_pos).2
    rw [mul_one] at hone
    have hline : P.arith.lineTotal x.product.price 1 = rt.arith.text (x.unitPrice rt) := by
      rw [Sale.unitPrice, harith]
      change P.text (Binary64.nearest (Binary64.nearest (amount x.product.price) * ((1 : ℤ) : ℚ)))
        = P.text (Binary64.nearest (amount x.product.price))
      rw [Int.cast_one, mul_one, Binary64.nearest_nearest]
    rw [hline] at hone
    exact roundCents_eq (close_of_le hprice hfitsPrice hone)
  refine
    { productId := hproductId
      product := hproduct
      enough := h.enough
      soldProduct := h.sell_check hwf
      buyerId := hbuyerId
      user := huser
      afford := hafford
      chargedUser := ⟨?_, ?_⟩
      order := ⟨?_, ?_⟩
      item := ⟨h.positive, ?_, ?_⟩
      key := h.unrecorded
      newOrder := horder
      newOutbox := houtbox }
  · rw [hleft]
    linarith
  · rw [FitsNumeric, abs_of_nonneg hbalance] at hfitsBalance
    rw [hleft, FitsNumeric, abs_of_nonneg (by linarith)]
    linarith
  · rw [htotal]
    exact hnonneg
  · rw [htotal]
    exact h.fits
  · rw [hunit]
    exact hprice
  · rw [hunit]
    exact hfitsPrice

/-- **A call is answered**: left to itself when the others have ended, it returns. -/
theorem returns_alone (harith : rt.arith = P.arith) (hstart : s₀.Start)
    (hrun : (checkouts rt).run s₀ as = some s) (hfinds : p.Finds rt s.db.committed product user)
    {i : ℕ} (hnone : s.calls i = none)
    (hended : ∀ j q pc, s.calls j ≠ some ⟨q, .running pc⟩) :
    ∃ bs s' r, (checkouts rt).run s bs = some s' ∧
      s'.calls i = some ⟨p, .done (.returned r)⟩ := by
  obtain ⟨hinv, -⟩ : _ ∧ KeyInv rt _ _ := keyInv_run hstart hrun
  have hfree := free_of_ended hstart hrun hended i
  obtain ⟨productId, hproductId, hproduct⟩ := hfinds.productRow
  obtain ⟨buyerId, hbuyerId, huser⟩ := hfinds.userRow
  obtain ⟨uuid, huuid⟩ := Infinite.exists_notMem_finset
    (s.db.committed.outbox.map OutboxRow.id).toFinset
  have houtbox : ∀ e ∈ s.db.committed.outbox, e.id ≠ uuid := by
    rintro e he rfl
    exact huuid (List.mem_toFinset.mpr (List.mem_map_of_mem he))
  let x : Sale := ⟨productId, product, buyerId, user, s.nextOrder, 0, ⟨uuid, 0, 0⟩⟩
  have hstock : x.InStock rt p s.db.committed := by
    have hcheck := hinv.wellFormed.products productId product hproduct
    exact ⟨hproductId, hproduct, hcheck.fitsInt4 hfinds.positive hfinds.enough, hfinds.enough,
      hfinds.sell_check hinv.wellFormed, hfinds.unrecorded⟩
  by_cases hafford : x.total rt p ≤ amount user.balance
  · have hx : x.Valid rt p s.db.committed :=
      hfinds.valid harith hinv.wellFormed hproductId hproduct rfl hbuyerId huser rfl hafford
        (fun o ho => (hinv.ids.sequence o ho).ne) houtbox
    obtain ⟨n, s', hgoes, hs'⟩ := hinv.goes_through hnone hx rfl (fun _ _ => hfree _) (hfree _)
      (hfree _) (hfree _)
    exact ⟨_, s', _, hgoes, hs'⟩
  · have hshort : matchBalance s.db.committed buyerId (x.total rt p) = none := by
      rw [matchBalance, huser, Option.filter_some, if_neg]
      exact fun hle => hafford (of_decide_eq_true hle)
    obtain ⟨n, s', hgoes, hs'⟩ := hinv.refused_alone hnone hstock hbuyerId hshort
      (fun _ _ => hfree _) (hfree _) (hfree _) (hfree _)
    exact ⟨_, s', _, hgoes, hs'⟩

/-- **When money is exact to the cent**: always, except that a buyer with exactly what the order
costs must also be able to pay it. And the call is answered. -/
theorem checkout_money_exact_iff (harith : rt.arith = P.arith) (hstart : s₀.Start)
    (hrun : (checkouts rt).run s₀ as = some s)
    (hfinds : p.Finds rt s.db.committed product user) :
    (∀ a s' r, s.Decides rt a s' p r →
      (MoneyExact rt s' p (product.price * p.quantity) user.balance r ↔
        (user.balance = product.price * p.quantity → Payable P product.price p.quantity))) ∧
    ∀ i, s.calls i = none → (∀ j q pc, s.calls j ≠ some ⟨q, .running pc⟩) →
      ∃ bs s' r, (checkouts rt).run s bs = some s' ∧
        s'.calls i = some ⟨p, .done (.returned r)⟩ := by
  refine ⟨fun a s' r hd => ?_, fun i hnone hended =>
    returns_alone harith hstart hrun hfinds hnone hended⟩
  obtain ⟨hinv, -⟩ : _ ∧ KeyInv rt _ _ := keyInv_run hstart hrun
  have hrefused := refused_iff hinv hfinds hd
  have hclose := (hfinds.close hinv.wellFormed harith).2
  have hline : rt.total p (rt.arith.number (amount product.price))
      = P.arith.lineTotal product.price p.quantity := by
    rw [Runtime.total, Runtime.totalAmount, harith]
    rfl
  have hpayable := P.lineTotal_le_iff (hfinds.price_nonneg hinv.wellFormed) hfinds.positive
  constructor
  · intro hexact hequal
    rw [← hpayable, ← hline, ← hequal]
    by_contra hshort
    exact absurd (hexact.refused.mp (hrefused.mpr hshort)) (not_lt.mpr hequal.ge)
  · intro hpays
    refine sale_exact harith hstart hrun hfinds hd (hrefused.trans ?_)
    by_cases hequal : user.balance = product.price * p.quantity
    · have hle := hpayable.mpr (hpays hequal)
      rw [hline, hequal]
      exact ⟨fun hnot => absurd hle hnot, fun hlt => absurd hlt (lt_irrefl _)⟩
    · rw [le_amount_iff hclose hequal, not_le]

end Exact

/-! ## Three pieces at seven cents -/

/-- JavaScript prints `0.07 * 3` as `0.21000000000000002`. -/
def demoPrinter : Printer where
  text x :=
    if x = Binary64.nearest (Binary64.nearest (7 / 100) * 3) then 21000000000000002 / 10 ^ 17
    else x
  reads x := by
    split_ifs with h
    · rw [h]
      decide +kernel
    · exact Binary64.nearest_nearest x

/-- The small shop, with a product at `price` cents and buyers that have `balance` cents. -/
def demoCents (price balance : ℤ) : Shop :=
  { demoShop with
    db := Engine.idle
      { demoShop.db.committed with
        products := fun id => if id = 1 then some ⟨price, 3⟩ else none
        users := fun id => if id = 1 ∨ id = 2 then some ⟨"buyer@example.com", balance⟩ else none } }

theorem demoCents_start {price balance : ℤ} (hprice : 0 ≤ price) (hbalance : 0 ≤ balance)
    (hfits : FitsNumeric balance) : (demoCents price balance).Start where
  idle := rfl
  wellFormed :=
    { demoShop_start.wellFormed with
      products := by
        intro id r hr
        simp only [demoCents, Engine.idle_committed] at hr
        split_ifs at hr
        obtain rfl := Option.some.inj hr
        refine ⟨hprice, ?_⟩
        change 0 ≤ (3 : ℤ) ∧ FitsInt4 3
        decide
      users := by
        intro id r hr
        simp only [demoCents, Engine.idle_committed] at hr
        split_ifs at hr
        obtain rfl := Option.some.inj hr
        exact ⟨hbalance, hfits⟩ }
  sequence := fun _ ho => absurd ho List.not_mem_nil
  calls := fun _ => rfl

/-- The next statement of call 0 decides its answer: it goes from `pc` to `st`. -/
def Shop.demoDecides (rt : Runtime) (s : Shop) (p : CheckoutParams) (pc : Pc) (st : Status)
    (product : Product) (user : User) : Bool :=
  s.calls 0 = some ⟨p, .running pc⟩ && s.db.committed.products 1 = some product &&
    s.db.committed.users 1 = some user &&
    p.idempotencyKey.all (fun key => s.db.committed.idempotencyKeys key = none) &&
    ((checkouts rt).step s (.exec 0 ⟨1, 0, 0⟩)).any fun s' => s'.calls 0 = some ⟨p, st⟩

theorem Shop.decides_of_demo {rt : Runtime} {s : Shop} {key : Option String} {quantity : ℤ}
    {pc : Pc} {st : Status} {r : CheckoutResult} {product : Product} {user : User}
    (h : s.demoDecides rt ⟨"1", "1", quantity, key⟩ pc st product user = true)
    (hid : rt.int8in "1" = some 1) (hnone : (Status.running pc).decision rt = none)
    (hsome : st.decision rt = some r) (hpositive : 0 < quantity)
    (henough : quantity ≤ product.stock) (hfits : FitsNumeric (product.price * quantity)) :
    CheckoutParams.Finds rt ⟨"1", "1", quantity, key⟩ s.db.committed product user ∧
      ∃ s', s.Decides rt (.exec 0 ⟨1, 0, 0⟩) s' ⟨"1", "1", quantity, key⟩ r := by
  simp only [demoDecides, Bool.and_eq_true, decide_eq_true_eq] at h
  obtain ⟨⟨⟨⟨hcall, hproduct⟩, huser⟩, hkey⟩, hstep⟩ := h
  obtain ⟨s', hs, hcall'⟩ := (Option.any_eq_true _ _).mp hstep
  refine ⟨⟨⟨1, hid, hproduct⟩, henough, hpositive, ⟨1, hid, huser⟩, hfits, ?_⟩, s', hs, ?_, ?_⟩
  · rintro key' rfl
    exact of_decide_eq_true hkey
  · rintro q r' ⟨st', hc, hr⟩
    obtain ⟨rfl, rfl⟩ := Call.mk.inj (Option.some.inj (hcall.symm.trans hc))
    rw [hnone] at hr
    cases hr
  · exact ⟨st, of_decide_eq_true hcall', hsome⟩

/-- With a cent to spare, three pieces are sold. -/
theorem demoCents_money_exact :
    ∃ s s' r, (checkouts (demoRuntime demoPrinter.arith)).run (demoCents 7 22)
        (demoCall 0 ⟨"1", "1", 3, some "k"⟩ 1 12) = some s ∧
      s.Decides (demoRuntime demoPrinter.arith) (.exec 0 ⟨1, 0, 0⟩) s'
        ⟨"1", "1", 3, some "k"⟩ r ∧
      MoneyExact (demoRuntime demoPrinter.arith) s' ⟨"1", "1", 3, some "k"⟩ (7 * 3) 22 r := by
  set total := Binary64.nearest (Binary64.nearest (7 / 100) * 3) with htotal
  have hsome : ((checkouts (demoRuntime demoPrinter.arith)).run (demoCents 7 22)
      (demoCall 0 ⟨"1", "1", 3, some "k"⟩ 1 12)).any (fun s =>
        s.demoDecides (demoRuntime demoPrinter.arith) ⟨"1", "1", 3, some "k"⟩
          (.commit (Binary64.nearest (7 / 100)) 1) (.done (.returned (.success 1 total false)))
          ⟨7, 3⟩ ⟨"buyer@example.com", 22⟩) = true := by
    rw [htotal]
    decide +kernel
  obtain ⟨s, hrun, hdemo⟩ := (Option.any_eq_true _ _).mp hsome
  obtain ⟨hfinds, s', hd⟩ :=
    Shop.decides_of_demo hdemo rfl rfl rfl (by decide) (by decide) (by decide)
  have hstart : (demoCents 7 22).Start := demoCents_start (by decide) (by decide) (by decide)
  refine ⟨s, s', _, hrun, hd, ?_⟩
  exact ((checkout_money_exact_iff (P := demoPrinter) rfl hstart hrun hfinds).1 _ _ _ hd).mpr
    fun h => absurd h (by decide)

/-- A buyer who has exactly what three pieces cost is refused. -/
theorem exact_balance_refused :
    ¬ ∀ (rt : Runtime) (P : Printer) (s₀ s s' : Shop) (as : List CheckoutEvent)
      (a : CheckoutEvent) (p : CheckoutParams) (product : Product) (user : User)
      (r : CheckoutResult), rt.arith = P.arith → s₀.Start →
      (checkouts rt).run s₀ as = some s → p.Finds rt s.db.committed product user →
      s.Decides rt a s' p r →
      MoneyExact rt s' p (product.price * p.quantity) user.balance r := by
  intro hclaim
  have hsome : ((checkouts (demoRuntime demoPrinter.arith)).run (demoCents 7 21)
      (demoCall 0 ⟨"1", "1", 3, none⟩ 1 2)).any (fun s =>
        s.demoDecides (demoRuntime demoPrinter.arith) ⟨"1", "1", 3, none⟩
          (.scanBalance (Binary64.nearest (7 / 100)))
          (.running (.rollbackFailure .insufficientFunds))
          ⟨7, 3⟩ ⟨"buyer@example.com", 21⟩) = true := by
    decide +kernel
  obtain ⟨s, hrun, hdemo⟩ := (Option.any_eq_true _ _).mp hsome
  obtain ⟨hfinds, s', hd⟩ :=
    Shop.decides_of_demo hdemo rfl rfl rfl (by decide) (by decide) (by decide)
  have hstart : (demoCents 7 21).Start := demoCents_start (by decide) (by decide) (by decide)
  have hexact := hclaim _ demoPrinter _ _ _ _ _ _ _ _ _ rfl hstart hrun hfinds hd
  exact absurd (hexact.refused.mp rfl) (by decide)

end Marketplace
