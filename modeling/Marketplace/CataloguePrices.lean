import Marketplace.CreateOrders

/-!
# Orders priced from the catalogue

`OrdersService.create` adds up, item by item, the price of the product that `findByIds` finds, or
zero: `product?.price_cents ?? 0`. So an order that names a product which is not in the catalogue is
not refused. It is created, and costs nothing for that item. The other way to order, `checkout.ts`,
refuses a product that it does not find.

What was created is kept but for its status, so the orders of a run are priced as they were when
they were created (`orders_priced_iff`).
-/

namespace Marketplace.Api

/-! ## What an order costs -/

/-- The items are products of the catalogue, and cost this much. -/
inductive Costs (products : List Product) : List OrderItem → ℤ → Prop
  | nil : Costs products [] 0
  | cons {item : OrderItem} {items : List OrderItem} {p : Product} {total : ℤ} (hp : p ∈ products)
    (hid : p.id = item.productId) (h : Costs products items total) :
    Costs products (item :: items) (p.priceCents * item.quantity + total)

/-- The request names products of the catalogue only. -/
def CreateRequest.Names (r : CreateRequest) (s : ApiState) : Prop :=
  ∀ item ∈ r.body.items, ∃ p ∈ s.products, p.id = item.productId

instance (r : CreateRequest) (s : ApiState) : Decidable (r.Names s) :=
  inferInstanceAs (Decidable (∀ item ∈ r.body.items, ∃ p ∈ s.products, p.id = item.productId))

/-- So do all the requests of a run. -/
def NamesKnown (s : ApiState) (a : ApiEvent) : Prop :=
  ∀ r createdAt, a = .createOrder r createdAt → r.Names s

/-- An order without its status. -/
def Order.bill (o : Order) : Order := { o with status := .new }

/-- The orders without their status. -/
def ApiState.bills (s : ApiState) : List Order := s.orders.map Order.bill

section Costs

variable {s s' t : ApiState} {a : ApiEvent} {item : OrderItem} {items : List OrderItem}

/-- The price of a product that is in the catalogue is its price. -/
theorem price_eq (h : ∃ p ∈ s.products, p.id = item.productId) :
    ∃ p ∈ s.products, p.id = item.productId ∧ s.price item = p.priceCents := by
  obtain ⟨p, hp, hid⟩ := h
  have hmem : p ∈ s.findByIds [item.productId] :=
    List.mem_filter.mpr ⟨hp, decide_eq_true (hid ▸ List.mem_singleton_self _)⟩
  rcases hfound : s.findByIds [item.productId] with _ | ⟨q, rest⟩
  · rw [hfound] at hmem
    cases hmem
  · have hq : q ∈ s.findByIds [item.productId] := hfound ▸ List.mem_cons_self
    obtain ⟨hq, hqid⟩ := List.mem_filter.mp hq
    refine ⟨q, hq, List.mem_singleton.mp (of_decide_eq_true hqid), ?_⟩
    rw [ApiState.price, hfound]
    rfl

theorem foldl_price (items : List OrderItem) (z : ℤ) :
    items.foldl (fun sum item => sum + s.price item * item.quantity) z =
      z + items.foldl (fun sum item => sum + s.price item * item.quantity) 0 := by
  induction items generalizing z with
  | nil => exact (add_zero z).symm
  | cons item items ih =>
    rw [List.foldl_cons, List.foldl_cons, ih, ih (0 + _)]
    ring

/-- **The total of known products** is what they cost. -/
theorem total_costs (h : ∀ item ∈ items, ∃ p ∈ s.products, p.id = item.productId) :
    Costs s.products items
      (items.foldl (fun sum item => sum + s.price item * item.quantity) 0) := by
  induction items with
  | nil => exact .nil
  | cons item items ih =>
    obtain ⟨p, hp, hid, hprice⟩ := price_eq (h item List.mem_cons_self)
    rw [List.foldl_cons, foldl_price, zero_add, hprice]
    exact .cons hp hid (ih fun i hi => h i (List.mem_cons_of_mem _ hi))

/-- **A step** adds the orders it answers, and changes nothing of the others but the status. -/
theorem bills_step (hs : s.step a = some s') :
    s'.bills = s.bills ++ (created s a).map Prod.snd := by
  have hsame : s'.orders = s.orders → created s a = [] →
      s'.bills = s.bills ++ (created s a).map Prod.snd := by
    intro horders hnone
    rw [ApiState.bills, horders, hnone]
    exact (List.append_nil _).symm
  cases a with
  | createOrder r createdAt =>
    simp only [ApiState.step] at hs
    split_ifs at hs
    obtain rfl := Option.some.inj hs
    exact List.map_append
  | updateStatus id status ts =>
    simp only [ApiState.step, ApiState.updateStatus] at hs
    rcases hget : s.getById id with e | order
    · rw [hget] at hs
      obtain rfl := Option.some.inj hs
      exact hsame rfl rfl
    · rw [hget] at hs
      obtain rfl := Option.some.inj hs
      -- a status is no part of a bill
      exact (map_setStatus (fun _ _ => rfl) s id status).trans (List.append_nil _).symm
  | createProduct name priceCents =>
    simp only [ApiState.step] at hs
    split_ifs at hs
    obtain rfl := Option.some.inj hs
    exact hsame rfl rfl
  | connect c n =>
    simp only [ApiState.step, ApiState.events] at hs
    split at hs
    · rename_i user orderId received hf hn
      rcases howned : s.getOwned orderId user with e | order
      · rw [howned] at hs
        obtain rfl := Option.some.inj hs
        exact hsame rfl rfl
      · rw [howned] at hs
        obtain rfl := Option.some.inj hs
        exact hsame rfl rfl
    · cases hs
  | receive c =>
    simp only [ApiState.step] at hs
    split at hs
    · split at hs
      · obtain rfl := Option.some.inj hs
        exact hsame rfl rfl
      · cases hs
    · cases hs
  | follow w _ _ | disconnect w | close w | walkOrders w _ | walkProducts w =>
    simp only [ApiState.step] at hs
    split at hs
    · obtain rfl := Option.some.inj hs
      exact hsame rfl rfl
    · cases hs
  | listOrders w limit | listProducts w limit =>
    simp only [ApiState.step] at hs
    split at hs
    · split_ifs at hs
      obtain ⟨walk, -, rfl⟩ := Option.map_eq_some_iff.mp hs
      exact hsame rfl rfl
    · cases hs

end Costs

/-! ## Runs -/

/-- The order was created in the run, by this request in this state. -/
def CreatedIn (s₀ : ApiState) (as : List ApiEvent) (r : CreateRequest) (s : ApiState) (o : Order) :
    Prop :=
  ∃ as₁ as₂ createdAt, as = as₁ ++ .createOrder r createdAt :: as₂ ∧ apis.run s₀ as₁ = some s ∧
    o.bill = s.newOrder r.body.items r.user.id createdAt

/-- The orders of a run are priced from the catalogue. -/
structure Priced (s₀ : ApiState) (as : List ApiEvent) (t : ApiState) : Prop where
  /-- each order was there before the run, or it was created in the run, of products that were in
  the catalogue then and at what they cost -/
  orders : ∀ o ∈ t.orders, o.bill ∈ s₀.bills ∨
    ∃ r s, CreatedIn s₀ as r s o ∧ Costs s.products o.items o.totalCents
  /-- a request that names an unknown product changes nothing -/
  refused : ∀ as₁ as₂ s s' r createdAt, as = as₁ ++ .createOrder r createdAt :: as₂ →
    apis.run s₀ as₁ = some s → apis.step s (.createOrder r createdAt) = some s' → ¬ r.Names s →
    s' = s

section Runs

variable {s₀ s t : ApiState} {as : List ApiEvent}

/-- **Where the orders come from.** -/
theorem createdIn_of_mem {o : Order} (hrun : apis.run s₀ as = some t) (ho : o ∈ t.orders) :
    o.bill ∈ s₀.bills ∨ ∃ r s, CreatedIn s₀ as r s o := by
  -- over the run: a bill is an old one or was written by a request of the run
  have hbills : ∀ b ∈ t.bills, b ∈ s₀.bills ∨ ∃ as₁ as₂ r createdAt s,
      as = as₁ ++ .createOrder r createdAt :: as₂ ∧ apis.run s₀ as₁ = some s ∧
        b = s.newOrder r.body.items r.user.id createdAt := by
    refine System.run_induction (J := fun as t => ∀ b ∈ t.bills, b ∈ s₀.bills ∨
      ∃ as₁ as₂ r createdAt s, as = as₁ ++ .createOrder r createdAt :: as₂ ∧
        apis.run s₀ as₁ = some s ∧ b = s.newOrder r.body.items r.user.id createdAt) ?_ ?_ hrun
    · exact fun b hb => .inl hb
    · intro as t a t' ht ih hs b hb
      rw [bills_step hs] at hb
      rcases List.mem_append.mp hb with hb | hb
      · rcases ih b hb with hold | ⟨as₁, as₂, r, createdAt, s, rfl, hs₁, hbs⟩
        · exact .inl hold
        · refine .inr ⟨as₁, as₂ ++ [a], r, createdAt, s, ?_, hs₁, hbs⟩
          rw [List.append_assoc, List.cons_append]
      · cases a with
        | createOrder r createdAt =>
          exact .inr ⟨as, [], r, createdAt, t, rfl, ht, List.mem_singleton.mp hb⟩
        | _ => cases hb
  rcases hbills o.bill (List.mem_map_of_mem ho) with hold | ⟨as₁, as₂, r, createdAt, s, h⟩
  · exact .inl hold
  · exact .inr ⟨r, s, as₁, as₂, createdAt, h⟩

/-- An order of known products costs what they cost. -/
theorem CreatedIn.costs {r : CreateRequest} {o : Order} (h : CreatedIn s₀ as r s o)
    (hok : apis.Meets NamesKnown s₀ as) : Costs s.products o.items o.totalCents := by
  obtain ⟨as₁, as₂, createdAt, rfl, hrun, hbill⟩ := h
  have hknown : r.Names s := hok.split hrun r createdAt rfl
  have hitems : o.items = r.body.items := congrArg Order.items hbill
  have htotal : o.totalCents = (s.newOrder r.body.items r.user.id createdAt).totalCents :=
    (congrArg Order.totalCents hbill : o.bill.totalCents = _)
  rw [hitems, htotal]
  exact total_costs hknown

/-- In a run that is priced nobody names an unknown product: the order would be created. -/
theorem Priced.meets (h : Priced s₀ as t) (hrun : apis.run s₀ as = some t) :
    apis.Meets NamesKnown s₀ as := by
  refine .of_splits ?_
  rintro as₁ _ as₂ s hsplit hs r createdAt rfl
  by_contra hunknown
  subst hsplit
  obtain ⟨s₁, hs₁, hrest⟩ := System.run_append_eq_some hrun
  obtain rfl := Option.some.inj (hs.symm.trans hs₁)
  obtain ⟨s', hstep, -⟩ := System.run_cons_eq_some hrest
  have hadded : s.step (.createOrder r createdAt) = some s' := hstep
  have hbills := bills_step hadded
  rw [h.refused as₁ as₂ s s' r createdAt rfl hs hstep hunknown] at hbills
  have hlength := congrArg List.length hbills
  simp [created] at hlength

end Runs

/-- **Orders are priced from the catalogue exactly as long as nobody names an unknown product.** -/
theorem orders_priced_iff {s₀ t : ApiState} {as : List ApiEvent} (hrun : apis.run s₀ as = some t) :
    Priced s₀ as t ↔ apis.Meets NamesKnown s₀ as := by
  refine ⟨fun h => h.meets hrun, fun hok => ⟨fun o ho => ?_, ?_⟩⟩
  · refine (createdIn_of_mem hrun ho).imp_right ?_
    rintro ⟨r, s, hcreated⟩
    exact ⟨r, s, hcreated, hcreated.costs hok⟩
  · rintro as₁ as₂ s s' r createdAt rfl hs - hunknown
    exact absurd (hok.split hs r createdAt rfl) hunknown

/-- Whether the request, if it is one for an order, names known products. -/
def namesKnown (s : ApiState) : ApiEvent → Bool
  | .createOrder r _ => decide (r.Names s)
  | _ => true

theorem namesKnown_of_check (s : ApiState) (a : ApiEvent) (h : namesKnown s a = true) :
    NamesKnown s a := by
  rintro r createdAt rfl
  exact of_decide_eq_true h

/-- A product is new, and an order names this product twice. -/
def demoItems (productId : String) : List ApiEvent :=
  [.createProduct "Килимок" 12900,
    .createOrder ⟨⟨"u1", .customer, "j", 0, "f"⟩, "key-1",
      ⟨[⟨productId, 2⟩, ⟨productId, 1⟩], none⟩⟩ "t",
    .updateStatus "o3" .packed "t"]

theorem demoItems_priced : ∃ t, apis.run initial (demoItems "p6") = some t ∧
    Priced initial (demoItems "p6") t :=
  ⟨_, rfl, (orders_priced_iff rfl).mpr (.of_checks namesKnown_of_check (by decide +kernel))⟩

/-- **An unknown product costs nothing**: the order for it is created, and its total is zero. -/
theorem unknown_product_costs_nothing : ∃ t, apis.run initial (demoItems "p99") = some t ∧
    (∃ o ∈ t.orders, o.id = "o3" ∧ o.items = [⟨"p99", 2⟩, ⟨"p99", 1⟩] ∧ o.totalCents = 0) ∧
    (∀ p ∈ t.products, p.id ≠ "p99") ∧ ¬ Priced initial (demoItems "p99") t := by
  refine ⟨_, rfl, by decide +kernel, by decide +kernel, fun h => ?_⟩
  have hnames := ((h.meets rfl).2 _ rfl).1 _ _ rfl
  revert hnames
  decide +kernel

end Marketplace.Api
