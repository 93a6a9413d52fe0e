import Marketplace.CheckoutRun

/-!
# The books balance

What the committed database says about itself, at every moment of every run of
concurrent checkouts: nothing is oversold or overdrawn, what left the shelves
and the accounts is what the orders say, and every order has its item, its job
and its event.

Only sales change the committed database, so it is enough that one valid sale
keeps the books (`Ledger.sale`). The one place where arithmetic matters is the
buyer's account: the price goes through JavaScript, and is charged and recorded
by two statements that round on their own. `Arith.Accurate` makes both come out
at price times quantity.
-/

namespace Marketplace

variable {rt : Runtime} {p : CheckoutParams} {x : Sale} {db db₀ : Database}

/-! ## The books -/

/-- How much of a product the orders contain. -/
def Database.sold (db : Database) (productId : ℤ) : ℤ :=
  ((db.orderItems.filter fun it => it.productId = productId).map OrderItem.quantity).sum

/-- How much a user's orders cost. -/
def Database.spent (db : Database) (userId : ℤ) : ℤ :=
  ((db.orders.filter fun o => o.buyerId = userId).map Order.totalAmount).sum

/-- The outbox row announces the order and its item. -/
structure Announces (rt : Runtime) (o : Order) (it : OrderItem) (row : OutboxRow) : Prop where
  aggregateType : row.aggregateType = "Order"
  type : row.type = orderPlaced
  payloadType : row.payload.type = orderPlaced
  eventId : row.payload.eventId = eventIdFor rt.sha1 orderPlaced (toString o.id)
  orderId : row.payload.data.orderId = o.id
  buyerId : rt.int8in row.payload.data.buyerId = some o.buyerId
  productId : rt.int8in row.payload.data.productId = some it.productId
  quantity : row.payload.data.quantity = it.quantity
  totalAmount : roundCents (rt.arith.text row.payload.data.totalAmount) = o.totalAmount

/-- What belongs to an order, and nothing else does. -/
structure Complete (rt : Runtime) (db : Database) (o : Order) : Prop where
  rows : ∃ it job row, db.orderItems.filter (fun r => r.orderId = o.id) = [it] ∧
    db.jobQueue.filter (fun r => r.orderId = o.id) = [job] ∧
    db.outbox.filter (fun r => r.aggregateId = o.id) = [row] ∧
    job.kind = "post_processing" ∧ Announces rt o it row

/-- The books of `db`, opened with `db₀`. -/
structure Ledger (rt : Runtime) (db₀ db : Database) : Prop where
  stock : ∀ id r, db.products id = some r → 0 ≤ r.stock
  balance : ∀ id r, db.users id = some r → 0 ≤ r.balance
  products : ∀ id, db₀.products id = none → db.products id = none
  sold : ∀ id r₀, db₀.products id = some r₀ →
    ∃ r, db.products id = some r ∧ r.price = r₀.price ∧ r₀.stock - r.stock = db.sold id
  users : ∀ id, db₀.users id = none → db.users id = none
  spent : ∀ id r₀, db₀.users id = some r₀ →
    ∃ r, db.users id = some r ∧ r₀.balance - r.balance = db.spent id
  complete : ∀ o ∈ db.orders, Complete rt db o
  items : Owned OrderItem.orderId db.orders db.orderItems
  jobs : Owned Job.orderId db.orders db.jobQueue
  outbox : Owned OutboxRow.aggregateId db.orders db.outbox
  keys : ∀ key v, db.idempotencyKeys key = some v → ∃ o ∈ db.orders, v = some o.id

/-! ## One sale -/

/-- **The account is charged what the order says**, whatever JavaScript made of
the price. -/
theorem Sale.Valid.charged (h : x.Valid rt p db) (hwf : db.WellFormed)
    (hacc : rt.arith.Accurate) :
    (x.chargedUser rt p).balance = x.user.balance - (x.order rt p).totalAmount := by
  set n : ℤ := x.product.price * p.quantity with hn
  have hprice : 0 ≤ x.product.price := (hwf.products _ _ h.product).1
  have hquantity : 0 < p.quantity := h.item.1
  -- the balance fits its column, so a total that it can pay is small
  have hbalance : amount x.user.balance ≤ 10 ^ 10 := by
    have hfits := (abs_lt.mp (hwf.users _ _ h.user).2).2
    have hcast : (x.user.balance : ℚ) < 10 ^ 12 := by exact_mod_cast hfits
    rw [amount, div_le_iff₀ (by norm_num)]
    linarith
  have hclose : |100 * x.total rt p - n| < 1 / 2 :=
    hacc _ _ hprice hquantity (h.afford.trans hbalance)
  have hcharged : (x.chargedUser rt p).balance = x.user.balance - n :=
    roundCents_amount_sub hclose
  have horder : (x.order rt p).totalAmount = n := roundCents_eq hclose
  rw [hcharged, horder]

/-- A sale leaves the rows of other orders as they are. -/
theorem Complete.sale (hx : x.Valid rt p db) {o : Order} (ho : o ∈ db.orders)
    (h : Complete rt db o) : Complete rt (x.apply rt p db) o := by
  obtain ⟨it, job, row, hitem, hjob, hrow, hrest⟩ := h.rows
  have hne : x.orderId ≠ o.id := (hx.newOrder o ho).symm
  exact ⟨it, job, row, (Table.filter_append_ne OrderItem.orderId hne).trans hitem,
    (Table.filter_append_ne Job.orderId hne).trans hjob,
    (Table.filter_append_ne OutboxRow.aggregateId hne).trans hrow, hrest⟩

/-- The event of a sale announces its order. -/
theorem Sale.Valid.announces (hx : x.Valid rt p db) :
    Announces rt (x.order rt p) (x.item rt p) (x.outboxRow rt p) where
  aggregateType := rfl
  type := rfl
  payloadType := rfl
  eventId := rfl
  orderId := rfl
  buyerId := hx.buyerId
  productId := hx.productId
  quantity := rfl
  totalAmount := rfl

/-- **A valid sale keeps the books.** -/
theorem Ledger.sale (h : Ledger rt db₀ db) (hwf : db.WellFormed) (hacc : rt.arith.Accurate)
    (hx : x.Valid rt p db) : Ledger rt db₀ (x.apply rt p db) where
  stock := fun id r hr => ((hx.wellFormed hwf).products id r hr).2.1
  balance := fun id r hr => ((hx.wellFormed hwf).users id r hr).1
  products := by
    intro id hnone
    have hne : id ≠ x.productId := (Slots.ne_of_free (h.products id hnone) hx.product).symm
    exact (Function.update_of_ne hne ..).trans (h.products id hnone)
  sold := by
    intro id r₀ hr₀
    obtain ⟨r, hr, hprice, hsold⟩ := h.sold id r₀ hr₀
    have hsum : (x.apply rt p db).sold id
        = db.sold id + if x.productId = id then p.quantity else 0 := by
      simp only [Database.sold, Sale.apply, List.filter_append, List.map_append, List.sum_append]
      by_cases hid : x.productId = id
      · simp [Sale.item, Runtime.itemRow, hid]
      · simp [Sale.item, Runtime.itemRow, hid]
    by_cases hid : x.productId = id
    · subst hid
      obtain rfl := Option.some.inj (hr.symm.trans hx.product)
      refine ⟨x.soldProduct p, Function.update_self .., hprice, ?_⟩
      rw [hsum, if_pos rfl, ← hsold]
      simp only [Sale.soldProduct, Product.sell]
      ring
    · refine ⟨r, (Function.update_of_ne (Ne.symm hid) ..).trans hr, hprice, ?_⟩
      rw [hsum, if_neg hid, add_zero]
      exact hsold
  users := by
    intro id hnone
    have hne : id ≠ x.buyerId := (Slots.ne_of_free (h.users id hnone) hx.user).symm
    exact (Function.update_of_ne hne ..).trans (h.users id hnone)
  spent := by
    intro id r₀ hr₀
    obtain ⟨r, hr, hspent⟩ := h.spent id r₀ hr₀
    have hsum : (x.apply rt p db).spent id
        = db.spent id + if x.buyerId = id then (x.order rt p).totalAmount else 0 := by
      simp only [Database.spent, Sale.apply, List.filter_append, List.map_append, List.sum_append]
      by_cases hid : x.buyerId = id
      · simp [Sale.order, Runtime.orderRow, hid]
      · simp [Sale.order, Runtime.orderRow, hid]
    by_cases hid : x.buyerId = id
    · subst hid
      obtain rfl := Option.some.inj (hr.symm.trans hx.user)
      refine ⟨x.chargedUser rt p, Function.update_self .., ?_⟩
      rw [hsum, if_pos rfl, ← hspent, hx.charged hwf hacc]
      ring
    · refine ⟨r, (Function.update_of_ne (Ne.symm hid) ..).trans hr, ?_⟩
      rw [hsum, if_neg hid, add_zero]
      exact hspent
  complete := by
    intro o ho
    rcases List.mem_append.mp ho with ho | ho
    · exact (h.complete o ho).sale hx ho
    · obtain rfl := List.mem_singleton.mp ho
      exact ⟨x.item rt p, x.job, x.outboxRow rt p,
        Table.filter_append_eq rfl (hwf.items.ne hx.newOrder),
        Table.filter_append_eq rfl (h.jobs.ne hx.newOrder),
        Table.filter_append_eq rfl (h.outbox.ne hx.newOrder), rfl, hx.announces⟩
  items := (hx.wellFormed hwf).items
  jobs := h.jobs.append rfl
  outbox := h.outbox.append rfl
  keys := (hx.wellFormed hwf).keys

/-! ## Every run -/

/-- No order has been placed yet. -/
structure Database.Unsold (db : Database) : Prop where
  orders : db.orders = []
  orderItems : db.orderItems = []
  jobQueue : db.jobQueue = []
  outbox : db.outbox = []
  idempotencyKeys : ∀ key, db.idempotencyKeys key = none

/-- Books start balanced. -/
theorem Database.Unsold.ledger (h : db.Unsold) (hwf : db.WellFormed) : Ledger rt db db where
  stock := fun id r hr => (hwf.products id r hr).2.1
  balance := fun id r hr => (hwf.users id r hr).1
  products := fun _ hnone => hnone
  sold := by
    intro id r hr
    refine ⟨r, hr, rfl, ?_⟩
    simp [Database.sold, h.orderItems]
  users := fun _ hnone => hnone
  spent := by
    intro id r hr
    refine ⟨r, hr, ?_⟩
    simp [Database.spent, h.orders]
  complete := by simp [h.orders]
  items := hwf.items
  jobs := by simp [Owned, h.jobQueue]
  outbox := by simp [Owned, h.outbox]
  keys := hwf.keys

/-- One step keeps the books. -/
theorem Ledger.step (hacc : rt.arith.Accurate) {s s' : Shop} {a : CheckoutEvent}
    (hinv : s.Inv rt) (h : Ledger rt db₀ s.db.committed) (hs : s.step rt a = some s') :
    Ledger rt db₀ s'.db.committed := by
  rcases hinv.committed_step hs with heq | ⟨p, x, hx, heq, _⟩
  · exact heq ▸ h
  · exact heq ▸ h.sale hinv.wellFormed hacc hx

/-- **The books balance in every committed state**, with JavaScript's own
arithmetic, for any calls and any interleaving of their statements. -/
theorem checkout_books_balance {P : Printer} (harith : rt.arith = P.arith) {s₀ s : Shop}
    {as : List CheckoutEvent} (hstart : s₀.Start) (hunsold : s₀.db.committed.Unsold)
    (hrun : (checkouts rt).run s₀ as = some s) : Ledger rt s₀.db.committed s.db.committed := by
  have hacc : rt.arith.Accurate := harith ▸ P.accurate
  have hboth : (checkouts rt).Invariant fun s =>
      s.Inv rt ∧ Ledger rt s₀.db.committed s.db.committed := by
    intro s a s' h hs
    exact ⟨checkouts_invariant s a s' h.1 hs, h.2.step hacc h.1 hs⟩
  exact (hboth.run ⟨hstart.inv, hunsold.ledger hstart.wellFormed⟩ hrun).2

theorem demoShop_unsold : demoShop.db.committed.Unsold :=
  ⟨rfl, rfl, rfl, rfl, fun _ => rfl⟩

/-- Buyer 1 takes two of three; buyer 2 wants two as well, waits for the row and
goes away empty-handed; a third call dies after its decrement. -/
def demoRace : List CheckoutEvent :=
  .call 0 ⟨"1", "1", 2, none⟩ :: .call 1 ⟨"2", "1", 2, none⟩ :: .exec 0 ⟨1, 0, 0⟩ ::
    .exec 1 ⟨2, 0, 0⟩ :: List.replicate 10 (.exec 0 ⟨1, 0, 0⟩) ++
    List.replicate 2 (.exec 1 ⟨2, 0, 0⟩) ++ demoCall 2 ⟨"2", "1", 1, none⟩ 3 3 ++ [.crash 2]

theorem demoRace_books_balance :
    ∃ s, (checkouts (demoRuntime Printer.allDigits.arith)).run demoShop demoRace = some s ∧
      s.db.committed.sold 1 = 2 ∧
      Ledger (demoRuntime Printer.allDigits.arith) demoShop.db.committed s.db.committed := by
  have hsome : ((checkouts (demoRuntime Printer.allDigits.arith)).run demoShop
      demoRace).any (fun s => s.db.committed.sold 1 = 2) = true := by
    decide +kernel
  obtain ⟨s, hrun, hsold⟩ := (Option.any_eq_true _ _).mp hsome
  exact ⟨s, hrun, of_decide_eq_true hsold,
    checkout_books_balance (P := Printer.allDigits) rfl demoShop_start demoShop_unsold hrun⟩

end Marketplace
