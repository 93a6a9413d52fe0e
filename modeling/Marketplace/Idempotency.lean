import Marketplace.Solo

/-!
# Idempotency keys

A key is claimed first and recorded in the same transaction as the order, so the
committed database never shows a key without its order, and a key that is not
shown is free to use. `KeyInv` ties the three together in every reachable state:
the keys recorded, the orders placed, and the answers given.

What a replay answers follows from the key alone. Whose request the order was is
a different question: a key identifies one attempt to buy, and whoever presents
it is told how that attempt ended (`answer_describes_request`).
-/

namespace Marketplace

variable {rt : Runtime}

/-- The order is the one the request asks for: its buyer, its one item. -/
def CheckoutParams.Describes (rt : Runtime) (p : CheckoutParams) (db : Database)
    (orderId : OrderId) : Prop :=
  ∃ o ∈ db.orders, o.id = orderId ∧ rt.int8in p.buyerId = some o.buyerId ∧
    ∃ it, db.orderItems.filter (fun r => r.orderId = orderId) = [it] ∧
      rt.int8in p.productId = some it.productId ∧ it.quantity = p.quantity

/-- A sale makes the order its request asks for. -/
theorem Sale.Valid.describes {p : CheckoutParams} {x : Sale} {db : Database}
    (hx : x.Valid rt p db) (hwf : db.WellFormed) :
    p.Describes rt (x.apply rt p db) x.orderId :=
  ⟨x.order rt p, List.mem_append_right _ (List.mem_singleton_self _), rfl, hx.buyerId,
    x.item rt p, Table.filter_append_eq rfl (hwf.items.ne hx.newOrder), hx.productId, rfl⟩

/-- Later sales leave it as it is. -/
theorem CheckoutParams.Describes.sale {p q : CheckoutParams} {x : Sale} {db : Database}
    {orderId : OrderId} (h : q.Describes rt db orderId) (hx : x.Valid rt p db) :
    q.Describes rt (x.apply rt p db) orderId := by
  obtain ⟨o, ho, rfl, hbuyer, it, hit, hrest⟩ := h
  exact ⟨o, List.mem_append_left _ ho, rfl, hbuyer, it,
    (Table.filter_append_ne OrderItem.orderId (hx.newOrder o ho).symm).trans hit, hrest⟩

/-! ## Keys, orders and answers -/

/-- How recorded keys, committed orders and answers belong together, in a run
from `s₀`. -/
structure KeyInv (rt : Runtime) (s₀ s : Shop) : Prop where
  /-- an order placed under a key is recorded under it -/
  recorded : ∀ i p orderId total key, s.Answers rt i p (.success orderId total false) →
    p.idempotencyKey = some key → s.db.committed.idempotencyKeys key = some (some orderId)
  /-- an order placed is the caller's -/
  describes : ∀ i p orderId total, s.Answers rt i p (.success orderId total false) →
    p.Describes rt s.db.committed orderId
  /-- no two calls place one order -/
  distinct : ∀ i j p q orderId total total', s.Answers rt i p (.success orderId total false) →
    s.Answers rt j q (.success orderId total' false) → i = j
  /-- a replay answers with the order recorded under the key -/
  replayed : ∀ i p orderId total, s.Answers rt i p (.success orderId total true) →
    ∃ key o, p.idempotencyKey = some key ∧ Recorded s.db.committed key o ∧ o.id = orderId ∧
      total = rt.arith.number (amount o.totalAmount)
  /-- only placing an order records a key -/
  keys : ∀ key v, s.db.committed.idempotencyKeys key = some v →
    s₀.db.committed.idempotencyKeys key = some v ∨ ∃ i p orderId total, v = some orderId ∧
      p.idempotencyKey = some key ∧ s.Answers rt i p (.success orderId total false)
  /-- only calls place orders -/
  orders : ∀ o ∈ s.db.committed.orders, o ∈ s₀.db.committed.orders ∨
    ∃ i p total, s.Answers rt i p (.success o.id total false)
  /-- an order placed is a new one -/
  fresh : ∀ i p orderId total, s.Answers rt i p (.success orderId total false) →
    ∀ o ∈ s₀.db.committed.orders, o.id ≠ orderId
  /-- nothing is taken back -/
  grows : s₀.db.committed.Extends s.db.committed

theorem Shop.Start.keyInv {s : Shop} (h : s.Start) : KeyInv rt s s := by
  have hnone : ∀ i p r, ¬ s.Answers rt i p r := by
    rintro i p r ⟨st, hc, _⟩
    rw [h.calls i] at hc
    cases hc
  exact
    { recorded := fun i p o t key ha => absurd ha (hnone i p _)
      describes := fun i p o t ha => absurd ha (hnone i p _)
      distinct := fun i j p q o t t' ha => absurd ha (hnone i p _)
      replayed := fun i p o t ha => absurd ha (hnone i p _)
      keys := fun _ _ hv => .inl hv
      orders := fun _ ho => .inl ho
      fresh := fun i p o t ha => absurd ha (hnone i p _)
      grows := .refl _ }

namespace KeyInv

variable {s₀ s s' : Shop} {a : CheckoutEvent}

/-- A step that commits nothing and places no order. -/
theorem idle (h : KeyInv rt s₀ s) (hinv : s.Inv rt) (hs : s.step rt a = some s')
    (hdb : s'.db.committed = s.db.committed)
    (hold : ∀ i p orderId total, s'.Answers rt i p (.success orderId total false) →
      s.Answers rt i p (.success orderId total false))
    (hreplayed : ∀ i p orderId total, s'.Answers rt i p (.success orderId total true) →
      s.Answers rt i p (.success orderId total true) ∨
        ∃ key o, p.idempotencyKey = some key ∧ Recorded s.db.committed key o ∧ o.id = orderId ∧
          total = rt.arith.number (amount o.totalAmount)) : KeyInv rt s₀ s' where
  recorded := by
    rw [hdb]
    exact fun i p o t key ha => h.recorded i p o t key (hold i p o t ha)
  describes := by
    rw [hdb]
    exact fun i p o t ha => h.describes i p o t (hold i p o t ha)
  distinct := fun i j p q o t t' hi hj =>
    h.distinct i j p q o t t' (hold i p o t hi) (hold j q o t' hj)
  replayed := by
    intro i p o t ha
    rw [hdb]
    rcases hreplayed i p o t ha with ha | hnew
    · exact h.replayed i p o t ha
    · exact hnew
  keys := by
    intro key v hv
    rw [hdb] at hv
    rcases h.keys key v hv with h₀ | ⟨i, p, o, t, hvo, hkey, ha⟩
    · exact .inl h₀
    · exact .inr ⟨i, p, o, t, hvo, hkey, hinv.placed_step hs ha⟩
  orders := by
    intro o ho
    rw [hdb] at ho
    rcases h.orders o ho with h₀ | ⟨i, p, t, ha⟩
    · exact .inl h₀
    · exact .inr ⟨i, p, t, hinv.placed_step hs ha⟩
  fresh := fun i p o t ha => h.fresh i p o t (hold i p o t ha)
  grows := by
    rw [hdb]
    exact h.grows

/-- A step that places the order of a sale. -/
theorem sale (h : KeyInv rt s₀ s) (hinv : s.Inv rt) (hs : s.step rt a = some s')
    {p : CheckoutParams} {x : Sale} (hx : x.Valid rt p s.db.committed)
    (hdb : s'.db.committed = x.apply rt p s.db.committed)
    (hself : s'.Answers rt a.id p (x.answer rt p))
    (hnew : ∀ j q r', s'.Answers rt j q r' →
      s.Answers rt j q r' ∨ (j = a.id ∧ q = p ∧ r' = x.answer rt p)) : KeyInv rt s₀ s' where
  recorded := by
    intro i q o t key ha hkey
    rw [hdb]
    rcases hnew i q _ ha with ha | ⟨_, rfl, hr⟩
    · exact hx.extends.keys key o (h.recorded i q o t key ha hkey)
    · cases hr
      simp only [Sale.apply, Sale.keysAfter, hkey, Function.update_self]
  describes := by
    intro i q o t ha
    rw [hdb]
    rcases hnew i q _ ha with ha | ⟨_, rfl, hr⟩
    · exact (h.describes i q o t ha).sale hx
    · cases hr
      exact hx.describes hinv.wellFormed
  distinct := by
    -- an order placed earlier does not have the new id
    have hold : ∀ j q t, ¬ s.Answers rt j q (.success x.orderId t false) := by
      intro j q t ha
      obtain ⟨o, ho, hid, _⟩ := h.describes j q x.orderId t ha
      exact hx.newOrder o ho hid
    intro i j q q' o t t' hi hj
    rcases hnew i q _ hi with hi | ⟨rfl, rfl, hr⟩
    · rcases hnew j q' _ hj with hj | ⟨rfl, rfl, hr⟩
      · exact h.distinct i j q q' o t t' hi hj
      · cases hr
        exact absurd hi (hold i q t)
    · cases hr
      rcases hnew j q' _ hj with hj | ⟨rfl, rfl, _⟩
      · exact absurd hj (hold j q' t')
      · rfl
  replayed := by
    intro i q o t ha
    rw [hdb]
    rcases hnew i q _ ha with ha | ⟨_, _, hr⟩
    · obtain ⟨key, r, hkey, hr, hrest⟩ := h.replayed i q o t ha
      exact ⟨key, r, hkey, hr.extends hx.extends, hrest⟩
    · cases hr
  keys := by
    intro key v hv
    have hold : s.db.committed.idempotencyKeys key = some v →
        s₀.db.committed.idempotencyKeys key = some v ∨ ∃ i p orderId total, v = some orderId ∧
          p.idempotencyKey = some key ∧ s'.Answers rt i p (.success orderId total false) := by
      intro hv
      rcases h.keys key v hv with h₀ | ⟨i, q, o, t, hvo, hkey, ha⟩
      · exact .inl h₀
      · exact .inr ⟨i, q, o, t, hvo, hkey, hinv.placed_step hs ha⟩
    rw [hdb] at hv
    rcases hk : p.idempotencyKey with _ | key'
    · simp only [Sale.apply, Sale.keysAfter, hk] at hv
      exact hold hv
    · simp only [Sale.apply, Sale.keysAfter, hk] at hv
      rcases Slots.found_cases_some hv with ⟨rfl, rfl⟩ | ⟨-, hv⟩
      · exact .inr ⟨a.id, p, x.orderId, _, rfl, hk, hself⟩
      · exact hold hv
  orders := by
    intro o ho
    rw [hdb] at ho
    rcases List.mem_append.mp ho with ho | ho
    · rcases h.orders o ho with h₀ | ⟨i, q, t, ha⟩
      · exact .inl h₀
      · exact .inr ⟨i, q, t, hinv.placed_step hs ha⟩
    · obtain rfl := List.mem_singleton.mp ho
      exact .inr ⟨a.id, p, _, hself⟩
  fresh := by
    intro i q o t ha r hr
    rcases hnew i q _ ha with ha | ⟨_, _, hans⟩
    · exact h.fresh i q o t ha r hr
    · cases hans
      exact hx.newOrder r (h.grows.orders r hr)
  grows := by
    rw [hdb]
    exact h.grows.trans hx.extends

/-- Every step keeps it. -/
theorem step (h : KeyInv rt s₀ s) (hinv : s.Inv rt) (hs : s.step rt a = some s') :
    KeyInv rt s₀ s' := by
  rcases hinv.answers_step hs with ⟨hdb, hold⟩ | ⟨p, r, hd, hself, _, hnew⟩
  · exact h.idle hinv hs hdb (fun i p o t => hold i p _) (fun i p o t ha => .inl (hold i p _ ha))
  · -- a request that is refused leaves all as it was
    have hrefused : (∀ o t b, r ≠ .success o t b) → s'.db.committed = s.db.committed →
        KeyInv rt s₀ s' := by
      intro hr hdb
      have hold : ∀ i q o t b, s'.Answers rt i q (.success o t b) →
          s.Answers rt i q (.success o t b) := by
        intro i q o t b ha
        rcases hnew i q _ ha with ha | ⟨_, _, heq⟩
        · exact ha
        · exact absurd heq.symm (hr o t b)
      exact h.idle hinv hs hdb (fun i q o t => hold i q o t false)
        (fun i q o t ha => .inl (hold i q o t true ha))
    generalize hdb : s'.db.committed = db' at hd
    cases hd with
    | replay hkey ho =>
      refine h.idle hinv hs hdb ?_ ?_
      · intro i q o t ha
        rcases hnew i q _ ha with ha | ⟨_, _, hr⟩
        · exact ha
        · cases hr
      · intro i q o t ha
        rcases hnew i q _ ha with ha | ⟨_, rfl, hr⟩
        · exact .inl ha
        · cases hr
          exact .inr ⟨_, _, hkey, ho, rfl, rfl⟩
    | outOfStock | insufficientFunds => exact hrefused (by simp) hdb
    | sale hx => exact h.sale hinv hs hx hdb hself hnew

end KeyInv

/-- Both invariants hold along every run. -/
theorem keyInv_run {s₀ s : Shop} {as : List CheckoutEvent} (hstart : s₀.Start)
    (hrun : (checkouts rt).run s₀ as = some s) : s.Inv rt ∧ KeyInv rt s₀ s := by
  have hboth : (checkouts rt).Invariant fun s => s.Inv rt ∧ KeyInv rt s₀ s :=
    fun s a s' h hs => ⟨checkouts_invariant s a s' h.1 hs, h.2.step h.1 hs⟩
  exact hboth.run ⟨hstart.inv, hstart.keyInv⟩ hrun

/-- An order placed stays placed to the end of the run. -/
theorem placed_run {s t : Shop} {as : List CheckoutEvent} (hinv : s.Inv rt)
    (hrun : (checkouts rt).run s as = some t) {i : ℕ} {p : CheckoutParams} {orderId : OrderId}
    {total : ℚ} (hp : s.Answers rt i p (.success orderId total false)) :
    t.Answers rt i p (.success orderId total false) := by
  have hboth : (checkouts rt).Invariant fun s =>
      s.Inv rt ∧ s.Answers rt i p (.success orderId total false) :=
    fun s a s' h hs => ⟨checkouts_invariant s a s' h.1 hs, h.1.placed_step hs h.2⟩
  exact (hboth.run ⟨hinv, hp⟩ hrun).2

/-- Only checkouts hold locks. -/
theorem others_quiet {s₀ s : Shop} {as : List CheckoutEvent} (hstart : s₀.Start)
    (hrun : (checkouts rt).run s₀ as = some s) {t : Client} (ht : ∀ i, t ≠ .checkout i) :
    s.db.Quiet t := by
  have hboth : (checkouts rt).Invariant fun s => s.Inv rt ∧ s.db.Quiet t :=
    fun s a s' h hs =>
      ⟨checkouts_invariant s a s' h.1 hs, (h.1.others_step hs (ht a.id)).quiet h.2⟩
  refine (hboth.run ⟨hstart.inv, ?_⟩ hrun).2
  rw [hstart.idle]
  exact Engine.quiet_idle _ _

/-- When every call has ended, nothing is locked. -/
theorem free_of_ended {s₀ s : Shop} {as : List CheckoutEvent} (hstart : s₀.Start)
    (hrun : (checkouts rt).run s₀ as = some s)
    (hended : ∀ j q pc, s.calls j ≠ some ⟨q, .running pc⟩) (i : ℕ) (l : Lock) :
    s.free i l = true := by
  have hinv := (keyInv_run hstart hrun).1
  have hquiet : ∀ t, s.db.Quiet t := by
    intro t
    cases t with
    | checkout j =>
      have hj := hinv.call j
      rcases hc : s.calls j with _ | ⟨q, pc | o⟩
      · rwa [hc] at hj
      · exact absurd hc (hended j q pc)
      · rwa [hc] at hj
    | relay j => exact others_quiet hstart hrun fun i h => by cases h
    | consumer j => exact others_quiet hstart hrun fun i h => by cases h
    | worker j => exact others_quiet hstart hrun fun i h => by cases h
    | pruner => exact others_quiet hstart hrun fun i h => by cases h
  rw [Shop.free, Engine.free_iff]
  intro t ht
  exact absurd ht ((hquiet t).2 l)

/-! ## What a key promises -/

/-- What a client may rely on for its key, after the run `as` from `s₀` to `s`. -/
structure KeyLaw (rt : Runtime) (key : String) (s₀ : Shop) (as : List CheckoutEvent) (s : Shop) :
    Prop where
  /-- at most one order is placed under the key, and none if it was recorded -/
  one : ∀ i j p q orderId orderId' total total', p.idempotencyKey = some key →
    q.idempotencyKey = some key → s.Answers rt i p (.success orderId total false) →
    s.Answers rt j q (.success orderId' total' false) → i = j
  none : ∀ i p orderId total v, p.idempotencyKey = some key →
    s₀.db.committed.idempotencyKeys key = some v →
    ¬ s.Answers rt i p (.success orderId total false)
  /-- orders are placed by calls only -/
  placed : ∀ o ∈ s.db.committed.orders, o ∈ s₀.db.committed.orders ∨
    ∃ i p total, s.Answers rt i p (.success o.id total false)
  /-- every other successful call returns the order recorded, with its stored total -/
  replay : ∀ i p orderId total, p.idempotencyKey = some key →
    s.calls i = some ⟨p, .done (.returned (.success orderId total true))⟩ →
    ∃ o, Recorded s.db.committed key o ∧ o.id = orderId ∧
      total = rt.arith.number (amount o.totalAmount)
  /-- and that is the order placed under the key, if one was -/
  same : ∀ i j p q orderId orderId' total total', p.idempotencyKey = some key →
    q.idempotencyKey = some key →
    s.calls i = some ⟨p, .done (.returned (.success orderId total true))⟩ →
    s.Answers rt j q (.success orderId' total' false) → orderId = orderId'
  /-- a call that places no order never changes what is committed -/
  silent : ∀ as₁ a as₂ r r', as = as₁ ++ a :: as₂ → (checkouts rt).run s₀ as₁ = some r →
    (checkouts rt).step r a = some r' →
    (∀ p orderId total, ¬ s.Answers rt a.id p (.success orderId total false)) →
    r'.db.committed = r.db.committed
  /-- so the key is recorded only if an order was placed under it -/
  row : ∀ v, s.db.committed.idempotencyKeys key = some v →
    s₀.db.committed.idempotencyKeys key = some v ∨ ∃ i p orderId total, v = some orderId ∧
      p.idempotencyKey = some key ∧ s.Answers rt i p (.success orderId total false)
  /-- otherwise, when all calls have ended, a later call with the key can succeed -/
  retry : (∀ j q pc, s.calls j ≠ some ⟨q, .running pc⟩) →
    ∀ i p x, p.idempotencyKey = some key → s.calls i = Option.none →
    Sale.Valid rt p x s.db.committed → s.nextOrder = x.orderId →
    ∃ bs s', (checkouts rt).run s bs = some s' ∧
      s'.calls i = some ⟨p, .done (.returned (x.answer rt p))⟩
  /-- the SELECT of a replay finds its row -/
  found : ∀ i p, s.calls i ≠ some ⟨p, .running (.rollbackReplay Option.none)⟩

/-- **Idempotency keys keep their promise**: at most one order, faithful replays,
and a failed attempt leaves the key free. -/
theorem idempotency_key_law (key : String) {s₀ s : Shop} {as : List CheckoutEvent}
    (hstart : s₀.Start) (hrun : (checkouts rt).run s₀ as = some s) :
    KeyLaw rt key s₀ as s := by
  obtain ⟨hinv, hkeys⟩ := keyInv_run hstart hrun
  refine ⟨?_, ?_, hkeys.orders, ?_, ?_, ?_, fun v => hkeys.keys key v, ?_, ?_⟩
  · intro i j p q o o' t t' hp hq hi hj
    have hsame := (hkeys.recorded i p o t key hi hp).symm.trans (hkeys.recorded j q o' t' key hj hq)
    obtain rfl := Option.some.inj (Option.some.inj hsame)
    exact hkeys.distinct i j p q o t t' hi hj
  · intro i p o t v hp hv hi
    obtain ⟨r, hr, rfl⟩ := hstart.wellFormed.keys key v hv
    have hsame := (hkeys.grows.keys key r.id hv).symm.trans (hkeys.recorded i p o t key hi hp)
    exact hkeys.fresh i p o t hi r hr (Option.some.inj (Option.some.inj hsame))
  · intro i p o t hp hi
    obtain ⟨key', r, hkey', hr, hid, ht⟩ := hkeys.replayed i p o t (.of_returned hi)
    obtain rfl := Option.some.inj (hp.symm.trans hkey')
    exact ⟨r, hr, hid, ht⟩
  · intro i j p q o o' t t' hp hq hi hj
    obtain ⟨key', r, hkey', hr, rfl, _⟩ := hkeys.replayed i p o t (.of_returned hi)
    obtain rfl := Option.some.inj (hp.symm.trans hkey')
    exact Option.some.inj (Option.some.inj (hr.2.symm.trans (hkeys.recorded j q o' t' _ hj hq)))
  · rintro as₁ a as₂ r r' rfl hr hstep hnot
    obtain ⟨u, hu, hrest⟩ := System.run_append_eq_some hrun
    obtain rfl := Option.some.inj (hr.symm.trans hu)
    obtain ⟨r'', hstep', hrest⟩ := System.run_cons_eq_some hrest
    obtain rfl := Option.some.inj (hstep.symm.trans hstep')
    have hrinv := (keyInv_run hstart hr).1
    rcases hrinv.committed_step hstep with heq | ⟨p, x, _, _, ha⟩
    · exact heq
    · -- it would have placed an order, and that would still show at the end
      exact absurd (placed_run (checkouts_invariant r a r' hrinv hstep) hrest ha) (hnot p _ _)
  · intro hended i p x _ hnone hx hnext
    have hfree := free_of_ended hstart hrun hended i
    obtain ⟨n, s', hgoes, hs'⟩ := hinv.goes_through hnone hx hnext (fun _ _ => hfree _)
      (hfree _) (hfree _) (hfree _)
    exact ⟨_, s', hgoes, hs'⟩
  · intro i p hc
    obtain ⟨_, _, _, _, _, hprev⟩ := hinv.running hc
    cases hprev

/-- A first attempt dies before its COMMIT, a second waits for it and buys one
piece, and the client's retry, with the answer lost on the way, is told the same
order. -/
def demoRetries : List CheckoutEvent :=
  demoCall 0 ⟨"1", "1", 1, some "k"⟩ 1 11 ++ [.call 1 ⟨"1", "1", 1, some "k"⟩, .crash 0] ++
    List.replicate 12 (.exec 1 ⟨2, 0, 0⟩) ++ [.loseAnswer 1] ++
    demoCall 2 ⟨"1", "1", 1, some "k"⟩ 3 3

theorem demoRetries_key_law :
    ∃ s, (checkouts (demoRuntime .exact)).run demoShop demoRetries = some s ∧
      s.calls 2
        = some ⟨⟨"1", "1", 1, some "k"⟩, .done (.returned (.success 2 (amount 1050) true))⟩ ∧
      KeyLaw (demoRuntime .exact) "k" demoShop demoRetries s := by
  have hsome : ((checkouts (demoRuntime .exact)).run demoShop demoRetries).any (fun s =>
      s.calls 2 = some ⟨⟨"1", "1", 1, some "k"⟩,
        .done (.returned (.success 2 (amount 1050) true))⟩) = true := by
    decide +kernel
  obtain ⟨s, hrun, hcall⟩ := (Option.any_eq_true _ _).mp hsome
  exact ⟨s, hrun, of_decide_eq_true hcall, idempotency_key_law "k" demoShop_start hrun⟩

/-! ## Whose request an answer is about -/

/-- **What a successful answer is about.** A call that placed its order is told
about its own request. A replay is told about the order recorded under its key:
the one of the call that placed it, whose own request that is. -/
theorem answer_describes_request {s₀ s : Shop} {as : List CheckoutEvent} (hstart : s₀.Start)
    (hrun : (checkouts rt).run s₀ as = some s) {i : ℕ} {p : CheckoutParams} {orderId : OrderId}
    {total : ℚ} {replayed : Bool}
    (hc : s.calls i = some ⟨p, .done (.returned (.success orderId total replayed))⟩) :
    (replayed = false → p.Describes rt s.db.committed orderId) ∧
      (replayed = true → ∃ key, p.idempotencyKey = some key ∧
        s.db.committed.idempotencyKeys key = some (some orderId) ∧
        (s₀.db.committed.idempotencyKeys key = some (some orderId) ∨
          ∃ j q total', q.idempotencyKey = some key ∧
            s.Answers rt j q (.success orderId total' false) ∧
            q.Describes rt s.db.committed orderId)) := by
  obtain ⟨_, hkeys⟩ := keyInv_run hstart hrun
  constructor
  · rintro rfl
    exact hkeys.describes i p orderId total (.of_returned hc)
  · rintro rfl
    obtain ⟨key, o, hkey, hr, rfl, _⟩ := hkeys.replayed i p orderId total (.of_returned hc)
    refine ⟨key, hkey, hr.2, ?_⟩
    rcases hkeys.keys key _ hr.2 with h₀ | ⟨j, q, orderId', t, hv, hq, hj⟩
    · exact .inl h₀
    · obtain rfl := Option.some.inj hv
      exact .inr ⟨j, q, t, hq, hj, hkeys.describes j q _ t hj⟩

/-- Buyer 1 places an order under a key, buyer 2 asks for two pieces under the
same key. -/
def demoSharedKey : List CheckoutEvent :=
  demoCall 0 ⟨"1", "1", 1, some "k"⟩ 1 13 ++ demoCall 1 ⟨"2", "1", 2, some "k"⟩ 2 3

theorem demoSharedKey_answer :
    ∃ s, (checkouts (demoRuntime .exact)).run demoShop demoSharedKey = some s ∧
      ∃ key, some "k" = some key ∧ s.db.committed.idempotencyKeys key = some (some 1) ∧
        (demoShop.db.committed.idempotencyKeys key = some (some 1) ∨
          ∃ j q total', q.idempotencyKey = some key ∧
            s.Answers (demoRuntime .exact) j q (.success 1 total' false) ∧
            q.Describes (demoRuntime .exact) s.db.committed 1) := by
  have hsome : ((checkouts (demoRuntime .exact)).run demoShop demoSharedKey).any (fun s =>
      s.calls 1 = some ⟨⟨"2", "1", 2, some "k"⟩,
        .done (.returned (.success 1 (amount 1050) true))⟩) = true := by
    decide +kernel
  obtain ⟨s, hrun, hcall⟩ := (Option.any_eq_true _ _).mp hsome
  exact ⟨s, hrun, (answer_describes_request demoShop_start hrun (of_decide_eq_true hcall)).2 rfl⟩

/-- A replay need not be about the caller's own request: the key decides. -/
theorem replay_ignores_request :
    ¬ ∀ (rt : Runtime) (s₀ s : Shop) (as : List CheckoutEvent), s₀.Start →
      (checkouts rt).run s₀ as = some s →
      ∀ i p orderId total replayed,
        s.calls i = some ⟨p, .done (.returned (.success orderId total replayed))⟩ →
        p.Describes rt s.db.committed orderId := by
  intro hclaim
  have hsome : ((checkouts (demoRuntime .exact)).run demoShop demoSharedKey).any (fun s =>
      (s.calls 1 = some ⟨⟨"2", "1", 2, some "k"⟩,
          .done (.returned (.success 1 (amount 1050) true))⟩ : Bool) &&
        s.db.committed.orders.all fun o => o.buyerId = 1) = true := by
    decide +kernel
  obtain ⟨s, hrun, hboth⟩ := (Option.any_eq_true _ _).mp hsome
  obtain ⟨hcall, hbuyers⟩ := Bool.and_eq_true_iff.mp hboth
  obtain ⟨o, ho, _, hbuyer, _⟩ :=
    hclaim _ _ _ _ demoShop_start hrun 1 _ _ _ _ (of_decide_eq_true hcall)
  -- the only order is buyer 1's, the caller is buyer 2
  have hone : o.buyerId = 1 := of_decide_eq_true (List.all_eq_true.mp hbuyers o ho)
  rw [hone] at hbuyer
  exact absurd hbuyer (by decide)


end Marketplace
