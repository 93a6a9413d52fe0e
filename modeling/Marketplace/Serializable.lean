import Marketplace.Idempotency

/-!
# Checkouts are strictly serializable

The abstract side is a function: `spec` carries a whole checkout out at once, in
whole cents, given the ids and clock values it is to use. The concrete side is
any run. Every call that gets an answer has one moment at which its answer is
decided: the statement that finds the row missing or short, the SELECT of a
replay, or COMMIT. Taken in the order of these moments the calls are a serial
execution of `spec`, with the same answers and the same final state
(`checkout_strictly_serializable`).

A call that was refused or replayed and then crashed is left out of the order;
that is harmless because such calls change nothing.
-/

namespace Marketplace

/-! ## The specification -/

/-- The ids and clock values one checkout draws. -/
structure Generated where
  orderId : OrderId
  jobId : ℕ
  draw : Draw

/-- The order recorded under the key of the call, if there is one. -/
def CheckoutParams.recordedOrder (p : CheckoutParams) (db : Database) : Option Order := do
  let key ← p.idempotencyKey
  let orderId ← ← db.idempotencyKeys key
  Table.lookup Order.id orderId db.orders

/-- All effects of a successful checkout that costs `total` cents. -/
def sell (rt : Runtime) (g : Generated) (p : CheckoutParams) (productId buyerId : ℤ)
    (r : Product) (u : User) (total : ℤ) (db : Database) : Database :=
  { db with
    products := Function.update db.products productId
      (some { r with stock := r.stock - p.quantity })
    users := Function.update db.users buyerId (some { u with balance := u.balance - total })
    orders := db.orders ++ [⟨g.orderId, buyerId, u.email, .paid, total⟩]
    orderItems := db.orderItems ++ [⟨g.orderId, productId, p.quantity, r.price⟩]
    jobQueue := db.jobQueue ++ [⟨g.jobId, g.orderId, "post_processing", .new, none, 0⟩]
    outbox := db.outbox ++ [⟨g.draw.uuid, "Order", g.orderId, orderPlaced,
      toOrderPlacedEvent rt.sha1 g.orderId p.buyerId p.productId p.quantity (amount total)
        (rt.toISOString g.draw.placedAt), g.draw.createdAt, none, 0⟩]
    idempotencyKeys :=
      match p.idempotencyKey with
      | some key => Function.update db.idempotencyKeys key (some (some g.orderId))
      | none => db.idempotencyKeys }

/-- A checkout at once: replay a recorded key, else refuse for want of stock,
else refuse for want of funds, else sell. `none` when an id cannot be read. -/
def spec (rt : Runtime) (g : Generated) (p : CheckoutParams) (db : Database) :
    Option (CheckoutResult × Database) :=
  match p.recordedOrder db with
  | some o => some (.success o.id (amount o.totalAmount) true, db)
  | none =>
    match rt.int8in p.productId with
    | none => none
    | some productId =>
      match db.products productId with
      | none => some (.failure .outOfStock, db)
      | some r =>
        if r.stock < p.quantity then some (.failure .outOfStock, db)
        else
          match rt.int8in p.buyerId with
          | none => none
          | some buyerId =>
            match db.users buyerId with
            | none => some (.failure .insufficientFunds, db)
            | some u =>
              if u.balance < r.price * p.quantity then some (.failure .insufficientFunds, db)
              else
                some (.success g.orderId (amount (r.price * p.quantity)) false,
                  sell rt g p productId buyerId r u (r.price * p.quantity) db)

/-! ## A decision is what the specification says -/

section Exact

variable {rt : Runtime} {p : CheckoutParams} {db db' : Database} {r : CheckoutResult}

/-- With exact arithmetic the order total is price times quantity. -/
theorem totalAmount_exact (harith : rt.arith = .exact) (price : ℤ) :
    rt.totalAmount p (rt.arith.number (amount price)) = amount (price * p.quantity) := by
  rw [Runtime.totalAmount, harith]
  exact Arith.exact_lineTotal price p.quantity

theorem total_exact (harith : rt.arith = .exact) (price : ℤ) :
    rt.total p (rt.arith.number (amount price)) = amount (price * p.quantity) := by
  rw [Runtime.total, totalAmount_exact harith, harith]
  rfl

theorem amount_le_amount {m n : ℤ} : amount m ≤ amount n ↔ m ≤ n := by
  rw [amount, amount, div_le_div_iff_of_pos_right (by norm_num), Int.cast_le]

theorem amount_sub (m n : ℤ) : amount m - amount n = amount (m - n) := by
  rw [amount, amount, amount]
  push_cast
  ring

theorem CheckoutParams.Unrecorded.recordedOrder (h : p.Unrecorded db) :
    p.recordedOrder db = none := by
  unfold CheckoutParams.recordedOrder
  rcases hkey : p.idempotencyKey with _ | key
  · rfl
  · simp [h key hkey]

theorem Recorded.recordedOrder {key : String} {o : Order} (hwf : db.WellFormed)
    (hkey : p.idempotencyKey = some key) (ho : Recorded db key o) :
    p.recordedOrder db = some o := by
  simp only [CheckoutParams.recordedOrder, hkey, ho.2, Option.bind_eq_bind, Option.bind_some]
  exact Table.lookup_of_mem hwf.orders ho.1

/-- The two rows a sale changes in exact cents. -/
theorem Sale.apply_exact {x : Sale} (harith : rt.arith = .exact) :
    x.apply rt p db = sell rt ⟨x.orderId, x.jobId, x.draw⟩ p x.productId x.buyerId x.product x.user
      (x.product.price * p.quantity) db := by
  have htotal : x.total rt p = amount (x.product.price * p.quantity) := total_exact harith _
  have huser : x.chargedUser rt p
      = { x.user with balance := x.user.balance - x.product.price * p.quantity } := by
    rw [chargedUser, htotal, User.charge, amount_sub, roundCents_amount]
  have horder : x.order rt p
      = ⟨x.orderId, x.buyerId, x.user.email, .paid, x.product.price * p.quantity⟩ := by
    have : roundCents (rt.total p (x.unitPrice rt)) = x.product.price * p.quantity := by
      rw [show rt.total p (x.unitPrice rt) = _ from htotal, roundCents_amount]
    rw [order, Runtime.orderRow, this]
  have hitem : x.item rt p = ⟨x.orderId, x.productId, p.quantity, x.product.price⟩ := by
    have : roundCents (rt.arith.text (x.unitPrice rt)) = x.product.price := by
      rw [unitPrice, harith]
      exact roundCents_amount _
    rw [item, Runtime.itemRow, this]
  have houtbox : x.outboxRow rt p = ⟨x.draw.uuid, "Order", x.orderId, orderPlaced,
      toOrderPlacedEvent rt.sha1 x.orderId p.buyerId p.productId p.quantity
        (amount (x.product.price * p.quantity)) (rt.toISOString x.draw.placedAt),
      x.draw.createdAt, none, 0⟩ := by
    rw [outboxRow, Runtime.outboxRow, unitPrice, totalAmount_exact harith]
  rw [apply, huser, horder, hitem, houtbox]
  rfl

/-- **Every decision is one the specification makes**, for some ids. -/
theorem Decided.spec (harith : rt.arith = .exact) (hwf : db.WellFormed)
    (h : Decided rt p db r db') : ∃ g, spec rt g p db = some (r, db') := by
  cases h with
  | replay hkey ho =>
    refine ⟨⟨0, 0, ⟨0, 0, 0⟩⟩, ?_⟩
    simp only [Marketplace.spec, ho.recordedOrder hwf hkey, harith]
    rfl
  | outOfStock hnew hproduct hnone =>
    refine ⟨⟨0, 0, ⟨0, 0, 0⟩⟩, ?_⟩
    simp only [Marketplace.spec, hnew.recordedOrder, hproduct]
    rcases hr : db.products _ with _ | r
    · rfl
    · have hless : r.stock < p.quantity := by
        by_contra hge
        rw [matchStock_eq_some.mpr ⟨hr, not_lt.mp hge⟩] at hnone
        cases hnone
      exact if_pos hless
  | @insufficientFunds productId buyerId r hnew hproduct hsome hbuyer hnone =>
    obtain ⟨hr, henough⟩ := matchStock_eq_some.mp hsome
    refine ⟨⟨0, 0, ⟨0, 0, 0⟩⟩, ?_⟩
    simp only [Marketplace.spec, hnew.recordedOrder, hproduct, hr, hbuyer,
      if_neg (not_lt.mpr henough)]
    rcases hu : db.users buyerId with _ | u
    · rfl
    · have hless : u.balance < r.price * p.quantity := by
        by_contra hge
        rw [total_exact harith, matchBalance_eq_some.mpr
          ⟨hu, amount_le_amount.mpr (not_lt.mp hge)⟩] at hnone
        cases hnone
      exact if_pos hless
  | @sale x hx =>
    have hrich : x.product.price * p.quantity ≤ x.user.balance := by
      have := hx.afford
      rwa [show x.total rt p = _ from total_exact harith _, amount_le_amount] at this
    have hanswer : x.answer rt p
        = .success x.orderId (amount (x.product.price * p.quantity)) false := by
      rw [Sale.answer, Sale.unitPrice, totalAmount_exact harith]
    refine ⟨⟨x.orderId, x.jobId, x.draw⟩, ?_⟩
    have hunrecorded : p.Unrecorded db := hx.key
    simp only [Marketplace.spec, hunrecorded.recordedOrder, hx.productId, hx.product, hx.buyerId,
      hx.user, if_neg (not_lt.mpr hx.enough), if_neg (not_lt.mpr hrich), hanswer,
      Sale.apply_exact harith]

end Exact

/-! ## Serial executions -/

/-- One checkout of a serial execution, with the answer it gives. -/
structure Point where
  call : ℕ
  params : CheckoutParams
  generated : Generated
  answer : CheckoutResult

/-- Run `spec` for the calls in order: their answers and the final state. -/
def specRun (rt : Runtime) : List Point → Database → Option (List CheckoutResult × Database)
  | [], db => some ([], db)
  | e :: es, db =>
    match spec rt e.generated e.params db with
    | none => none
    | some (r, db₁) => (specRun rt es db₁).map fun (rs, db') => (r :: rs, db')

/-- The points are a serial execution with the answers they carry. -/
def Serial (rt : Runtime) (es : List Point) (db db' : Database) : Prop :=
  specRun rt es db = some (es.map Point.answer, db')

/-- The answer of a call that changed nothing. -/
def CheckoutResult.ReadOnly : CheckoutResult → Prop
  | .success _ _ replayed => replayed = true
  | .failure _ => True

section Serial

variable {rt : Runtime} {es : List Point} {e : Point} {db db₁ db' : Database}

theorem serial_cons :
    Serial rt (e :: es) db db' ↔
      ∃ db₁, spec rt e.generated e.params db = some (e.answer, db₁) ∧ Serial rt es db₁ db' := by
  unfold Serial
  simp only [specRun, List.map_cons]
  rcases hspec : spec rt e.generated e.params db with _ | ⟨r, db₁⟩
  · simp
  · constructor
    · intro h
      obtain ⟨⟨rs, db₂⟩, hrun, heq⟩ := Option.map_eq_some_iff.mp h
      obtain ⟨hcons, rfl⟩ := Prod.mk.inj heq
      obtain ⟨rfl, rfl⟩ := List.cons.inj hcons
      exact ⟨db₁, rfl, hrun⟩
    · rintro ⟨db₂, heq, hrun⟩
      obtain ⟨rfl, rfl⟩ := Prod.mk.inj (Option.some.inj heq)
      simp only [hrun, Option.map_some]

/-- One more call at the end. -/
theorem Serial.append (h : Serial rt es db db₁)
    (he : spec rt e.generated e.params db₁ = some (e.answer, db')) :
    Serial rt (es ++ [e]) db db' := by
  induction es generalizing db with
  | nil =>
    obtain ⟨_, rfl⟩ := Prod.mk.inj (Option.some.inj h)
    exact serial_cons.mpr ⟨db', he, rfl⟩
  | cons e₀ es ih =>
    obtain ⟨db₂, hspec, hrest⟩ := serial_cons.mp h
    exact serial_cons.mpr ⟨db₂, hspec, ih hrest⟩

/-- Only a sale changes the database. -/
theorem spec_readOnly {g : Generated} {p : CheckoutParams} {r : CheckoutResult}
    (h : spec rt g p db = some (r, db')) (hr : r.ReadOnly) : db' = db := by
  unfold spec at h
  split at h
  · exact (Prod.mk.inj (Option.some.inj h)).2.symm
  · split at h
    · cases h
    · split at h
      · exact (Prod.mk.inj (Option.some.inj h)).2.symm
      · split_ifs at h
        · exact (Prod.mk.inj (Option.some.inj h)).2.symm
        · split at h
          · cases h
          · split at h
            · exact (Prod.mk.inj (Option.some.inj h)).2.symm
            · split_ifs at h
              · exact (Prod.mk.inj (Option.some.inj h)).2.symm
              · obtain ⟨rfl, _⟩ := Prod.mk.inj (Option.some.inj h)
                cases hr

/-- Calls that changed nothing can be left out. -/
theorem Serial.filter {keep : Point → Bool} (h : Serial rt es db db')
    (hdrop : ∀ e ∈ es, keep e = false → e.answer.ReadOnly) :
    Serial rt (es.filter keep) db db' := by
  induction es generalizing db with
  | nil => exact h
  | cons e es ih =>
    obtain ⟨db₁, hspec, hrest⟩ := serial_cons.mp h
    have hrest' := ih hrest fun e' he' => hdrop e' (List.mem_cons_of_mem _ he')
    rcases hkeep : keep e with _ | _
    · obtain rfl := spec_readOnly hspec (hdrop e (List.mem_cons_self ..) hkeep)
      rw [List.filter_cons_of_neg (by rw [hkeep]; exact Bool.false_ne_true)]
      exact hrest'
    · rw [List.filter_cons_of_pos hkeep]
      exact serial_cons.mpr ⟨db₁, hspec, hrest'⟩

end Serial

/-! ## The history of a run -/

/-- The history explains the state: it is a serial execution from the start, of
the calls whose answers are decided, and of calls that were refused or replayed
and then died. -/
structure Explains (rt : Runtime) (s₀ : Shop) (es : List Point) (s : Shop) : Prop where
  serial : Serial rt es s₀.db.committed s.db.committed
  nodup : (es.map Point.call).Nodup
  calls : ∀ e ∈ es, s.Answers rt e.call e.params e.answer ∨
    (e.answer.ReadOnly ∧ (s.calls e.call = some ⟨e.params, .done .thrown⟩ ∨
      s.calls e.call = some ⟨e.params, .done .crashed⟩))
  complete : ∀ i p r, s.Answers rt i p r → ∃ e ∈ es, e.call = i

section Explains

variable {rt : Runtime} {s₀ s s' : Shop} {es : List Point}

theorem Shop.Start.explains (h : s₀.Start) : Explains rt s₀ [] s₀ where
  serial := rfl
  nodup := List.nodup_nil
  calls := fun e he => absurd he List.not_mem_nil
  complete := by
    rintro i p r ⟨st, hc, _⟩
    rw [h.calls i] at hc
    cases hc

/-- A running call is bound to a read-only answer, if to any. -/
theorem readOnly_of_running {pc : Pc} {r : CheckoutResult}
    (h : (Status.running pc).decision rt = some r) : r.ReadOnly := by
  rcases r with ⟨orderId, total, replayed⟩ | reason
  · rcases replayed with _ | _
    · exact absurd h Shop.running_decision_ne
    · rfl
  · trivial

/-- A step keeps what the history says about the calls. -/
theorem Shop.Inv.calls_step (h : s.Inv rt) {a : CheckoutEvent} (hs : s.step rt a = some s')
    {i : ℕ} {p : CheckoutParams} {r : CheckoutResult}
    (hi : s.Answers rt i p r ∨ (r.ReadOnly ∧ (s.calls i = some ⟨p, .done .thrown⟩ ∨
      s.calls i = some ⟨p, .done .crashed⟩))) :
    s'.Answers rt i p r ∨ (r.ReadOnly ∧ (s'.calls i = some ⟨p, .done .thrown⟩ ∨
      s'.calls i = some ⟨p, .done .crashed⟩)) := by
  rcases h.step hs with ⟨q, hnone, rfl, _⟩ | ⟨q, pc, hc, htook⟩
  · -- a new call
    have hne : i ≠ a.id := by
      rcases hi with ⟨st, hc, _⟩ | ⟨_, hc | hc⟩
      · exact Slots.ne_of_free hnone hc
      · exact Slots.ne_of_free hnone hc
      · exact Slots.ne_of_free hnone hc
    have hsame : (s.goto a.id q q.entry).calls i = s.calls i := Function.update_of_ne hne ..
    unfold Shop.Answers
    rw [hsame]
    exact hi
  · obtain ⟨st, hcalls, hm⟩ := htook.moves
    by_cases hne : i = a.id
    · subst hne
      have hself : s'.calls a.id = some ⟨q, st⟩ := by rw [hcalls, Function.update_self]
      rcases hi with ⟨st', hc', hr⟩ | ⟨_, hc' | hc'⟩
      · obtain ⟨rfl, rfl⟩ := Call.mk.inj (Option.some.inj (hc'.symm.trans hc))
        generalize hdb : s'.db.committed = db' at hm
        cases hm with
        | keeps hkeeps => exact .inl ⟨st, hself, hkeeps.trans hr⟩
        | stops hstops =>
          refine .inr ⟨readOnly_of_running hr, ?_⟩
          rcases hstops with rfl | rfl
          · exact .inl hself
          · exact .inr hself
        | decides hnone _ _ =>
          rw [hnone] at hr
          cases hr
      · cases Option.some.inj (hc'.symm.trans hc)
      · cases Option.some.inj (hc'.symm.trans hc)
    · have hsame : s'.calls i = s.calls i := by rw [hcalls, Function.update_of_ne hne]
      unfold Shop.Answers
      rw [hsame]
      exact hi

/-- **A step extends the history by the answer it decides.** -/
theorem Explains.step (harith : rt.arith = .exact) (hinv : s.Inv rt) (h : Explains rt s₀ es s)
    {a : CheckoutEvent} (hs : s.step rt a = some s') : ∃ new, Explains rt s₀ (es ++ new) s' := by
  rcases hinv.answers_step hs with ⟨hdb, hold⟩ | ⟨p, r, hd, hself, hfirst, hnew⟩
  · refine ⟨[], ?_, ?_, ?_, ?_⟩
    · rw [List.append_nil, hdb]
      exact h.serial
    · rw [List.append_nil]
      exact h.nodup
    · rw [List.append_nil]
      exact fun e he => hinv.calls_step hs (h.calls e he)
    · rw [List.append_nil]
      exact fun i p r hr => h.complete i p r (hold i p r hr)
  · obtain ⟨g, hg⟩ := hd.spec harith hinv.wellFormed
    let e : Point := ⟨a.id, p, g, r⟩
    -- the call has not been in the history, not even as one that died
    have hrunning : ∀ e' ∈ es, e'.call ≠ a.id := by
      intro e' he' hid
      rcases h.calls e' he' with ha | ⟨_, hdead⟩
      · rw [hid] at ha
        exact hfirst _ _ ha
      · rw [hid] at hdead
        rcases hinv.step hs with ⟨q, hnone, _, _⟩ | ⟨q, pc, hc, _⟩
        · rcases hdead with hdead | hdead
          · cases hnone.symm.trans hdead
          · cases hnone.symm.trans hdead
        · rcases hdead with hdead | hdead
          · cases Option.some.inj (hc.symm.trans hdead)
          · cases Option.some.inj (hc.symm.trans hdead)
    refine ⟨[e], h.serial.append hg, ?_, ?_, ?_⟩
    · rw [List.map_append]
      refine List.Nodup.append h.nodup (List.nodup_singleton _) ?_
      rw [List.map_singleton, List.disjoint_singleton]
      intro hmem
      obtain ⟨e', he', hid⟩ := List.mem_map.mp hmem
      exact hrunning e' he' hid
    · intro e' he'
      rcases List.mem_append.mp he' with he' | he'
      · exact hinv.calls_step hs (h.calls e' he')
      · obtain rfl := List.mem_singleton.mp he'
        exact .inl hself
    · intro i q r' hr'
      rcases hnew i q r' hr' with hr' | ⟨rfl, _, _⟩
      · obtain ⟨e', he', hid⟩ := h.complete i q r' hr'
        exact ⟨e', List.mem_append_left _ he', hid⟩
      · exact ⟨e, List.mem_append_right _ (List.mem_singleton_self _), rfl⟩

end Explains

/-! ## The theorem -/

/-- Call `i` had ended before call `j` was made. -/
def EndedBefore (rt : Runtime) (s₀ : Shop) (as : List CheckoutEvent) (i j : ℕ) : Prop :=
  ∃ as₁ as₂ r, as = as₁ ++ as₂ ∧ (checkouts rt).run s₀ as₁ = some r ∧
    (∃ p o, r.calls i = some ⟨p, .done o⟩) ∧ r.calls j = none

/-- `i` stands before `j`. -/
def Before (l : List ℕ) (i j : ℕ) : Prop := ∃ l₁ l₂, l = l₁ ++ l₂ ∧ i ∈ l₁ ∧ j ∈ l₂

/-- The COMMIT of the call took effect or its refusal or replay was returned. -/
def Shop.Answered (s : Shop) (i : ℕ) (p : CheckoutParams) (r : CheckoutResult) : Prop :=
  s.calls i = some ⟨p, .done (.returned r)⟩ ∨ s.calls i = some ⟨p, .done (.lost r)⟩

instance (s : Shop) (i : ℕ) (p : CheckoutParams) (r : CheckoutResult) :
    Decidable (s.Answered i p r) :=
  inferInstanceAs (Decidable (_ ∨ _))

/-- An ended call stays as it is. -/
theorem done_run {rt : Runtime} {s t : Shop} {as : List CheckoutEvent} (hinv : s.Inv rt)
    (hrun : (checkouts rt).run s as = some t) {i : ℕ} {p : CheckoutParams} {o : Outcome}
    (hc : s.calls i = some ⟨p, .done o⟩) : t.calls i = some ⟨p, .done o⟩ := by
  have hboth : (checkouts rt).Invariant fun s =>
      s.Inv rt ∧ s.calls i = some ⟨p, .done o⟩ := by
    intro s a s' h hs
    refine ⟨checkouts_invariant s a s' h.1 hs, ?_⟩
    have hne : ∀ call, s'.calls = Function.update s.calls a.id (some call) → i ≠ a.id →
        s'.calls i = some ⟨p, .done o⟩ := by
      intro call hcalls hne
      rw [hcalls, Function.update_of_ne hne]
      exact h.2
    rcases h.1.step hs with ⟨q, hnone, rfl, _⟩ | ⟨q, pc, hrunning, htook⟩
    · refine hne _ rfl ?_
      rintro rfl
      cases hnone.symm.trans h.2
    · obtain ⟨st, hcalls, _⟩ := htook.moves
      refine hne _ hcalls ?_
      rintro rfl
      cases Option.some.inj (hrunning.symm.trans h.2)
  exact (hboth.run ⟨hinv, hc⟩ hrun).2

/-- **Checkouts are strictly serializable.** The calls that were answered, and
those whose COMMIT took effect though the answer was lost, have an order that
respects real time and in which `spec` gives the same answers and the same final
database. -/
theorem checkout_strictly_serializable {rt : Runtime} (harith : rt.arith = .exact)
    {s₀ s : Shop} {as : List CheckoutEvent} (hstart : s₀.Start)
    (hrun : (checkouts rt).run s₀ as = some s) :
    ∃ es : List Point, specRun rt es s₀.db.committed
        = some (es.map Point.answer, s.db.committed) ∧
      (es.map Point.call).Nodup ∧
      (∀ e ∈ es, s.Answered e.call e.params e.answer) ∧
      (∀ i p r, s.Answered i p r → i ∈ es.map Point.call) ∧
      ∀ i ∈ es.map Point.call, ∀ j ∈ es.map Point.call, EndedBefore rt s₀ as i j →
        Before (es.map Point.call) i j := by
  have hinvariant : (checkouts rt).Invariant (Shop.Inv rt) := checkouts_invariant
  obtain ⟨hist, hfinal, _, hmid⟩ := hinvariant.history
    (J := fun es s => Explains rt s₀ es s) (fun es s a s' hinv h hs => h.step harith hinv hs)
    hstart.inv hstart.explains hrun
  have hinv : s.Inv rt := checkouts_invariant.run hstart.inv hrun
  let keep : Point → Bool := fun e => decide (s.Answered e.call e.params e.answer)
  -- a call in the history that was answered has the answer of its point
  have hkeep : ∀ e ∈ hist, ∀ p r, s.Answered e.call p r → keep e = true := by
    intro e he p r hans
    refine decide_eq_true ?_
    rcases hfinal.calls e he with ha | ⟨_, hdead⟩
    · have hr : s.Answers rt e.call p r := by
        rcases hans with hans | hans
        · exact .of_returned hans
        · exact .of_lost hans
      obtain ⟨rfl, rfl⟩ := ha.unique hr
      exact hans
    · rcases hans with hans | hans
      · rcases hdead with hdead | hdead
        · cases Option.some.inj (hans.symm.trans hdead)
        · cases Option.some.inj (hans.symm.trans hdead)
      · rcases hdead with hdead | hdead
        · cases Option.some.inj (hans.symm.trans hdead)
        · cases Option.some.inj (hans.symm.trans hdead)
  have hsub : ((hist.filter keep).map Point.call).Sublist (hist.map Point.call) :=
    List.filter_sublist.map _
  refine ⟨hist.filter keep, ?_, hfinal.nodup.sublist hsub, ?_, ?_, ?_⟩
  · refine hfinal.serial.filter fun e he hdrop => ?_
    rcases hfinal.calls e he with ⟨st, hc, hr⟩ | ⟨hread, _⟩
    · rcases st with pc | o
      · exact readOnly_of_running hr
      · -- an answered call is not dropped
        have hans : s.Answered e.call e.params e.answer := by
          cases o with
          | returned r =>
            obtain rfl := Option.some.inj hr
            exact .inl hc
          | lost r =>
            obtain rfl := Option.some.inj hr
            exact .inr hc
          | thrown => cases hr
          | crashed => cases hr
        exact absurd hans (of_decide_eq_false hdrop)
    · exact hread
  · intro e he
    exact of_decide_eq_true (List.mem_filter.mp he).2
  · intro i p r hans
    have hr : s.Answers rt i p r := by
      rcases hans with hans | hans
      · exact .of_returned hans
      · exact .of_lost hans
    obtain ⟨e, he, rfl⟩ := hfinal.complete i p r hr
    exact List.mem_map.mpr ⟨e, List.mem_filter.mpr ⟨he, hkeep e he p r hans⟩, rfl⟩
  · rintro i hi j hj ⟨as₁, as₂, t, rfl, ht, ⟨p, o, hdone⟩, hnone⟩
    obtain ⟨first, ⟨later, rfl⟩, hfirst⟩ := hmid as₁ as₂ t rfl ht
    have htinv : t.Inv rt := checkouts_invariant.run hstart.inv ht
    obtain ⟨u, hu, hrest⟩ := System.run_append_eq_some hrun
    obtain rfl := Option.some.inj (ht.symm.trans hu)
    refine ⟨(first.filter keep).map Point.call, (later.filter keep).map Point.call, ?_, ?_, ?_⟩
    · rw [List.filter_append, List.map_append]
    · -- `i` had its answer by then, so it is in the first part
      obtain ⟨e, he, rfl⟩ := List.mem_map.mp hi
      have hans := of_decide_eq_true (List.mem_filter.mp he).2
      have hsame := done_run htinv hrest hdone
      have hthen : t.Answers rt e.call e.params e.answer := by
        rcases hans with hans | hans
        · obtain ⟨rfl, ho⟩ := Call.mk.inj (Option.some.inj (hsame.symm.trans hans))
          obtain rfl := Status.done.inj ho
          exact .of_returned hdone
        · obtain ⟨rfl, ho⟩ := Call.mk.inj (Option.some.inj (hsame.symm.trans hans))
          obtain rfl := Status.done.inj ho
          exact .of_lost hdone
      obtain ⟨e', he', hid⟩ := hfirst.complete _ _ _ hthen
      refine List.mem_map.mpr ⟨e', List.mem_filter.mpr ⟨he', ?_⟩, hid⟩
      exact hkeep e' (List.mem_append_left _ he') e.params e.answer (hid ▸ hans)
    · -- `j` had not been made, so it is in the second
      obtain ⟨e, he, rfl⟩ := List.mem_map.mp hj
      obtain ⟨hmem, hk⟩ := List.mem_filter.mp he
      rcases List.mem_append.mp hmem with hmem | hmem
      · rcases hfirst.calls e hmem with ⟨st, hc, _⟩ | ⟨_, hc | hc⟩
        · cases hnone.symm.trans hc
        · cases hnone.symm.trans hc
        · cases hnone.symm.trans hc
      · exact List.mem_map.mpr ⟨e, List.mem_filter.mpr ⟨hmem, hk⟩, rfl⟩

/-- Two calls compete for the last pieces; one is refused after the other's
COMMIT. -/
def demoCompetition : List CheckoutEvent :=
  .call 0 ⟨"1", "1", 2, none⟩ :: .call 1 ⟨"2", "1", 2, none⟩ :: .exec 0 ⟨1, 0, 0⟩ ::
    .exec 1 ⟨2, 0, 0⟩ :: List.replicate 10 (.exec 0 ⟨1, 0, 0⟩) ++
    List.replicate 2 (.exec 1 ⟨2, 0, 0⟩)

theorem demoCompetition_serializable :
    ∃ s, (checkouts (demoRuntime .exact)).run demoShop demoCompetition = some s ∧
      s.Answered 0 ⟨"1", "1", 2, none⟩ (.success 1 (amount 2100) false) ∧
      s.Answered 1 ⟨"2", "1", 2, none⟩ (.failure .outOfStock) ∧
      ∃ es : List Point, specRun (demoRuntime .exact) es demoShop.db.committed
          = some (es.map Point.answer, s.db.committed) ∧
        (es.map Point.call).Nodup ∧
        (∀ e ∈ es, s.Answered e.call e.params e.answer) ∧
        (∀ i p r, s.Answered i p r → i ∈ es.map Point.call) ∧
        ∀ i ∈ es.map Point.call, ∀ j ∈ es.map Point.call,
          EndedBefore (demoRuntime .exact) demoShop demoCompetition i j →
            Before (es.map Point.call) i j := by
  have hsome : ((checkouts (demoRuntime .exact)).run demoShop demoCompetition).any (fun s =>
      s.Answered 0 ⟨"1", "1", 2, none⟩ (.success 1 (amount 2100) false) ∧
        s.Answered 1 ⟨"2", "1", 2, none⟩ (.failure .outOfStock)) = true := by
    decide +kernel
  obtain ⟨s, hrun, hboth⟩ := (Option.any_eq_true _ _).mp hsome
  obtain ⟨h₀, h₁⟩ := of_decide_eq_true hboth
  exact ⟨s, hrun, h₀, h₁, checkout_strictly_serializable rfl demoShop_start hrun⟩

end Marketplace
