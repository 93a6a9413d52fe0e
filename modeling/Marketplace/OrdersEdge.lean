import Marketplace.HttpApi
import Marketplace.Idempotency
import Marketplace.OrderPlaced
import Marketplace.RequestBody
import Marketplace.Slots

/-!
# `POST /orders` over `checkout`

The server of `outbox/orders-api.ts`: from the bytes of a request to its answer. It adds
nothing to what `checkout` keeps in its transaction but a protocol: `201` for the attempt
that has placed the order, `200` and `Idempotent-Replayed` for the others, a problem for a
request that was refused. An attempt whose answer was lost in COMMIT answers `500`, or
nothing at all, and may have placed the order.

What a client may conclude from the answers to one key is `KeyAnswers`.
-/

namespace Marketplace.OrdersEdge

open Api (Problem problemBase problemTitle)

/-! ## Requests and answers -/

/-- A request; its body comes in chunks. -/
structure Request where
  method : String
  url : String
  /-- `req.headers['idempotency-key']` -/
  idempotencyKey : Option String
  deriving DecidableEq

/-- What the server answers. -/
inductive Response where
  | problem (p : Problem)
  /-- `order_id` and `total_amount`, and whether `idempotent-replayed` is set -/
  | order (status : ℕ) (orderId : OrderId) (totalAmount : ℚ) (replayed : Bool)
  deriving DecidableEq

/-- `problem` -/
def problem (r : Request) (status : ℕ) (code detail : String) : Response :=
  .problem
    { type := problemBase ++ "/" ++ code
      title := problemTitle status
      status
      detail
      instanceUrl := r.url
      code := none }

/-- `MAX_KEY_LENGTH` -/
def maxKeyLength : ℕ := 255

/-- The key that the server accepts. -/
def Request.key (r : Request) : Option String :=
  r.idempotencyKey.filter fun key =>
    !(NumericLiteral.trim key.toList).isEmpty && decide ((jsString key).length ≤ maxKeyLength)

/-- What `handle` checks before it reads the body. -/
def Request.early (r : Request) : Except Response String :=
  if r.method ≠ "POST" ∨ r.url ≠ "/orders" then
    .error (problem r 404 "not-found" "Невідомий маршрут")
  else
    match r.key with
    | none => .error (problem r 400 "idempotency-key-required"
        ("Потрібен заголовок Idempotency-Key (1.." ++ toString maxKeyLength ++ " символів)"))
    | some key => .ok key

/-- `BodySchema.parse`, and the parameters of `checkout`; pg sends strings in UTF-8. -/
def parseBody (key : String) (v : Option Json.Value) : Option CheckoutParams := do
  let v ← v
  let buyerId ← zNonempty (v.get? "buyer_id")
  let productId ← zNonempty (v.get? "product_id")
  let quantity ← zPositiveInt (v.get? "quantity")
  some ⟨String.ofList (Utf16.decode buyerId), String.ofList (Utf16.decode productId), quantity,
    some key⟩

/-- The body, when it has come. -/
def Request.body (r : Request) (key : String) (chunks : List (List UInt8)) :
    Except Response CheckoutParams :=
  let invalid :=
    problem r 422 "invalid-body" "Тіло має бути \x7bbuyer_id, product_id, quantity>0\x7d"
  match Json.readJson chunks with
  | .error _ => .error invalid
  | .ok v =>
    match parseBody key v with
    | none => .error invalid
    | some p => .ok p

/-- The answer to what `checkout` has returned. -/
def Request.answer (r : Request) : CheckoutResult → Response
  | .success orderId totalAmount replayed =>
    .order (if replayed then 200 else 201) orderId totalAmount replayed
  | .failure .outOfStock => problem r 409 "out_of_stock" "Товару не вистачає"
  | .failure .insufficientFunds => problem r 409 "insufficient_funds" "Недостатньо коштів"

/-- The answer to what was thrown. -/
def Request.internal (r : Request) : Response :=
  problem r 500 "internal" "Внутрішня помилка сервера"

/-! ## The server -/

/-- Where a request is. -/
inductive Status where
  /-- the body is being read -/
  | reading (key : String)
  /-- `checkout` runs -/
  | checkingOut
  | answered (response : Response)
  /-- nobody gets an answer any more -/
  | gone
  deriving DecidableEq

/-- A request and where it is. -/
structure Call where
  request : Request
  status : Status
  deriving DecidableEq

/-- The shop, and the requests; request `k` makes the call `k` of `checkout`. -/
structure Server where
  shop : Shop
  requests : ℕ → Option Call

/-- What can happen. -/
inductive Event where
  | request (k : ℕ) (r : Request)
  /-- the body of request `k` has come -/
  | body (k : ℕ) (chunks : List (List UInt8))
  /-- something happens to a checkout -/
  | shop (a : CheckoutEvent)
  /-- the checkout of request `k` has ended, and the request is answered -/
  | answer (k : ℕ)
  /-- the connection of request `k` breaks, or its process dies -/
  | leave (k : ℕ)

/-- A checkout goes on by itself, but does not begin. -/
def goesOn : CheckoutEvent → Bool
  | .call _ _ => false
  | _ => true

namespace Server

/-- Request `k` is now there. -/
def setRequest (s : Server) (k : ℕ) (r : Request) (status : Status) : Server :=
  { s with requests := Function.update s.requests k (some ⟨r, status⟩) }

/-- One event. -/
def step (rt : Runtime) (s : Server) : Event → Option Server
  | .request k r =>
    match s.requests k, r.early with
    | none, .error response => some (s.setRequest k r (.answered response))
    | none, .ok key => some (s.setRequest k r (.reading key))
    | some _, _ => none
  | .body k chunks =>
    match s.requests k with
    | some ⟨r, .reading key⟩ =>
      match r.body key chunks with
      | .error response => some (s.setRequest k r (.answered response))
      | .ok p => (s.shop.step rt (.call k p)).map fun shop =>
        ({ s with shop } : Server).setRequest k r .checkingOut
    | _ => none
  | .shop a =>
    if goesOn a then (s.shop.step rt a).map fun shop => { s with shop } else none
  | .answer k =>
    match s.requests k, s.shop.calls k with
    | some ⟨r, .checkingOut⟩, some ⟨_, .done (.returned result)⟩ =>
      some (s.setRequest k r (.answered (r.answer result)))
    | some ⟨r, .checkingOut⟩, some ⟨_, .done .thrown⟩
    | some ⟨r, .checkingOut⟩, some ⟨_, .done (.lost _)⟩ =>
      some (s.setRequest k r (.answered r.internal))
    | _, _ => none
  | .leave k =>
    match s.requests k with
    | some ⟨r, .reading _⟩ | some ⟨r, .checkingOut⟩ => some (s.setRequest k r .gone)
    | _ => none

/-- Before the first request. -/
structure Start (s : Server) : Prop where
  shop : s.shop.Start
  requests : ∀ k, s.requests k = none

end Server

/-- The server with its clients. -/
def servers (rt : Runtime) : System Server Event := ⟨Server.Start, Server.step rt⟩

variable {rt : Runtime} {s s' s₀ : Server} {as : List Event}

/-! ## What is asked for -/

/-- These are the parameters that the server reads in the body which came for request `k`. -/
def Asked (as : List Event) (k : ℕ) (r : Request) (p : CheckoutParams) : Prop :=
  ∃ key chunks, .body k chunks ∈ as ∧ r.early = .ok key ∧ r.body key chunks = .ok p

theorem Asked.snoc {k : ℕ} {r : Request} {p : CheckoutParams} (h : Asked as k r p) (e : Event) :
    Asked (as ++ [e]) k r p := by
  obtain ⟨key, chunks, hcame, hread⟩ := h
  exact ⟨key, chunks, List.mem_append_left _ hcame, hread⟩

theorem key_of_early {r : Request} {key : String} (h : r.early = .ok key) : r.key = some key := by
  unfold Request.early at h
  split_ifs at h
  split at h
  · cases h
  · rename_i key' hkey
    obtain rfl := Except.ok.inj h
    exact hkey

/-- The key of the request is the key of the checkout. -/
theorem Asked.key {k : ℕ} {r : Request} {p : CheckoutParams} (h : Asked as k r p) :
    p.idempotencyKey = r.key := by
  obtain ⟨key, chunks, -, hearly, hbody⟩ := h
  rw [key_of_early hearly]
  simp only [Request.body] at hbody
  split at hbody
  · cases hbody
  · split at hbody
    · cases hbody
    · rename_i v q hparse
      obtain rfl := Except.ok.inj hbody
      obtain ⟨v', -, hv⟩ := Option.bind_eq_some_iff.mp hparse
      obtain ⟨buyerId, -, hv⟩ := Option.bind_eq_some_iff.mp hv
      obtain ⟨productId, -, hv⟩ := Option.bind_eq_some_iff.mp hv
      obtain ⟨quantity, -, hv⟩ := Option.bind_eq_some_iff.mp hv
      obtain rfl := Option.some.inj hv
      rfl

/-! ## Requests and their checkouts -/

/-- What an answer says of the checkout. -/
def Tells (as : List Event) (k : ℕ) (call : Option Marketplace.Call) (r : Request) :
    Response → Prop
  | .order status orderId total replayed => status = (if replayed then 200 else 201) ∧
      ∃ p, call = some ⟨p, .done (.returned (.success orderId total replayed))⟩ ∧ Asked as k r p
  | .problem pr => pr.status = 500 ∨
      ∀ p st, call = some ⟨p, st⟩ → ∃ reason, st = .done (.returned (.failure reason))

/-- What is known of a request and its checkout. -/
def CallInv (as : List Event) (k : ℕ) (call : Option Marketplace.Call) (c : Call) : Prop :=
  match c.status with
  | .reading key => c.request.early = .ok key ∧ call = none
  | .checkingOut => call ≠ none
  | .answered response => Tells as k call c.request response
  | .gone => True

/-- What the server keeps. Every checkout is one that a request has asked for. -/
structure Inv (as : List Event) (s : Server) : Prop where
  requests : ∀ k c, s.requests k = some c → CallInv as k (s.shop.calls k) c
  checkouts : ∀ k p st, s.shop.calls k = some ⟨p, st⟩ →
    ∃ c, s.requests k = some c ∧ Asked as k c.request p

theorem CallInv.snoc {k : ℕ} {call : Option Marketplace.Call} {c : Call}
    (h : CallInv as k call c) (e : Event) : CallInv (as ++ [e]) k call c := by
  obtain ⟨r, status⟩ := c
  cases status with
  | reading key => exact h
  | checkingOut => exact h
  | gone => trivial
  | answered response =>
    cases response with
    | problem pr => exact h
    | order status orderId total replayed =>
      obtain ⟨hstatus, p, hcall, hasked⟩ := h
      exact ⟨hstatus, p, hcall, hasked.snoc e⟩

theorem Inv.snoc (h : Inv as s) (e : Event) : Inv (as ++ [e]) s where
  requests := fun k c hc => (h.requests k c hc).snoc e
  checkouts := by
    intro k p st hcall
    obtain ⟨c, hc, hasked⟩ := h.checkouts k p st hcall
    exact ⟨c, hc, hasked.snoc e⟩

theorem Server.Start.inv (h : s.Start) : Inv [] s where
  requests := by
    intro k c hc
    rw [h.requests k] at hc
    cases hc
  checkouts := by
    intro k p st hc
    rw [h.shop.calls k] at hc
    cases hc

/-- A checkout goes on with the parameters it has. -/
theorem calls_of_goesOn {shop shop' : Shop} (h : shop.Inv rt) {a : CheckoutEvent}
    (hs : shop.step rt a = some shop') (ha : goesOn a = true) :
    ∃ p pc st, shop.calls a.id = some ⟨p, .running pc⟩ ∧
      shop'.calls = Function.update shop.calls a.id (some ⟨p, st⟩) := by
  rcases h.step hs with ⟨p, hnone, -, -⟩ | ⟨p, pc, hc, htook⟩
  · cases a with
    | call i q => cases ha
    | _ =>
      simp only [CheckoutEvent.id] at hnone
      simp only [Shop.step, hnone] at hs
      cases hs
  · obtain ⟨st, hcalls, -⟩ := htook.moves
    exact ⟨p, pc, st, hc, hcalls⟩

/-- While a checkout runs nothing has been said about it, so it may go on. -/
theorem CallInv.goesOn {k : ℕ} {p : CheckoutParams} {pc : Pc} {c : Call}
    (h : CallInv as k (some ⟨p, .running pc⟩) c) (st : Marketplace.Status) :
    CallInv as k (some ⟨p, st⟩) c := by
  obtain ⟨r, status⟩ := c
  cases status with
  | reading key => cases h.2
  | checkingOut => exact Option.some_ne_none _
  | gone => trivial
  | answered response =>
    cases response with
    | order status orderId total replayed =>
      obtain ⟨-, q, hdone, -⟩ := h
      cases hdone
    | problem pr =>
      rcases h with h500 | hfailure
      · exact .inl h500
      · obtain ⟨reason, hst⟩ := hfailure p _ rfl
        cases hst

/-- The answer tells how the checkout has ended. -/
theorem tells_answer {k : ℕ} {r : Request} {p : CheckoutParams} (hasked : Asked as k r p)
    (result : CheckoutResult) :
    Tells as k (some ⟨p, .done (.returned result)⟩) r (r.answer result) := by
  cases result with
  | success orderId total replayed => exact ⟨rfl, p, rfl, hasked⟩
  | failure reason =>
    have hfailed : ∀ q st, some (⟨p, .done (.returned (.failure reason))⟩ : Marketplace.Call) =
        some ⟨q, st⟩ → ∃ reason, st = .done (.returned (.failure reason)) := by
      intro q st heq
      cases heq
      exact ⟨reason, rfl⟩
    cases reason with
    | outOfStock => exact .inr hfailed
    | insufficientFunds => exact .inr hfailed

/-- A request that is refused makes no checkout. -/
theorem tells_refused {k : ℕ} {r : Request} {response : Response}
    (h : r.early = .error response ∨ ∃ key chunks, r.body key chunks = .error response) :
    Tells as k none r response := by
  have hproblem : ∀ status code detail, Tells as k none r (problem r status code detail) :=
    fun status code detail => .inr fun p st heq => by cases heq
  rcases h with h | ⟨key, chunks, h⟩
  · unfold Request.early at h
    split_ifs at h
    · obtain rfl := Except.error.inj h
      exact hproblem ..
    · split at h
      · obtain rfl := Except.error.inj h
        exact hproblem ..
      · cases h
  · simp only [Request.body] at h
    split at h
    · obtain rfl := Except.error.inj h
      exact hproblem ..
    · split at h
      · obtain rfl := Except.error.inj h
        exact hproblem ..
      · cases h

/-- Request `k` moves on and its checkout stays as it is. -/
theorem Inv.setRequest (h : Inv as s) {k : ℕ} {r : Request} {status : Status}
    (hself : CallInv as k (s.shop.calls k) ⟨r, status⟩)
    (hasked : ∀ p st, s.shop.calls k = some ⟨p, st⟩ → Asked as k r p) :
    Inv as (s.setRequest k r status) where
  requests := by
    intro j c hj
    rcases Slots.found_cases_some hj with ⟨rfl, rfl⟩ | ⟨-, hold⟩
    · exact hself
    · exact h.requests j c hold
  checkouts := by
    intro j p st hj
    by_cases hjk : j = k
    · subst hjk
      exact ⟨_, Function.update_self .., hasked p st hj⟩
    · obtain ⟨c, hc, hp⟩ := h.checkouts j p st hj
      exact ⟨c, (Function.update_of_ne hjk ..).trans hc, hp⟩

/-- A request that is there has asked for its checkout. -/
theorem Inv.asked (h : Inv as s) {k : ℕ} {c : Call} (hc : s.requests k = some c)
    {p : CheckoutParams} {st : Marketplace.Status} (hcall : s.shop.calls k = some ⟨p, st⟩) :
    Asked as k c.request p := by
  obtain ⟨c', hc', hasked⟩ := h.checkouts k p st hcall
  obtain rfl := Option.some.inj (hc.symm.trans hc')
  exact hasked

/-- **Every event keeps the invariant.** -/
theorem Inv.step (h : Inv as s) (hshop : s.shop.Inv rt) {e : Event}
    (hs : s.step rt e = some s') : Inv (as ++ [e]) s' := by
  replace h := h.snoc e
  cases e with
  | request k r =>
    simp only [Server.step] at hs
    have hnone : s.requests k = none → s.shop.calls k = none := by
      intro hfree
      rcases hcall : s.shop.calls k with _ | ⟨p, st⟩
      · rfl
      · obtain ⟨c, hc, -⟩ := h.checkouts k p st hcall
        rw [hfree] at hc
        cases hc
    split at hs
    · rename_i response hfree hearly
      obtain rfl := Option.some.inj hs
      have hfree := hnone hfree
      refine h.setRequest ?_ fun p st hcall => ?_
      · rw [hfree]
        exact tells_refused (.inl hearly)
      · rw [hfree] at hcall
        cases hcall
    · rename_i key hfree hearly
      obtain rfl := Option.some.inj hs
      have hfree := hnone hfree
      refine h.setRequest ⟨hearly, hfree⟩ fun p st hcall => ?_
      rw [hfree] at hcall
      cases hcall
    · cases hs
  | body k chunks =>
    simp only [Server.step] at hs
    split at hs
    · rename_i r key hreading
      obtain ⟨hearly, hfree⟩ : r.early = .ok key ∧ s.shop.calls k = none := h.requests k _ hreading
      split at hs
      · rename_i response hbody
        obtain rfl := Option.some.inj hs
        refine h.setRequest ?_ fun p st hcall => h.asked hreading hcall
        rw [hfree]
        exact tells_refused (.inr ⟨key, chunks, hbody⟩)
      · rename_i p hbody
        obtain ⟨shop, hcall, rfl⟩ := Option.map_eq_some_iff.mp hs
        simp only [Shop.step, hfree] at hcall
        obtain rfl := Option.some.inj hcall
        refine ⟨fun j c hj => ?_, fun j q st hj => ?_⟩
        · rcases Slots.found_cases_some hj with ⟨rfl, rfl⟩ | ⟨hne, hold⟩
          · refine ne_of_eq_of_ne (Function.update_self ..) (Option.some_ne_none _)
          · refine (congrArg (CallInv _ j · c) ?_).mpr (h.requests j c hold)
            exact Function.update_of_ne hne ..
        · rcases Slots.found_cases_some hj with ⟨rfl, heq⟩ | ⟨hne, hold⟩
          · obtain ⟨rfl, -⟩ := Marketplace.Call.mk.inj heq
            have hcame : Event.body j chunks ∈ as ++ [.body j chunks] :=
              List.mem_append_right _ (List.mem_singleton_self _)
            exact ⟨_, Function.update_self .., key, chunks, hcame, hearly, hbody⟩
          · obtain ⟨c, hc, hasked⟩ := h.checkouts j q st hold
            exact ⟨c, (Function.update_of_ne hne ..).trans hc, hasked⟩
    · cases hs
  | shop a =>
    simp only [Server.step] at hs
    split_ifs at hs with ha
    obtain ⟨shop, hstep, rfl⟩ := Option.map_eq_some_iff.mp hs
    obtain ⟨p, pc, st, hcall, hcalls⟩ := calls_of_goesOn hshop hstep ha
    refine ⟨fun k c hc => ?_, fun k q st' hk => ?_⟩
    · have hold := h.requests k c hc
      simp only [hcalls]
      by_cases hk : k = a.id
      · subst hk
        rw [hcall] at hold
        rw [Function.update_self]
        exact hold.goesOn st
      · rwa [Function.update_of_ne hk]
    · simp only [hcalls] at hk
      rcases Slots.found_cases_some hk with ⟨rfl, heq⟩ | ⟨-, hold⟩
      · obtain ⟨rfl, -⟩ := Marketplace.Call.mk.inj heq
        exact h.checkouts a.id q _ hcall
      · exact h.checkouts k q st' hold
  | answer k =>
    simp only [Server.step] at hs
    split at hs
    · rename_i r p result hout hcall
      obtain rfl := Option.some.inj hs
      refine h.setRequest ?_ fun q st hq => h.asked hout hq
      rw [hcall]
      exact tells_answer (h.asked hout hcall) result
    · rename_i r p hout hcall
      obtain rfl := Option.some.inj hs
      exact h.setRequest (.inl rfl) fun q st hq => h.asked hout hq
    · rename_i r p result hout hcall
      obtain rfl := Option.some.inj hs
      exact h.setRequest (.inl rfl) fun q st hq => h.asked hout hq
    · cases hs
  | leave k =>
    simp only [Server.step] at hs
    split at hs
    · rename_i r key hreading
      obtain rfl := Option.some.inj hs
      exact h.setRequest trivial fun p st hcall => h.asked hreading hcall
    · rename_i r hout
      obtain rfl := Option.some.inj hs
      exact h.setRequest trivial fun p st hcall => h.asked hout hcall
    · cases hs

/-- The checkouts of the server are a run of the shop. -/
theorem shop_run (hrun : (servers rt).run s₀ as = some s) :
    ∃ bs, (checkouts rt).run s₀.shop bs = some s.shop := by
  refine System.run_induction (J := fun _ t => ∃ bs, (checkouts rt).run s₀.shop bs = some t.shop)
    ⟨[], rfl⟩ ?_ hrun
  rintro as t e t' - ⟨bs, hbs⟩ hs
  have hkept : t'.shop = t.shop → ∃ bs, (checkouts rt).run s₀.shop bs = some t'.shop :=
    fun heq => ⟨bs, heq ▸ hbs⟩
  have hmoved : ∀ a, t.shop.step rt a = some t'.shop →
      ∃ bs, (checkouts rt).run s₀.shop bs = some t'.shop :=
    fun a ha => ⟨bs ++ [a], System.run_snoc hbs ha⟩
  have hstep : t.step rt e = some t' := hs
  cases e with
  | request k r =>
    simp only [Server.step] at hstep
    split at hstep <;> cases hstep <;> exact hkept rfl
  | body k chunks =>
    simp only [Server.step] at hstep
    split at hstep
    · split at hstep
      · cases hstep
        exact hkept rfl
      · obtain ⟨shop, hcall, rfl⟩ := Option.map_eq_some_iff.mp hstep
        exact hmoved _ hcall
    · cases hstep
  | shop a =>
    simp only [Server.step] at hstep
    split_ifs at hstep
    obtain ⟨shop, hcall, rfl⟩ := Option.map_eq_some_iff.mp hstep
    exact hmoved _ hcall
  | answer k =>
    simp only [Server.step] at hstep
    split at hstep <;> cases hstep <;> exact hkept rfl
  | leave k =>
    simp only [Server.step] at hstep
    split at hstep <;> cases hstep <;> exact hkept rfl

/-- What the server and its shop keep. -/
theorem inv_run (hstart : s₀.Start) (hrun : (servers rt).run s₀ as = some s) :
    Inv as s ∧ s.shop.Inv rt ∧ KeyInv rt s₀.shop s.shop := by
  have hshop : ∀ {as : List Event} {t : Server}, (servers rt).run s₀ as = some t →
      t.shop.Inv rt ∧ KeyInv rt s₀.shop t.shop := by
    intro as t ht
    obtain ⟨bs, hbs⟩ := shop_run ht
    exact keyInv_run hstart.shop hbs
  refine ⟨?_, hshop hrun⟩
  refine System.run_induction (J := Inv) hstart.inv ?_ hrun
  intro as t e t' ht hinv hs
  exact hinv.step (hshop ht).1 hs

/-! ## What the answers to a key say -/

/-- Request `k` has the key and was answered with an order. -/
def Ordered (s : Server) (key : String) (k status : ℕ) (orderId : OrderId) (total : ℚ) : Prop :=
  ∃ r replayed, r.key = some key ∧
    s.requests k = some ⟨r, .answered (.order status orderId total replayed)⟩

/-- What a client may conclude from the answers to its key, after the run `as` from `s₀`
to `s`. -/
structure KeyAnswers (rt : Runtime) (key : String) (as : List Event) (s₀ s : Server) : Prop where
  /-- an order is answered with 200 or 201 -/
  status : ∀ k status orderId total, Ordered s key k status orderId total →
    status = 200 ∨ status = 201
  /-- at most one request is answered with 201 -/
  one : ∀ j k orderId orderId' total total', Ordered s key j 201 orderId total →
    Ordered s key k 201 orderId' total' → j = k
  /-- all are told the same order -/
  same : ∀ j k status status' orderId orderId' total total',
    Ordered s key j status orderId total → Ordered s key k status' orderId' total' →
    orderId = orderId'
  /-- and it is in the table, under the key -/
  stored : ∀ k status orderId total, Ordered s key k status orderId total →
    ∃ o, Recorded s.shop.db.committed key o ∧ o.id = orderId ∧
      (status = 200 → total = rt.arith.number (amount o.totalAmount))
  /-- who is answered with 201 is told of what the own body, as it came, asks for -/
  own : ∀ k r orderId total replayed, r.key = some key →
    s.requests k = some ⟨r, .answered (.order 201 orderId total replayed)⟩ →
    ∃ chunks p, .body k chunks ∈ as ∧ r.body key chunks = .ok p ∧
      p.Describes rt s.shop.db.committed orderId
  /-- every new order is one that the body of a request has asked for, and the request was not
  answered with a problem other than 500 -/
  placed : ∀ o ∈ s.shop.db.committed.orders, o ∈ s₀.shop.db.committed.orders ∨
    ∃ k c p total, s.requests k = some c ∧ Asked as k c.request p ∧
      s.shop.Answers rt k p (.success o.id total false) ∧
      ∀ pr, c.status = .answered (.problem pr) → pr.status = 500

/-- An answer that is an order is the checkout's. -/
theorem Inv.ordered (h : Inv as s) {key : String} {k status : ℕ} {orderId : OrderId} {total : ℚ}
    (ho : Ordered s key k status orderId total) :
    ∃ p replayed, p.idempotencyKey = some key ∧ status = (if replayed then 200 else 201) ∧
      s.shop.Answers rt k p (.success orderId total replayed) := by
  obtain ⟨r, replayed, hkey, hk⟩ := ho
  obtain ⟨hstatus, p, hcall, hasked⟩ := h.requests k _ hk
  exact ⟨p, replayed, hasked.key.trans hkey, hstatus, .of_returned hcall⟩

/-- **`POST /orders` places an order once per key**, however often it is asked, and every
client is told the truth about it. -/
theorem edge_places_once (key : String) (hstart : s₀.Start)
    (hrun : (servers rt).run s₀ as = some s) : KeyAnswers rt key as s₀ s := by
  obtain ⟨hinv, -, hkeys⟩ := inv_run hstart hrun
  -- whether it was placed now or before, the order is recorded under the key
  have hrecorded : ∀ {k p orderId total replayed}, p.idempotencyKey = some key →
      s.shop.Answers rt k p (.success orderId total replayed) →
      s.shop.db.committed.idempotencyKeys key = some (some orderId) := by
    intro k p orderId total replayed hkey ha
    cases replayed with
    | false => exact hkeys.recorded k p orderId total key ha hkey
    | true =>
      obtain ⟨key', o, hkey', ho, rfl, -⟩ := hkeys.replayed k p orderId total ha
      obtain rfl := Option.some.inj (hkey.symm.trans hkey')
      exact ho.2
  refine ⟨?_, ?_, ?_, ?_, ?_, ?_⟩
  · intro k status orderId total ho
    obtain ⟨r, replayed, -, hk⟩ := ho
    obtain ⟨rfl, -⟩ := hinv.requests k _ hk
    cases replayed with
    | false => exact .inr rfl
    | true => exact .inl rfl
  · intro j k orderId orderId' total total' hj hk
    obtain ⟨p, replayed, hp, hstatus, hj⟩ := hinv.ordered hj
    obtain ⟨p', replayed', hp', hstatus', hk⟩ := hinv.ordered hk
    cases replayed with
    | true => cases hstatus
    | false =>
      cases replayed' with
      | true => cases hstatus'
      | false =>
        have hsame := (hrecorded hp hj).symm.trans (hrecorded hp' hk)
        obtain rfl := Option.some.inj (Option.some.inj hsame)
        exact hkeys.distinct j k p p' orderId total total' hj hk
  · intro j k status status' orderId orderId' total total' hj hk
    obtain ⟨p, replayed, hp, -, hj⟩ := hinv.ordered hj
    obtain ⟨p', replayed', hp', -, hk⟩ := hinv.ordered hk
    have hsame := (hrecorded hp hj).symm.trans (hrecorded hp' hk)
    exact Option.some.inj (Option.some.inj hsame)
  · intro k status orderId total ho
    obtain ⟨p, replayed, hp, rfl, ha⟩ := hinv.ordered ho
    cases replayed with
    | false =>
      obtain ⟨o, hmem, hid, -⟩ := hkeys.describes k p orderId total ha
      have hrow := hrecorded hp ha
      subst hid
      exact ⟨o, ⟨hmem, hrow⟩, rfl, fun h => by cases h⟩
    | true =>
      obtain ⟨key', o, hkey', ho, hid, htotal⟩ := hkeys.replayed k p orderId total ha
      obtain rfl := Option.some.inj (hp.symm.trans hkey')
      exact ⟨o, ho, hid, fun _ => htotal⟩
  · intro k r orderId total replayed hkey hk
    obtain ⟨hstatus, p, hcall, key', chunks, hcame, hearly, hbody⟩ := hinv.requests k _ hk
    obtain rfl := Option.some.inj (hkey.symm.trans (key_of_early hearly))
    cases replayed with
    | true => cases hstatus
    | false =>
      exact ⟨chunks, p, hcame, hbody, hkeys.describes k p orderId total (.of_returned hcall)⟩
  · intro o ho
    rcases hkeys.orders o ho with hold | ⟨k, p, total, ha⟩
    · exact .inl hold
    · obtain ⟨st, hcall, hdecision⟩ := ha
      obtain ⟨c, hc, hasked⟩ := hinv.checkouts k p st hcall
      refine .inr ⟨k, c, p, total, hc, hasked, ⟨st, hcall, hdecision⟩, fun pr hpr => ?_⟩
      have htells := hinv.requests k c hc
      simp only [CallInv, hpr, hcall] at htells
      rcases htells with h500 | hfailure
      · exact h500
      · -- a checkout that has placed an order has not failed
        obtain ⟨reason, rfl⟩ := hfailure p st rfl
        cases hdecision

/-- A request that is made twice. -/
def demoRequest : Request := ⟨"POST", "/orders", some "k"⟩

/-- Its body. -/
def demoOrder : List (List UInt8) :=
  [Utf8.encode "\x7b\"buyer_id\":\"1\",\"product_id\":\"1\",\"quantity\":1\x7d".toList]

/-- The first attempt loses the answer to its COMMIT, and the second is told of the order. -/
def demoPost : List Event :=
  [.request 0 demoRequest, .body 0 demoOrder] ++
    List.replicate 12 (.shop (.exec 0 ⟨1, 0, 0⟩)) ++
    [.shop (.loseAnswer 0), .answer 0, .request 1 demoRequest, .body 1 demoOrder] ++
    List.replicate 3 (.shop (.exec 1 ⟨2, 0, 0⟩)) ++ [.answer 1]

/-- The first is answered with a problem, and yet has placed the order. -/
theorem demoPost_key_answers :
    ∃ s, (servers (demoRuntime .exact)).run ⟨demoShop, fun _ => none⟩ demoPost = some s ∧
      s.requests 0 = some ⟨demoRequest, .answered demoRequest.internal⟩ ∧
      s.requests 1 = some ⟨demoRequest, .answered (.order 200 1 (amount 1050) true)⟩ ∧
      KeyAnswers (demoRuntime .exact) "k" demoPost ⟨demoShop, fun _ => none⟩ s := by
  have hsome : ((servers (demoRuntime .exact)).run ⟨demoShop, fun _ => none⟩ demoPost).any
      (fun s => decide (s.requests 0 = some ⟨demoRequest, .answered demoRequest.internal⟩) &&
        decide (s.requests 1 =
          some ⟨demoRequest, .answered (.order 200 1 (amount 1050) true)⟩)) = true := by
    decide +kernel
  obtain ⟨s, hrun, hs⟩ := (Option.any_eq_true _ _).mp hsome
  obtain ⟨h0, h1⟩ := Bool.and_eq_true_iff.mp hs
  exact ⟨s, hrun, of_decide_eq_true h0, of_decide_eq_true h1,
    edge_places_once "k" ⟨demoShop_start, fun _ => rfl⟩ hrun⟩

end Marketplace.OrdersEdge
