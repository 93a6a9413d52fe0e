import Marketplace.ApiSteps
import Marketplace.Gateway
import Marketplace.HttpApi

/-!
# Nothing passes the guards

A request that does something to the shop, or is shown an order, has a token behind it: when
it arrived, the token in its header verified, and at some moment since then its `jti` was not
on the denylist (`TokenAccepted`). And what was done is what the user of the token may do
(`Permitted`, `MayRead`). Both hold in every run, with any number of requests, logins and
logouts under way at the same time.

One step is inverted once (`Outcome` for the part behind the guards), and the promise of
`authenticate` is followed through the machine of `AuthService` as the gateway's is.
-/

namespace Marketplace.Api

/-! ## What a user may do -/

/-- What the handlers do to the shop, and for whom. -/
inductive Permitted (u : AuthUser) (d : HttpDraw) (api : ApiState) : Endpoint → ApiState → Prop
  | createProduct (name : String) (priceCents : ℤ) (hrole : u.role = .seller ∨ u.role = .admin) :
      Permitted u d api (.createProduct name priceCents) (api.createProduct name priceCents)
  | createOrder (idempotencyKey : String) (body : CreateOrderBody) :
      Permitted u d api (.createOrder idempotencyKey body) (api.create body.items u.id d.now)
  | updateStatus (id : String) (status : OrderStatus) (api' : ApiState)
      (hrole : u.role = .seller ∨ u.role = .admin)
      (hdone : api.updateStatus id status d.now = .ok api') :
      Permitted u d api (.updateOrderStatus id status) api'
  | orderEvents (id : String) (lastEventId : Option ℕ) (api' : ApiState)
      (hallowed : api.Allowed u id)
      (hdone : api.events d.connection id u lastEventId = .ok api') :
      Permitted u d api (.orderEvents id lastEventId) api'

/-- Whom the handlers show an order: its buyer, an admin, and a seller who sets its status. -/
def MayRead (u : AuthUser) (e : Endpoint) (o : Order) : Prop :=
  o.buyerId = u.id ∨ u.role = .admin ∨
    u.role = .seller ∧ ∃ status, e = .updateOrderStatus o.id status

/-- What becomes of a request behind `AuthGuard`. -/
inductive Outcome (rt : HttpRuntime) (s : HttpState) (k : ℕ) (r : HttpRequest)
    (user : Option AuthUser) (d : HttpDraw) : HttpState → Prop
  | answered (answer : Answer)
      (hshows : ∀ o ∈ answer.orders, ∃ u, user = some u ∧ MayRead u r.endpoint o) :
      Outcome rt s k r user d (s.reach k r (.answered answer))
  | changed (u : AuthUser) (api : ApiState) (answer : Answer) (huser : user = some u)
      (hdone : Permitted u d s.api r.endpoint api)
      (hshows : ∀ o ∈ answer.orders, MayRead u r.endpoint o) :
      Outcome rt s k r user d (({ s with api } : HttpState).reach k r (.answered answer))
  | called (request : AuthRequest) (auth : AuthState)
      (hcall : s.auth.step rt.auth (.call d.call request) = some auth) :
      Outcome rt s k r user d (({ s with auth } : HttpState).reach k r (.calling d.call))
  | handedOver (hclosed : r.endpoint.isPublic = false) :
      Outcome rt s k r user d (s.reach k r (.handedOver user))

section Outcome

variable {rt : HttpRuntime} {s s' : HttpState} {k : ℕ} {r : HttpRequest} {user : Option AuthUser}
  {u : AuthUser} {d : HttpDraw}

theorem outcome_throw (e : ApiError) : Outcome rt s k r user d (s.throw k r e) :=
  .answered _ fun _ ho => absurd ho List.not_mem_nil

theorem outcome_give {result : Except ApiError Content}
    (hshows : ∀ content, result = .ok content →
      ∀ o ∈ (Answer.success 200 none content).orders, ∃ u, user = some u ∧ MayRead u r.endpoint o) :
    Outcome rt s k r user d (s.give k r result) := by
  rcases result with e | content
  · exact outcome_throw e
  · exact .answered _ (hshows content rfl)

theorem outcome_await {request : AuthRequest}
    (h : s.await rt k r d.call request (.calling d.call) = some s') :
    Outcome rt s k r user d s' := by
  obtain ⟨auth, hcall, rfl⟩ := Option.map_eq_some_iff.mp h
  exact .called request auth hcall

/-- A user sees the orders of the list. -/
theorem mayRead_of_visible {o : Order} (e : Endpoint) (ho : o ∈ s.api.visible u) :
    MayRead u e o := by
  rw [ApiState.visible] at ho
  split_ifs at ho with hadmin
  · exact .inr (.inl hadmin)
  · exact .inl (of_decide_eq_true (List.mem_filter.mp ho).2)

theorem mayRead_of_getOwned {id : String} {o : Order} (e : Endpoint)
    (h : s.api.getOwned id u = .ok o) : MayRead u e o := by
  simp only [ApiState.getOwned] at h
  rcases hget : s.api.getById id with err | order
  · rw [hget] at h
    cases h
  · rw [hget] at h
    by_cases hforeign : order.buyerId ≠ u.id ∧ u.role ≠ .admin
    · simp [bind, Except.bind, throw, throwThe, MonadExceptOf.throw, hforeign] at h
    · simp only [bind, Except.bind, if_neg hforeign, pure, Except.pure] at h
      obtain rfl := Except.ok.inj h
      rcases not_and_or.mp hforeign with hid | hrole
      · exact .inl (not_not.mp hid)
      · exact .inr (.inl (not_not.mp hrole))

theorem page_subset {α : Type} {all : List α} {limit : ℕ} {cursor : Option String} {page : Page α}
    (h : paginate all limit cursor = .ok page) : ∀ x ∈ page.items, x ∈ all := by
  simp only [paginate] at h
  rcases hoffset : offsetOf cursor with e | offset
  · rw [hoffset] at h
    cases h
  · rw [hoffset] at h
    obtain rfl := Except.ok.inj h
    exact fun x hx => List.mem_of_mem_drop (List.mem_of_mem_take hx)

theorem map_eq_ok {ε α β : Type} {f : α → β} {x : Except ε α} {b : β} (h : x.map f = .ok b) :
    ∃ a, x = .ok a ∧ f a = b := by
  rcases x with e | a
  · cases h
  · exact ⟨a, rfl, Except.ok.inj h⟩

/-- **The handlers**, for a user whose role is in the list of the route. -/
theorem outcome_handle (hrole : ∀ roles, r.endpoint.roles = some roles →
      ∃ u, user = some u ∧ u.role ∈ roles)
    (h : s.handle rt k r user d = some s') : Outcome rt s k r user d s' := by
  have hstaff : r.endpoint.roles = some [.seller, .admin] →
      ∃ u, user = some u ∧ (u.role = .seller ∨ u.role = .admin) := by
    intro hroles
    obtain ⟨u, huser, hmem⟩ := hrole _ hroles
    exact ⟨u, huser, by simpa using hmem⟩
  rcases r with ⟨endpoint, url, authorization⟩
  cases endpoint with
  | listProducts limit cursor =>
    obtain rfl := Option.some.inj h
    refine outcome_give fun content hcontent o ho => ?_
    obtain ⟨page, -, rfl⟩ := map_eq_ok hcontent
    exact absurd ho List.not_mem_nil
  | getProduct id =>
    simp only [HttpState.handle] at h
    split at h
    · obtain rfl := Option.some.inj h
      exact .answered _ fun o ho => absurd ho List.not_mem_nil
    · obtain rfl := Option.some.inj h
      exact outcome_throw _
  | createProduct name priceCents =>
    obtain ⟨u, rfl, hu⟩ := hstaff rfl
    simp only [HttpState.handle] at h
    split_ifs at h
    obtain rfl := Option.some.inj h
    exact .changed u _ _ rfl (.createProduct name priceCents hu) fun o ho =>
      absurd ho List.not_mem_nil
  | listOrders limit cursor =>
    rcases user with _ | u
    · obtain rfl := Option.some.inj h
      exact outcome_throw _
    · obtain rfl := Option.some.inj h
      refine outcome_give fun content hcontent o ho => ⟨u, rfl, ?_⟩
      obtain ⟨page, hpage, rfl⟩ := map_eq_ok hcontent
      exact mayRead_of_visible _ (page_subset hpage o ho)
  | createOrder idempotencyKey body =>
    rcases user with _ | u
    · obtain rfl := Option.some.inj h
      exact outcome_throw _
    · simp only [HttpState.handle] at h
      split_ifs at h
      obtain rfl := Option.some.inj h
      refine .changed u _ _ rfl (.createOrder idempotencyKey body) fun o ho => ?_
      obtain rfl := List.mem_singleton.mp ho
      exact .inl rfl
  | getOrder id =>
    rcases user with _ | u
    · obtain rfl := Option.some.inj h
      exact outcome_throw _
    · obtain rfl := Option.some.inj h
      refine outcome_give fun content hcontent o ho => ⟨u, rfl, ?_⟩
      obtain ⟨order, howned, rfl⟩ := map_eq_ok hcontent
      obtain rfl := List.mem_singleton.mp ho
      exact mayRead_of_getOwned _ howned
  | updateOrderStatus id status =>
    obtain ⟨u, rfl, hu⟩ := hstaff rfl
    simp only [HttpState.handle] at h
    split at h
    · rename_i order api hget hdone
      obtain rfl := Option.some.inj h
      refine .changed u _ _ rfl (.updateStatus id status api hu hdone) fun o ho => ?_
      obtain rfl := List.mem_singleton.mp ho
      obtain ⟨-, rfl⟩ := getById_mem hget
      rcases hu with hseller | hadmin
      · exact .inr (.inr ⟨hseller, status, rfl⟩)
      · exact .inr (.inl hadmin)
    · obtain rfl := Option.some.inj h
      exact outcome_throw _
    · obtain rfl := Option.some.inj h
      exact outcome_throw _
  | orderEvents id lastEventId =>
    rcases user with _ | u
    · obtain rfl := Option.some.inj h
      exact outcome_throw _
    · simp only [HttpState.handle] at h
      split_ifs at h
      split at h
      · rename_i api hdone
        obtain rfl := Option.some.inj h
        have hallowed : s.api.Allowed u id := by
          simp only [ApiState.events] at hdone
          rcases howned : s.api.getOwned id u with e | order
          · rw [howned] at hdone
            cases hdone
          · exact getOwned_allowed howned
        exact .changed u _ _ rfl (.orderEvents id lastEventId api hallowed hdone) fun o ho =>
          absurd ho List.not_mem_nil
      · obtain rfl := Option.some.inj h
        exact outcome_throw _
  | login email password => exact outcome_await h
  | refresh refreshToken => exact outcome_await h
  | logout =>
    rcases user with _ | u
    · obtain rfl := Option.some.inj h
      exact outcome_throw _
    · simp only [HttpState.handle] at h
      split at h
      · exact outcome_await h
      · cases h
  | intent | parts id | commit id | download id | liveness | readiness =>
    obtain rfl := Option.some.inj h
    exact .handedOver rfl

/-- **`RolesGuard`** lets through only the roles of the route. -/
theorem outcome_allow (h : s.allow rt k r user d = some s') : Outcome rt s k r user d s' := by
  simp only [HttpState.allow] at h
  split at h
  · rename_i hnone
    refine outcome_handle (fun roles hroles => ?_) h
    cases hnone.symm.trans hroles
  · obtain rfl := Option.some.inj h
    exact outcome_throw _
  · rename_i roles u hroles
    split_ifs at h with hmem
    · refine outcome_handle (fun roles' hroles' => ⟨u, rfl, ?_⟩) h
      obtain rfl := Option.some.inj (hroles.symm.trans hroles')
      exact hmem
    · obtain rfl := Option.some.inj h
      exact outcome_throw _

end Outcome

/-! ## What one event does -/

/-- The event and the state after it. -/
inductive HttpStepped (rt : HttpRuntime) (s : HttpState) : HttpEvent → HttpState → Prop
  | auth (authEv : AuthEvent) (auth : AuthState) (hauth : s.auth.step rt.auth authEv = some auth) :
      HttpStepped rt s (.auth authEv) { s with auth }
  /-- a public route -/
  | opened (k : ℕ) (r : HttpRequest) (d : HttpDraw) (s' : HttpState)
      (hpublic : r.endpoint.isPublic = true) (hout : Outcome rt s k r none d s') :
      HttpStepped rt s (.request k r d) s'
  /-- `AuthGuard` begins to wait -/
  | asked (k : ℕ) (r : HttpRequest) (d : HttpDraw) (token : String) (auth : AuthState)
      (hbearer : r.authorization.bind bearer = some token)
      (hcall : s.auth.step rt.auth (.call d.call (.authenticate token)) = some auth) :
      HttpStepped rt s (.request k r d)
        (({ s with auth } : HttpState).reach k r (.authenticating d.call))
  /-- the validator, or `AuthGuard` without a token -/
  | denied (k : ℕ) (r : HttpRequest) (d : HttpDraw) (p : Problem) (w : Option String) :
      HttpStepped rt s (.request k r d) (s.reach k r (.answered (.problem p w)))
  /-- `authenticate` has returned a user -/
  | admitted (k : ℕ) (r : HttpRequest) (d : HttpDraw) (i : ℕ) (request : AuthRequest) (now : ℤ)
      (user : AuthUser) (s' : HttpState) (hk : s.requests k = some ⟨r, .authenticating i⟩)
      (hc : s.auth.calls i = some ⟨request, now, .ended (.user user)⟩)
      (hout : Outcome rt s k r (some user) d s') : HttpStepped rt s (.resume k d) s'
  /-- `authenticate` has thrown -/
  | refused (k : ℕ) (r : HttpRequest) (d : HttpDraw) (i : ℕ) (p : Problem) (w : Option String)
      (hk : s.requests k = some ⟨r, .authenticating i⟩) :
      HttpStepped rt s (.resume k d) (s.reach k r (.answered (.problem p w)))
  /-- a call of `AuthController` has settled -/
  | settled (k : ℕ) (r : HttpRequest) (d : HttpDraw) (i : ℕ) (answer : Answer)
      (hk : s.requests k = some ⟨r, .calling i⟩) (hnone : answer.orders = []) :
      HttpStepped rt s (.resume k d) (s.reach k r (.answered answer))

/-- **Inversion** of a step. -/
theorem httpStepped_of_step {rt : HttpRuntime} {s s' : HttpState} {ev : HttpEvent}
    (hs : s.step rt ev = some s') : HttpStepped rt s ev s' := by
  cases ev with
  | auth authEv =>
    obtain ⟨auth', hauth, rfl⟩ := Option.map_eq_some_iff.mp hs
    exact .auth authEv auth' hauth
  | request k r d =>
    simp only [HttpState.step, HttpState.receive] at hs
    split at hs
    · split_ifs at hs with hvalid hpublic
      · exact .opened k r d s' hpublic (outcome_allow hs)
      · split at hs
        · rename_i token hbearer
          obtain ⟨auth', hauth, rfl⟩ := Option.map_eq_some_iff.mp hs
          exact .asked k r d token auth' hbearer hauth
        · obtain rfl := Option.some.inj hs
          exact .denied k r d _ _
      · obtain rfl := Option.some.inj hs
        exact .denied k r d _ _
    · cases hs
  | resume k d =>
    simp only [HttpState.step] at hs
    split at hs
    · rename_i r status hk
      cases status with
      | authenticating i =>
        simp only [HttpState.resume] at hs
        split at hs
        · rename_i request now user hc
          exact .admitted k r d i request now user s' hk hc (outcome_allow hs)
        · obtain rfl := Option.some.inj hs
          exact .refused k r d i _ _ hk
        · cases hs
      | calling i =>
        simp only [HttpState.resume] at hs
        split at hs
        · obtain rfl := Option.some.inj hs
          exact .settled k r d i _ hk rfl
        · obtain rfl := Option.some.inj hs
          exact .settled k r d i _ hk rfl
        · obtain rfl := Option.some.inj hs
          exact .settled k r d i _ hk rfl
        · cases hs
      | handedOver user => cases hs
      | answered answer => cases hs
    · cases hs

/-! ## The token behind a request -/

/-- When the request arrived, the token in its header had these claims and had not expired. -/
def TokenArrived (rt : HttpRuntime) (s₀ : HttpState) (as : List HttpEvent) (k : ℕ)
    (r : HttpRequest) (claims : VerifiedClaims) : Prop :=
  ∃ token before d after s₁, r.authorization.bind bearer = some token ∧
    as = before ++ .request k r d :: after ∧ (https rt).run s₀ before = some s₁ ∧
    rt.auth.verify token s₁.auth.appMs = .ok claims

/-- And at some moment since, its `jti` was not on the denylist. -/
def TokenAccepted (rt : HttpRuntime) (s₀ : HttpState) (as : List HttpEvent) (k : ℕ)
    (r : HttpRequest) (claims : VerifiedClaims) : Prop :=
  ∃ first rest s₂, as = first ++ rest ∧ TokenArrived rt s₀ first k r claims ∧
    (https rt).run s₀ first = some s₂ ∧ ¬ s₂.auth.Listed claims.jti

/-- The call `i` of `authenticate` was made for the request: it waits for its look at the
denylist, or it has ended, with a user only if the token was accepted. -/
def CallPromised (rt : HttpRuntime) (s₀ : HttpState) (as : List HttpEvent) (auth : AuthState)
    (k : ℕ) (r : HttpRequest) (i : ℕ) : Prop :=
  ∃ token now, (∃ claims, auth.calls i =
      some ⟨.authenticate token, now, .running (.selectDenied claims)⟩ ∧
    TokenArrived rt s₀ as k r claims) ∨
  ∃ outcome, auth.calls i = some ⟨.authenticate token, now, .ended outcome⟩ ∧
    ∀ user, outcome = .user user →
      ∃ claims, user = claims.user ∧ TokenAccepted rt s₀ as k r claims

/-- What stands behind a request, as far as it has got. -/
def Warranted (rt : HttpRuntime) (s₀ : HttpState) (as : List HttpEvent) (auth : AuthState)
    (k : ℕ) (c : HttpCall) : Prop :=
  match c.status with
  | .authenticating i => CallPromised rt s₀ as auth k c.request i
  | .calling _ => True
  | .handedOver user =>
    ∃ claims, user = some claims.user ∧ TokenAccepted rt s₀ as k c.request claims
  | .answered answer => ∀ o ∈ answer.orders,
    ∃ claims, TokenAccepted rt s₀ as k c.request claims ∧
      MayRead claims.user c.request.endpoint o

/-- What holds after each step of a run. -/
structure HttpState.Inv (rt : HttpRuntime) (s₀ : HttpState) (as : List HttpEvent)
    (s : HttpState) : Prop where
  auth : s.auth.Inv rt.auth
  requests : ∀ k c, s.requests k = some c → Warranted rt s₀ as s.auth k c

section Runs

variable {rt : HttpRuntime} {s₀ s s' : HttpState} {as : List HttpEvent} {ev : HttpEvent}
  {k i : ℕ} {r : HttpRequest} {c : HttpCall} {claims : VerifiedClaims} {auth' : AuthState}
  {authEv : AuthEvent} {d : HttpDraw}

theorem TokenArrived.snoc (h : TokenArrived rt s₀ as k r claims) :
    TokenArrived rt s₀ (as ++ [ev]) k r claims := by
  obtain ⟨token, before, d, after, s₁, hbearer, rfl, hrest⟩ := h
  exact ⟨token, before, d, after ++ [ev], s₁, hbearer, by simp, hrest⟩

theorem TokenAccepted.snoc (h : TokenAccepted rt s₀ as k r claims) :
    TokenAccepted rt s₀ (as ++ [ev]) k r claims := by
  obtain ⟨first, rest, s₂, rfl, hrest⟩ := h
  exact ⟨first, rest ++ [ev], s₂, by simp, hrest⟩

theorem CallPromised.snoc (h : CallPromised rt s₀ as auth' k r i) :
    CallPromised rt s₀ (as ++ [ev]) auth' k r i := by
  obtain ⟨token, now, ⟨claims, hc, harrived⟩ | ⟨outcome, hc, haccepted⟩⟩ := h
  · exact ⟨token, now, .inl ⟨claims, hc, harrived.snoc⟩⟩
  · refine ⟨token, now, .inr ⟨outcome, hc, fun user huser => ?_⟩⟩
    obtain ⟨claims, hclaims, hsince⟩ := haccepted user huser
    exact ⟨claims, hclaims, hsince.snoc⟩

/-- **The promise is kept** while the auth service goes on. -/
theorem CallPromised.auth (h : CallPromised rt s₀ as s.auth k r i) (hinv : s.auth.Inv rt.auth)
    (hrun : (https rt).run s₀ as = some s) (hs : s.auth.step rt.auth authEv = some auth') :
    CallPromised rt s₀ (as ++ [ev]) auth' k r i := by
  obtain ⟨token, now, ⟨claims, hc, harrived⟩ | ⟨outcome, hc, haccepted⟩⟩ := h
  · rcases AuthState.calls_of_asking hs hinv hc with hc' | ⟨now', outcome, hc', hends⟩
    · exact ⟨token, now, .inl ⟨claims, hc', harrived.snoc⟩⟩
    · refine ⟨token, now', .inr ⟨outcome, hc', fun user huser => ?_⟩⟩
      obtain ⟨hclaims, hunlisted⟩ := hends user huser
      exact ⟨claims, hclaims, as, [ev], s, rfl, harrived, hrun, hunlisted⟩
  · refine ⟨token, now, .inr ⟨outcome, AuthState.calls_of_ended hs hinv hc, fun user huser => ?_⟩⟩
    obtain ⟨claims, hclaims, hsince⟩ := haccepted user huser
    exact ⟨claims, hclaims, hsince.snoc⟩

/-- The promise of a request that arrives. -/
theorem CallPromised.arrive {token : String} (hbearer : r.authorization.bind bearer = some token)
    (hrun : (https rt).run s₀ as = some s)
    (hs : s.auth.step rt.auth (.call i (.authenticate token)) = some auth') :
    CallPromised rt s₀ (as ++ [.request k r d]) auth' k r i := by
  rcases hc : s.auth.calls i with _ | c
  · rcases hverify : rt.auth.verify token s.auth.appMs with e | claims
    · simp only [AuthState.step, AuthState.entry, hc, hverify, Option.some.injEq] at hs
      subst hs
      refine ⟨token, s.auth.dbUs, .inr ⟨.thrown e, Function.update_self .., ?_⟩⟩
      intro user huser
      cases huser
    · simp only [AuthState.step, AuthState.entry, hc, hverify, Option.some.injEq] at hs
      subst hs
      exact ⟨token, s.auth.dbUs, .inl ⟨claims, Function.update_self ..,
        token, as, d, [], s, hbearer, rfl, hrun, hverify⟩⟩
  · simp only [AuthState.step, hc] at hs
    cases hs

/-- What stands behind a request stands there after any step. -/
theorem Warranted.step (h : Warranted rt s₀ as s.auth k c) (hinv : s.auth.Inv rt.auth)
    (hrun : (https rt).run s₀ as = some s)
    (hauth : auth' = s.auth ∨ ∃ authEv, s.auth.step rt.auth authEv = some auth') :
    Warranted rt s₀ (as ++ [ev]) auth' k c := by
  rcases c with ⟨r, i | i | user | answer⟩
  · rcases hauth with rfl | ⟨authEv, hs⟩
    · exact CallPromised.snoc h
    · exact CallPromised.auth h hinv hrun hs
  · trivial
  · obtain ⟨claims, huser, haccepted⟩ := h
    exact ⟨claims, huser, haccepted.snoc⟩
  · intro o ho
    obtain ⟨claims, haccepted, hread⟩ := h o ho
    exact ⟨claims, haccepted.snoc, hread⟩

/-- A user that a settled call returns. -/
theorem CallPromised.user {request : AuthRequest} {now : ℤ} {user : AuthUser}
    (h : CallPromised rt s₀ as s.auth k r i)
    (hc : s.auth.calls i = some ⟨request, now, .ended (.user user)⟩) :
    ∃ claims, user = claims.user ∧ TokenAccepted rt s₀ as k r claims := by
  obtain ⟨token, now', ⟨claims, hc', -⟩ | ⟨outcome, hc', haccepted⟩⟩ := h
  · rw [hc] at hc'
    cases hc'
  · rw [hc] at hc'
    obtain ⟨-, -, hended⟩ := AuthCall.mk.inj (Option.some.inj hc')
    exact haccepted user (AuthStatus.ended.inj hended).symm

/-- What becomes of a request keeps the invariant, if its user has a token. -/
theorem HttpState.Inv.outcome {user : Option AuthUser} (h : HttpState.Inv rt s₀ as s)
    (hrun : (https rt).run s₀ as = some s) (hout : Outcome rt s k r user d s')
    (huser : ∀ u, user = some u → ∃ claims, u = claims.user ∧
      TokenAccepted rt s₀ (as ++ [ev]) k r claims)
    (hopen : user = none → r.endpoint.isPublic = true) :
    HttpState.Inv rt s₀ (as ++ [ev]) s' := by
  have hread : ∀ o, (∃ u, user = some u ∧ MayRead u r.endpoint o) →
      ∃ claims, TokenAccepted rt s₀ (as ++ [ev]) k r claims ∧
        MayRead claims.user r.endpoint o := by
    rintro o ⟨u, hu, hmay⟩
    obtain ⟨claims, rfl, haccepted⟩ := huser u hu
    exact ⟨claims, haccepted, hmay⟩
  have hkeep : ∀ (auth' : AuthState) k' c', (auth' = s.auth ∨
      ∃ authEv, s.auth.step rt.auth authEv = some auth') → s.requests k' = some c' →
      Warranted rt s₀ (as ++ [ev]) auth' k' c' :=
    fun auth' k' c' hauth hc' => (h.requests k' c' hc').step h.auth hrun hauth
  cases hout with
  | answered answer hshows =>
    refine ⟨h.auth, fun k' c' hc' => ?_⟩
    rcases Slots.found_cases_some hc' with ⟨rfl, rfl⟩ | ⟨-, hold⟩
    · exact fun o ho => hread o (hshows o ho)
    · exact hkeep _ k' c' (.inl rfl) hold
  | changed u api answer hu hdone hshows =>
    refine ⟨h.auth, fun k' c' hc' => ?_⟩
    rcases Slots.found_cases_some hc' with ⟨rfl, rfl⟩ | ⟨-, hold⟩
    · exact fun o ho => hread o ⟨u, hu, hshows o ho⟩
    · exact hkeep _ k' c' (.inl rfl) hold
  | called request auth hcall =>
    refine ⟨(h.auth.stepped hcall).inv h.auth, fun k' c' hc' => ?_⟩
    rcases Slots.found_cases_some hc' with ⟨rfl, rfl⟩ | ⟨-, hold⟩
    · trivial
    · exact hkeep auth k' c' (.inr ⟨_, hcall⟩) hold
  | handedOver hclosed =>
    refine ⟨h.auth, fun k' c' hc' => ?_⟩
    rcases Slots.found_cases_some hc' with ⟨rfl, rfl⟩ | ⟨-, hold⟩
    · rcases user with _ | u
      · rw [hopen rfl] at hclosed
        cases hclosed
      · obtain ⟨claims, rfl, haccepted⟩ := huser u rfl
        exact ⟨claims, rfl, haccepted⟩
    · exact hkeep _ k' c' (.inl rfl) hold

/-- **Every event** keeps what stands behind the requests. -/
theorem HttpState.Inv.step (h : HttpState.Inv rt s₀ as s)
    (hrun : (https rt).run s₀ as = some s) (hs : s.step rt ev = some s') :
    HttpState.Inv rt s₀ (as ++ [ev]) s' := by
  have hkeep : ∀ k' c', s.requests k' = some c' → Warranted rt s₀ (as ++ [ev]) s.auth k' c' :=
    fun k' c' hc' => (h.requests k' c' hc').step h.auth hrun (.inl rfl)
  -- a refusal shows nothing
  have hthrow : ∀ k r answer, Answer.orders answer = [] →
      HttpState.Inv rt s₀ (as ++ [ev]) (s.reach k r (.answered answer)) := by
    intro k r answer hnil
    refine ⟨h.auth, fun k' c' hc' => ?_⟩
    rcases Slots.found_cases_some hc' with ⟨rfl, rfl⟩ | ⟨-, hold⟩
    · intro o ho
      rw [hnil] at ho
      exact absurd ho List.not_mem_nil
    · exact hkeep k' c' hold
  cases httpStepped_of_step hs with
  | auth authEv auth' hauth =>
    exact ⟨(h.auth.stepped hauth).inv h.auth, fun k' c' hc' =>
      (h.requests k' c' hc').step h.auth hrun (.inr ⟨authEv, hauth⟩)⟩
  | opened k r d _ hpublic hout =>
    exact h.outcome hrun hout (fun u hu => by cases hu) fun _ => hpublic
  | asked k r d token auth' hbearer hauth =>
    refine ⟨(h.auth.stepped hauth).inv h.auth, fun k' c' hc' => ?_⟩
    rcases Slots.found_cases_some hc' with ⟨rfl, rfl⟩ | ⟨-, hold⟩
    · exact .arrive hbearer hrun hauth
    · exact (h.requests k' c' hold).step h.auth hrun (.inr ⟨_, hauth⟩)
  | denied k r d p w => exact hthrow k r _ rfl
  | admitted k r d i request now user _ hk hc hout =>
    have hpromised : CallPromised rt s₀ as s.auth k r i := h.requests k _ hk
    obtain ⟨claims, rfl, haccepted⟩ := hpromised.user hc
    refine h.outcome hrun hout (fun u hu => ?_) fun hnone => by cases hnone
    obtain rfl := Option.some.inj hu
    exact ⟨claims, rfl, haccepted.snoc⟩
  | refused k r d i p w hk => exact hthrow k r _ rfl
  | settled k r d i answer hk hnone => exact hthrow k r answer hnone

theorem http_inv (h₀ : (https rt).start s₀) (hrun : (https rt).run s₀ as = some s) :
    HttpState.Inv rt s₀ as s := by
  refine System.run_induction (J := HttpState.Inv rt s₀) ?_
    (fun _ _ _ _ hrun h hs => h.step hrun hs) hrun
  refine ⟨h₀.1.inv, fun k c hc => ?_⟩
  rw [h₀.2.2 k] at hc
  cases hc

/-- What is done to the shop is done by a user, and is what he may do. -/
theorem Outcome.permitted {user : Option AuthUser} (hout : Outcome rt s k r user d s')
    (hchanged : s'.api ≠ s.api) :
    ∃ u, user = some u ∧ Permitted u d s.api r.endpoint s'.api := by
  cases hout with
  | changed u api answer huser hdone hshows => exact ⟨u, huser, hdone⟩
  | answered answer hshows => exact absurd rfl hchanged
  | called request auth hcall => exact absurd rfl hchanged
  | handedOver hclosed => exact absurd rfl hchanged

end Runs

/-- **Every change of the shop is authorised**: it is made by a request whose token verified
when it arrived and was at some moment since not on the denylist, and it is one that the user
of that token may make. -/
theorem shop_changes_authorised {rt : HttpRuntime} {s₀ s s' : HttpState} {as : List HttpEvent}
    {ev : HttpEvent} (h₀ : (https rt).start s₀) (hrun : (https rt).run s₀ as = some s)
    (hstep : (https rt).step s ev = some s') (hchanged : s'.api ≠ s.api) :
    ∃ k r i d claims, ev = .resume k d ∧ s.requests k = some ⟨r, .authenticating i⟩ ∧
      TokenAccepted rt s₀ as k r claims ∧
      Permitted claims.user d s.api r.endpoint s'.api := by
  have hinv := http_inv h₀ hrun
  cases httpStepped_of_step hstep with
  | opened k r d _ hpublic hout =>
    obtain ⟨u, huser, -⟩ := hout.permitted hchanged
    cases huser
  | admitted k r d i request now user _ hk hc hout =>
    have hpromised : CallPromised rt s₀ as s.auth k r i := hinv.requests k _ hk
    obtain ⟨claims, rfl, haccepted⟩ := hpromised.user hc
    obtain ⟨u, huser, hdone⟩ := hout.permitted hchanged
    obtain rfl := Option.some.inj huser
    exact ⟨k, r, i, d, claims, rfl, hk, haccepted, hdone⟩
  | auth authEv auth' hauth => exact absurd rfl hchanged
  | asked k r d token auth' hbearer hauth => exact absurd rfl hchanged
  | denied k r d p w => exact absurd rfl hchanged
  | refused k r d i p w hk => exact absurd rfl hchanged
  | settled k r d i answer hk hnone => exact absurd rfl hchanged

/-! ## A request with a token -/

/-- One user with the token `access`, before the first request. -/
def demoHttp : HttpState := ⟨demoService, initial, fun _ => none⟩

/-- Nothing that fails is looked at. -/
def demoHttpRuntime : HttpRuntime := ⟨demoAuthRuntime, fun _ => "", fun _ => ""⟩

theorem demoHttp_start : (https demoHttpRuntime).start demoHttp :=
  ⟨demoService_start, initial_start, fun _ => rfl⟩

/-- A request with the token, up to the answer of `authenticate`. -/
def demoRequest (e : Endpoint) : List HttpEvent :=
  [.request 1 ⟨e, "/", some "bearer access"⟩ ⟨2, 0, "at"⟩, .auth (.exec 2 (demoDraw 1 "r3"))]

/-- An order of two mice. -/
def demoCreate : Endpoint := .createOrder "key" ⟨[⟨"p2", 2⟩], none⟩

theorem demoCreate_authorised : ∃ s s', (https demoHttpRuntime).run demoHttp
      (demoRequest demoCreate) = some s ∧
    (https demoHttpRuntime).step s (.resume 1 ⟨3, 0, "at"⟩) = some s' ∧
    ∃ k r i d claims, HttpEvent.resume 1 ⟨3, 0, "at"⟩ = .resume k d ∧
      s.requests k = some ⟨r, .authenticating i⟩ ∧
      TokenAccepted demoHttpRuntime demoHttp (demoRequest demoCreate) k r claims ∧
      Permitted claims.user d s.api r.endpoint s'.api := by
  have hsome : ((https demoHttpRuntime).run demoHttp (demoRequest demoCreate)).any (fun s =>
      ((https demoHttpRuntime).step s (.resume 1 ⟨3, 0, "at"⟩)).any fun s' =>
        decide (s'.api.orders.length ≠ s.api.orders.length)) = true := by
    decide +kernel
  obtain ⟨s, hrun, h⟩ := (Option.any_eq_true _ _).mp hsome
  obtain ⟨s', hstep, hlength⟩ := (Option.any_eq_true _ _).mp h
  refine ⟨s, s', hrun, hstep, shop_changes_authorised demoHttp_start hrun hstep fun heq => ?_⟩
  exact of_decide_eq_true hlength (by rw [heq])

/-- **Every order that is shown** is shown to somebody who may read it, and files and health
are asked only by users with a token. -/
theorem answers_within_rights {rt : HttpRuntime} {s₀ s : HttpState} {as : List HttpEvent} {k : ℕ}
    {r : HttpRequest} {status : HttpStatus} (h₀ : (https rt).start s₀)
    (hrun : (https rt).run s₀ as = some s) (hk : s.requests k = some ⟨r, status⟩) :
    (∀ answer, status = .answered answer → ∀ o ∈ answer.orders,
      ∃ claims, TokenAccepted rt s₀ as k r claims ∧ MayRead claims.user r.endpoint o) ∧
    ∀ user, status = .handedOver user →
      ∃ claims, user = some claims.user ∧ TokenAccepted rt s₀ as k r claims := by
  have h := (http_inv h₀ hrun).requests k _ hk
  refine ⟨?_, ?_⟩
  · rintro answer rfl
    exact h
  · rintro user rfl
    exact h

theorem demoCreate_answered : ∃ s r answer, (https demoHttpRuntime).run demoHttp
      (demoRequest demoCreate ++ [.resume 1 ⟨3, 0, "at"⟩]) = some s ∧
    s.requests 1 = some ⟨r, .answered answer⟩ ∧ answer.orders ≠ [] ∧
    ∀ o ∈ answer.orders, ∃ claims, TokenAccepted demoHttpRuntime demoHttp
        (demoRequest demoCreate ++ [.resume 1 ⟨3, 0, "at"⟩]) 1 r claims ∧
      MayRead claims.user r.endpoint o := by
  have hsome : ((https demoHttpRuntime).run demoHttp
      (demoRequest demoCreate ++ [.resume 1 ⟨3, 0, "at"⟩])).any (fun s =>
        (s.requests 1).any fun c =>
          match c.status with
          | .answered answer => decide (answer.orders ≠ [])
          | _ => false) = true := by
    decide +kernel
  obtain ⟨s, hrun, h⟩ := (Option.any_eq_true _ _).mp hsome
  obtain ⟨⟨r, status⟩, hk, h⟩ := (Option.any_eq_true _ _).mp h
  rcases status with i | i | user | answer
  · cases h
  · cases h
  · cases h
  · exact ⟨s, r, answer, hrun, hk, of_decide_eq_true h,
      (answers_within_rights demoHttp_start hrun hk).1 answer rfl⟩

end Marketplace.Api
