import Marketplace.Denylist

/-!
# The socket gateway

`OrdersGateway` lets a socket into the room of an order. It asks `authenticate` once,
when the socket connects, and keeps the promise; every `join` of the socket awaits
that promise, however much later it comes. So a join is authorised by what
`authenticate` found *for that connection*: a logout or the expiry of the token
between the connection and the join are not seen (`join_after_logout`).

The calls of `authenticate` run in the machine of `Auth`, among logins, logouts and
purges; a socket remembers which of them is its own.
-/

namespace Marketplace

/-! ## The gateway -/

/-- What the gateway reads of an order of `OrdersService`. -/
structure OrderOwner where
  id : String
  buyerId : String
  deriving DecidableEq, Repr

/-- `OrdersService.getById`, without its 404. -/
def OrderOwner.getById (orders : List OrderOwner) (id : String) : Option OrderOwner :=
  orders.find? fun o => decide (o.id = id)

/-- `roomForOrder` -/
def roomForOrder (orderId : String) : String := "orders:" ++ orderId

/-- Why a join is refused. -/
inductive JoinReason where
  | notFound
  | forbidden
  deriving DecidableEq, Repr

/-- `JoinResult` -/
structure JoinResult where
  ok : Bool
  room : Option String
  reason : Option JoinReason
  deriving DecidableEq, Repr

/-- A connected socket. -/
structure GatewaySocket where
  /-- `client.handshake.auth?.token`, if it is a string -/
  token : Option String
  /-- `client.data.user`: the call of `authenticate`, or a promise of `undefined` -/
  user : Option ℕ
  rooms : List String
  deriving DecidableEq, Repr

/-- A `join` message, and its answer once it has one. -/
structure JoinMessage where
  socket : ℕ
  orderId : String
  answer : Option JoinResult
  deriving DecidableEq, Repr

/-- The auth service, the orders, the sockets and the joins. -/
structure GatewayState where
  auth : AuthState
  orders : List OrderOwner
  /-- `nextId` of `OrdersService` -/
  nextId : ℕ
  sockets : ℕ → Option GatewaySocket
  joins : ℕ → Option JoinMessage

/-- What can happen. -/
inductive GatewayEvent where
  /-- something happens in the auth service -/
  | auth (ev : AuthEvent)
  /-- `OrdersService.create` -/
  | create (buyerId : String)
  /-- `handleConnection`; `call` is the number of its call of `authenticate` -/
  | connect (socket : ℕ) (token : Option String) (call : ℕ)
  /-- a `join` message arrives -/
  | join (k socket : ℕ) (orderId : String)
  /-- the promise has settled, and the join goes on to its answer -/
  | answer (k : ℕ)

/-- What `await client.data.user` gives, once the promise has settled: the user, or
`undefined` after any error. -/
def settled (auth : AuthState) : Option ℕ → Option (Option AuthUser)
  | none => some none
  | some i =>
    match auth.calls i with
    | some ⟨_, _, .ended (.user user)⟩ => some (some user)
    | some ⟨_, _, .ended (.thrown _)⟩ => some none
    | _ => none

/-- The rest of `join`: is there such an order, and does it belong to the user? -/
def joinResult (orders : List OrderOwner) (user : Option AuthUser) (orderId : String) :
    JoinResult :=
  match OrderOwner.getById orders orderId with
  | none => ⟨false, none, some .notFound⟩
  | some order =>
    match user with
    | none => ⟨false, none, some .forbidden⟩
    | some user =>
      if user.id ≠ order.buyerId ∧ user.role ≠ .admin then ⟨false, none, some .forbidden⟩
      else ⟨true, some (roomForOrder orderId), none⟩

namespace GatewayState

/-- One event. -/
def step (rt : AuthRuntime) (s : GatewayState) : GatewayEvent → Option GatewayState
  | .auth ev => (s.auth.step rt ev).map fun auth => { s with auth := auth }
  | .create buyerId =>
    some
      { s with
        orders := s.orders ++ [⟨"o" ++ toString s.nextId, buyerId⟩]
        nextId := s.nextId + 1 }
  | .connect socket token call =>
    match s.sockets socket, token with
    | some _, _ => none
    | none, none =>
      some { s with sockets := Function.update s.sockets socket (some ⟨none, none, []⟩) }
    | none, some token =>
      (s.auth.step rt (.call call (.authenticate token))).map fun auth =>
        { s with
          auth := auth
          sockets := Function.update s.sockets socket (some ⟨some token, some call, []⟩) }
  | .join k socket orderId =>
    match s.joins k, s.sockets socket with
    | none, some _ =>
      some { s with joins := Function.update s.joins k (some ⟨socket, orderId, none⟩) }
    | _, _ => none
  | .answer k =>
    match s.joins k with
    | some ⟨socket, orderId, none⟩ =>
      match s.sockets socket with
      | some client =>
        (settled s.auth client.user).map fun user =>
          let result := joinResult s.orders user orderId
          { s with
            joins := Function.update s.joins k (some ⟨socket, orderId, some result⟩)
            sockets := Function.update s.sockets socket
              (some { client with rooms := client.rooms ++ result.room.toList }) }
      | none => none
    | _ => none

end GatewayState

/-- The gateway with its sockets, from a service before its first call. -/
def gateways (rt : AuthRuntime) : System GatewayState GatewayEvent where
  start s := s.auth.Start ∧ (∀ i, s.sockets i = none) ∧ ∀ k, s.joins k = none
  step := GatewayState.step rt

/-! ## A call of `authenticate` -/

/-- The token is good now: `authenticate` would return this user. -/
def AuthState.Accepts (rt : AuthRuntime) (s : AuthState) (token : String) (user : AuthUser) :
    Prop :=
  ∃ claims, rt.verify token s.appMs = .ok claims ∧ ¬ s.Listed claims.jti ∧ user = claims.user

section Authenticate

variable {rt : AuthRuntime} {s s' : AuthState} {ev : AuthEvent} {i : ℕ} {request : AuthRequest}
  {now : ℤ} {token : String} {claims : VerifiedClaims} {outcome : AuthOutcome}

/-- A call of another number, or one that has ended, stays as it is. -/
theorem AuthState.calls_of_ended (hs : s.step rt ev = some s')
    (h : s.Inv rt) (hc : s.calls i = some ⟨request, now, .ended outcome⟩) :
    s'.calls i = some ⟨request, now, .ended outcome⟩ := by
  cases h.stepped hs with
  | @moved _ _ j requestj nowj pc hcaller hcj took =>
    obtain ⟨c', -, hcalls, -⟩ := took.moves
    have hij : i ≠ j := by
      rintro rfl
      rw [hc] at hcj
      cases hcj
    rw [hcalls, Function.update_of_ne hij]
    exact hc
  | @began j requestj status hcj hentry =>
    exact Slots.found_of_free hcj hc
  | ticked happ hdb hahead => exact hc

/-- A call that looks for the `jti` of its token goes on waiting, or ends; and it ends with
a user only if the `jti` is not on the denylist. -/
theorem AuthState.calls_of_asking (hs : s.step rt ev = some s') (h : s.Inv rt)
    (hc : s.calls i = some ⟨request, now, .running (.selectDenied claims)⟩) :
    s'.calls i = some ⟨request, now, .running (.selectDenied claims)⟩ ∨
      ∃ now' outcome, s'.calls i = some ⟨request, now', .ended outcome⟩ ∧
        ∀ user, outcome = .user user → user = claims.user ∧ ¬ s.Listed claims.jti := by
  cases h.stepped hs with
  | @moved _ _ j requestj nowj pc hcaller hcj took =>
    obtain ⟨⟨request', now', status⟩, hrequest, hcalls, hm⟩ := took.moves
    by_cases hij : i = j
    · subst hij
      obtain ⟨rfl, rfl, hpc⟩ := AuthCall.mk.inj (Option.some.inj (hc.symm.trans hcj))
      obtain rfl := AuthStatus.running.inj hpc
      obtain rfl : request' = request := hrequest
      rw [hcalls, Function.update_self]
      rcases status with pc' | outcome
      · have hi : s'.calls i = some ⟨request', now', .running pc'⟩ := by
          rw [hcalls, Function.update_self]
        obtain ⟨d, hexec⟩ := AuthState.running_of_step hs hcaller hc hi
        -- the `SELECT` is the last statement of the call
        simp only [AuthState.exec] at hexec
        split at hexec
        · obtain rfl := Option.some.inj hexec
          exact absurd hi AuthState.not_running_of_finish
        · obtain rfl := Option.some.inj hexec
          exact absurd hi AuthState.not_running_of_finish
      · refine .inr ⟨now', outcome, rfl, ?_⟩
        rintro user rfl
        obtain ⟨claims', hpc', huser, hlookup⟩ := hm.user_asked
        obtain rfl := AuthPc.selectDenied.inj hpc'
        refine ⟨huser, ?_⟩
        rintro ⟨r, hr, hjti⟩
        exact Table.lookup_eq_none.mp hlookup r hr hjti
    · rw [hcalls, Function.update_of_ne hij]
      exact .inl hc
  | @began j requestj status hcj hentry =>
    exact .inl (Slots.found_of_free hcj hc)
  | ticked happ hdb hahead => exact .inl hc

end Authenticate

/-! ## What a socket knows -/

section Sockets

variable {rt : AuthRuntime} {s₀ s s' : GatewayState} {as as' : List GatewayEvent}
  {ev : GatewayEvent} {socket i : ℕ} {token : String} {claims : VerifiedClaims}
  {client : GatewaySocket}

/-- When the socket connected in the run, its token had these claims and had not
expired. -/
def VerifiedAt (rt : AuthRuntime) (s₀ : GatewayState) (as : List GatewayEvent) (socket : ℕ)
    (token : String) (claims : VerifiedClaims) : Prop :=
  ∃ before after i s₁, as = before ++ .connect socket (some token) i :: after ∧
    (gateways rt).run s₀ before = some s₁ ∧ rt.verify token s₁.auth.appMs = .ok claims

/-- And at some moment since, its `jti` was not on the denylist. -/
def AcceptedSince (rt : AuthRuntime) (s₀ : GatewayState) (as : List GatewayEvent) (socket : ℕ)
    (token : String) (claims : VerifiedClaims) : Prop :=
  ∃ first rest s₂, as = first ++ rest ∧ VerifiedAt rt s₀ first socket token claims ∧
    (gateways rt).run s₀ first = some s₂ ∧ ¬ s₂.auth.Listed claims.jti

/-- The call `i` of `authenticate` was made for the socket: it waits for its look at the
denylist, or it has ended, with a user only if the token was accepted. -/
def Promised (rt : AuthRuntime) (s₀ : GatewayState) (as : List GatewayEvent) (auth : AuthState)
    (socket : ℕ) (token : String) (i : ℕ) : Prop :=
  (∃ now claims, auth.calls i =
      some ⟨.authenticate token, now, .running (.selectDenied claims)⟩ ∧
    VerifiedAt rt s₀ as socket token claims) ∨
  ∃ now outcome, auth.calls i = some ⟨.authenticate token, now, .ended outcome⟩ ∧
    ∀ user, outcome = .user user →
      ∃ claims, user = claims.user ∧ AcceptedSince rt s₀ as socket token claims

theorem VerifiedAt.snoc (h : VerifiedAt rt s₀ as socket token claims) :
    VerifiedAt rt s₀ (as ++ [ev]) socket token claims := by
  obtain ⟨before, after, i, s₁, rfl, hrest⟩ := h
  exact ⟨before, after ++ [ev], i, s₁, by simp, hrest⟩

theorem AcceptedSince.snoc (h : AcceptedSince rt s₀ as socket token claims) :
    AcceptedSince rt s₀ (as ++ [ev]) socket token claims := by
  obtain ⟨first, rest, s₂, rfl, hrest⟩ := h
  exact ⟨first, rest ++ [ev], s₂, by simp, hrest⟩

theorem Promised.snoc {auth : AuthState} (h : Promised rt s₀ as auth socket token i) :
    Promised rt s₀ (as ++ [ev]) auth socket token i := by
  rcases h with ⟨now, claims, hc, hverified⟩ | ⟨now, outcome, hc, haccepted⟩
  · exact .inl ⟨now, claims, hc, hverified.snoc⟩
  · refine .inr ⟨now, outcome, hc, fun user huser => ?_⟩
    obtain ⟨claims, hclaims, hsince⟩ := haccepted user huser
    exact ⟨claims, hclaims, hsince.snoc⟩

/-- **The auth service keeps its promises**: what a call of `authenticate` returns to a
socket was true of its token, after it connected. -/
theorem Promised.auth {auth' : AuthState} {authEv : AuthEvent}
    (h : Promised rt s₀ as s.auth socket token i) (hinv : s.auth.Inv rt)
    (hrun : (gateways rt).run s₀ as = some s) (hs : s.auth.step rt authEv = some auth') :
    Promised rt s₀ (as ++ [ev]) auth' socket token i := by
  rcases h with ⟨now, claims, hc, hverified⟩ | ⟨now, outcome, hc, haccepted⟩
  · rcases AuthState.calls_of_asking hs hinv hc with hc' | ⟨now', outcome, hc', hends⟩
    · exact .inl ⟨now, claims, hc', hverified.snoc⟩
    · refine .inr ⟨now', outcome, hc', fun user huser => ?_⟩
      obtain ⟨hclaims, hunlisted⟩ := hends user huser
      exact ⟨claims, hclaims, as, [ev], s, rfl, hverified, hrun, hunlisted⟩
  · refine .inr ⟨now, outcome, AuthState.calls_of_ended hs hinv hc, fun user huser => ?_⟩
    obtain ⟨claims, hclaims, hsince⟩ := haccepted user huser
    exact ⟨claims, hclaims, hsince.snoc⟩

/-- The promise of a socket that connects. -/
theorem Promised.connect {auth' : AuthState} (hrun : (gateways rt).run s₀ as = some s)
    (hs : s.auth.step rt (.call i (.authenticate token)) = some auth') :
    Promised rt s₀ (as ++ [.connect socket (some token) i]) auth' socket token i := by
  rcases hc : s.auth.calls i with _ | c
  · rcases hverify : rt.verify token s.auth.appMs with e | claims
    · simp only [AuthState.step, AuthState.entry, hc, hverify, Option.some.injEq] at hs
      subst hs
      refine .inr ⟨s.auth.dbUs, .thrown e, Function.update_self .., ?_⟩
      intro user huser
      cases huser
    · simp only [AuthState.step, AuthState.entry, hc, hverify, Option.some.injEq] at hs
      subst hs
      exact .inl ⟨s.auth.dbUs, claims, Function.update_self .., as, [], i, s, rfl, hrun, hverify⟩
  · simp only [AuthState.step, hc] at hs
    cases hs

/-- What holds after each step of a run. -/
structure GatewayState.Inv (rt : AuthRuntime) (s₀ : GatewayState) (as : List GatewayEvent)
    (s : GatewayState) : Prop where
  auth : s.auth.Inv rt
  sockets : ∀ socket client, s.sockets socket = some client →
    ∀ i, client.user = some i → ∃ token, client.token = some token ∧
      Promised rt s₀ as s.auth socket token i

namespace GatewayState

theorem Inv.of_start (h : (gateways rt).start s) : Inv rt s [] s := by
  obtain ⟨hauth, hsockets, -⟩ := h
  refine ⟨hauth.inv, fun socket client hclient => ?_⟩
  rw [hsockets] at hclient
  cases hclient

/-- **Every event keeps the promises.** -/
theorem Inv.step (h : Inv rt s₀ as s) (hrun : (gateways rt).run s₀ as = some s)
    (hs : s.step rt ev = some s') : Inv rt s₀ (as ++ [ev]) s' := by
  cases ev with
  | auth authEv =>
    obtain ⟨auth', hauth, rfl⟩ := Option.map_eq_some_iff.mp hs
    refine ⟨(h.auth.stepped hauth).inv h.auth, fun socket client hclient i hi => ?_⟩
    obtain ⟨token, htoken, hpromised⟩ := h.sockets socket client hclient i hi
    exact ⟨token, htoken, hpromised.auth h.auth hrun hauth⟩
  | create buyerId =>
    obtain rfl := Option.some.inj hs
    refine ⟨h.auth, fun socket client hclient i hi => ?_⟩
    obtain ⟨token, htoken, hpromised⟩ := h.sockets socket client hclient i hi
    exact ⟨token, htoken, hpromised.snoc⟩
  | connect socket token call =>
    simp only [GatewayState.step] at hs
    split at hs
    · cases hs
    · obtain rfl := Option.some.inj hs
      refine ⟨h.auth, fun socket' client hclient i hi => ?_⟩
      rcases Slots.found_cases_some hclient with ⟨rfl, rfl⟩ | ⟨-, hclient⟩
      · cases hi
      · obtain ⟨token, htoken, hpromised⟩ := h.sockets socket' client hclient i hi
        exact ⟨token, htoken, hpromised.snoc⟩
    · obtain ⟨auth', hauth, rfl⟩ := Option.map_eq_some_iff.mp hs
      refine ⟨(h.auth.stepped hauth).inv h.auth, fun socket' client hclient i hi => ?_⟩
      rcases Slots.found_cases_some hclient with ⟨rfl, rfl⟩ | ⟨-, hclient⟩
      · obtain rfl := Option.some.inj hi
        exact ⟨_, rfl, .connect hrun hauth⟩
      · obtain ⟨token, htoken, hpromised⟩ := h.sockets socket' client hclient i hi
        exact ⟨token, htoken, hpromised.auth h.auth hrun hauth⟩
  | join k socket orderId =>
    simp only [GatewayState.step] at hs
    split at hs
    · obtain rfl := Option.some.inj hs
      refine ⟨h.auth, fun socket client hclient i hi => ?_⟩
      obtain ⟨token, htoken, hpromised⟩ := h.sockets socket client hclient i hi
      exact ⟨token, htoken, hpromised.snoc⟩
    · cases hs
  | answer k =>
    simp only [GatewayState.step] at hs
    split at hs
    · split at hs
      · rename_i client₀ hclient₀
        obtain ⟨user, -, rfl⟩ := Option.map_eq_some_iff.mp hs
        refine ⟨h.auth, fun socket' client hclient i hi => ?_⟩
        rcases Slots.found_cases_some hclient with ⟨rfl, rfl⟩ | ⟨-, hclient⟩
        · -- the socket keeps its token and its promise
          obtain ⟨token, htoken, hpromised⟩ := h.sockets socket' client₀ hclient₀ i hi
          exact ⟨token, htoken, hpromised.snoc⟩
        · obtain ⟨token, htoken, hpromised⟩ := h.sockets socket' client hclient i hi
          exact ⟨token, htoken, hpromised.snoc⟩
      · cases hs
    · cases hs

end GatewayState

/-- A user of a settled promise is the user of a call that has ended. -/
theorem settled_eq_user {auth : AuthState} {promise : Option ℕ} {user : AuthUser}
    (h : settled auth promise = some (some user)) :
    ∃ i request now, promise = some i ∧
      auth.calls i = some ⟨request, now, .ended (.user user)⟩ := by
  rcases promise with _ | i
  · cases h
  · simp only [settled] at h
    split at h
    · rename_i request now user' hc
      obtain rfl := Option.some.inj (Option.some.inj h)
      exact ⟨i, request, now, rfl, hc⟩
    · cases h
    · cases h

/-- Who is let in: the buyer of an order that exists, or an admin. -/
theorem joinResult_ok {orders : List OrderOwner} {user : Option AuthUser} {orderId : String}
    (h : (joinResult orders user orderId).ok = true) :
    ∃ order u, OrderOwner.getById orders orderId = some order ∧ user = some u ∧
      (u.id = order.buyerId ∨ u.role = .admin) ∧
      (joinResult orders user orderId).room = some (roomForOrder orderId) := by
  rcases horder : OrderOwner.getById orders orderId with _ | order
  · simp [joinResult, horder] at h
  · rcases user with _ | u
    · simp [joinResult, horder] at h
    · by_cases hforeign : u.id ≠ order.buyerId ∧ u.role ≠ .admin
      · simp [joinResult, horder, hforeign] at h
      · refine ⟨order, u, rfl, rfl, ?_, by simp [joinResult, horder, hforeign]⟩
        rcases not_and_or.mp hforeign with hid | hrole
        · exact .inl (not_not.mp hid)
        · exact .inr (not_not.mp hrole)

end Sockets

/-- **A join is authorised by the connection**: a socket that is let into the room of an
order presented, when it connected, a token whose signature was good and which had not
expired; at some moment between that and the join its `jti` was not on the denylist;
and the user of the token is the buyer of the order, or an admin. -/
theorem join_authorised_by_connection {rt : AuthRuntime} {s₀ s s' : GatewayState}
    {as : List GatewayEvent} {k socket : ℕ} {orderId : String} {result : JoinResult}
    (hstart : (gateways rt).start s₀) (hrun : (gateways rt).run s₀ as = some s)
    (hpending : s.joins k = some ⟨socket, orderId, none⟩)
    (hstep : (gateways rt).step s (.answer k) = some s')
    (hanswer : s'.joins k = some ⟨socket, orderId, some result⟩) (hok : result.ok = true) :
    ∃ client client' token claims order,
      s.sockets socket = some client ∧ client.token = some token ∧
      AcceptedSince rt s₀ as socket token claims ∧
      OrderOwner.getById s.orders orderId = some order ∧
      (claims.sub = order.buyerId ∨ claims.role = .admin) ∧
      s'.sockets socket = some client' ∧ roomForOrder orderId ∈ client'.rooms := by
  have hinv : GatewayState.Inv rt s₀ as s :=
    System.run_induction (GatewayState.Inv.of_start hstart)
      (fun _ _ _ _ hrun h hs => h.step hrun hs) hrun
  simp only [gateways, GatewayState.step, hpending] at hstep
  rcases hclient : s.sockets socket with _ | client
  · rw [hclient] at hstep
    cases hstep
  · rw [hclient] at hstep
    obtain ⟨user, hsettled, rfl⟩ := Option.map_eq_some_iff.mp hstep
    have hresult : joinResult s.orders user orderId = result := by
      rcases Slots.found_cases_some hanswer with ⟨-, hmessage⟩ | ⟨hne, -⟩
      · exact (Option.some.inj (JoinMessage.mk.inj hmessage).2.2).symm
      · exact absurd rfl hne
    subst hresult
    obtain ⟨order, u, horder, rfl, hright, hroom⟩ := joinResult_ok hok
    obtain ⟨i, request, now, hpromise, hc⟩ := settled_eq_user hsettled
    obtain ⟨token, htoken, hpromised⟩ := hinv.sockets socket client hclient i hpromise
    have haccepted : ∃ claims, u = claims.user ∧ AcceptedSince rt s₀ as socket token claims := by
      rcases hpromised with ⟨now', claims, hc', -⟩ | ⟨now', outcome, hc', haccepted⟩
      · rw [hc] at hc'
        cases hc'
      · rw [hc] at hc'
        obtain ⟨-, -, hended⟩ := AuthCall.mk.inj (Option.some.inj hc')
        exact haccepted u (AuthStatus.ended.inj hended).symm
    obtain ⟨claims, rfl, hsince⟩ := haccepted
    refine ⟨client, _, token, claims, order, rfl, htoken, hsince, horder, hright,
      Function.update_self .., ?_⟩
    rw [hroom]
    exact List.mem_append_right _ (List.mem_singleton_self _)

/-! ## Between the connection and the join -/

/-- The service of one user, with an order of theirs. -/
def demoGateway : GatewayState where
  auth := demoService
  orders := [⟨"o1", "1"⟩]
  nextId := 2
  sockets := fun _ => none
  joins := fun _ => none

/-- A socket connects and is authenticated. -/
def demoConnect : List GatewayEvent :=
  [.connect 7 (some "access") 2, .auth (.exec 2 (demoDraw 1 "r3"))]

/-- The user logs out. -/
def demoLogoutOver : List GatewayEvent :=
  (demoLogout ++ demoSteps 1 1 1 "r3").map .auth

theorem demoConnect_joins :
    ∃ s s' result, (gateways demoAuthRuntime).run demoGateway
        (demoConnect ++ [.join 1 7 "o1"]) = some s ∧
      (gateways demoAuthRuntime).step s (.answer 1) = some s' ∧ result.ok = true ∧
      s'.joins 1 = some ⟨7, "o1", some result⟩ ∧
      ∃ client client' token claims order,
        s.sockets 7 = some client ∧ client.token = some token ∧
        AcceptedSince demoAuthRuntime demoGateway (demoConnect ++ [.join 1 7 "o1"]) 7 token
          claims ∧
        OrderOwner.getById s.orders "o1" = some order ∧
        (claims.sub = order.buyerId ∨ claims.role = .admin) ∧
        s'.sockets 7 = some client' ∧ roomForOrder "o1" ∈ client'.rooms := by
  have hsome : ((gateways demoAuthRuntime).run demoGateway
      (demoConnect ++ [.join 1 7 "o1"])).any (fun s =>
        decide (s.joins 1 = some ⟨7, "o1", none⟩) &&
        ((gateways demoAuthRuntime).step s (.answer 1)).any fun s' =>
          decide (s'.joins 1 = some ⟨7, "o1", some ⟨true, some "orders:o1", none⟩⟩)) = true := by
    decide +kernel
  obtain ⟨s, hrun, h⟩ := (Option.any_eq_true _ _).mp hsome
  obtain ⟨hpending, h⟩ := Bool.and_eq_true_iff.mp h
  obtain ⟨s', hstep, hanswer⟩ := (Option.any_eq_true _ _).mp h
  exact ⟨s, s', _, hrun, hstep, rfl, of_decide_eq_true hanswer,
    join_authorised_by_connection ⟨demoService_start, fun _ => rfl, fun _ => rfl⟩ hrun
      (of_decide_eq_true hpending) hstep (of_decide_eq_true hanswer) rfl⟩

/-- **A join does not ask again**: after a logout the token is refused everywhere else, and
its socket is still let into rooms. -/
theorem join_after_logout :
    ¬ ∀ (rt : AuthRuntime) (s₀ s s' : GatewayState) (as : List GatewayEvent) (k socket : ℕ)
        (orderId : String) (result : JoinResult) (client : GatewaySocket),
      (gateways rt).start s₀ → (gateways rt).run s₀ as = some s →
      s.joins k = some ⟨socket, orderId, none⟩ → (gateways rt).step s (.answer k) = some s' →
      s'.joins k = some ⟨socket, orderId, some result⟩ → result.ok = true →
      s.sockets socket = some client →
      ∃ token user order, client.token = some token ∧ s.auth.Accepts rt token user ∧
        OrderOwner.getById s.orders orderId = some order ∧
        (user.id = order.buyerId ∨ user.role = .admin) := by
  intro hclaim
  have hsome : ((gateways demoAuthRuntime).run demoGateway
      (demoConnect ++ demoLogoutOver ++ [.join 1 7 "o1"])).any (fun s =>
        decide (s.joins 1 = some ⟨7, "o1", none⟩) &&
        (decide (s.sockets 7 = some ⟨some "access", some 2, []⟩) &&
        (decide ("j" ∈ s.auth.db.committed.accessDenylist.map DeniedToken.jti) &&
        ((gateways demoAuthRuntime).step s (.answer 1)).any fun s' =>
          decide (s'.joins 1 = some ⟨7, "o1", some ⟨true, some "orders:o1", none⟩⟩)))) = true := by
    decide +kernel
  obtain ⟨s, hrun, h⟩ := (Option.any_eq_true _ _).mp hsome
  obtain ⟨hpending, h⟩ := Bool.and_eq_true_iff.mp h
  obtain ⟨hclient, h⟩ := Bool.and_eq_true_iff.mp h
  obtain ⟨hlisted, h⟩ := Bool.and_eq_true_iff.mp h
  obtain ⟨s', hstep, hanswer⟩ := (Option.any_eq_true _ _).mp h
  obtain ⟨token, user, order, htoken, ⟨claims, hverify, hunlisted, -⟩, -⟩ :=
    hclaim _ _ _ _ _ _ _ _ _ _ ⟨demoService_start, fun _ => rfl, fun _ => rfl⟩ hrun
      (of_decide_eq_true hpending) hstep (of_decide_eq_true hanswer) rfl (of_decide_eq_true hclient)
  obtain rfl := Option.some.inj htoken
  have hjti : claims.jti = "j" := by
    have hclaims := (verify_eq_ok hverify).1
    obtain rfl := Option.some.inj hclaims
    rfl
  obtain ⟨r, hr, hrjti⟩ := List.mem_map.mp (of_decide_eq_true hlisted)
  exact hunlisted ⟨r, hr, hrjti.trans hjti.symm⟩

end Marketplace
