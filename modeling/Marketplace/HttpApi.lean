import Marketplace.Auth
import Marketplace.OrdersApi

/-!
# The HTTP application

What `main.ts` and the modules put around the controllers. A request passes, in this order,

* the validator of the specification (documented routes only), which answers 400 itself;
* `AuthGuard`: routes that are not `@Public` need `Authorization: Bearer …`, and the guard
  awaits `authenticate`;
* `RolesGuard`, on the routes with `@Roles`;
* the handler. What it throws goes through `ProblemJsonFilter`.

The handlers of orders and products await nothing, so they run in the step of the guard.
Those of `AuthController` await a call of `AuthService`; those of files and health are left
to their own models, and here only the call is seen.
-/

namespace Marketplace.Api

/-! ## Routes -/

/-- The handlers of the controllers, with what they read of the request. -/
inductive Endpoint where
  /-- `GET /products` -/
  | listProducts (limit : ℕ) (cursor : Option String)
  /-- `GET /products/{id}` -/
  | getProduct (id : String)
  /-- `POST /products` -/
  | createProduct (name : String) (priceCents : ℤ)
  /-- `GET /orders` -/
  | listOrders (limit : ℕ) (cursor : Option String)
  /-- `POST /orders` -/
  | createOrder (idempotencyKey : String) (body : CreateOrderBody)
  /-- `GET /orders/{id}` -/
  | getOrder (id : String)
  /-- `PATCH /orders/{id}/status` -/
  | updateOrderStatus (id : String) (status : OrderStatus)
  /-- `GET /orders/{id}/events` -/
  | orderEvents (id : String) (lastEventId : Option ℕ)
  /-- `POST /auth/login` -/
  | login (email password : String)
  /-- `POST /auth/refresh` -/
  | refresh (refreshToken : String)
  /-- `POST /auth/logout` -/
  | logout
  /-- `POST /uploads/intent` -/
  | intent
  /-- `GET /uploads/{id}/parts` -/
  | parts (id : String)
  /-- `POST /uploads/commit` -/
  | commit (id : String)
  /-- `GET /files/{id}` -/
  | download (id : String)
  /-- `GET /health` -/
  | liveness
  /-- `GET /health/db` -/
  | readiness
  deriving DecidableEq

namespace Endpoint

/-- `@Public()`; everything else is closed, health too. -/
def isPublic : Endpoint → Bool
  | listProducts _ _ | getProduct _ | login _ _ | refresh _ => true
  | _ => false

/-- `@Roles(…)` -/
def roles : Endpoint → Option (List Role)
  | createProduct _ _ | updateOrderStatus _ _ => some [.seller, .admin]
  | intent | parts _ | commit _ | download _ => some [.customer, .seller, .admin]
  | _ => none

/-- What the specification asks of the parameters and the body. -/
def valid : Endpoint → Bool
  | listProducts limit _ | listOrders limit _ => decide (1 ≤ limit ∧ limit ≤ 100)
  | createProduct name priceCents => decide (name ≠ "" ∧ 0 ≤ priceCents)
  | createOrder idempotencyKey body =>
    decide (idempotencyKey ≠ "" ∧ body.items ≠ [] ∧ ∀ i ∈ body.items, 1 ≤ i.quantity)
  | login _ password => decide (password ≠ "")
  | refresh refreshToken => decide (refreshToken ≠ "")
  | _ => true

end Endpoint

/-- An HTTP request. -/
structure HttpRequest where
  endpoint : Endpoint
  /-- `req.originalUrl` -/
  originalUrl : String
  /-- `req.headers.authorization` -/
  authorization : Option String
  deriving DecidableEq

/-- `/^Bearer (\S+)$/i` -/
def bearer (header : String) : Option String :=
  let token := header.toList.drop 7
  if (header.toList.take 7).map Char.toLower = "bearer ".toList ∧ token ≠ [] ∧
      token.all fun c => !NumericLiteral.isBlank c then
    some (String.ofList token)
  else none

/-! ## Problems -/

/-- `PROBLEM_BASE` -/
def problemBase : String := "https://api.marketplace.example/problems"

/-- `PROBLEM_TITLES`, and the title of the rest -/
def problemTitle (status : ℕ) : String :=
  match status with
  | 400 => "Некоректний запит"
  | 401 => "Потрібна автентифікація"
  | 403 => "Доступ заборонено"
  | 404 => "Ресурс не знайдено"
  | 409 => "Конфлікт зі станом ресурсу"
  | 422 => "Тіло не пройшло перевірку"
  | 500 => "Внутрішня помилка сервера"
  | _ => "Помилка"

/-- A body of type `application/problem+json`. -/
structure Problem where
  type : String
  title : String
  status : ℕ
  detail : String
  /-- `instance` -/
  instanceUrl : String
  code : Option String
  deriving DecidableEq

/-- `writeProblem` -/
def writeProblem (r : HttpRequest) (e : ApiError) : Problem where
  type := problemBase ++ "/" ++ e.code.getD (toString e.status)
  title := problemTitle e.status
  status := e.status
  detail := e.detail
  instanceUrl := r.originalUrl
  code := e.code

/-- `unauthorized` -/
def unauthorized (code detail : String) : ApiError := ⟨401, some code, detail⟩

/-- `AuthGuard` without a token -/
def missingToken : ApiError :=
  unauthorized "missing-token" "потрібен заголовок Authorization: Bearer <access-токен>"

/-- The texts of `ROLES`. -/
def roleText : Role → String
  | .customer => "customer"
  | .seller => "seller"
  | .admin => "admin"

/-- `RolesGuard`, for a role that is not in the list -/
def insufficientRole (roles : List Role) : ApiError :=
  ⟨403, some "insufficient-role",
    "для цієї дії потрібна роль: " ++ " | ".intercalate (roles.map roleText)⟩

/-- What is not an `HttpException`. -/
def unexpected : ApiError := ⟨500, none, "Сталося щось непередбачене"⟩

/-- `NotFoundException` of `ProductsService.getById` -/
def productNotFound (id : String) : ApiError := ⟨404, none, "товар \"" ++ id ++ "\" не знайдено"⟩

/-- What the application uses and does not define. -/
structure HttpRuntime where
  auth : AuthRuntime
  /-- what the validator says of a request that is not valid -/
  invalidRequest : Endpoint → String
  /-- the message of the `TokenError` of a token that is not valid -/
  invalidToken : String → String

/-- The exceptions of `AuthService`. -/
def HttpRuntime.thrown (rt : HttpRuntime) (token : String) : AuthError → ApiError
  | .invalidCredentials => unauthorized "invalid-credentials" "невірний email або пароль"
  | .invalidRefreshToken => unauthorized "invalid-refresh-token" "refresh-токен недійсний"
  | .tokenExpired => unauthorized "token-expired" "токен протух"
  | .invalidToken => unauthorized "invalid-token" (rt.invalidToken token)
  | .tokenRevoked => unauthorized "token-revoked" "токен відкликано (логаут)"
  | .failure => unexpected

/-! ## Answers -/

/-- The body of an answer that is no problem. -/
inductive Content where
  | empty
  | order (order : Order)
  | orders (page : Page Order)
  | product (product : Product)
  | products (page : Page Product)
  | pair (pair : TokenPair)
  /-- the event stream, written as this connection -/
  | stream (n : ℕ)
  deriving DecidableEq

/-- An answer. -/
inductive Answer where
  | success (status : ℕ) (location : Option String) (content : Content)
  | problem (problem : Problem) (wwwAuthenticate : Option String)
  deriving DecidableEq

/-- `ProblemJsonFilter` -/
def problemJsonFilter (r : HttpRequest) (e : ApiError) : Answer :=
  .problem (writeProblem r e) (if e.status = 401 then some "Bearer" else none)

/-- `openApiErrorHandler`, which sets no `WWW-Authenticate`. -/
def openApiErrorHandler (r : HttpRequest) (e : ApiError) : Answer :=
  .problem (writeProblem r e) none

/-- The orders that an answer shows. -/
def Answer.orders : Answer → List Order
  | .success _ _ (.order order) => [order]
  | .success _ _ (.orders page) => page.items
  | _ => []

/-! ## The application -/

/-- Where a request is. -/
inductive HttpStatus where
  /-- `AuthGuard` awaits this call of `authenticate` -/
  | authenticating (call : ℕ)
  /-- the handler of `AuthController` awaits this call -/
  | calling (call : ℕ)
  /-- the handler of files or health was called, for this user -/
  | handedOver (user : Option AuthUser)
  | answered (answer : Answer)
  deriving DecidableEq

/-- A request, and how far it has got. -/
structure HttpCall where
  request : HttpRequest
  status : HttpStatus
  deriving DecidableEq

/-- The services, and the requests. -/
structure HttpState where
  auth : AuthState
  api : ApiState
  requests : ℕ → Option HttpCall

/-- What a step of the application draws: the number of a call of `AuthService`, of an SSE
response, and the time. -/
structure HttpDraw where
  call : ℕ
  connection : ℕ
  now : String
  deriving DecidableEq

namespace HttpState

/-- Request `k` has got so far. -/
def reach (s : HttpState) (k : ℕ) (r : HttpRequest) (status : HttpStatus) : HttpState :=
  { s with requests := Function.update s.requests k (some ⟨r, status⟩) }

/-- Request `k` is answered by a handler that has changed the shop. -/
def succeed (s : HttpState) (k : ℕ) (r : HttpRequest) (api : ApiState) (status : ℕ)
    (location : Option String) (content : Content) : HttpState :=
  ({ s with api } : HttpState).reach k r (.answered (.success status location content))

/-- Request `k` is answered by the filter. -/
def throw (s : HttpState) (k : ℕ) (r : HttpRequest) (e : ApiError) : HttpState :=
  s.reach k r (.answered (problemJsonFilter r e))

/-- Request `k` is answered with what a handler found, or threw. -/
def give (s : HttpState) (k : ℕ) (r : HttpRequest) : Except ApiError Content → HttpState
  | .ok content => s.succeed k r s.api 200 none content
  | .error e => s.throw k r e

/-- The handler awaits a call of `AuthService`. -/
def await (rt : HttpRuntime) (s : HttpState) (k : ℕ) (r : HttpRequest) (call : ℕ)
    (request : AuthRequest) (status : HttpStatus) : Option HttpState :=
  (s.auth.step rt.auth (.call call request)).map fun auth => ({ s with auth }).reach k r status

/-- The handlers. A closed one has a user; there is a place for what is put into an array. -/
def handle (rt : HttpRuntime) (s : HttpState) (k : ℕ) (r : HttpRequest) (user : Option AuthUser)
    (d : HttpDraw) : Option HttpState :=
  match r.endpoint, user with
  | .listProducts limit cursor, _ =>
    some (s.give k r ((paginate s.api.products limit cursor).map .products))
  | .getProduct id, _ =>
    match s.api.products.find? fun p => p.id = id with
    | some product => some (s.give k r (.ok (.product product)))
    | none => some (s.throw k r (productNotFound id))
  | .createProduct name priceCents, _ =>
    if s.api.products.length < maxLength then
      some (s.succeed k r (s.api.createProduct name priceCents) 201 none
        (.product ⟨"p" ++ toString s.api.nextProduct, name, priceCents⟩))
    else none
  | .listOrders limit cursor, some user =>
    some (s.give k r ((paginate (s.api.visible user) limit cursor).map .orders))
  | .createOrder _ body, some user =>
    if s.api.orders.length < maxLength then
      let order := s.api.newOrder body.items user.id d.now
      some (s.succeed k r (s.api.create body.items user.id d.now) 201
        (some ("/orders/" ++ order.id)) (.order order))
    else none
  | .getOrder id, some user => some (s.give k r ((s.api.getOwned id user).map .order))
  | .updateOrderStatus id status, _ =>
    match s.api.getById id, s.api.updateStatus id status d.now with
    | .ok order, .ok api => some (s.succeed k r api 200 none (.order { order with status }))
    | .error e, _ | _, .error e => some (s.throw k r e)
  | .orderEvents id lastEventId, some user =>
    if s.api.connections d.connection = none then
      match s.api.events d.connection id user lastEventId with
      | .ok api => some (s.succeed k r api 200 none (.stream d.connection))
      | .error e => some (s.throw k r e)
    else none
  | .login email password, _ => s.await rt k r d.call (.login email password) (.calling d.call)
  | .refresh refreshToken, _ => s.await rt k r d.call (.refresh refreshToken) (.calling d.call)
  | .logout, some _ =>
    match r.authorization.bind bearer with
    | some token => s.await rt k r d.call (.logout token) (.calling d.call)
    | none => none
  | .intent, _ | .parts _, _ | .commit _, _ | .download _, _ | .liveness, _ | .readiness, _ =>
    some (s.reach k r (.handedOver user))
  -- `CurrentUser` without a user
  | .listOrders _ _, none | .createOrder _ _, none | .getOrder _, none | .orderEvents _ _, none
    | .logout, none => some (s.throw k r unexpected)

/-- `RolesGuard`, and the handler -/
def allow (rt : HttpRuntime) (s : HttpState) (k : ℕ) (r : HttpRequest) (user : Option AuthUser)
    (d : HttpDraw) : Option HttpState :=
  match r.endpoint.roles, user with
  | none, _ => s.handle rt k r user d
  | some _, none => some (s.throw k r (unauthorized "missing-token" "потрібна автентифікація"))
  | some roles, some u =>
    if u.role ∈ roles then s.handle rt k r user d
    else some (s.throw k r (insufficientRole roles))

/-- A request arrives: the validator, and `AuthGuard` up to its `await`. -/
def receive (rt : HttpRuntime) (s : HttpState) (k : ℕ) (r : HttpRequest) (d : HttpDraw) :
    Option HttpState :=
  if r.endpoint.valid then
    if r.endpoint.isPublic then s.allow rt k r none d
    else
      match r.authorization.bind bearer with
      | some token => s.await rt k r d.call (.authenticate token) (.authenticating d.call)
      | none => some (s.throw k r missingToken)
  else
    some (s.reach k r
      (.answered (openApiErrorHandler r ⟨400, none, rt.invalidRequest r.endpoint⟩)))

/-- What is awaited has settled, and the request goes on. -/
def resume (rt : HttpRuntime) (s : HttpState) (k : ℕ) (r : HttpRequest) (d : HttpDraw) :
    HttpStatus → Option HttpState
  | .authenticating i =>
    match s.auth.calls i with
    | some ⟨_, _, .ended (.user user)⟩ => s.allow rt k r (some user) d
    | some ⟨_, _, .ended (.thrown e)⟩ =>
      some (s.throw k r (rt.thrown ((r.authorization.bind bearer).getD "") e))
    | _ => none
  | .calling i =>
    match s.auth.calls i with
    | some ⟨_, _, .ended (.pair pair)⟩ => some (s.give k r (.ok (.pair pair)))
    | some ⟨_, _, .ended .done⟩ => some (s.succeed k r s.api 204 none .empty)
    | some ⟨_, _, .ended (.thrown e)⟩ => some (s.throw k r (rt.thrown "" e))
    | _ => none
  | .handedOver _ | .answered _ => none

end HttpState

/-- What can happen. -/
inductive HttpEvent where
  /-- a statement of `AuthService`, or a call that no request makes -/
  | auth (ev : AuthEvent)
  /-- a request arrives -/
  | request (k : ℕ) (r : HttpRequest) (d : HttpDraw)
  /-- a request goes on -/
  | resume (k : ℕ) (d : HttpDraw)

/-- One event. -/
def HttpState.step (rt : HttpRuntime) (s : HttpState) : HttpEvent → Option HttpState
  | .auth ev => (s.auth.step rt.auth ev).map fun auth => { s with auth }
  | .request k r d =>
    match s.requests k with
    | none => s.receive rt k r d
    | some _ => none
  | .resume k d =>
    match s.requests k with
    | some ⟨r, status⟩ => s.resume rt k r d status
    | none => none

/-- The application, from services before their first call. -/
def https (rt : HttpRuntime) : System HttpState HttpEvent where
  start s := s.auth.Start ∧ s.api.Start ∧ ∀ k, s.requests k = none
  step := HttpState.step rt

end Marketplace.Api
