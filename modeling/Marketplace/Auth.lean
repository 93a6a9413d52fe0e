import Mathlib.Algebra.Ring.Int.Defs
import Marketplace.AuthSchema
import Marketplace.Run

/-!
# `AuthService`, statement by statement

`login`, `refresh`, `logout`, `authenticate` and `purgeDenylist` as one machine
over one database, in the style of the checkout: a program counter for each
point at which the code waits for Postgres, and one step for the pending
statement with the JavaScript up to the next.

Two statements write more than one row: the `UPDATE` that revokes a family and
the `DELETE` that purges the denylist. Each *scans* on the snapshot of its start,
which fixes the rows it will visit; then it visits them, in any order, waiting
for whoever holds a row and checking its condition again on the newest version.
A row that was not committed when the statement began is not visited.

The clocks are part of the state: the application's in milliseconds, the
database's in microseconds, and the latter is never ahead. A statement that
fails has no effect; a call whose COMMIT took effect may still get no answer.
-/

namespace Marketplace

/-! ## Tokens, users, requests -/

/-- `VerifiedClaims` -/
structure VerifiedClaims where
  sub : String
  role : Role
  jti : String
  exp : ℤ
  fid : String
  deriving DecidableEq

/-- `AuthUser` -/
structure AuthUser where
  id : String
  role : Role
  jti : String
  exp : ℤ
  fid : String
  deriving DecidableEq

/-- The user that `authenticate` makes of the claims. -/
def VerifiedClaims.user (c : VerifiedClaims) : AuthUser := ⟨c.sub, c.role, c.jti, c.exp, c.fid⟩

/-- `TokenPair`; the access token is given by its claims. -/
structure TokenPair where
  accessToken : VerifiedClaims
  refreshToken : String
  expiresIn : ℕ
  deriving DecidableEq

/-- Why a call throws. -/
inductive AuthError where
  | invalidCredentials
  | invalidRefreshToken
  | tokenExpired
  | invalidToken
  | tokenRevoked
  /-- the database or a library failed -/
  | failure
  deriving DecidableEq

/-- What the service uses and does not define. -/
structure AuthRuntime where
  /-- `hash`: HMAC-SHA-256 with the pepper, in hexadecimal -/
  hash : String → String
  verifyPassword : String → Option String → Bool
  /-- everything `verify` checks but the expiry: key, algorithm, signature, issuer,
  audience, and that the claims are there -/
  verifyJwt : String → Option VerifiedClaims
  refreshTtlSec : ℕ
  accessTtlSec : ℕ

/-- `TokenService.verify`: expired exactly when the current second has reached
`exp`. -/
def AuthRuntime.verify (rt : AuthRuntime) (token : String) (appMs : ℤ) :
    Except AuthError VerifiedClaims :=
  match rt.verifyJwt token with
  | none => .error .invalidToken
  | some claims => if claims.exp ≤ appMs / 1000 then .error .tokenExpired else .ok claims

theorem verify_eq_ok {rt : AuthRuntime} {token : String} {appMs : ℤ} {claims : VerifiedClaims}
    (h : rt.verify token appMs = .ok claims) :
    rt.verifyJwt token = some claims ∧ appMs / 1000 < claims.exp := by
  unfold AuthRuntime.verify at h
  split at h
  · cases h
  · rename_i hjwt
    split_ifs at h with hexp
    obtain rfl := Except.ok.inj h
    exact ⟨hjwt, Int.not_le.mp hexp⟩

/-- The calls. `logout` gets the user of an access token. -/
inductive AuthRequest where
  | login (email password : String)
  | refresh (rawToken : String)
  | logout (token : String)
  | authenticate (token : String)
  | purgeDenylist
  deriving DecidableEq

/-- How a call ends. -/
inductive AuthOutcome where
  | pair (p : TokenPair)
  | user (u : AuthUser)
  /-- `logout` and `purgeDenylist` -/
  | done
  | thrown (e : AuthError)
  /-- the process died -/
  | crashed
  /-- COMMIT took effect, but there was no answer -/
  | lost
  deriving DecidableEq

/-- Who revokes a family: a `refresh` that has met a used token, or a `logout`. -/
inductive Revoker where
  | reuse (familyId : String)
  | logout (user : AuthUser)
  deriving DecidableEq

/-- The family to revoke. -/
def Revoker.familyId : Revoker → String
  | .reuse familyId => familyId
  | .logout user => user.fid

/-- Where a call waits, with its local variables. -/
inductive AuthPc where
  /-- `SELECT … FROM users WHERE email = $1` -/
  | selectUser (email password : String)
  /-- `issue` of a login: `INSERT INTO refresh_tokens …`, a transaction of its own -/
  | insertFirst (userId : String) (role : Role)
  /-- the new pair, about to be returned -/
  | answerLogin (pair : TokenPair)
  /-- `BEGIN` of `refresh` -/
  | beginRefresh (rawToken : String)
  /-- `SELECT … WHERE token_hash = $1 FOR UPDATE`, its snapshot -/
  | scanToken (rawToken : String)
  /-- `SELECT … FOR UPDATE`, its row -/
  | lockToken (rawToken : String) (id : ℕ)
  /-- `SELECT role FROM users WHERE id = $1` -/
  | selectRole (row : RefreshToken)
  /-- `UPDATE refresh_tokens SET used_at = now() WHERE id = $1` -/
  | markUsed (row : RefreshToken) (role : Role)
  /-- `issue` of a rotation: `INSERT INTO refresh_tokens …` -/
  | insertNext (row : RefreshToken) (role : Role)
  /-- COMMIT of a rotation -/
  | commitRotation (pair : TokenPair)
  /-- COMMIT before `throw BAD_REFRESH()`, with nothing written -/
  | commitRefused
  /-- `BEGIN` of `logout` -/
  | beginLogout (user : AuthUser)
  /-- `UPDATE refresh_tokens SET revoked_at = now() …`, its snapshot -/
  | scanFamily (k : Revoker)
  /-- `UPDATE refresh_tokens SET revoked_at = now() …`, the rows left to visit -/
  | revokeRows (k : Revoker) (targets : List ℕ)
  /-- `INSERT INTO access_denylist …` -/
  | insertDenied (user : AuthUser)
  /-- COMMIT of a revocation -/
  | commitRevocation (k : Revoker)
  /-- `SELECT 1 FROM access_denylist WHERE jti = $1` -/
  | selectDenied (claims : VerifiedClaims)
  /-- `DELETE FROM access_denylist WHERE expires_at < now()`, its snapshot -/
  | scanExpired
  /-- `DELETE FROM access_denylist …`, the rows left to visit -/
  | deleteRows (targets : List String)
  /-- the `DELETE` takes effect -/
  | commitPurge
  deriving DecidableEq

/-- A call is running or has ended. -/
inductive AuthStatus where
  | running (pc : AuthPc)
  | ended (outcome : AuthOutcome)
  deriving DecidableEq

/-- A call, with the time its transaction began. -/
structure AuthCall where
  request : AuthRequest
  now : ℤ
  status : AuthStatus
  deriving DecidableEq

/-- What a statement draws from random sources, and the row it visits next. -/
structure AuthDraw where
  /-- `refresh_tokens.id` -/
  id : ℕ
  /-- `randomBytes(32)` -/
  raw : String
  /-- `randomUUID()` of a family -/
  familyId : String
  /-- `randomUUID()` of an access token -/
  jti : String
  tokenId : ℕ
  deniedJti : String

/-! ## The service -/

/-- The database, the clocks, the family ids that exist anywhere, the calls. -/
structure AuthState where
  db : Engine AuthDatabase AuthChange AuthLock ℕ
  appMs : ℤ
  dbUs : ℤ
  families : List String
  calls : ℕ → Option AuthCall

namespace AuthState

/-- What the next statement of call `i` reads. -/
def view (s : AuthState) (i : ℕ) : AuthDatabase := s.db.view i

/-- Nobody else holds `l`. -/
def free (s : AuthState) (i : ℕ) (l : AuthLock) : Bool := s.db.free i l

/-- Call `i` locks `l`. -/
def lock (s : AuthState) (i : ℕ) (l : AuthLock) : AuthState := { s with db := s.db.acquire i l }

/-- Call `i` writes a row. -/
def write (s : AuthState) (i : ℕ) (c : AuthChange) : AuthState := { s with db := s.db.write i c }

/-- The transaction of call `i` commits. -/
def commit (s : AuthState) (i : ℕ) : AuthState := { s with db := s.db.commit i }

/-- Call `i` is now `c`. -/
def setCall (s : AuthState) (i : ℕ) (c : AuthCall) : AuthState :=
  { s with calls := Function.update s.calls i (some c) }

/-- Call `i` goes on to `pc`. -/
def goto (s : AuthState) (i : ℕ) (c : AuthCall) (pc : AuthPc) : AuthState :=
  s.setCall i { c with status := .running pc }

/-- Call `i` ends. -/
def finish (s : AuthState) (i : ℕ) (c : AuthCall) (o : AuthOutcome) : AuthState :=
  s.setCall i { c with status := .ended o }

/-- Call `i` ends; what its transaction has open is rolled back. -/
def abort (s : AuthState) (i : ℕ) (c : AuthCall) (o : AuthOutcome) : AuthState :=
  ({ s with db := s.db.abort i } : AuthState).finish i c o

theorem pc_of_goto {s : AuthState} {i : ℕ} {c : AuthCall} {pc pc' : AuthPc}
    {request : AuthRequest} {now : ℤ}
    (h : (s.goto i c pc).calls i = some ⟨request, now, .running pc'⟩) : pc = pc' := by
  simp only [goto, setCall, Function.update_self, Option.some.injEq, AuthCall.mk.injEq,
    AuthStatus.running.injEq] at h
  exact h.2.2

theorem not_running_of_finish {s : AuthState} {i : ℕ} {c : AuthCall} {o : AuthOutcome}
    {pc : AuthPc} {request : AuthRequest} {now : ℤ} :
    (s.finish i c o).calls i ≠ some ⟨request, now, .running pc⟩ := by
  simp [finish, setCall]

/-- `tokens.sign` -/
def sign (rt : AuthRuntime) (s : AuthState) (userId : String) (role : Role) (familyId : String)
    (d : AuthDraw) : VerifiedClaims :=
  ⟨userId, role, d.jti, s.appMs / 1000 + rt.accessTtlSec, familyId⟩

/-- The row of `issue`, inserted in a transaction that began at `now`. -/
def newToken (rt : AuthRuntime) (now : ℤ) (userId familyId : String) (d : AuthDraw) :
    RefreshToken :=
  ⟨d.id, rt.hash d.raw, familyId, userId, none, none, now + 10 ^ 6 * rt.refreshTtlSec⟩

/-- The pair of `issue`. -/
def newPair (rt : AuthRuntime) (s : AuthState) (userId : String) (role : Role)
    (familyId : String) (d : AuthDraw) : TokenPair :=
  ⟨sign rt s userId role familyId d, d.raw, rt.accessTtlSec⟩

/-- The `INSERT` of `issue` need not wait, and its identity is new. -/
def insertable (s : AuthState) (i : ℕ) (row : RefreshToken) : Bool :=
  s.free i (.tokenHash row.tokenHash) && s.free i (.token row.id) &&
    decide (∀ r ∈ (s.view i).refreshTokens, r.id ≠ row.id)

/-- The `INSERT` of `issue` breaks the unique index. -/
def duplicate (s : AuthState) (i : ℕ) (row : RefreshToken) : Bool :=
  decide (row.tokenHash ∈ (s.view i).refreshTokens.map RefreshToken.tokenHash)

/-- Insert a row of `refresh_tokens`. -/
def insertToken (s : AuthState) (i : ℕ) (row : RefreshToken) : AuthState :=
  ((s.lock i (.tokenHash row.tokenHash)).lock i (.token row.id)).write i (.insertToken row)

/-- `WHERE family_id = $1 AND revoked_at IS NULL` -/
def revocable (familyId : String) (r : RefreshToken) : Bool :=
  decide (r.familyId = familyId ∧ r.revokedAt = none)

/-- Run the pending statement of call `i`, and the code up to the next one. -/
def exec (rt : AuthRuntime) (s : AuthState) (i : ℕ) (c : AuthCall) (d : AuthDraw) :
    AuthPc → Option AuthState
  | .selectUser email password =>
    match Table.lookup Account.email email (s.view i).users with
    | none => some (s.abort i c (.thrown .invalidCredentials))
    | some user =>
      if rt.verifyPassword password user.passwordHash then
        some (s.goto i c (.insertFirst user.id user.role))
      else some (s.abort i c (.thrown .invalidCredentials))
  | .insertFirst userId role =>
    let row := newToken rt s.dbUs userId d.familyId d
    if s.insertable i row && decide (d.familyId ∉ s.families) then
      if s.duplicate i row then some (s.abort i c (.thrown .failure))
      else
        some (({ (s.insertToken i row).commit i with
          families := d.familyId :: s.families } : AuthState).goto i c
            (.answerLogin (newPair rt s userId role d.familyId d)))
    else none
  | .answerLogin pair => some (s.finish i c (.pair pair))
  | .beginRefresh rawToken => some (s.goto i { c with now := s.dbUs } (.scanToken rawToken))
  | .scanToken rawToken =>
    match Table.lookup RefreshToken.tokenHash (rt.hash rawToken) (s.view i).refreshTokens with
    | none => some (s.goto i c .commitRefused)
    | some row => some (s.goto i c (.lockToken rawToken row.id))
  | .lockToken rawToken id =>
    if s.free i (.token id) then
      match (Table.lookup RefreshToken.id id (s.view i).refreshTokens).filter
          (·.tokenHash = rt.hash rawToken) with
      | none => some (s.goto i c .commitRefused)
      | some row =>
        let s := s.lock i (.token id)
        if row.revokedAt ≠ none then some (s.goto i c .commitRefused)
        else if row.usedAt ≠ none then some (s.goto i c (.scanFamily (.reuse row.familyId)))
        else if row.expiresAt / 1000 ≤ s.appMs then some (s.goto i c .commitRefused)
        else some (s.goto i c (.selectRole row))
    else none
  | .selectRole row =>
    match Table.lookup Account.id row.userId (s.view i).users with
    | none => some (s.goto i c .commitRefused)
    | some user => some (s.goto i c (.markUsed row user.role))
  | .markUsed row role =>
    -- the row is locked since `FOR UPDATE`
    some ((s.write i (.setUsed row.id c.now)).goto i c (.insertNext row role))
  | .insertNext row role =>
    let next := newToken rt c.now row.userId row.familyId d
    if s.insertable i next then
      if s.duplicate i next then some (s.abort i c (.thrown .failure))
      else
        some ((s.insertToken i next).goto i c
          (.commitRotation (newPair rt s row.userId role row.familyId d)))
    else none
  | .commitRotation pair => some ((s.commit i).finish i c (.pair pair))
  | .commitRefused => some ((s.commit i).finish i c (.thrown .invalidRefreshToken))
  | .beginLogout user => some (s.goto i { c with now := s.dbUs } (.scanFamily (.logout user)))
  | .scanFamily k =>
    let targets := (s.view i).refreshTokens.filter (revocable k.familyId)
    some (s.goto i c (.revokeRows k (targets.map RefreshToken.id)))
  | .revokeRows (.reuse familyId) [] => some (s.goto i c (.commitRevocation (.reuse familyId)))
  | .revokeRows (.logout user) [] => some (s.goto i c (.insertDenied user))
  | .revokeRows k (id :: ids) =>
    let rest := (id :: ids).erase d.tokenId
    if decide (d.tokenId ∈ id :: ids) && s.free i (.token d.tokenId) then
      match (Table.lookup RefreshToken.id d.tokenId (s.view i).refreshTokens).filter
          (revocable k.familyId) with
      | none => some (s.goto i c (.revokeRows k rest))
      | some _ =>
        some (((s.lock i (.token d.tokenId)).write i (.setRevoked d.tokenId c.now)).goto i c
          (.revokeRows k rest))
    else none
  | .insertDenied user =>
    if s.free i (.denied user.jti) then
      match Table.lookup DeniedToken.jti user.jti (s.view i).accessDenylist with
      | some _ => some (s.goto i c (.commitRevocation (.logout user)))
      | none =>
        some (((s.lock i (.denied user.jti)).write i
          (.insertDenied ⟨user.jti, 10 ^ 6 * user.exp⟩)).goto i c
            (.commitRevocation (.logout user)))
    else none
  | .commitRevocation (.reuse _) =>
    some ((s.commit i).finish i c (.thrown .invalidRefreshToken))
  | .commitRevocation (.logout _) => some ((s.commit i).finish i c .done)
  | .selectDenied claims =>
    match Table.lookup DeniedToken.jti claims.jti (s.view i).accessDenylist with
    | some _ => some (s.finish i c (.thrown .tokenRevoked))
    | none => some (s.finish i c (.user claims.user))
  | .scanExpired =>
    let targets := (s.view i).accessDenylist.filter (·.expiresAt < s.dbUs)
    some (s.goto i { c with now := s.dbUs } (.deleteRows (targets.map DeniedToken.jti)))
  | .deleteRows [] => some (s.goto i c .commitPurge)
  | .deleteRows (jti :: jtis) =>
    let rest := (jti :: jtis).erase d.deniedJti
    if decide (d.deniedJti ∈ jti :: jtis) && s.free i (.denied d.deniedJti) then
      match (Table.lookup DeniedToken.jti d.deniedJti (s.view i).accessDenylist).filter
          (·.expiresAt < c.now) with
      | none => some (s.goto i c (.deleteRows rest))
      | some _ =>
        some (((s.lock i (.denied d.deniedJti)).write i (.deleteDenied d.deniedJti)).goto i c
          (.deleteRows rest))
    else none
  | .commitPurge => some ((s.commit i).finish i c .done)

end AuthState

/-- What can happen. -/
inductive AuthEvent where
  /-- somebody makes a call -/
  | call (i : ℕ) (request : AuthRequest)
  /-- the pending statement of call `i` runs -/
  | exec (i : ℕ) (d : AuthDraw)
  /-- the pending statement of call `i`, or the code around it, throws, without
  effect -/
  | fail (i : ℕ)
  /-- the process of call `i` dies -/
  | crash (i : ℕ)
  /-- the COMMIT of call `i` takes effect and its answer is lost -/
  | loseAnswer (i : ℕ)
  /-- time passes -/
  | tick (appMs dbUs : ℤ)

/-- The running call that takes the step. -/
def AuthEvent.caller : AuthEvent → Option ℕ
  | .exec i _ | .fail i | .crash i | .loseAnswer i => some i
  | .call _ _ | .tick _ _ => none

/-- The program counters at which a COMMIT is pending. -/
def AuthPc.commits : AuthPc → Bool
  | .commitRotation _ | .commitRefused | .commitRevocation _ | .commitPurge => true
  | _ => false

/-- The first point at which a call waits, or how it ends before. -/
def AuthState.entry (rt : AuthRuntime) (s : AuthState) : AuthRequest → Option AuthStatus
  | .login email password => some (.running (.selectUser email password))
  | .refresh rawToken => some (.running (.beginRefresh rawToken))
  | .logout token => (rt.verifyJwt token).map fun claims => .running (.beginLogout claims.user)
  | .authenticate token =>
    match rt.verify token s.appMs with
    | .error e => some (.ended (.thrown e))
    | .ok claims => some (.running (.selectDenied claims))
  | .purgeDenylist => some (.running .scanExpired)

/-- The family id a request brings with it. -/
def AuthRequest.families (rt : AuthRuntime) : AuthRequest → List String
  | .logout token => (rt.verifyJwt token).toList.map VerifiedClaims.fid
  | _ => []

/-- One event. -/
def AuthState.step (rt : AuthRuntime) (s : AuthState) : AuthEvent → Option AuthState
  | .call i request =>
    match s.calls i, s.entry rt request with
    | none, some status =>
      some (({ s with families := request.families rt ++ s.families } : AuthState).setCall i
        ⟨request, s.dbUs, status⟩)
    | _, _ => none
  | .exec i d =>
    match s.calls i with
    | some ⟨request, now, .running pc⟩ => s.exec rt i ⟨request, now, .running pc⟩ d pc
    | _ => none
  | .fail i =>
    match s.calls i with
    | some ⟨request, now, .running pc⟩ =>
      some (s.abort i ⟨request, now, .running pc⟩ (.thrown .failure))
    | _ => none
  | .crash i =>
    match s.calls i with
    | some ⟨request, now, .running pc⟩ => some (s.abort i ⟨request, now, .running pc⟩ .crashed)
    | _ => none
  | .loseAnswer i =>
    match s.calls i with
    | some ⟨request, now, .running pc⟩ =>
      if pc.commits then
        some ((s.commit i).finish i ⟨request, now, .running pc⟩ .lost)
      else none
    | _ => none
  | .tick appMs dbUs =>
    -- neither clock goes back, and the database's is not ahead
    if s.appMs ≤ appMs ∧ s.dbUs ≤ dbUs ∧ dbUs / 1000 ≤ appMs then some { s with appMs, dbUs }
    else none

/-! ## Where runs start -/

/-- The rows of a family that have not been exchanged. -/
def unused (familyId : String) (rows : List RefreshToken) : List RefreshToken :=
  rows.filter fun r => r.familyId = familyId ∧ r.usedAt = none

/-- Tables as the migrations and earlier commits leave them: keys are distinct,
and each family has one row that is not used. -/
structure AuthDatabase.WellFormed (db : AuthDatabase) : Prop where
  ids : (db.refreshTokens.map RefreshToken.id).Nodup
  hashes : (db.refreshTokens.map RefreshToken.tokenHash).Nodup
  chains : ∀ r ∈ db.refreshTokens, ∃ last, unused r.familyId db.refreshTokens = [last]

/-- The service before the first call. -/
structure AuthState.Start (s : AuthState) : Prop where
  idle : s.db = Engine.idle s.db.committed
  wellFormed : s.db.committed.WellFormed
  families : ∀ r ∈ s.db.committed.refreshTokens, r.familyId ∈ s.families
  clocks : s.dbUs / 1000 ≤ s.appMs
  calls : ∀ i, s.calls i = none

/-- Concurrent calls of the service. -/
def auths (rt : AuthRuntime) : System AuthState AuthEvent := ⟨AuthState.Start, AuthState.step rt⟩

/-! ## A small service -/

/-- Hashes are the tokens themselves, and there is one access token. -/
def demoAuthRuntime : AuthRuntime where
  hash := fun rawToken => rawToken
  verifyPassword := fun password passwordHash => decide (passwordHash = some password)
  verifyJwt := fun token =>
    if token = "access" then some ⟨"1", .customer, "j", 100, "f"⟩ else none
  refreshTtlSec := 3600
  accessTtlSec := 60

/-- One user, logged in: the family `f` has the row of `r1`. -/
def demoService : AuthState where
  db := Engine.idle
    { users := [⟨"1", "ann@demo", .customer, some "secret"⟩]
      refreshTokens := [⟨1, "r1", "f", "1", none, none, 3600000000⟩]
      accessDenylist := [] }
  appMs := 40000
  dbUs := 40000000
  families := ["f"]
  calls := fun _ => none

theorem demoService_start : demoService.Start where
  idle := rfl
  wellFormed := ⟨by decide, by decide, by
    intro r hr
    obtain rfl := List.mem_singleton.mp hr
    exact ⟨_, rfl⟩⟩
  families := by decide
  clocks := by decide
  calls := fun _ => rfl

/-- A draw of a raw token, and of the row to insert or visit. -/
def demoDraw (id : ℕ) (raw : String) : AuthDraw := ⟨id, raw, "g", "k", id, "j"⟩

/-- `n` statements of call `i`, one after another. -/
def demoSteps (i n id : ℕ) (raw : String) : List AuthEvent :=
  List.replicate n (.exec i (demoDraw id raw))

end Marketplace
