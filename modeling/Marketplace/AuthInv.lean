import Marketplace.Family

/-!
# What a call of the service knows at each of its statements

The invariant of concurrent calls, in the manner of the checkout's: what a call
has written so far, and the committed rows it has locked. From it follows what
each COMMIT does (`AuthMoves`): a login appends a row, a rotation exchanges one
row for another, a revocation marks rows of one family, a purge deletes expired
entries of the denylist; nothing else changes what is committed.
-/

namespace Marketplace

/-! ## What a call holds -/

section Held

variable (rt : AuthRuntime) (e : Engine AuthDatabase AuthChange AuthLock ℕ) (i : ℕ)
  (request : AuthRequest)

/-- `refresh` has locked the row of its token, which is neither used nor revoked. -/
structure Selected (row : RefreshToken) : Prop where
  held : e.holder (.token row.id) = some i
  committed : Table.lookup RefreshToken.id row.id e.committed.refreshTokens = some row
  request : ∃ rawToken, request = .refresh rawToken ∧ row.tokenHash = rt.hash rawToken
  unused : row.usedAt = none
  live : row.revokedAt = none

/-- The call has inserted a row. -/
structure Issued (next : RefreshToken) : Prop where
  heldHash : e.holder (.tokenHash next.tokenHash) = some i
  heldId : e.holder (.token next.id) = some i
  newHash : next.tokenHash ∉ e.committed.refreshTokens.map RefreshToken.tokenHash
  newId : Table.lookup RefreshToken.id next.id e.committed.refreshTokens = none
  unused : next.usedAt = none

/-- The call has revoked these rows of a family. -/
def Revoking (familyId : String) (ids : List ℕ) : Prop :=
  ∀ id ∈ ids, e.holder (.token id) = some i ∧
    ∃ r, Table.lookup RefreshToken.id id e.committed.refreshTokens = some r ∧
      r.familyId = familyId ∧ r.revokedAt = none

/-- The call has put the token of the user on the denylist, or found it there. -/
def Denying (user : AuthUser) (denied : List DeniedToken) : Prop :=
  denied = [] ∨ (denied = [⟨user.jti, 10 ^ 6 * user.exp⟩] ∧
    e.holder (.denied user.jti) = some i ∧
    Table.lookup DeniedToken.jti user.jti e.committed.accessDenylist = none)

/-- The call has deleted these entries of the denylist, which had expired. -/
def Purging (now : ℤ) (jtis : List String) : Prop :=
  ∀ jti ∈ jtis, e.holder (.denied jti) = some i ∧
    ∃ r, Table.lookup DeniedToken.jti jti e.committed.accessDenylist = some r ∧
      r.expiresAt < now

/-- Why a family is revoked: its used token came again, or its user logs out. -/
def Cause (rows : List RefreshToken) : Revoker → Prop
  | .reuse familyId => ∃ rawToken, request = .refresh rawToken ∧
      ∃ r ∈ rows, r.tokenHash = rt.hash rawToken ∧ r.familyId = familyId ∧ r.usedAt ≠ none
  | .logout user => ∃ token claims, request = .logout token ∧
      rt.verifyJwt token = some claims ∧ user = claims.user

end Held

/-- The changes of a revoking `UPDATE`. -/
def revocations (now : ℤ) (ids : List ℕ) : List AuthChange := ids.map fun id => .setRevoked id now

/-- The changes of an `INSERT` into the denylist. -/
def denials (denied : List DeniedToken) : List AuthChange := denied.map .insertDenied

/-- The changes of a purging `DELETE`. -/
def deletions (jtis : List String) : List AuthChange := jtis.map .deleteDenied

/-- The entries a revocation adds to the denylist. -/
def Denied (e : Engine AuthDatabase AuthChange AuthLock ℕ) (i : ℕ) (denied : List DeniedToken) :
    Revoker → Prop
  | .reuse _ => denied = []
  | .logout user => Denying e i user denied

/-- What a call knows at each program counter. -/
def AuthPcInv (rt : AuthRuntime) (e : Engine AuthDatabase AuthChange AuthLock ℕ) (i : ℕ)
    (request : AuthRequest) (now : ℤ) : AuthPc → Prop
  | .selectUser _ _ | .insertFirst _ _ | .answerLogin _ =>
    e.Quiet i ∧ ∃ email password, request = .login email password
  | .beginRefresh rawToken | .scanToken rawToken | .lockToken rawToken _ =>
    e.Quiet i ∧ request = .refresh rawToken
  | .selectRole row | .markUsed row _ => Selected rt e i request row ∧ e.log i = []
  | .insertNext row _ => Selected rt e i request row ∧ e.log i = [.setUsed row.id now]
  | .commitRotation pair =>
    ∃ row next, Selected rt e i request row ∧ Issued e i next ∧
      next.familyId = row.familyId ∧ next.tokenHash = rt.hash pair.refreshToken ∧
      pair.accessToken.fid = row.familyId ∧ e.log i = [.setUsed row.id now, .insertToken next]
  | .commitRefused => e.log i = []
  | .beginLogout user =>
    e.Quiet i ∧ Cause rt request e.committed.refreshTokens (.logout user)
  | .scanFamily k => e.log i = [] ∧ Cause rt request e.committed.refreshTokens k
  | .revokeRows k _ =>
    Cause rt request e.committed.refreshTokens k ∧
      ∃ ids, Revoking e i k.familyId ids ∧ e.log i = revocations now ids
  | .insertDenied user =>
    Cause rt request e.committed.refreshTokens (.logout user) ∧
      ∃ ids, Revoking e i user.fid ids ∧ e.log i = revocations now ids
  | .commitRevocation k =>
    Cause rt request e.committed.refreshTokens k ∧
      ∃ ids denied, Revoking e i k.familyId ids ∧ Denied e i denied k ∧
        e.log i = revocations now ids ++ denials denied
  | .selectDenied claims =>
    e.Quiet i ∧ ∃ token, request = .authenticate token ∧ rt.verifyJwt token = some claims
  | .scanExpired => e.Quiet i ∧ request = .purgeDenylist
  | .deleteRows _ | .commitPurge =>
    request = .purgeDenylist ∧ ∃ jtis, Purging e i now jtis ∧ e.log i = deletions jtis

/-! ## Stability -/

section Stable

variable {rt : AuthRuntime} {e e' : Engine AuthDatabase AuthChange AuthLock ℕ} {i : ℕ}
  {request : AuthRequest} {now : ℤ}

/-- A locked row of `refresh_tokens` is as it was. -/
theorem Engine.Keeps.token (h : e.Keeps e' i) {id : ℕ} (hl : e.holder (.token id) = some i) :
    Table.lookup RefreshToken.id id e'.committed.refreshTokens
      = Table.lookup RefreshToken.id id e.committed.refreshTokens :=
  h.row _ hl

/-- A locked entry of the unique index is as it was. -/
theorem Engine.Keeps.tokenHash (h : e.Keeps e' i) {hash : String}
    (hl : e.holder (.tokenHash hash) = some i) :
    hash ∈ e'.committed.refreshTokens.map RefreshToken.tokenHash
      ↔ hash ∈ e.committed.refreshTokens.map RefreshToken.tokenHash :=
  decide_eq_decide.mp (h.row _ hl)

/-- A locked entry of the denylist is as it was. -/
theorem Engine.Keeps.denied (h : e.Keeps e' i) {jti : String}
    (hl : e.holder (.denied jti) = some i) :
    Table.lookup DeniedToken.jti jti e'.committed.accessDenylist
      = Table.lookup DeniedToken.jti jti e.committed.accessDenylist :=
  h.row _ hl

theorem Selected.stable {row : RefreshToken} (h : Selected rt e i request row)
    (hk : e.Keeps e' i) : Selected rt e' i request row :=
  { h with
    held := hk.held _ h.held
    committed := (hk.token h.held).trans h.committed }

theorem Issued.stable {next : RefreshToken} (h : Issued e i next) (hk : e.Keeps e' i) :
    Issued e' i next where
  heldHash := hk.held _ h.heldHash
  heldId := hk.held _ h.heldId
  newHash := fun hmem => h.newHash ((hk.tokenHash h.heldHash).mp hmem)
  newId := (hk.token h.heldId).trans h.newId
  unused := h.unused

/-- A row inserted is new among the committed rows. -/
theorem Issued.new {next : RefreshToken} (h : Issued e i next) :
    next.New e.committed.refreshTokens where
  unused := h.unused
  id := Table.lookup_eq_none.mp h.newId
  hash := fun _ hr heq => h.newHash (List.mem_map.mpr ⟨_, hr, heq⟩)

theorem Revoking.stable {familyId : String} {ids : List ℕ} (h : Revoking e i familyId ids)
    (hk : e.Keeps e' i) : Revoking e' i familyId ids := by
  intro id hid
  obtain ⟨hheld, r, hr, hrest⟩ := h id hid
  exact ⟨hk.held _ hheld, r, (hk.token hheld).trans hr, hrest⟩

theorem Denying.stable {user : AuthUser} {denied : List DeniedToken} (h : Denying e i user denied)
    (hk : e.Keeps e' i) : Denying e' i user denied := by
  rcases h with rfl | ⟨rfl, hheld, hnone⟩
  · exact .inl rfl
  · exact .inr ⟨rfl, hk.held _ hheld, (hk.denied hheld).trans hnone⟩

theorem Denied.stable {k : Revoker} {denied : List DeniedToken} (h : Denied e i denied k)
    (hk : e.Keeps e' i) : Denied e' i denied k := by
  cases k with
  | reuse familyId => exact h
  | logout user => exact Denying.stable h hk

theorem Purging.stable {jtis : List String} (h : Purging e i now jtis) (hk : e.Keeps e' i) :
    Purging e' i now jtis := by
  intro jti hjti
  obtain ⟨hheld, r, hr, hlt⟩ := h jti hjti
  exact ⟨hk.held _ hheld, r, (hk.denied hheld).trans hr, hlt⟩

theorem Cause.grow {rows rows' : List RefreshToken} {k : Revoker} (h : Cause rt request rows k)
    (hg : TokensGrow rows rows') : Cause rt request rows' k := by
  cases k with
  | reuse familyId =>
    obtain ⟨rawToken, hreq, r, hr, hhash, hfam, hused⟩ := h
    obtain ⟨r', hr', _, hhash', hfam', hused', _⟩ := hg r hr
    exact ⟨rawToken, hreq, r', hr', hhash'.trans hhash, hfam'.trans hfam, hused' hused⟩
  | logout user => exact h

/-- **What a call knows stays true while others take their steps.** -/
theorem AuthPcInv.stable {pc : AuthPc} (h : AuthPcInv rt e i request now pc)
    (hu : e.Undisturbed e' i)
    (hg : TokensGrow e.committed.refreshTokens e'.committed.refreshTokens) :
    AuthPcInv rt e' i request now pc := by
  have hk := hu.keeps
  cases pc with
  | selectUser email password => exact ⟨hu.quiet h.1, h.2⟩
  | insertFirst userId role => exact ⟨hu.quiet h.1, h.2⟩
  | answerLogin pair => exact ⟨hu.quiet h.1, h.2⟩
  | beginRefresh rawToken => exact ⟨hu.quiet h.1, h.2⟩
  | scanToken rawToken => exact ⟨hu.quiet h.1, h.2⟩
  | lockToken rawToken id => exact ⟨hu.quiet h.1, h.2⟩
  | selectRole row => exact ⟨h.1.stable hk, hu.log.trans h.2⟩
  | markUsed row role => exact ⟨h.1.stable hk, hu.log.trans h.2⟩
  | insertNext row role => exact ⟨h.1.stable hk, hu.log.trans h.2⟩
  | commitRotation pair =>
    obtain ⟨row, next, hrow, hnext, hfam, hhash, hfid, hlog⟩ := h
    exact ⟨row, next, hrow.stable hk, hnext.stable hk, hfam, hhash, hfid, hu.log.trans hlog⟩
  | commitRefused => exact hu.log.trans h
  | beginLogout user => exact ⟨hu.quiet h.1, h.2⟩
  | scanFamily k => exact ⟨hu.log.trans h.1, h.2.grow hg⟩
  | revokeRows k targets =>
    obtain ⟨hcause, ids, hids, hlog⟩ := h
    exact ⟨hcause.grow hg, ids, hids.stable hk, hu.log.trans hlog⟩
  | insertDenied user =>
    obtain ⟨hcause, ids, hids, hlog⟩ := h
    exact ⟨hcause.grow hg, ids, hids.stable hk, hu.log.trans hlog⟩
  | commitRevocation k =>
    obtain ⟨hcause, ids, denied, hids, hdenied, hlog⟩ := h
    exact ⟨hcause.grow hg, ids, denied, hids.stable hk, hdenied.stable hk, hu.log.trans hlog⟩
  | selectDenied claims => exact ⟨hu.quiet h.1, h.2⟩
  | scanExpired => exact ⟨hu.quiet h.1, h.2⟩
  | deleteRows targets =>
    obtain ⟨hreq, jtis, hjtis, hlog⟩ := h
    exact ⟨hreq, jtis, hjtis.stable hk, hu.log.trans hlog⟩
  | commitPurge =>
    obtain ⟨hreq, jtis, hjtis, hlog⟩ := h
    exact ⟨hreq, jtis, hjtis.stable hk, hu.log.trans hlog⟩

end Stable

/-! ## What a step does -/

/-- The entries with these ids are gone. -/
def removeAll (jtis : List String) (rows : List DeniedToken) : List DeniedToken :=
  rows.filter fun r => r.jti ∉ jtis

/-- How one step moves a call on, and what it makes of the committed tables. -/
inductive AuthMoves (rt : AuthRuntime) (families : List String) (c : AuthCall)
    (db : AuthDatabase) :
    AuthPc → AuthStatus → AuthDatabase → Prop
  /-- nothing is committed; a pair is returned by a login only, a user after a
  look at the denylist only, and only a logout that commits is done -/
  | silent {pc : AuthPc} {st : AuthStatus}
    (hpair : ∀ pair rawToken, st = .ended (.pair pair) → c.request ≠ .refresh rawToken)
    (huser : ∀ user, st = .ended (.user user) → ∃ claims, pc = .selectDenied claims ∧
      user = claims.user ∧ Table.lookup DeniedToken.jti claims.jti db.accessDenylist = none) :
    AuthMoves rt families c db pc st db
  | login {userId : String} {role : Role} {pair : TokenPair} {next : RefreshToken}
    (hnew : next.New db.refreshTokens)
    (hfamily : ∀ r ∈ db.refreshTokens, r.familyId ≠ next.familyId)
    (hfresh : next.familyId ∉ families)
    (hrequest : ∃ email password, c.request = .login email password) :
    AuthMoves rt families c db (.insertFirst userId role) (.running (.answerLogin pair))
      { db with refreshTokens := db.refreshTokens ++ [next] }
  | rotation {pair : TokenPair} {st : AuthStatus} {row next : RefreshToken} {now : ℤ}
    {rawToken : String} (hst : st = .ended (.pair pair) ∨ st = .ended .lost)
    (hrequest : c.request = .refresh rawToken) (hhash : row.tokenHash = rt.hash rawToken)
    (hrow : row ∈ db.refreshTokens) (hunused : row.usedAt = none)
    (hlive : row.revokedAt = none) (hnew : next.New db.refreshTokens)
    (hfamily : next.familyId = row.familyId) (hnext : next.tokenHash = rt.hash pair.refreshToken)
    (hfid : pair.accessToken.fid = row.familyId) :
    AuthMoves rt families c db (.commitRotation pair) st
      { db with refreshTokens := exchange row.id now next db.refreshTokens }
  | revocation {k : Revoker} {st : AuthStatus} {ids : List ℕ} {denied : List DeniedToken} {now : ℤ}
    (hst : st = .ended (.thrown .invalidRefreshToken) ∨ st = .ended .done ∨ st = .ended .lost)
    (hcause : Cause rt c.request db.refreshTokens k)
    (hids : ∀ id ∈ ids, ∃ r ∈ db.refreshTokens, r.id = id ∧ r.familyId = k.familyId ∧
      r.revokedAt = none)
    (hdenied : denied = [] ∨ ∃ user, k = .logout user ∧
      denied = [⟨user.jti, 10 ^ 6 * user.exp⟩]) :
    AuthMoves rt families c db (.commitRevocation k) st
      { db with
        refreshTokens := revokeAll ids now db.refreshTokens
        accessDenylist := db.accessDenylist ++ denied }
  | purge {st : AuthStatus} {jtis : List String}
    (hst : st = .ended .done ∨ st = .ended .lost) (hrequest : c.request = .purgeDenylist)
    (hjtis : ∀ jti ∈ jtis, ∃ r, Table.lookup DeniedToken.jti jti db.accessDenylist = some r ∧
      r.expiresAt < c.now) :
    AuthMoves rt families c db .commitPurge st
      { db with accessDenylist := removeAll jtis db.accessDenylist }

/-- The refresh tokens take one of their steps. -/
theorem AuthMoves.tokenStep {rt : AuthRuntime} {families : List String} {c : AuthCall}
    {db db' : AuthDatabase} {pc : AuthPc} {st : AuthStatus}
    (h : AuthMoves rt families c db pc st db') :
    TokenStep db.refreshTokens db'.refreshTokens := by
  cases h with
  | silent hpair huser => exact .same
  | login hnew hfamily hfresh hrequest => exact .login hnew hfamily
  | rotation hst hrequest hhash hrow hunused hlive hnew hfamily hnext hfid =>
    exact .rotate hrow hunused hlive hnew hfamily
  | revocation hst hcause hids hdenied => exact .revoke hids
  | purge hst hrequest hjtis => exact .same

/-- A user is returned after a look at the denylist that found nothing. -/
theorem AuthMoves.user_asked {rt : AuthRuntime} {families : List String} {c : AuthCall}
    {db db' : AuthDatabase} {pc : AuthPc} {user : AuthUser}
    (h : AuthMoves rt families c db pc (.ended (.user user)) db') :
    ∃ claims, pc = .selectDenied claims ∧ user = claims.user ∧
      Table.lookup DeniedToken.jti claims.jti db.accessDenylist = none := by
  cases h with
  | silent hpair huser => exact huser user rfl
  | rotation hst hrequest hhash hrow hunused hlive hnew hfamily hnext hfid =>
    rcases hst with hst | hst
    · cases hst
    · cases hst
  | revocation hst hcause hids hdenied =>
    rcases hst with hst | hst | hst
    · cases hst
    · cases hst
    · cases hst
  | purge hst hrequest hjtis =>
    rcases hst with hst | hst
    · cases hst
    · cases hst

/-! ## The invariant -/

/-- A call that is not running has nothing open. -/
def AuthCallInv (rt : AuthRuntime) (e : Engine AuthDatabase AuthChange AuthLock ℕ) (i : ℕ) :
    Option AuthCall → Prop
  | some ⟨request, now, .running pc⟩ => AuthPcInv rt e i request now pc
  | _ => e.Quiet i

/-- What concurrent calls of the service keep. -/
structure AuthState.Inv (rt : AuthRuntime) (s : AuthState) : Prop where
  locked : s.db.WellLocked
  wellFormed : s.db.committed.WellFormed
  call : ∀ i, AuthCallInv rt s.db i (s.calls i)
  families : ∀ r ∈ s.db.committed.refreshTokens, r.familyId ∈ s.families
  brought : ∀ i c f, s.calls i = some c → f ∈ c.request.families rt → f ∈ s.families
  clocks : s.dbUs / 1000 ≤ s.appMs
  now : ∀ i c, s.calls i = some c → c.now ≤ s.dbUs

theorem AuthCallInv.stable {rt : AuthRuntime} {e e' : Engine AuthDatabase AuthChange AuthLock ℕ}
    {i : ℕ} {c : Option AuthCall} (h : AuthCallInv rt e i c) (hu : e.Undisturbed e' i)
    (hg : TokensGrow e.committed.refreshTokens e'.committed.refreshTokens) :
    AuthCallInv rt e' i c := by
  rcases c with _ | ⟨request, now, pc | o⟩
  · exact hu.quiet h
  · exact AuthPcInv.stable h hu hg
  · exact hu.quiet h

namespace AuthState

variable {rt : AuthRuntime} {s s' : AuthState} {i : ℕ} {request : AuthRequest} {now : ℤ}

/-- The service before the first call keeps it. -/
theorem Start.inv (h : s.Start) : s.Inv rt where
  locked := by
    rw [h.idle]
    exact Engine.wellLocked_idle _
  wellFormed := h.wellFormed
  call := by
    intro i
    rw [h.calls i, h.idle]
    exact Engine.quiet_idle _ _
  families := h.families
  brought := by
    intro i c f hc
    rw [h.calls i] at hc
    cases hc
  clocks := h.clocks
  now := by
    intro i c hc
    rw [h.calls i] at hc
    cases hc

theorem Inv.running (h : s.Inv rt) {pc : AuthPc}
    (hc : s.calls i = some ⟨request, now, .running pc⟩) :
    AuthPcInv rt s.db i request now pc := by
  have := h.call i
  rwa [hc] at this

/-- What one step of a running call does: it keeps the invariant, leaves the other
transactions and the clocks alone and moves the call on. -/
structure Took (rt : AuthRuntime) (s s' : AuthState) (i : ℕ) (c : AuthCall) (pc : AuthPc) :
    Prop where
  inv : s'.Inv rt
  others : ∀ j, j ≠ i → Engine.Undisturbed s.db s'.db j
  clocks : s'.appMs = s.appMs ∧ s'.dbUs = s.dbUs
  families : ∀ f ∈ s.families, f ∈ s'.families
  moves : ∃ c', c'.request = c.request ∧
    s'.calls = Function.update s.calls i (some c') ∧
    AuthMoves rt s.families c s.db.committed pc c'.status s'.db.committed

variable {pc pc' : AuthPc} {c c' : AuthCall}

/-- A step of call `i` keeps the invariant if it keeps it for call `i` and does
not disturb the others. -/
theorem Inv.took (h : s.Inv rt) (hc : s.calls i = some c)
    (hcalls : s'.calls = Function.update s.calls i (some c')) (hrequest : c'.request = c.request)
    (hnow : c'.now = c.now ∨ c'.now = s.dbUs)
    (hlocked : s'.db.WellLocked) (hothers : ∀ j, j ≠ i → Engine.Undisturbed s.db s'.db j)
    (hself : AuthCallInv rt s'.db i (some c'))
    (hclocks : s'.appMs = s.appMs ∧ s'.dbUs = s.dbUs) (hgrow : ∀ f ∈ s.families, f ∈ s'.families)
    (hfamilies : ∀ r ∈ s'.db.committed.refreshTokens, r.familyId ∈ s'.families)
    (hm : AuthMoves rt s.families c s.db.committed pc c'.status s'.db.committed) :
    Took rt s s' i c pc := by
  -- the other calls hold what they held, and rows are only ever added or marked
  have hstep := hm.tokenStep
  refine ⟨⟨hlocked, h.wellFormed.tokenStep hstep, ?_, hfamilies, ?_, ?_, ?_⟩, hothers, hclocks,
    hgrow, c', hrequest, hcalls, hm⟩
  · rw [hcalls]
    exact (Function.forall_update_iff s.calls fun j c => AuthCallInv rt s'.db j c).mpr
      ⟨hself, fun j hji => (h.call j).stable (hothers j hji) hstep.grow⟩
  · intro j d f hd hf
    rw [hcalls] at hd
    rcases Slots.found_cases_some hd with ⟨rfl, rfl⟩ | ⟨-, hold⟩
    · rw [hrequest] at hf
      exact hgrow f (h.brought j c f hc hf)
    · exact hgrow f (h.brought j d f hold hf)
  · rw [hclocks.1, hclocks.2]
    exact h.clocks
  · intro j d hd
    rw [hclocks.2]
    rw [hcalls] at hd
    rcases Slots.found_cases_some hd with ⟨rfl, rfl⟩ | ⟨-, hold⟩
    · rcases hnow with hnow | hnow
      · rw [hnow]
        exact h.now j c hc
      · exact Int.le_of_eq hnow
    · exact h.now j d hold

end AuthState

end Marketplace
