import Marketplace.AuthInv

/-!
# Every statement of the service keeps the invariant

One lemma for each statement, as for the checkout: what it reads, and why the
call then knows what the next program counter says. `AuthState.Inv.step` puts
them together; the properties of the service are read off its conclusion.
-/

namespace Marketplace

variable {rt : AuthRuntime}

/-! ## What a transaction has written -/

/-- A revoking `UPDATE` marks the rows it has visited. -/
theorem foldl_revocations (now : ℤ) (ids : List ℕ) (db : AuthDatabase) :
    (revocations now ids).foldl AuthDatabase.redo db
      = { db with refreshTokens := revokeAll ids now db.refreshTokens } := by
  induction ids generalizing db with
  | nil => simp [revocations, revokeAll]
  | cons id ids ih =>
    have hrows : revokeAll ids now
        (Table.modify RefreshToken.id id (RefreshToken.revoke now) db.refreshTokens)
          = revokeAll (id :: ids) now db.refreshTokens := by
      unfold revokeAll Table.modify
      rw [List.map_map]
      refine List.map_congr_left fun r _ => ?_
      simp only [Function.comp_apply, List.mem_cons]
      by_cases hid : r.id = id
      · by_cases hmem : id ∈ ids
        · simp [hid, hmem, RefreshToken.revoke]
        · simp [hid, hmem, RefreshToken.revoke]
      · simp [hid]
    rw [revocations, List.map_cons, List.foldl_cons]
    refine (ih _).trans ?_
    simp only [AuthDatabase.redo, hrows]

theorem foldl_denials (denied : List DeniedToken) (db : AuthDatabase) :
    (denials denied).foldl AuthDatabase.redo db
      = { db with accessDenylist := db.accessDenylist ++ denied } := by
  induction denied generalizing db with
  | nil => simp [denials]
  | cons row rows ih =>
    rw [denials, List.map_cons, List.foldl_cons]
    refine (ih _).trans ?_
    simp only [AuthDatabase.redo, List.append_assoc, List.singleton_append]

/-- A purging `DELETE` removes the rows it has visited. -/
theorem foldl_deletions (jtis : List String) (db : AuthDatabase) :
    (deletions jtis).foldl AuthDatabase.redo db
      = { db with accessDenylist := removeAll jtis db.accessDenylist } := by
  induction jtis generalizing db with
  | nil => simp [deletions, removeAll]
  | cons jti jtis ih =>
    have hrows : removeAll jtis (Table.remove DeniedToken.jti jti db.accessDenylist)
        = removeAll (jti :: jtis) db.accessDenylist := by
      unfold removeAll Table.remove
      rw [List.filter_filter]
      refine List.filter_congr fun r _ => ?_
      simp [not_or, Bool.and_comm]
    rw [deletions, List.map_cons, List.foldl_cons]
    refine (ih _).trans ?_
    simp only [AuthDatabase.redo, hrows]

/-! ## What statements read -/

namespace AuthState

variable {s s' : AuthState} {i : ℕ} {request : AuthRequest} {now : ℤ} {d : AuthDraw}

theorem view_of_log {cs : List AuthChange} (hlog : s.db.log i = cs) :
    s.view i = cs.foldl AuthDatabase.redo s.db.committed := by
  rw [view, Engine.view, hlog]
  rfl

/-- With nothing written, a call reads what is committed. -/
theorem view_of_nil (hlog : s.db.log i = []) : s.view i = s.db.committed :=
  view_of_log hlog

/-- A row that can still be revoked in the view is so in the committed state, and
has not been visited. -/
theorem lookup_revocable {ids : List ℕ} {id : ℕ} {familyId : String} {r : RefreshToken}
    (hlog : s.db.log i = revocations now ids)
    (h : (Table.lookup RefreshToken.id id (s.view i).refreshTokens).filter (revocable familyId)
      = some r) :
    Table.lookup RefreshToken.id id s.db.committed.refreshTokens = some r ∧
      r.familyId = familyId ∧ r.revokedAt = none := by
  obtain ⟨hlookup, hrev⟩ := Option.filter_eq_some_iff.mp h
  obtain ⟨hfam, hnone⟩ := of_decide_eq_true hrev
  have hkey : ∀ r : RefreshToken, (if r.id ∈ ids then r.revoke now else r).id = r.id := by
    intro r
    split_ifs
    · rfl
    · rfl
  rw [view_of_log hlog, foldl_revocations] at hlookup
  change Table.lookup RefreshToken.id id (revokeAll ids now s.db.committed.refreshTokens) = _
    at hlookup
  rw [revokeAll, Table.lookup_map hkey] at hlookup
  obtain ⟨r₀, hr₀, rfl⟩ := Option.map_eq_some_iff.mp hlookup
  by_cases hmem : r₀.id ∈ ids
  · rw [if_pos hmem] at hnone
    cases hnone
  · rw [if_neg hmem] at hfam hnone ⊢
    exact ⟨hr₀, hfam, hnone⟩

/-- An entry still in the view is in the committed denylist. -/
theorem lookup_purgeable {jtis : List String} {jti : String} {p : DeniedToken → Bool}
    {r : DeniedToken} (hlog : s.db.log i = deletions jtis)
    (h : (Table.lookup DeniedToken.jti jti (s.view i).accessDenylist).filter p = some r) :
    Table.lookup DeniedToken.jti jti s.db.committed.accessDenylist = some r ∧ p r = true := by
  obtain ⟨hlookup, hp⟩ := Option.filter_eq_some_iff.mp h
  rw [view_of_log hlog, foldl_deletions] at hlookup
  have hfilter : Table.lookup DeniedToken.jti jti (removeAll jtis s.db.committed.accessDenylist)
      = if decide (jti ∉ jtis) then
          Table.lookup DeniedToken.jti jti s.db.committed.accessDenylist else none :=
    Table.lookup_filter (p := fun j => decide (j ∉ jtis))
  rw [hfilter] at hlookup
  split_ifs at hlookup
  exact ⟨hlookup, hp⟩

/-! ## Forms of steps -/

variable {pc pc' : AuthPc} {n : ℤ} {o : AuthOutcome}

/-- A step that commits nothing. -/
theorem Inv.silent (h : s.Inv rt) {c c' : AuthCall} (hc : s.calls i = some c)
    (hcalls : s'.calls = Function.update s.calls i (some c')) (hrequest : c'.request = c.request)
    (hnow : c'.now = c.now ∨ c'.now = s.dbUs)
    (hcommitted : s'.db.committed = s.db.committed) (hlocked : s'.db.WellLocked)
    (hothers : ∀ j, j ≠ i → Engine.Undisturbed s.db s'.db j)
    (hself : AuthCallInv rt s'.db i (some c'))
    (hclocks : s'.appMs = s.appMs ∧ s'.dbUs = s.dbUs) (hfamilies : s'.families = s.families)
    (hpair : ∀ pair rawToken, c'.status = .ended (.pair pair) → c.request ≠ .refresh rawToken)
    (huser : ∀ user, c'.status = .ended (.user user) → ∃ claims, pc = .selectDenied claims ∧
      user = claims.user ∧
        Table.lookup DeniedToken.jti claims.jti s.db.committed.accessDenylist = none) :
    Took rt s s' i c pc := by
  refine h.took hc hcalls hrequest hnow hlocked hothers hself hclocks ?_ ?_ ?_
  · rw [hfamilies]
    exact fun _ hf => hf
  · rw [hcommitted, hfamilies]
    exact h.families
  · rw [hcommitted]
    exact .silent hpair huser

/-- Going on without touching the database. -/
theorem Inv.goto (h : s.Inv rt) (hc : s.calls i = some ⟨request, now, .running pc⟩)
    (hn : n = now ∨ n = s.dbUs) (hpc : AuthPcInv rt s.db i request n pc') :
    Took rt s (s.setCall i ⟨request, n, .running pc'⟩) i ⟨request, now, .running pc⟩ pc :=
  h.silent hc rfl rfl hn rfl h.locked (fun _ _ => .refl _ _) hpc ⟨rfl, rfl⟩ rfl
    (fun _ _ hst => by cases hst) (fun _ hst => by cases hst)

/-- Locking a row. -/
theorem Inv.lock (h : s.Inv rt) (hc : s.calls i = some ⟨request, now, .running pc⟩)
    {l : AuthLock} (hfree : s.free i l = true)
    (hpc : AuthPcInv rt (s.db.acquire i l) i request now pc') :
    Took rt s ((s.lock i l).setCall i ⟨request, now, .running pc'⟩) i
      ⟨request, now, .running pc⟩ pc :=
  h.silent hc rfl rfl (.inl rfl) rfl (h.locked.acquire hfree)
    (fun _ hne => Engine.undisturbed_acquire hfree hne) hpc ⟨rfl, rfl⟩ rfl
    (fun _ _ hst => by cases hst) (fun _ hst => by cases hst)

/-- Writing a row that is locked. -/
theorem Inv.write (h : s.Inv rt) (hc : s.calls i = some ⟨request, now, .running pc⟩)
    {ch : AuthChange} (hheld : ∀ l, ch.Touches l → s.db.holder l = some i)
    (hpc : AuthPcInv rt (s.db.write i ch) i request now pc') :
    Took rt s ((s.write i ch).setCall i ⟨request, now, .running pc'⟩) i
      ⟨request, now, .running pc⟩ pc :=
  h.silent hc rfl rfl (.inl rfl) rfl (h.locked.write hheld)
    (fun _ hne => Engine.undisturbed_write _ _ hne) hpc ⟨rfl, rfl⟩ rfl
    (fun _ _ hst => by cases hst) (fun _ hst => by cases hst)

/-- Locking a row and writing it. -/
theorem Inv.lockWrite (h : s.Inv rt) (hc : s.calls i = some ⟨request, now, .running pc⟩)
    {l : AuthLock} {ch : AuthChange} (hfree : s.free i l = true)
    (htouches : ∀ l', ch.Touches l' → l' = l)
    (hpc : AuthPcInv rt ((s.db.acquire i l).write i ch) i request now pc') :
    Took rt s (((s.lock i l).write i ch).setCall i ⟨request, now, .running pc'⟩) i
      ⟨request, now, .running pc⟩ pc := by
  have hheld : ∀ l', ch.Touches l' → (s.db.acquire i l).holder l' = some i := by
    intro l' hl'
    rw [htouches l' hl']
    exact Engine.acquire_holder_self ..
  exact h.silent hc rfl rfl (.inl rfl) rfl ((h.locked.acquire hfree).write hheld)
    (fun _ hne => (Engine.undisturbed_acquire hfree hne).trans (Engine.undisturbed_write _ _ hne))
    hpc ⟨rfl, rfl⟩ rfl (fun _ _ hst => by cases hst) (fun _ hst => by cases hst)

/-- Ending with ROLLBACK. -/
theorem Inv.abort (h : s.Inv rt) (hc : s.calls i = some ⟨request, now, .running pc⟩)
    (hpair : ∀ pair, o ≠ .pair pair) (huser : ∀ user, o ≠ .user user) :
    Took rt s (s.abort i ⟨request, now, .running pc⟩ o) i ⟨request, now, .running pc⟩ pc :=
  h.silent hc rfl rfl (.inl rfl) rfl (h.locked.abort _)
    (fun _ hne => Engine.undisturbed_abort _ hne) (Engine.quiet_abort _ _) ⟨rfl, rfl⟩ rfl
    (fun pair _ hst => absurd (AuthStatus.ended.inj hst) (hpair pair))
    (fun user hst => absurd (AuthStatus.ended.inj hst) (huser user))

/-- Ending with an exception. -/
theorem Inv.throw (h : s.Inv rt) (hc : s.calls i = some ⟨request, now, .running pc⟩)
    {e : AuthError} :
    Took rt s (s.abort i ⟨request, now, .running pc⟩ (.thrown e)) i
      ⟨request, now, .running pc⟩ pc :=
  h.abort hc (fun _ ho => by cases ho) (fun _ ho => by cases ho)

/-- Ending with nothing open. -/
theorem Inv.finish (h : s.Inv rt) (hc : s.calls i = some ⟨request, now, .running pc⟩)
    (hquiet : s.db.Quiet i)
    (hpair : ∀ pair rawToken, o = .pair pair → request ≠ .refresh rawToken)
    (huser : ∀ user, o = .user user → ∃ claims, pc = .selectDenied claims ∧ user = claims.user ∧
      Table.lookup DeniedToken.jti claims.jti s.db.committed.accessDenylist = none) :
    Took rt s (s.finish i ⟨request, now, .running pc⟩ o) i ⟨request, now, .running pc⟩ pc :=
  h.silent hc rfl rfl (.inl rfl) rfl h.locked (fun _ _ => .refl _ _) hquiet ⟨rfl, rfl⟩ rfl
    (fun pair rawToken hst => hpair pair rawToken (AuthStatus.ended.inj hst))
    (fun user hst => huser user (AuthStatus.ended.inj hst))

/-- Ending with COMMIT. -/
theorem Inv.commit (h : s.Inv rt) (hc : s.calls i = some ⟨request, now, .running pc⟩)
    (hfamilies : ∀ r ∈ (s.view i).refreshTokens, r.familyId ∈ s.families)
    (hm : AuthMoves rt s.families ⟨request, now, .running pc⟩ s.db.committed pc (.ended o)
      (s.view i)) :
    Took rt s ((s.commit i).finish i ⟨request, now, .running pc⟩ o) i
      ⟨request, now, .running pc⟩ pc :=
  h.took hc rfl rfl (.inl rfl) (h.locked.commit _)
    (fun _ hne => Engine.undisturbed_commit h.locked hne) (Engine.quiet_commit _ _) ⟨rfl, rfl⟩
    (fun _ hf => hf) hfamilies hm

/-! ## The statements of `login` -/

theorem Inv.selectUser (h : s.Inv rt) {email password : String}
    (hc : s.calls i = some ⟨request, now, .running (.selectUser email password)⟩)
    (hs : s.exec rt i ⟨request, now, .running (.selectUser email password)⟩ d
      (.selectUser email password) = some s') :
    Took rt s s' i ⟨request, now, .running (.selectUser email password)⟩
      (.selectUser email password) := by
  obtain ⟨hquiet, hrequest⟩ := h.running hc
  simp only [exec] at hs
  rcases hu : Table.lookup Account.email email (s.view i).users with _ | user
  · rw [hu] at hs
    obtain rfl := Option.some.inj hs
    exact h.throw hc
  · simp only [hu] at hs
    split_ifs at hs
    · obtain rfl := Option.some.inj hs
      exact h.goto hc (.inl rfl) ⟨hquiet, hrequest⟩
    · obtain rfl := Option.some.inj hs
      exact h.throw hc

/-- What the locks of an `INSERT` into `refresh_tokens` say. -/
theorem insertable_iff {row : RefreshToken} (h : s.insertable i row = true) :
    s.db.free i (.tokenHash row.tokenHash) = true ∧ s.db.free i (.token row.id) = true ∧
      ∀ r ∈ (s.view i).refreshTokens, r.id ≠ row.id := by
  obtain ⟨h, hid⟩ := Bool.and_eq_true_iff.mp h
  obtain ⟨hhash, htoken⟩ := Bool.and_eq_true_iff.mp h
  exact ⟨hhash, htoken, of_decide_eq_true hid⟩

/-- Both locks of an `INSERT` are free one after the other. -/
theorem free_token {row : RefreshToken} (h : s.db.free i (.token row.id) = true) :
    (s.db.acquire i (.tokenHash row.tokenHash)).free i (.token row.id) = true := by
  rw [Engine.free_iff] at h ⊢
  rw [Engine.acquire_holder_ne _ _ (by simp)]
  exact h

theorem insert_log {row : RefreshToken} :
    (s.insertToken i row).db.log i = s.db.log i ++ [.insertToken row] :=
  Engine.write_log_self ..

/-- An `INSERT` into `refresh_tokens` disturbs nobody. -/
theorem undisturbed_insert {row : RefreshToken} (hins : s.insertable i row = true) {j : ℕ}
    (hne : j ≠ i) : s.db.Undisturbed (s.insertToken i row).db j := by
  obtain ⟨hhash, htoken, _⟩ := insertable_iff hins
  exact ((Engine.undisturbed_acquire hhash hne).trans
    (Engine.undisturbed_acquire (free_token htoken) hne)).trans (Engine.undisturbed_write _ _ hne)

theorem keeps_insert {row : RefreshToken} (hins : s.insertable i row = true) :
    s.db.Keeps (s.insertToken i row).db i := by
  obtain ⟨hhash, htoken, _⟩ := insertable_iff hins
  exact ((Engine.keeps_acquire hhash).trans (Engine.keeps_acquire (free_token htoken))).trans
    (Engine.keeps_write ..)

theorem wellLocked_insert {row : RefreshToken} (h : s.db.WellLocked)
    (hins : s.insertable i row = true) : (s.insertToken i row).db.WellLocked := by
  obtain ⟨hhash, htoken, _⟩ := insertable_iff hins
  refine ((h.acquire hhash).acquire (free_token htoken)).write ?_
  rintro l (rfl | rfl)
  · exact Engine.acquire_holder_self ..
  · rw [Engine.acquire_holder_ne _ _ (by simp)]
    exact Engine.acquire_holder_self ..

/-- The row of a successful `INSERT` is new among the committed rows, if the call
has changed no keys. -/
theorem issued_insert {row : RefreshToken} (hins : s.insertable i row = true)
    (hdup : s.duplicate i row = false) (hunused : row.usedAt = none)
    (hids : (s.view i).refreshTokens.map RefreshToken.id
      = s.db.committed.refreshTokens.map RefreshToken.id)
    (hhashes : (s.view i).refreshTokens.map RefreshToken.tokenHash
      = s.db.committed.refreshTokens.map RefreshToken.tokenHash) :
    Issued (s.insertToken i row).db i row where
  heldHash := by
    have hne : AuthLock.tokenHash row.tokenHash ≠ .token row.id := by simp
    exact (Engine.acquire_holder_ne (s.db.acquire i (.tokenHash row.tokenHash)) i hne).trans
      (Engine.acquire_holder_self ..)
  heldId := Engine.acquire_holder_self ..
  newHash := by
    have := of_decide_eq_false hdup
    rwa [hhashes] at this
  newId := by
    rw [Table.lookup_eq_none]
    intro r hr hid
    have hmem : r.id ∈ (s.view i).refreshTokens.map RefreshToken.id := by
      rw [hids]
      exact List.mem_map.mpr ⟨r, hr, rfl⟩
    obtain ⟨r', hr', heq⟩ := List.mem_map.mp hmem
    exact (insertable_iff hins).2.2 r' hr' (heq.trans hid)
  unused := hunused

theorem Inv.insertFirst (h : s.Inv rt) {userId : String} {role : Role}
    (hc : s.calls i = some ⟨request, now, .running (.insertFirst userId role)⟩)
    (hs : s.exec rt i ⟨request, now, .running (.insertFirst userId role)⟩ d
      (.insertFirst userId role) = some s') :
    Took rt s s' i ⟨request, now, .running (.insertFirst userId role)⟩
      (.insertFirst userId role) := by
  obtain ⟨hquiet, hrequest⟩ := h.running hc
  have hview : s.view i = s.db.committed := hquiet.view
  set next := newToken rt s.dbUs userId d.familyId d with hnext
  simp only [exec, ← hnext] at hs
  split_ifs at hs with hnew hdup
  · obtain rfl := Option.some.inj hs
    exact h.throw hc
  · obtain ⟨hins, hfresh⟩ := Bool.and_eq_true_iff.mp hnew
    obtain rfl := Option.some.inj hs
    have hissued : Issued (s.insertToken i next).db i next :=
      issued_insert hins (Bool.not_eq_true _ ▸ hdup) rfl (by rw [hview]) (by rw [hview])
    have hlog : (s.insertToken i next).db.log i = [.insertToken next] := by
      rw [insert_log, hquiet.1]
      rfl
    have hcommitted : ((s.insertToken i next).db.commit i).committed
        = { s.db.committed with
            refreshTokens := s.db.committed.refreshTokens ++ [next] } := by
      rw [Engine.commit_committed, Engine.view, hlog]
      rfl
    have hunknown : ∀ r ∈ s.db.committed.refreshTokens, r.familyId ≠ next.familyId := by
      intro r hr heq
      have heq' : r.familyId = d.familyId := heq
      exact of_decide_eq_true hfresh (heq' ▸ h.families r hr)
    refine h.took hc rfl rfl (.inl rfl) ((wellLocked_insert h.locked hins).commit i) ?_ ?_
      ⟨rfl, rfl⟩ (fun f hf => List.mem_cons_of_mem _ hf) ?_ ?_
    · exact fun j hne => (undisturbed_insert hins hne).trans
        (Engine.undisturbed_commit (wellLocked_insert h.locked hins) hne)
    · exact ⟨Engine.quiet_commit _ _, hrequest⟩
    · change ∀ r ∈ ((s.insertToken i next).db.commit i).committed.refreshTokens, _
      rw [hcommitted]
      intro r hr
      rcases List.mem_append.mp hr with hr | hr
      · exact List.mem_cons_of_mem _ (h.families r hr)
      · obtain rfl := List.mem_singleton.mp hr
        exact List.mem_cons_self ..
    · change AuthMoves rt _ _ _ _ _ ((s.insertToken i next).db.commit i).committed
      rw [hcommitted]
      exact .login hissued.new hunknown (of_decide_eq_true hfresh) hrequest

/-! ## The statements of `refresh` -/

theorem Inv.scanToken (h : s.Inv rt) {rawToken : String}
    (hc : s.calls i = some ⟨request, now, .running (.scanToken rawToken)⟩)
    (hs : s.exec rt i ⟨request, now, .running (.scanToken rawToken)⟩ d (.scanToken rawToken)
      = some s') :
    Took rt s s' i ⟨request, now, .running (.scanToken rawToken)⟩ (.scanToken rawToken) := by
  obtain ⟨hquiet, hrequest⟩ := h.running hc
  simp only [exec] at hs
  split at hs
  · obtain rfl := Option.some.inj hs
    exact h.goto hc (.inl rfl) hquiet.1
  · obtain rfl := Option.some.inj hs
    exact h.goto hc (.inl rfl) ⟨hquiet, hrequest⟩

theorem Inv.lockToken (h : s.Inv rt) {rawToken : String} {id : ℕ}
    (hc : s.calls i = some ⟨request, now, .running (.lockToken rawToken id)⟩)
    (hs : s.exec rt i ⟨request, now, .running (.lockToken rawToken id)⟩ d
      (.lockToken rawToken id) = some s') :
    Took rt s s' i ⟨request, now, .running (.lockToken rawToken id)⟩
      (.lockToken rawToken id) := by
  obtain ⟨hquiet, hrequest⟩ := h.running hc
  have hview : s.view i = s.db.committed := hquiet.view
  simp only [exec, hview] at hs
  split_ifs at hs with hfree
  rcases hrow : (Table.lookup RefreshToken.id id s.db.committed.refreshTokens).filter
      (·.tokenHash = rt.hash rawToken) with _ | row
  · rw [hrow] at hs
    obtain rfl := Option.some.inj hs
    exact h.goto hc (.inl rfl) hquiet.1
  · obtain ⟨hlookup, hhash⟩ := Option.filter_eq_some_iff.mp hrow
    have hhash : row.tokenHash = rt.hash rawToken := of_decide_eq_true hhash
    have hid : row.id = id := Table.key_of_lookup hlookup
    have hlog : (s.db.acquire i (.token id)).log i = [] := hquiet.1
    simp only [hrow] at hs
    -- a revoked row is refused, a used one begins a revocation, an expired one is refused
    split_ifs at hs with hrevoked hused hexpired
    · obtain rfl := Option.some.inj hs
      exact h.lock hc hfree hlog
    · obtain rfl := Option.some.inj hs
      exact h.lock hc hfree ⟨hlog, rawToken, hrequest, row, Table.mem_of_lookup hlookup, hhash, rfl,
        hused⟩
    · obtain rfl := Option.some.inj hs
      exact h.lock hc hfree hlog
    · obtain rfl := Option.some.inj hs
      subst hid
      exact h.lock hc hfree ⟨⟨Engine.acquire_holder_self .., hlookup, ⟨rawToken, hrequest, hhash⟩,
        not_not.mp hused, not_not.mp hrevoked⟩, hlog⟩

theorem Inv.selectRole (h : s.Inv rt) {row : RefreshToken}
    (hc : s.calls i = some ⟨request, now, .running (.selectRole row)⟩)
    (hs : s.exec rt i ⟨request, now, .running (.selectRole row)⟩ d (.selectRole row)
      = some s') :
    Took rt s s' i ⟨request, now, .running (.selectRole row)⟩ (.selectRole row) := by
  obtain ⟨hrow, hlog⟩ := h.running hc
  simp only [exec] at hs
  split at hs
  · obtain rfl := Option.some.inj hs
    exact h.goto hc (.inl rfl) hlog
  · obtain rfl := Option.some.inj hs
    exact h.goto hc (.inl rfl) ⟨hrow, hlog⟩

theorem Inv.markUsed (h : s.Inv rt) {row : RefreshToken} {role : Role}
    (hc : s.calls i = some ⟨request, now, .running (.markUsed row role)⟩)
    (hs : s.exec rt i ⟨request, now, .running (.markUsed row role)⟩ d (.markUsed row role)
      = some s') :
    Took rt s s' i ⟨request, now, .running (.markUsed row role)⟩ (.markUsed row role) := by
  obtain ⟨hrow, hlog⟩ := h.running hc
  obtain rfl := Option.some.inj hs
  refine h.write hc ?_ ⟨hrow.stable (Engine.keeps_write ..), ?_⟩
  · rintro l rfl
    exact hrow.held
  · rw [Engine.write_log_self, hlog]
    rfl

theorem Inv.insertNext (h : s.Inv rt) {row : RefreshToken} {role : Role}
    (hc : s.calls i = some ⟨request, now, .running (.insertNext row role)⟩)
    (hs : s.exec rt i ⟨request, now, .running (.insertNext row role)⟩ d (.insertNext row role)
      = some s') :
    Took rt s s' i ⟨request, now, .running (.insertNext row role)⟩ (.insertNext row role) := by
  obtain ⟨hrow, hlog⟩ := h.running hc
  set next := newToken rt now row.userId row.familyId d with hnext
  simp only [exec, ← hnext] at hs
  split_ifs at hs with hins hdup
  · obtain rfl := Option.some.inj hs
    exact h.throw hc
  · obtain rfl := Option.some.inj hs
    have hview := view_of_log hlog
    have hissued : Issued (s.insertToken i next).db i next := by
      -- marking the old row as used has changed no id and no hash
      refine issued_insert hins (Bool.not_eq_true _ ▸ hdup) rfl ?_ ?_
      · rw [hview]
        exact Table.map_modify fun _ => rfl
      · rw [hview]
        exact Table.map_modify fun _ => rfl
    refine h.silent hc rfl rfl (.inl rfl) rfl (wellLocked_insert h.locked hins)
      (fun _ hne => undisturbed_insert hins hne) ?_ ⟨rfl, rfl⟩ rfl
      (fun _ _ hst => by cases hst) (fun _ hst => by cases hst)
    refine ⟨row, next, hrow.stable (keeps_insert hins), hissued, rfl, rfl, rfl, ?_⟩
    refine insert_log.trans ?_
    rw [hlog]
    rfl

/-- What COMMIT of a rotation does. -/
theorem Inv.commitRotation (h : s.Inv rt) {pair : TokenPair}
    (hc : s.calls i = some ⟨request, now, .running (.commitRotation pair)⟩)
    (ho : o = .pair pair ∨ o = .lost) :
    Took rt s ((s.commit i).finish i ⟨request, now, .running (.commitRotation pair)⟩ o) i
      ⟨request, now, .running (.commitRotation pair)⟩ (.commitRotation pair) := by
  obtain ⟨row, next, hrow, hnext, hfam, hhash, hfid, hlog⟩ := h.running hc
  obtain ⟨rawToken, hrequest, hrowhash⟩ := hrow.request
  have hmem : row ∈ s.db.committed.refreshTokens := Table.mem_of_lookup hrow.committed
  have hview : s.view i = { s.db.committed with
      refreshTokens := exchange row.id now next s.db.committed.refreshTokens } :=
    view_of_log hlog
  refine h.commit hc ?_ ?_
  · rw [hview]
    intro r hr
    -- an old row, used or not, or the successor, which is of the family of the used one
    rcases List.mem_append.mp hr with hr | hr
    · obtain ⟨r₀, hr₀, rfl⟩ := Table.mem_modify.mp hr
      have hfamily : (if r₀.id = row.id then r₀.use now else r₀).familyId = r₀.familyId := by
        split_ifs
        · rfl
        · rfl
      rw [hfamily]
      exact h.families r₀ hr₀
    · obtain rfl := List.mem_singleton.mp hr
      rw [hfam]
      exact h.families row hmem
  · rw [hview]
    refine .rotation ?_ hrequest hrowhash hmem hrow.unused hrow.live hnext.new hfam hhash hfid
    rcases ho with rfl | rfl
    · exact .inl rfl
    · exact .inr rfl

theorem Inv.commitRefused (h : s.Inv rt)
    (hc : s.calls i = some ⟨request, now, .running .commitRefused⟩)
    (ho : o = .thrown .invalidRefreshToken ∨ o = .lost) :
    Took rt s ((s.commit i).finish i ⟨request, now, .running .commitRefused⟩ o) i
      ⟨request, now, .running .commitRefused⟩ .commitRefused := by
  have hview : s.view i = s.db.committed := view_of_nil (h.running hc)
  refine h.commit hc ?_ ?_
  · rw [hview]
    exact h.families
  · rw [hview]
    refine .silent ?_ ?_
    · intro pair rawToken hst
      rcases ho with rfl | rfl
      · cases hst
      · cases hst
    · intro user hst
      rcases ho with rfl | rfl
      · cases hst
      · cases hst

/-! ## The statements of a revocation -/

theorem Inv.scanFamily (h : s.Inv rt) {k : Revoker}
    (hc : s.calls i = some ⟨request, now, .running (.scanFamily k)⟩)
    (hs : s.exec rt i ⟨request, now, .running (.scanFamily k)⟩ d (.scanFamily k) = some s') :
    Took rt s s' i ⟨request, now, .running (.scanFamily k)⟩ (.scanFamily k) := by
  obtain ⟨hlog, hcause⟩ := h.running hc
  obtain rfl := Option.some.inj hs
  exact h.goto hc (.inl rfl) ⟨hcause, [], fun _ hid => absurd hid List.not_mem_nil, hlog⟩

/-- Visiting one more row. -/
theorem Inv.revokeRow (h : s.Inv rt) {k : Revoker} {targets rest : List ℕ} {id : ℕ}
    {r : RefreshToken}
    (hc : s.calls i = some ⟨request, now, .running (.revokeRows k targets)⟩)
    (hfree : s.free i (.token id) = true)
    (hr : (Table.lookup RefreshToken.id id (s.view i).refreshTokens).filter
      (revocable k.familyId) = some r) :
    Took rt s (((s.lock i (.token id)).write i (.setRevoked id now)).setCall i
      ⟨request, now, .running (.revokeRows k rest)⟩) i
      ⟨request, now, .running (.revokeRows k targets)⟩ (.revokeRows k targets) := by
  obtain ⟨hcause, ids, hids, hlog⟩ := h.running hc
  obtain ⟨hlookup, hfam, hlive⟩ := lookup_revocable hlog hr
  have hk : s.db.Keeps ((s.db.acquire i (.token id)).write i (.setRevoked id now)) i :=
    (Engine.keeps_acquire hfree).trans (Engine.keeps_write ..)
  refine h.lockWrite hc hfree (fun _ hl => hl) ⟨hcause, ids ++ [id], ?_, ?_⟩
  · intro id' hid'
    rcases List.mem_append.mp hid' with hid' | hid'
    · exact (hids.stable hk) id' hid'
    · obtain rfl := List.mem_singleton.mp hid'
      exact ⟨Engine.acquire_holder_self .., r, hlookup, hfam, hlive⟩
  · rw [Engine.write_log_self, Engine.acquire_log, hlog, revocations, revocations,
      List.map_append]
    rfl

theorem Inv.revokeRows (h : s.Inv rt) {k : Revoker} {targets : List ℕ}
    (hc : s.calls i = some ⟨request, now, .running (.revokeRows k targets)⟩)
    (hs : s.exec rt i ⟨request, now, .running (.revokeRows k targets)⟩ d (.revokeRows k targets)
      = some s') :
    Took rt s s' i ⟨request, now, .running (.revokeRows k targets)⟩ (.revokeRows k targets) := by
  obtain ⟨hcause, ids, hids, hlog⟩ := h.running hc
  cases targets with
  | nil =>
    cases k with
    | reuse familyId =>
      obtain rfl := Option.some.inj hs
      refine h.goto hc (.inl rfl) ⟨hcause, ids, [], hids, rfl, ?_⟩
      rw [hlog, denials, List.map_nil, List.append_nil]
    | logout user =>
      obtain rfl := Option.some.inj hs
      exact h.goto hc (.inl rfl) ⟨hcause, ids, hids, hlog⟩
  | cons id targets =>
    simp only [exec] at hs
    split_ifs at hs with hpick
    obtain ⟨_, hfree⟩ := Bool.and_eq_true_iff.mp hpick
    -- once it is locked the row is looked at again: it may be revoked by now
    split at hs
    · obtain rfl := Option.some.inj hs
      exact h.goto hc (.inl rfl) ⟨hcause, ids, hids, hlog⟩
    · rename_i r hr
      obtain rfl := Option.some.inj hs
      exact h.revokeRow hc hfree hr

theorem Inv.insertDenied (h : s.Inv rt) {user : AuthUser}
    (hc : s.calls i = some ⟨request, now, .running (.insertDenied user)⟩)
    (hs : s.exec rt i ⟨request, now, .running (.insertDenied user)⟩ d (.insertDenied user)
      = some s') :
    Took rt s s' i ⟨request, now, .running (.insertDenied user)⟩ (.insertDenied user) := by
  obtain ⟨hcause, ids, hids, hlog⟩ := h.running hc
  have hview : (s.view i).accessDenylist = s.db.committed.accessDenylist := by
    rw [view_of_log hlog, foldl_revocations]
  simp only [exec, hview] at hs
  split_ifs at hs with hfree
  split at hs
  · -- ON CONFLICT DO NOTHING: the entry is there
    obtain rfl := Option.some.inj hs
    refine h.goto hc (.inl rfl) ⟨hcause, ids, [], hids, .inl rfl, ?_⟩
    rw [hlog, denials, List.map_nil, List.append_nil]
  · rename_i hnone
    obtain rfl := Option.some.inj hs
    have hk : s.db.Keeps ((s.db.acquire i (.denied user.jti)).write i
        (.insertDenied ⟨user.jti, 10 ^ 6 * user.exp⟩)) i :=
      (Engine.keeps_acquire hfree).trans (Engine.keeps_write ..)
    refine h.lockWrite hc hfree (fun _ hl => hl) ⟨hcause, ids, [⟨user.jti, 10 ^ 6 * user.exp⟩],
      hids.stable hk, .inr ⟨rfl, Engine.acquire_holder_self .., hnone⟩, ?_⟩
    rw [Engine.write_log_self, Engine.acquire_log, hlog]
    rfl

/-- What COMMIT of a revocation does. -/
theorem Inv.commitRevocation (h : s.Inv rt) {k : Revoker}
    (hc : s.calls i = some ⟨request, now, .running (.commitRevocation k)⟩)
    (ho : o = .thrown .invalidRefreshToken ∨ o = .done ∨ o = .lost) :
    Took rt s ((s.commit i).finish i ⟨request, now, .running (.commitRevocation k)⟩ o) i
      ⟨request, now, .running (.commitRevocation k)⟩ (.commitRevocation k) := by
  obtain ⟨hcause, ids, denied, hids, hdenied, hlog⟩ := h.running hc
  have hview : s.view i = { s.db.committed with
      refreshTokens := revokeAll ids now s.db.committed.refreshTokens
      accessDenylist := s.db.committed.accessDenylist ++ denied } := by
    rw [view_of_log hlog, List.foldl_append, foldl_revocations, foldl_denials]
  refine h.commit hc ?_ ?_
  · rw [hview]
    intro r hr
    obtain ⟨r₀, hr₀, rfl⟩ := List.mem_map.mp hr
    have hfamily : (if r₀.id ∈ ids then r₀.revoke now else r₀).familyId = r₀.familyId := by
      split_ifs
      · rfl
      · rfl
    rw [hfamily]
    exact h.families r₀ hr₀
  · rw [hview]
    refine .revocation ?_ hcause ?_ ?_
    · rcases ho with rfl | rfl | rfl
      · exact .inl rfl
      · exact .inr (.inl rfl)
      · exact .inr (.inr rfl)
    · intro id hid
      obtain ⟨_, r, hr, hfam, hlive⟩ := hids id hid
      exact ⟨r, Table.mem_of_lookup hr, Table.key_of_lookup hr, hfam, hlive⟩
    · cases k with
      | reuse familyId => exact .inl hdenied
      | logout user =>
        rcases hdenied with hnil | ⟨hone, _, _⟩
        · exact .inl hnil
        · exact .inr ⟨user, rfl, hone⟩

/-! ## The statements of `authenticate` and `purgeDenylist` -/

theorem Inv.selectDenied (h : s.Inv rt) {claims : VerifiedClaims}
    (hc : s.calls i = some ⟨request, now, .running (.selectDenied claims)⟩)
    (hs : s.exec rt i ⟨request, now, .running (.selectDenied claims)⟩ d (.selectDenied claims)
      = some s') :
    Took rt s s' i ⟨request, now, .running (.selectDenied claims)⟩ (.selectDenied claims) := by
  obtain ⟨hquiet, _⟩ := h.running hc
  have hview : s.view i = s.db.committed := hquiet.view
  simp only [exec, hview] at hs
  split at hs
  · obtain rfl := Option.some.inj hs
    exact h.finish hc hquiet (fun _ _ ho => by cases ho) (fun _ ho => by cases ho)
  · rename_i hnone
    obtain rfl := Option.some.inj hs
    refine h.finish hc hquiet (fun _ _ ho => by cases ho) ?_
    intro user huser
    exact ⟨claims, rfl, (AuthOutcome.user.inj huser).symm, hnone⟩

theorem Inv.scanExpired (h : s.Inv rt)
    (hc : s.calls i = some ⟨request, now, .running .scanExpired⟩)
    (hs : s.exec rt i ⟨request, now, .running .scanExpired⟩ d .scanExpired = some s') :
    Took rt s s' i ⟨request, now, .running .scanExpired⟩ .scanExpired := by
  obtain ⟨hquiet, hrequest⟩ := h.running hc
  obtain rfl := Option.some.inj hs
  exact h.goto hc (.inr rfl) ⟨hrequest, [], fun _ hjti => absurd hjti List.not_mem_nil, hquiet.1⟩

/-- Visiting one more entry. -/
theorem Inv.deleteRow (h : s.Inv rt) {targets rest : List String} {jti : String} {r : DeniedToken}
    (hc : s.calls i = some ⟨request, now, .running (.deleteRows targets)⟩)
    (hfree : s.free i (.denied jti) = true)
    (hr : (Table.lookup DeniedToken.jti jti (s.view i).accessDenylist).filter
      (·.expiresAt < now) = some r) :
    Took rt s (((s.lock i (.denied jti)).write i (.deleteDenied jti)).setCall i
      ⟨request, now, .running (.deleteRows rest)⟩) i
      ⟨request, now, .running (.deleteRows targets)⟩ (.deleteRows targets) := by
  obtain ⟨hrequest, jtis, hjtis, hlog⟩ := h.running hc
  obtain ⟨hlookup, hlt⟩ := lookup_purgeable hlog hr
  have hk : s.db.Keeps ((s.db.acquire i (.denied jti)).write i (.deleteDenied jti)) i :=
    (Engine.keeps_acquire hfree).trans (Engine.keeps_write ..)
  refine h.lockWrite hc hfree (fun _ hl => hl) ⟨hrequest, jtis ++ [jti], ?_, ?_⟩
  · intro jti' hjti'
    rcases List.mem_append.mp hjti' with hjti' | hjti'
    · exact (hjtis.stable hk) jti' hjti'
    · obtain rfl := List.mem_singleton.mp hjti'
      exact ⟨Engine.acquire_holder_self .., r, hlookup, of_decide_eq_true hlt⟩
  · rw [Engine.write_log_self, Engine.acquire_log, hlog, deletions, deletions, List.map_append]
    rfl

theorem Inv.deleteRows (h : s.Inv rt) {targets : List String}
    (hc : s.calls i = some ⟨request, now, .running (.deleteRows targets)⟩)
    (hs : s.exec rt i ⟨request, now, .running (.deleteRows targets)⟩ d (.deleteRows targets)
      = some s') :
    Took rt s s' i ⟨request, now, .running (.deleteRows targets)⟩ (.deleteRows targets) := by
  obtain ⟨hrequest, jtis, hjtis, hlog⟩ := h.running hc
  cases targets with
  | nil =>
    obtain rfl := Option.some.inj hs
    exact h.goto hc (.inl rfl) ⟨hrequest, jtis, hjtis, hlog⟩
  | cons jti targets =>
    simp only [exec] at hs
    split_ifs at hs with hpick
    obtain ⟨_, hfree⟩ := Bool.and_eq_true_iff.mp hpick
    split at hs
    · -- another purge has deleted the entry since the scan
      obtain rfl := Option.some.inj hs
      exact h.goto hc (.inl rfl) ⟨hrequest, jtis, hjtis, hlog⟩
    · rename_i r hr
      obtain rfl := Option.some.inj hs
      exact h.deleteRow hc hfree hr

theorem Inv.commitPurge (h : s.Inv rt)
    (hc : s.calls i = some ⟨request, now, .running .commitPurge⟩)
    (ho : o = .done ∨ o = .lost) :
    Took rt s ((s.commit i).finish i ⟨request, now, .running .commitPurge⟩ o) i
      ⟨request, now, .running .commitPurge⟩ .commitPurge := by
  obtain ⟨hrequest, jtis, hjtis, hlog⟩ := h.running hc
  have hview : s.view i = { s.db.committed with
      accessDenylist := removeAll jtis s.db.committed.accessDenylist } := by
    rw [view_of_log hlog, foldl_deletions]
  refine h.commit hc ?_ ?_
  · rw [hview]
    exact h.families
  · rw [hview]
    refine .purge ?_ hrequest fun jti hjti => (hjtis jti hjti).2
    rcases ho with rfl | rfl
    · exact .inl rfl
    · exact .inr rfl

/-! ## Steps -/

/-- Every statement keeps the invariant and moves its call on. -/
theorem Inv.exec (h : s.Inv rt) (hc : s.calls i = some ⟨request, now, .running pc⟩)
    (hs : s.exec rt i ⟨request, now, .running pc⟩ d pc = some s') :
    Took rt s s' i ⟨request, now, .running pc⟩ pc := by
  cases pc with
  | selectUser email password => exact h.selectUser hc hs
  | insertFirst userId role => exact h.insertFirst hc hs
  | answerLogin pair =>
    obtain ⟨hquiet, email, password, hrequest⟩ := h.running hc
    obtain rfl := Option.some.inj hs
    refine h.finish hc hquiet ?_ (fun _ ho => by cases ho)
    intro pair' rawToken _ hrefresh
    rw [hrequest] at hrefresh
    cases hrefresh
  | beginRefresh rawToken =>
    obtain ⟨hquiet, hrequest⟩ := h.running hc
    obtain rfl := Option.some.inj hs
    exact h.goto hc (.inr rfl) ⟨hquiet, hrequest⟩
  | scanToken rawToken => exact h.scanToken hc hs
  | lockToken rawToken id => exact h.lockToken hc hs
  | selectRole row => exact h.selectRole hc hs
  | markUsed row role => exact h.markUsed hc hs
  | insertNext row role => exact h.insertNext hc hs
  | commitRotation pair =>
    obtain rfl := Option.some.inj hs
    exact h.commitRotation hc (.inl rfl)
  | commitRefused =>
    obtain rfl := Option.some.inj hs
    exact h.commitRefused hc (.inl rfl)
  | beginLogout user =>
    obtain ⟨hquiet, hcause⟩ := h.running hc
    obtain rfl := Option.some.inj hs
    exact h.goto hc (.inr rfl) ⟨hquiet.1, hcause⟩
  | scanFamily k => exact h.scanFamily hc hs
  | revokeRows k targets => exact h.revokeRows hc hs
  | insertDenied user => exact h.insertDenied hc hs
  | commitRevocation k =>
    cases k with
    | reuse familyId =>
      obtain rfl := Option.some.inj hs
      exact h.commitRevocation hc (.inl rfl)
    | logout user =>
      obtain rfl := Option.some.inj hs
      exact h.commitRevocation hc (.inr (.inl rfl))
  | selectDenied claims => exact h.selectDenied hc hs
  | scanExpired => exact h.scanExpired hc hs
  | deleteRows targets => exact h.deleteRows hc hs
  | commitPurge =>
    obtain rfl := Option.some.inj hs
    exact h.commitPurge hc (.inl rfl)

/-- A COMMIT whose answer is lost does what COMMIT does. -/
theorem Inv.loseAnswer (h : s.Inv rt) (hc : s.calls i = some ⟨request, now, .running pc⟩)
    (hcommits : pc.commits = true) :
    Took rt s ((s.commit i).finish i ⟨request, now, .running pc⟩ .lost) i
      ⟨request, now, .running pc⟩ pc := by
  cases pc with
  | commitRotation pair => exact h.commitRotation hc (.inr rfl)
  | commitRefused => exact h.commitRefused hc (.inr rfl)
  | commitRevocation k => exact h.commitRevocation hc (.inr (.inr rfl))
  | commitPurge => exact h.commitPurge hc (.inr rfl)
  | _ => cases hcommits

/-- What one event does: a running call takes a step, a call begins, or time
passes. -/
inductive Stepped (rt : AuthRuntime) (s : AuthState) : AuthEvent → AuthState → Prop
  | moved {ev : AuthEvent} {s' : AuthState} {i : ℕ} {request : AuthRequest} {now : ℤ} {pc : AuthPc}
    (hcaller : ev.caller = some i) (hc : s.calls i = some ⟨request, now, .running pc⟩)
    (took : Took rt s s' i ⟨request, now, .running pc⟩ pc) : Stepped rt s ev s'
  | began {i : ℕ} {request : AuthRequest} {status : AuthStatus} (hc : s.calls i = none)
    (hentry : s.entry rt request = some status) :
    Stepped rt s (.call i request)
      (({ s with families := request.families rt ++ s.families } : AuthState).setCall i
        ⟨request, s.dbUs, status⟩)
  | ticked {appMs dbUs : ℤ} (happ : s.appMs ≤ appMs) (hdb : s.dbUs ≤ dbUs)
    (hahead : dbUs / 1000 ≤ appMs) : Stepped rt s (.tick appMs dbUs) { s with appMs, dbUs }

/-- The events of a running call take it one step on. -/
theorem Inv.stepped (h : s.Inv rt) {ev : AuthEvent} (hs : s.step rt ev = some s') :
    Stepped rt s ev s' := by
  cases ev with
  | call i request =>
    simp only [step] at hs
    split at hs
    · rename_i status hc hentry
      obtain rfl := Option.some.inj hs
      exact .began hc hentry
    · cases hs
  | exec i d =>
    simp only [step] at hs
    split at hs
    · rename_i request now pc hc
      exact .moved rfl hc (h.exec hc hs)
    · cases hs
  | fail i =>
    simp only [step] at hs
    split at hs
    · rename_i request now pc hc
      obtain rfl := Option.some.inj hs
      exact .moved rfl hc (h.throw hc)
    · cases hs
  | crash i =>
    simp only [step] at hs
    split at hs
    · rename_i request now pc hc
      obtain rfl := Option.some.inj hs
      exact .moved rfl hc (h.abort hc (fun _ ho => by cases ho) (fun _ ho => by cases ho))
    · cases hs
  | loseAnswer i =>
    simp only [step] at hs
    split at hs
    · rename_i request now pc hc
      split_ifs at hs with hcommits
      obtain rfl := Option.some.inj hs
      exact .moved rfl hc (h.loseAnswer hc hcommits)
    · cases hs
  | tick appMs dbUs =>
    simp only [step] at hs
    split_ifs at hs with hclocks
    obtain rfl := Option.some.inj hs
    exact .ticked hclocks.1 hclocks.2.1 hclocks.2.2

/-- A call that begins has nothing open, and knows what its request says. -/
theorem Inv.entry (h : s.Inv rt) (hc : s.calls i = none) {status : AuthStatus}
    (hentry : s.entry rt request = some status) :
    AuthCallInv rt s.db i (some ⟨request, s.dbUs, status⟩) := by
  have hquiet : s.db.Quiet i := by
    have := h.call i
    rwa [hc] at this
  cases request with
  | login email password =>
    obtain rfl := Option.some.inj hentry
    exact ⟨hquiet, email, password, rfl⟩
  | refresh rawToken =>
    obtain rfl := Option.some.inj hentry
    exact ⟨hquiet, rfl⟩
  | logout token =>
    obtain ⟨claims, hclaims, rfl⟩ := Option.map_eq_some_iff.mp hentry
    exact ⟨hquiet, token, claims, rfl, hclaims, rfl⟩
  | authenticate token =>
    simp only [AuthState.entry] at hentry
    split at hentry
    · obtain rfl := Option.some.inj hentry
      exact hquiet
    · rename_i claims hclaims
      obtain rfl := Option.some.inj hentry
      exact ⟨hquiet, token, rfl, (verify_eq_ok hclaims).1⟩
  | purgeDenylist =>
    obtain rfl := Option.some.inj hentry
    exact ⟨hquiet, rfl⟩

/-- **Every event keeps the invariant.** -/
theorem Stepped.inv {ev : AuthEvent} (hs : Stepped rt s ev s') (h : s.Inv rt) : s'.Inv rt := by
  cases hs with
  | moved hcaller hc took => exact took.inv
  | @began i request status hc hentry =>
    refine ⟨h.locked, h.wellFormed, ?_, ?_, ?_, h.clocks, ?_⟩
    · exact (Function.forall_update_iff s.calls fun j c => AuthCallInv rt s.db j c).mpr
        ⟨h.entry hc hentry, fun j _ => h.call j⟩
    · exact fun r hr => List.mem_append_right _ (h.families r hr)
    · intro j c f hj hf
      rcases Slots.found_cases_some hj with ⟨-, rfl⟩ | ⟨-, hold⟩
      · exact List.mem_append_left _ hf
      · exact List.mem_append_right _ (h.brought j c f hold hf)
    · intro j c hj
      rcases Slots.found_cases_some hj with ⟨-, rfl⟩ | ⟨-, hold⟩
      · exact Int.le_refl _
      · exact h.now j c hold
  | @ticked appMs dbUs happ hdb hahead =>
    exact ⟨h.locked, h.wellFormed, h.call, h.families, h.brought, hahead,
      fun j c hj => Int.le_trans (h.now j c hj) hdb⟩

/-! ## The flow of control -/

/-- Only its pending statement takes a call further. -/
theorem running_of_step {ev : AuthEvent} {request' : AuthRequest} {now' : ℤ}
    (hs : s.step rt ev = some s') (hcaller : ev.caller = some i)
    (hc : s.calls i = some ⟨request, now, .running pc⟩)
    (hi : s'.calls i = some ⟨request', now', .running pc'⟩) :
    ∃ d, s.exec rt i ⟨request, now, .running pc⟩ d pc = some s' := by
  cases ev with
  | exec j d =>
    obtain rfl := Option.some.inj hcaller
    simp only [step, hc] at hs
    exact ⟨d, hs⟩
  | loseAnswer j =>
    obtain rfl := Option.some.inj hcaller
    simp only [step, hc] at hs
    split_ifs at hs
    obtain rfl := Option.some.inj hs
    exact absurd hi not_running_of_finish
  | fail j =>
    obtain rfl := Option.some.inj hcaller
    simp only [step, hc] at hs
    obtain rfl := Option.some.inj hs
    exact absurd hi not_running_of_finish
  | crash j =>
    obtain rfl := Option.some.inj hcaller
    simp only [step, hc] at hs
    obtain rfl := Option.some.inj hs
    exact absurd hi not_running_of_finish
  | call j request => cases hcaller
  | tick appMs dbUs => cases hcaller

/-- The call is past the snapshot of its revoking `UPDATE`. -/
def revokes : AuthPc → Bool
  | .revokeRows _ _ | .insertDenied _ | .commitRevocation _ => true
  | _ => false

/-- Only the snapshot of the `UPDATE` leads past it, and nothing leads back to the
look at the denylist. -/
theorem exec_flow {c : AuthCall} (hs : s.exec rt i c d pc = some s')
    (hi : s'.calls i = some ⟨request, n, .running pc'⟩) :
    (revokes pc' = true → revokes pc = true ∨ ∃ k, pc = .scanFamily k) ∧
      ∀ claims, pc' ≠ .selectDenied claims := by
  cases pc with
  | scanFamily k =>
    obtain rfl := Option.some.inj hs
    obtain rfl := pc_of_goto hi
    exact ⟨fun _ => .inr ⟨k, rfl⟩, fun _ h => by cases h⟩
  | revokeRows k targets =>
    refine ⟨fun _ => .inl rfl, ?_⟩
    rcases targets with _ | ⟨id, targets⟩
    · rcases k with familyId | user
      · obtain rfl := Option.some.inj hs
        obtain rfl := pc_of_goto hi
        exact fun _ h => by cases h
      · obtain rfl := Option.some.inj hs
        obtain rfl := pc_of_goto hi
        exact fun _ h => by cases h
    · simp only [exec] at hs
      split_ifs at hs
      split at hs
      · obtain rfl := Option.some.inj hs
        obtain rfl := pc_of_goto hi
        exact fun _ h => by cases h
      · obtain rfl := Option.some.inj hs
        obtain rfl := pc_of_goto hi
        exact fun _ h => by cases h
  | commitRevocation k =>
    rcases k with familyId | user
    · obtain rfl := Option.some.inj hs
      exact absurd hi not_running_of_finish
    · obtain rfl := Option.some.inj hs
      exact absurd hi not_running_of_finish
  | deleteRows targets =>
    rcases targets with _ | ⟨jti, targets⟩
    · obtain rfl := Option.some.inj hs
      obtain rfl := pc_of_goto hi
      exact ⟨fun h => (by cases h), fun _ h => (by cases h)⟩
    · simp only [exec] at hs
      split_ifs at hs
      split at hs
      · obtain rfl := Option.some.inj hs
        obtain rfl := pc_of_goto hi
        exact ⟨fun h => (by cases h), fun _ h => (by cases h)⟩
      · obtain rfl := Option.some.inj hs
        obtain rfl := pc_of_goto hi
        exact ⟨fun h => (by cases h), fun _ h => (by cases h)⟩
  | insertDenied user =>
    refine ⟨fun _ => .inl rfl, ?_⟩
    simp only [exec] at hs
    split_ifs at hs
    split at hs
    · obtain rfl := Option.some.inj hs
      obtain rfl := pc_of_goto hi
      exact fun _ h => by cases h
    · obtain rfl := Option.some.inj hs
      obtain rfl := pc_of_goto hi
      exact fun _ h => by cases h
  | _ =>
    -- each of the others ends the call, or goes on to a statement that is neither
    simp only [exec] at hs
    repeat' split at hs
    all_goals
      first
      | cases hs; done
      | (obtain rfl := Option.some.inj hs
         first
         | exact absurd hi not_running_of_finish
         | (obtain rfl := pc_of_goto hi
            exact ⟨fun h => (by cases h), fun _ h => (by cases h)⟩))

end AuthState

theorem auths_invariant : (auths rt).Invariant (AuthState.Inv rt) :=
  fun _ _ _ h hs => (h.stepped hs).inv h

/-- The invariant holds in every state a run leads to. -/
theorem auths_inv {s₀ s : AuthState} {as : List AuthEvent} (h₀ : s₀.Start)
    (hrun : (auths rt).run s₀ as = some s) : s.Inv rt :=
  auths_invariant.run h₀.inv hrun

end Marketplace
