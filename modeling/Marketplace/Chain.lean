import Marketplace.AuthRun

/-!
# A family of refresh tokens is a chain

Whatever the interleaving, and whatever fails on the way, a family that has rows
has exactly one row that is not used: its end. A call that returns a pair has
found the row of its token unused and leaves it used, so no two calls exchange
one token. A call that throws has changed nothing, unless its token had been
used: then it may have revoked rows of that token's family.
-/

namespace Marketplace

variable {rt : AuthRuntime}

namespace AuthState

variable {s s' t : AuthState} {ev : AuthEvent} {i : ℕ} {rawToken : String}

/-! ## What becomes of rows and calls -/

/-- Rows stay, with their use and revocation. -/
theorem Stepped.grow (hs : Stepped rt s ev s') :
    TokensGrow s.db.committed.refreshTokens s'.db.committed.refreshTokens := by
  cases hs with
  | moved hcaller hc took =>
    obtain ⟨c', _, _, hm⟩ := took.moves
    exact hm.tokenStep.grow
  | began hc hentry => exact .refl _
  | ticked happ hdb hahead => exact .refl _

/-- A later state of a call: it is about the same request, and final once it has
ended. -/
def Continues (c c' : AuthCall) : Prop :=
  c'.request = c.request ∧ ∀ o, c.status = .ended o → c' = c

theorem Continues.refl (c : AuthCall) : Continues c c := ⟨rfl, fun _ _ => rfl⟩

theorem Continues.trans {c c' c'' : AuthCall} (h : Continues c c') (h' : Continues c' c'') :
    Continues c c'' := by
  refine ⟨h'.1.trans h.1, ?_⟩
  intro o ho
  obtain rfl := h.2 o ho
  exact h'.2 o ho

/-- A step continues every call. -/
theorem Stepped.continues (hs : Stepped rt s ev s') {c : AuthCall} (hc : s.calls i = some c) :
    ∃ c', s'.calls i = some c' ∧ Continues c c' := by
  cases hs with
  | @moved _ _ j request now pc hcaller hj took =>
    obtain ⟨c', hrequest, hcalls, _⟩ := took.moves
    rw [hcalls]
    by_cases hij : i = j
    · subst hij
      obtain rfl := Option.some.inj (hc.symm.trans hj)
      exact ⟨c', Function.update_self .., hrequest, fun o ho => by cases ho⟩
    · rw [Function.update_of_ne hij]
      exact ⟨c, hc, .refl c⟩
  | @began j request status hj hentry =>
    exact ⟨c, Slots.found_of_free hj hc, .refl c⟩
  | ticked happ hdb hahead => exact ⟨c, hc, .refl c⟩

/-- A run continues every call. -/
theorem Inv.continues (h : s.Inv rt) {as : List AuthEvent} (hrun : (auths rt).run s as = some t)
    {c : AuthCall} (hc : s.calls i = some c) : ∃ c', t.calls i = some c' ∧ Continues c c' := by
  refine auths_invariant.run_rel
    (R := fun s t => ∀ c, s.calls i = some c → ∃ c', t.calls i = some c' ∧ Continues c c')
    ?_ ?_ ?_ h hrun c hc
  · exact fun _ c hc => ⟨c, hc, .refl c⟩
  · intro a b d hab hbd c hc
    obtain ⟨c', hc', hcc'⟩ := hab c hc
    obtain ⟨c'', hc'', hc'c''⟩ := hbd c' hc'
    exact ⟨c'', hc'', hcc'.trans hc'c''⟩
  · exact fun s ev s' hs hstep c hc => (hs.stepped hstep).continues hc

/-! ## Exchanges -/

/-- Call `i` returned a pair for this token. -/
def Exchanged (s : AuthState) (i : ℕ) (rawToken : String) : Prop :=
  ∃ now pair, s.calls i = some ⟨.refresh rawToken, now, .ended (.pair pair)⟩

/-- A call that returns a pair has just exchanged a row of its token that was
neither used nor revoked. -/
theorem Stepped.exchanged (hs : Stepped rt s ev s') (h : s'.Exchanged i rawToken) :
    s.Exchanged i rawToken ∨ (ev.caller = some i ∧
      ∃ row ∈ s.db.committed.refreshTokens, row.tokenHash = rt.hash rawToken ∧
        row.usedAt = none ∧ row.revokedAt = none ∧
        ∃ now, row.use now ∈ s'.db.committed.refreshTokens) := by
  obtain ⟨now, pair, hi⟩ := h
  cases hs with
  | @moved _ _ j request now' pc hcaller hj took =>
    obtain ⟨c', hrequest, hcalls, hm⟩ := took.moves
    rw [hcalls] at hi
    rcases Slots.found_cases_some hi with ⟨rfl, rfl⟩ | ⟨-, hold⟩
    · obtain rfl : AuthRequest.refresh rawToken = request := hrequest
      generalize s'.db.committed = db' at hm ⊢
      cases hm with
      | silent hpair huser => exact absurd rfl (hpair pair rawToken rfl)
      | @rotation _ _ row next now'' raw hst hrefresh hhash hrow hunused hlive hnew hfamily hnext
          hfid =>
        obtain rfl := AuthRequest.refresh.inj hrefresh
        refine .inr ⟨hcaller, row, hrow, hhash, hunused, hlive, now'', ?_⟩
        refine List.mem_append_left _ (Table.mem_modify.mpr ⟨row, hrow, ?_⟩)
        rw [if_pos rfl]
      | revocation hst hcause hids hdenied =>
        rcases hst with hst | hst | hst
        · cases hst
        · cases hst
        · cases hst
      | purge hst hrequest' hjtis => cases hrequest'
    · exact .inl ⟨now, pair, hold⟩
  | @began j request status hj hentry =>
    rcases Slots.found_cases_some hi with ⟨rfl, hcall⟩ | ⟨-, hold⟩
    · obtain ⟨rfl, _, rfl⟩ := AuthCall.mk.inj hcall
      cases hentry
    · exact .inl ⟨now, pair, hold⟩
  | ticked happ hdb hahead => exact .inl ⟨now, pair, hi⟩

/-- Every exchange has used its row, and no two were of one row. -/
structure ChainInv (rt : AuthRuntime) (s : AuthState) : Prop where
  used : ∀ i rawToken, s.Exchanged i rawToken →
    ∃ r ∈ s.db.committed.refreshTokens, r.tokenHash = rt.hash rawToken ∧ r.usedAt ≠ none
  once : ∀ i j raw raw', i ≠ j → s.Exchanged i raw → s.Exchanged j raw' →
    rt.hash raw ≠ rt.hash raw'

/-- A token whose row is used is not exchanged again. -/
theorem Inv.unused_of_used (h : s.Inv rt) {row r : RefreshToken}
    (hrow : row ∈ s.db.committed.refreshTokens) (hunused : row.usedAt = none)
    (hr : r ∈ s.db.committed.refreshTokens) (hused : r.usedAt ≠ none) :
    r.tokenHash ≠ row.tokenHash := by
  intro hhash
  obtain rfl := List.inj_on_of_nodup_map h.wellFormed.hashes hr hrow hhash
  exact hused hunused

theorem ChainInv.stepped (h : ChainInv rt s) (hinv : s.Inv rt) (hs : Stepped rt s ev s') :
    ChainInv rt s' where
  used := by
    intro i rawToken hi
    rcases hs.exchanged hi with hi | ⟨_, row, _, hhash, _, _, now, hmem⟩
    · obtain ⟨r, hr, hhash, hused⟩ := h.used i rawToken hi
      obtain ⟨r', hr', _, hhash', _, hused', _⟩ := hs.grow r hr
      exact ⟨r', hr', hhash'.trans hhash, hused' hused⟩
    · exact ⟨row.use now, hmem, hhash, Option.some_ne_none _⟩
  once := by
    intro i j raw raw' hij hi hj heq
    -- at most one call moves, so one of the two had exchanged its token before
    rcases hs.exchanged hi with hi' | ⟨hcalleri, row, hrow, hhash, hunused, _⟩
    · rcases hs.exchanged hj with hj' | ⟨_, row, hrow, hhash, hunused, _⟩
      · exact h.once i j raw raw' hij hi' hj' heq
      · obtain ⟨r, hr, hrhash, hused⟩ := h.used i raw hi'
        exact hinv.unused_of_used hrow hunused hr hused (hrhash.trans (heq.trans hhash.symm))
    · rcases hs.exchanged hj with hj' | ⟨hcallerj, _⟩
      · obtain ⟨r, hr, hrhash, hused⟩ := h.used j raw' hj'
        exact hinv.unused_of_used hrow hunused hr hused (hrhash.trans (heq.symm.trans hhash.symm))
      · exact hij (Option.some.inj (hcalleri.symm.trans hcallerj))

theorem ChainInv.of_start (h₀ : s.Start) : ChainInv rt s := by
  have hnone : ∀ i rawToken, ¬ s.Exchanged i rawToken := by
    rintro i rawToken ⟨now, pair, hi⟩
    rw [h₀.calls i] at hi
    cases hi
  exact ⟨fun i rawToken hi => absurd hi (hnone i rawToken),
    fun i _ raw _ _ hi => absurd hi (hnone i raw)⟩

/-! ## Calls that throw -/

/-- A `refresh` of this token that throws leaves the rows as they are, or revokes
rows of the family of its token, which is used. -/
def Refused (rt : AuthRuntime) (rawToken : String) (rows rows' : List RefreshToken) : Prop :=
  rows' = rows ∨ ∃ r ∈ rows, r.tokenHash = rt.hash rawToken ∧ r.usedAt ≠ none ∧
    ∃ ids now, (∀ id ∈ ids, ∃ r' ∈ rows, r'.id = id ∧ r'.familyId = r.familyId ∧
      r'.revokedAt = none) ∧ rows' = revokeAll ids now rows

/-- Every step of a `refresh` that is going to throw is like that. -/
theorem Stepped.refused (hs : Stepped rt s ev s') (hcaller : ev.caller = some i)
    (hinv : s'.Inv rt) {bs : List AuthEvent} (hrun : (auths rt).run s' bs = some t) {now : ℤ}
    {e : AuthError}
    (ht : t.calls i = some ⟨.refresh rawToken, now, .ended (.thrown e)⟩) :
    Refused rt rawToken s.db.committed.refreshTokens s'.db.committed.refreshTokens := by
  cases hs with
  | @moved _ _ j request now' pc hcaller' hj took =>
    obtain rfl := Option.some.inj (hcaller.symm.trans hcaller')
    obtain ⟨c', hrequest, hcalls, hm⟩ := took.moves
    have hi : s'.calls i = some c' := by
      rw [hcalls]
      exact Function.update_self ..
    obtain ⟨c'', hc'', hsame, hfinal⟩ := hinv.continues hrun hi
    obtain rfl := Option.some.inj (ht.symm.trans hc'')
    obtain rfl : request = .refresh rawToken := (hsame.trans hrequest).symm
    -- how the step ends the call is how it stays
    have hend : ∀ o, c'.status = .ended o → o = .thrown e := by
      intro o ho
      rw [← hfinal o ho] at ho
      exact (AuthStatus.ended.inj ho).symm
    generalize hst : c'.status = st at hm
    generalize s'.db.committed = db' at hm ⊢
    cases hm with
    | silent hpair huser => exact .inl rfl
    | login hnew hfamily hfresh hrequest' =>
      obtain ⟨email, password, h⟩ := hrequest'
      cases h
    | rotation hended hrefresh hhash hrow hunused hlive hnew hfamily hnext hfid =>
      rcases hended with rfl | rfl
      · cases hend _ hst
      · cases hend _ hst
    | @revocation k _ ids denied now'' hended hcause hids hdenied =>
      cases k with
      | reuse familyId =>
        obtain ⟨raw, hraw, r, hr, hhash, rfl, hused⟩ := hcause
        obtain rfl := AuthRequest.refresh.inj hraw
        exact .inr ⟨r, hr, hhash, hused, ids, now'', hids, rfl⟩
      | logout user =>
        obtain ⟨token, claims, h, _⟩ := hcause
        cases h
    | purge hended h hjtis => cases h
  | began hc hentry => cases hcaller
  | ticked happ hdb hahead => cases hcaller

end AuthState

/-! ## The chain -/

open AuthState

theorem chainInv_run {s₀ s : AuthState} {as : List AuthEvent} (h₀ : s₀.Start)
    (hrun : (auths rt).run s₀ as = some s) : s.Inv rt ∧ ChainInv rt s := by
  have hstep : (auths rt).Invariant (fun s => s.Inv rt ∧ ChainInv rt s) := by
    intro s a s' h hs
    have hst := h.1.stepped hs
    exact ⟨hst.inv h.1, h.2.stepped h.1 hst⟩
  exact hstep.run ⟨h₀.inv, .of_start h₀⟩ hrun

/-- **Refresh tokens form chains.** At the end of every run each family with rows
has exactly one that is not used; no two calls have returned a pair for one
token; and no step of a `refresh` that throws changed the rows, but for revoking
rows of its family when its token had been used. -/
theorem refresh_tokens_form_chains {s₀ t : AuthState} {as : List AuthEvent} (h₀ : s₀.Start)
    (hrun : (auths rt).run s₀ as = some t) :
    (∀ r ∈ t.db.committed.refreshTokens,
      ∃ last, unused r.familyId t.db.committed.refreshTokens = [last]) ∧
    (∀ i j raw raw', i ≠ j → t.Exchanged i raw → t.Exchanged j raw' →
      rt.hash raw ≠ rt.hash raw') ∧
    ∀ as₁ ev as₂ s s' i rawToken now e, as = as₁ ++ ev :: as₂ →
      (auths rt).run s₀ as₁ = some s → (auths rt).step s ev = some s' → ev.caller = some i →
      t.calls i = some ⟨.refresh rawToken, now, .ended (.thrown e)⟩ →
      Refused rt rawToken s.db.committed.refreshTokens s'.db.committed.refreshTokens := by
  obtain ⟨hinv, hchain⟩ := chainInv_run h₀ hrun
  refine ⟨hinv.wellFormed.chains, hchain.once, ?_⟩
  rintro as₁ ev as₂ s s' i rawToken now e rfl hrun₁ hstep hcaller ht
  have hs := (auths_inv h₀ hrun₁).stepped hstep
  -- the rest of the run starts in the state after the step
  obtain ⟨r, hr, hrest⟩ := System.run_append_eq_some hrun
  obtain rfl := Option.some.inj (hrun₁.symm.trans hr)
  obtain ⟨r', hr', hrest⟩ := System.run_cons_eq_some hrest
  obtain rfl := Option.some.inj (hstep.symm.trans hr')
  exact hs.refused hcaller (hs.inv (auths_inv h₀ hrun₁)) hrest ht

/-- Two calls exchange one token: the second waits for the first, finds the token
used and revokes the family. -/
def demoTwice : List AuthEvent :=
  [.call 0 (.refresh "r1"), .call 1 (.refresh "r1")] ++ demoSteps 0 3 2 "r2" ++
    demoSteps 1 2 3 "r3" ++ demoSteps 0 4 2 "r2" ++ demoSteps 1 2 3 "r3" ++
    demoSteps 1 1 1 "r3" ++ demoSteps 1 3 2 "r3"

theorem demoTwice_forms_chains :
    ∃ t, (auths demoAuthRuntime).run demoService demoTwice = some t ∧
      t.calls 1 = some ⟨.refresh "r1", 40000000, .ended (.thrown .invalidRefreshToken)⟩ ∧
      (∀ r ∈ t.db.committed.refreshTokens,
        ∃ last, unused r.familyId t.db.committed.refreshTokens = [last]) ∧
      (∀ i j raw raw', i ≠ j → t.Exchanged i raw → t.Exchanged j raw' → raw ≠ raw') := by
  have hsome : ((auths demoAuthRuntime).run demoService demoTwice).any (fun t =>
      t.calls 1 = some
        ⟨.refresh "r1", 40000000, .ended (.thrown .invalidRefreshToken)⟩) = true := by
    decide +kernel
  obtain ⟨t, hrun, hcall⟩ := (Option.any_eq_true _ _).mp hsome
  have hchains := refresh_tokens_form_chains demoService_start hrun
  exact ⟨t, hrun, of_decide_eq_true hcall, hchains.1, hchains.2.1⟩

end Marketplace
