import Marketplace.Revocation

/-!
# When a logged-out token is refused

A logout puts the `jti` of its access token on the denylist. The entry is
deleted once the database's clock has passed its `exp`; by then the application's
clock has too, and `verify` refuses the token. So after the COMMIT of the logout
the token is *shut*: its entry is there, or it has expired.

`authenticate` looks at the two one after the other, and a purge can come in
between: the token had not expired when it was verified, and its entry is gone
when it is looked for. As long as no purge deletes the entry under a call that
waits for it, a token that is shut is refused.
-/

namespace Marketplace

variable {rt : AuthRuntime}

/-- The entries of the denylist last as long as the tokens they are about. -/
def Dated (rt : AuthRuntime) (rows : List DeniedToken) : Prop :=
  ∀ r ∈ rows, ∀ token claims, rt.verifyJwt token = some claims → claims.jti = r.jti →
    10 ^ 6 * claims.exp ≤ r.expiresAt

/-- A `jti` belongs to one token: all tokens with it expire together. -/
def AuthRuntime.OneExpiry (rt : AuthRuntime) : Prop :=
  ∀ token token' claims claims', rt.verifyJwt token = some claims →
    rt.verifyJwt token' = some claims' → claims.jti = claims'.jti → claims.exp = claims'.exp

namespace AuthState

variable {s s' t : AuthState} {ev : AuthEvent} {i j : ℕ} {request : AuthRequest} {now : ℤ}
  {token : String} {claims : VerifiedClaims}

/-- The `jti` is on the denylist. -/
def Listed (s : AuthState) (jti : String) : Prop :=
  ∃ r ∈ s.db.committed.accessDenylist, r.jti = jti

/-- The token is on the denylist, or has expired. -/
def Shut (s : AuthState) (claims : VerifiedClaims) : Prop :=
  s.Listed claims.jti ∨ 10 ^ 6 * claims.exp < s.dbUs

/-! ## What a step makes of the denylist -/

theorem Inv.dated_moves (hjti : rt.OneExpiry) {c : AuthCall} {db db' : AuthDatabase} {pc : AuthPc}
    {st : AuthStatus} {families : List String} (h : Dated rt db.accessDenylist)
    (hm : AuthMoves rt families c db pc st db') : Dated rt db'.accessDenylist := by
  cases hm with
  | silent hpair huser => exact h
  | login hnew hfamily hfresh hrequest => exact h
  | rotation hst hrequest hhash hrow hunused hlive hnew hfamily hnext hfid => exact h
  | @revocation k _ ids denied now hst hcause hids hdenied =>
    intro r hr token claims hclaims heq
    rcases List.mem_append.mp hr with hr | hr
    · exact h r hr token claims hclaims heq
    · rcases hdenied with rfl | ⟨user, rfl, rfl⟩
      · exact absurd hr List.not_mem_nil
      · -- the entry is dated by the token of the logout
        obtain rfl := List.mem_singleton.mp hr
        obtain ⟨token', claims', _, hclaims', rfl⟩ := hcause
        rw [hjti token token' claims claims' hclaims hclaims' heq]
        exact Int.le_refl _
  | purge hst hrequest hjtis =>
    exact fun r hr => h r (List.mem_of_mem_filter hr)

theorem Stepped.dated (hjti : rt.OneExpiry) (hs : Stepped rt s ev s')
    (h : Dated rt s.db.committed.accessDenylist) : Dated rt s'.db.committed.accessDenylist := by
  cases hs with
  | moved hcaller hc took =>
    obtain ⟨c', _, _, hm⟩ := took.moves
    exact Inv.dated_moves hjti h hm
  | began hc hentry => exact h
  | ticked happ hdb hahead => exact h

/-- **What is shut stays shut**: only what has expired is purged. -/
theorem Stepped.shut (hs : Stepped rt s ev s') (hinv : s.Inv rt)
    (hdated : Dated rt s.db.committed.accessDenylist)
    (hclaims : rt.verifyJwt token = some claims) (h : s.Shut claims) : s'.Shut claims := by
  cases hs with
  | @moved _ _ i request now pc hcaller hc took =>
    rcases h with ⟨r, hr, hrjti⟩ | hexpired
    · obtain ⟨c', _, _, hm⟩ := took.moves
      unfold Shut Listed
      rw [took.clocks.2]
      generalize c'.status = st at hm
      generalize s'.db.committed = db' at hm ⊢
      cases hm with
      | silent hpair huser => exact .inl ⟨r, hr, hrjti⟩
      | login hnew hfamily hfresh hrequest => exact .inl ⟨r, hr, hrjti⟩
      | rotation hst hrequest hhash hrow hunused hlive hnew hfamily hnext hfid =>
        exact .inl ⟨r, hr, hrjti⟩
      | revocation hst hcause hids hdenied =>
        exact .inl ⟨r, List.mem_append_left _ hr, hrjti⟩
      | @purge _ jtis hst hrequest hjtis =>
        by_cases hmem : r.jti ∈ jtis
        · obtain ⟨r', hr', hlt⟩ := hjtis r.jti hmem
          have hdate := hdated r' (Table.mem_of_lookup hr') token claims hclaims
            (hrjti.symm.trans (Table.key_of_lookup hr').symm)
          have hnow : now ≤ s.dbUs := hinv.now i _ hc
          exact .inr (Int.lt_of_le_of_lt hdate (Int.lt_of_lt_of_le hlt hnow))
        · exact .inl ⟨r, List.mem_filter.mpr ⟨hr, decide_eq_true hmem⟩, hrjti⟩
    · refine .inr ?_
      rw [took.clocks.2]
      exact hexpired
  | began hc hentry => exact h
  | ticked happ hdb hahead =>
    rcases h with hlisted | hexpired
    · exact .inl hlisted
    · exact .inr (Int.lt_of_lt_of_le hexpired hdb)

/-- A logout about to commit has put its token on the denylist, or found it shut. -/
def Shutting (s : AuthState) (i : ℕ) (user : AuthUser) : Prop :=
  s.Listed user.jti ∨ 10 ^ 6 * user.exp < s.dbUs ∨
    .insertDenied ⟨user.jti, 10 ^ 6 * user.exp⟩ ∈ s.db.log i

/-- Every logout about to commit has. -/
def AllShutting (s : AuthState) : Prop :=
  ∀ i request now user,
    s.calls i = some ⟨request, now, .running (.commitRevocation (.logout user))⟩ →
    s.Shutting i user

/-- The `INSERT` of the logout puts its token on the denylist, or finds it there. -/
theorem Inv.exec_shutting (h : s.Inv rt) {d : AuthDraw} {pc : AuthPc} {user : AuthUser}
    {request' : AuthRequest} {now' : ℤ}
    (hc : s.calls i = some ⟨request, now, .running pc⟩)
    (hs : s.exec rt i ⟨request, now, .running pc⟩ d pc = some s')
    (hi : s'.calls i = some ⟨request', now', .running (.commitRevocation (.logout user))⟩) :
    s'.Shutting i user := by
  have hpc := (exec_flow hs hi).1 rfl
  cases pc with
  | insertDenied user' =>
    obtain ⟨_, ids, _, hlog⟩ := h.running hc
    have hview : (s.view i).accessDenylist = s.db.committed.accessDenylist := by
      rw [view_of_log hlog, foldl_revocations]
    simp only [AuthState.exec, hview] at hs
    split_ifs at hs with hfree
    split at hs
    · rename_i r hr
      obtain rfl := Option.some.inj hs
      obtain rfl := Revoker.logout.inj (AuthPc.commitRevocation.inj (pc_of_goto hi))
      exact .inl ⟨r, Table.mem_of_lookup hr, Table.key_of_lookup hr⟩
    · obtain rfl := Option.some.inj hs
      obtain rfl := Revoker.logout.inj (AuthPc.commitRevocation.inj (pc_of_goto hi))
      refine .inr (.inr ?_)
      change _ ∈ ((s.db.acquire i (.denied user'.jti)).write i
        (.insertDenied ⟨user'.jti, 10 ^ 6 * user'.exp⟩)).log i
      rw [Engine.write_log_self]
      exact List.mem_append_right _ (List.mem_singleton_self _)
  | scanFamily k =>
    obtain rfl := Option.some.inj hs
    cases pc_of_goto hi
  | revokeRows k targets =>
    cases targets with
    | nil =>
      cases k with
      | reuse familyId =>
        obtain rfl := Option.some.inj hs
        cases pc_of_goto hi
      | logout user' =>
        obtain rfl := Option.some.inj hs
        cases pc_of_goto hi
    | cons id targets =>
      simp only [AuthState.exec] at hs
      split_ifs at hs with hpick
      split at hs
      · obtain rfl := Option.some.inj hs
        cases pc_of_goto hi
      · obtain rfl := Option.some.inj hs
        cases pc_of_goto hi
  | commitRevocation k =>
    cases k with
    | reuse familyId =>
      obtain rfl := Option.some.inj hs
      exact absurd hi not_running_of_finish
    | logout user' =>
      obtain rfl := Option.some.inj hs
      exact absurd hi not_running_of_finish
  | _ => simp [revokes] at hpc

/-- **Every logout about to commit has its token shut, or is about to shut it.** -/
theorem AllShutting.step (hall : s.AllShutting) (h : s.Inv rt)
    (hdated : Dated rt s.db.committed.accessDenylist) (hs : s.step rt ev = some s') :
    s'.AllShutting := by
  intro i request now user hi
  have hst := h.stepped hs
  -- the call was there before, or its `INSERT` has just run
  have hbefore : s.calls i = some ⟨request, now, .running (.commitRevocation (.logout user))⟩ →
      s'.db.log i = s.db.log i → s'.Shutting i user := by
    intro hc hlog
    obtain ⟨token, claims, _, hclaims, rfl⟩ := (h.running hc).1
    rcases hall i _ _ _ hc with hlisted | hexpired | hmem
    · rcases hst.shut h hdated hclaims (.inl hlisted) with hlisted | hexpired
      · exact .inl hlisted
      · exact .inr (.inl hexpired)
    · rcases hst.shut h hdated hclaims (.inr hexpired) with hlisted | hexpired
      · exact .inl hlisted
      · exact .inr (.inl hexpired)
    · exact .inr (.inr (hlog ▸ hmem))
  cases hst with
  | @moved _ _ j requestj nowj pcj hcaller hj took =>
    obtain ⟨_, _, hcalls, _⟩ := took.moves
    have hfound := hi
    rw [hcalls] at hfound
    rcases Slots.found_cases_some hfound with ⟨rfl, -⟩ | ⟨hij, hold⟩
    · obtain ⟨d, hexec⟩ := running_of_step hs hcaller hj hi
      exact h.exec_shutting hj hexec hi
    · exact hbefore hold (took.others i hij).log
  | @began j requestj status hj hentry =>
    rcases Slots.found_cases_some hi with ⟨rfl, hcall⟩ | ⟨-, hold⟩
    · obtain ⟨_, _, rfl⟩ := AuthCall.mk.inj hcall
      cases entry_not_revokes hentry
    · exact hbefore hold rfl
  | ticked happ hdb hahead => exact hbefore hi rfl

/-! ## After the COMMIT of a logout -/

/-- A COMMIT of a logout with this token. -/
def LogsOut (s : AuthState) (ev : AuthEvent) (token : String) : Prop :=
  ∃ i now user,
    s.calls i = some ⟨.logout token, now, .running (.commitRevocation (.logout user))⟩ ∧
    ((∃ d, ev = .exec i d) ∨ ev = .loseAnswer i)

/-- The COMMIT shuts the token. -/
theorem Inv.logsOut_shut (h : s.Inv rt) (hall : s.AllShutting) (hs : s.step rt ev = some s')
    (hout : s.LogsOut ev token) : ∃ claims, rt.verifyJwt token = some claims ∧ s'.Shut claims := by
  obtain ⟨i, now, user, hc, hev⟩ := hout
  obtain ⟨⟨token', claims, hrequest, hclaims, rfl⟩, ids, denied, _, _, hlog⟩ := h.running hc
  obtain rfl := AuthRequest.logout.inj hrequest
  refine ⟨claims, hclaims, ?_⟩
  have hview : (s.view i).accessDenylist = s.db.committed.accessDenylist ++ denied := by
    rw [view_of_log hlog, List.foldl_append, foldl_revocations, foldl_denials]
  -- what the transaction makes visible has the entry, or the token has expired
  have hshut : (∃ r ∈ (s.view i).accessDenylist, r.jti = claims.jti) ∨
      10 ^ 6 * claims.exp < s.dbUs := by
    rw [hview]
    rcases hall i _ _ _ hc with ⟨r, hr, hrjti⟩ | hexpired | hmem
    · exact .inl ⟨r, List.mem_append_left _ hr, hrjti⟩
    · exact .inr hexpired
    · rw [hlog] at hmem
      rcases List.mem_append.mp hmem with hmem | hmem
      · obtain ⟨id, _, heq⟩ := List.mem_map.mp hmem
        cases heq
      · obtain ⟨row, hrow, heq⟩ := List.mem_map.mp hmem
        obtain rfl := AuthChange.insertDenied.inj heq
        exact .inl ⟨_, List.mem_append_right _ hrow, rfl⟩
  rcases hev with ⟨d, rfl⟩ | rfl
  · simp only [step, hc] at hs
    obtain rfl := Option.some.inj hs
    exact hshut
  · simp only [step, hc] at hs
    split_ifs at hs
    obtain rfl := Option.some.inj hs
    exact hshut

/-- A COMMIT of a purge that deletes the entry of this `jti`. -/
def Purges (s : AuthState) (ev : AuthEvent) (jti : String) : Prop :=
  ∃ i request now, s.calls i = some ⟨request, now, .running .commitPurge⟩ ∧
    .deleteDenied jti ∈ s.db.log i ∧ ((∃ d, ev = .exec i d) ∨ ev = .loseAnswer i)

/-- A call that began after `s₂` is about to look for this `jti`. -/
def Asking (s₂ s : AuthState) (jti : String) : Prop :=
  ∃ j request now claims, s₂.calls j = none ∧
    s.calls j = some ⟨request, now, .running (.selectDenied claims)⟩ ∧ claims.jti = jti

/-- The step does not delete the entry under a call that is about to look for it. -/
def Patient (s₂ : AuthState) (jti : String) (s : AuthState) (ev : AuthEvent) : Prop :=
  s.Purges ev jti → ¬ s₂.Asking s jti

/-- Only a purge takes an entry off the list. -/
theorem Inv.purges_of_unlisted (h : s.Inv rt) (hs : s.step rt ev = some s') {jti : String}
    (hlisted : s.Listed jti) (hnot : ¬ s'.Listed jti) : s.Purges ev jti := by
  obtain ⟨r, hr, hrjti⟩ := hlisted
  cases h.stepped hs with
  | @moved _ _ i request now pc hcaller hc took =>
    obtain ⟨c', _, _, hm⟩ := took.moves
    unfold Listed at hnot
    generalize c'.status = st at hm
    generalize hdb : s'.db.committed = db' at hm hnot
    cases hm with
    | silent hpair huser => exact absurd ⟨r, hr, hrjti⟩ hnot
    | login hnew hfamily hfresh hrequest => exact absurd ⟨r, hr, hrjti⟩ hnot
    | rotation hst hrequest hhash hrow hunused hlive hnew hfamily hnext hfid =>
      exact absurd ⟨r, hr, hrjti⟩ hnot
    | revocation hst hcause hids hdenied =>
      exact absurd ⟨r, List.mem_append_left _ hr, hrjti⟩ hnot
    | purge hst hrequest hjtis =>
      obtain ⟨_, jtis, _, hlog⟩ := h.running hc
      have hview : (s.view i).accessDenylist = removeAll jtis s.db.committed.accessDenylist := by
        rw [view_of_log hlog, foldl_deletions]
      -- the entries that COMMIT removes are those of the log
      have hremoved : s'.db.committed = s.view i →
          AuthChange.deleteDenied jti ∈ s.db.log i := by
        intro hcommitted
        by_contra hmem
        refine hnot ⟨r, ?_, hrjti⟩
        rw [← hdb, hcommitted, hview]
        refine List.mem_filter.mpr ⟨hr, decide_eq_true ?_⟩
        intro hin
        rw [hrjti] at hin
        rw [hlog] at hmem
        exact hmem (List.mem_map.mpr ⟨jti, hin, rfl⟩)
      -- without COMMIT nothing is removed
      have hkept : s'.db.committed ≠ s.db.committed := by
        intro hcommitted
        rw [← hdb, hcommitted] at hnot
        exact hnot ⟨r, hr, hrjti⟩
      cases ev with
      | exec j d =>
        obtain rfl := Option.some.inj hcaller
        simp only [step, hc] at hs
        obtain rfl := Option.some.inj hs
        exact ⟨j, request, now, hc, hremoved rfl, .inl ⟨d, rfl⟩⟩
      | loseAnswer j =>
        obtain rfl := Option.some.inj hcaller
        simp only [step, hc] at hs
        split_ifs at hs
        obtain rfl := Option.some.inj hs
        exact ⟨j, request, now, hc, hremoved rfl, .inr rfl⟩
      | fail j =>
        obtain rfl := Option.some.inj hcaller
        simp only [step, hc] at hs
        obtain rfl := Option.some.inj hs
        exact absurd rfl hkept
      | crash j =>
        obtain rfl := Option.some.inj hcaller
        simp only [step, hc] at hs
        obtain rfl := Option.some.inj hs
        exact absurd rfl hkept
      | call j request => cases hcaller
      | tick appMs dbUs => cases hcaller
  | began hc hentry => exact absurd ⟨r, hr, hrjti⟩ hnot
  | ticked happ hdb hahead => exact absurd ⟨r, hr, hrjti⟩ hnot

/-- A call begins to look for a `jti` only with a token that has not expired. -/
theorem entry_asking (h : s.entry rt request = some (.running (.selectDenied claims))) :
    ∃ token, rt.verifyJwt token = some claims ∧ s.appMs / 1000 < claims.exp := by
  cases request with
  | authenticate token =>
    simp only [entry] at h
    split at h
    · cases h
    · rename_i claims' hok
      obtain rfl := AuthPc.selectDenied.inj (AuthStatus.running.inj (Option.some.inj h))
      exact ⟨token, verify_eq_ok hok⟩
  | logout token =>
    obtain ⟨claims', _, h⟩ := Option.map_eq_some_iff.mp h
    cases h
  | _ => cases h

/-- No call is let in before it looks at the list. -/
theorem entry_not_user {user : AuthUser} : s.entry rt request ≠ some (.ended (.user user)) := by
  intro h
  cases request with
  | authenticate token =>
    simp only [entry] at h
    split at h
    · cases h
    · cases h
  | logout token =>
    obtain ⟨claims', _, h⟩ := Option.map_eq_some_iff.mp h
    cases h
  | _ => cases h

/-- The token is shut; calls that began after `s₂` and wait for its entry will find
it, and none has been let in. -/
structure ShutSince (rt : AuthRuntime) (claims : VerifiedClaims) (s₂ s : AuthState) : Prop where
  inv : s.Inv rt
  dated : Dated rt s.db.committed.accessDenylist
  shut : s.Shut claims
  asking : s₂.Asking s claims.jti → s.Listed claims.jti
  none : ∀ j token' claims' now user, s₂.calls j = none → rt.verifyJwt token' = some claims' →
    claims'.jti = claims.jti → s.calls j ≠ some ⟨.authenticate token', now, .ended (.user user)⟩

/-- A token that is shut and has not expired is on the list. -/
theorem Shut.listed (h : s.Shut claims) (hclocks : s.dbUs / 1000 ≤ s.appMs)
    (hvalid : s.appMs / 1000 < claims.exp) : s.Listed claims.jti := by
  rcases h with hlisted | hexpired
  · exact hlisted
  · omega

/-- **A token that is shut is refused**, as long as its entry is not deleted under a
call that waits for it. -/
theorem ShutSince.step {s₂ : AuthState} (hjti : rt.OneExpiry)
    (hclaims : rt.verifyJwt token = some claims) (h : ShutSince rt claims s₂ s)
    (hok : s₂.Patient claims.jti s ev) (hs : s.step rt ev = some s') :
    ShutSince rt claims s₂ s' := by
  have hst := h.inv.stepped hs
  have hshut := hst.shut h.inv h.dated hclaims h.shut
  refine ⟨hst.inv h.inv, hst.dated hjti h.dated, hshut, ?_, ?_⟩
  · rintro ⟨j, request, now, claims', hj, hi, hsame⟩
    -- a call that asked before finds the entry still there, by the condition
    have hbefore : s.calls j = some ⟨request, now, .running (.selectDenied claims')⟩ →
        s'.Listed claims.jti := by
      intro hc
      have hasking : s₂.Asking s claims.jti := ⟨j, request, now, claims', hj, hc, hsame⟩
      by_contra hnot
      exact hok (h.inv.purges_of_unlisted hs (h.asking hasking) hnot) hasking
    cases hst with
    | @moved _ _ i requesti nowi pci hcaller hc took =>
      obtain ⟨c', _, hcalls, _⟩ := took.moves
      have hfound := hi
      rw [hcalls] at hfound
      rcases Slots.found_cases_some hfound with ⟨rfl, -⟩ | ⟨-, hold⟩
      · obtain ⟨d, hexec⟩ := running_of_step hs hcaller hc hi
        exact absurd rfl ((exec_flow hexec hi).2 claims')
      · exact hbefore hold
    | @began i requesti status hi' hentry =>
      rcases Slots.found_cases_some hi with ⟨rfl, hcall⟩ | ⟨-, hold⟩
      · obtain ⟨_, _, rfl⟩ := AuthCall.mk.inj hcall
        obtain ⟨token', hclaims', hvalid⟩ := entry_asking hentry
        have hexp : claims'.exp = claims.exp := hjti _ _ _ _ hclaims' hclaims hsame
        rw [hexp] at hvalid
        exact hshut.listed h.inv.clocks hvalid
      · exact hbefore hold
    | ticked happ hdb hahead => exact hbefore hi
  · intro j token' claims' now user hj hclaims' hsame hi
    cases hst with
    | @moved _ _ i requesti nowi pci hcaller hc took =>
      obtain ⟨c', hrequest, hcalls, hm⟩ := took.moves
      rw [hcalls] at hi
      rcases Slots.found_cases_some hi with ⟨rfl, rfl⟩ | ⟨-, hold⟩
      · obtain rfl : AuthRequest.authenticate token' = requesti := hrequest
        obtain ⟨claims'', rfl, _, hlookup⟩ := hm.user_asked
        obtain ⟨_, token'', hrequest'', hclaims''⟩ := h.inv.running hc
        obtain rfl := AuthRequest.authenticate.inj hrequest''
        obtain rfl := Option.some.inj (hclaims'.symm.trans hclaims'')
        obtain ⟨r, hr, hrjti⟩ := h.asking ⟨j, _, _, claims', hj, hc, hsame⟩
        exact Table.lookup_eq_none.mp hlookup r hr (hrjti.trans hsame.symm)
      · exact h.none j token' claims' now user hj hclaims' hsame hold
    | @began i requesti status hi' hentry =>
      rcases Slots.found_cases_some hi with ⟨rfl, hcall⟩ | ⟨-, hold⟩
      · obtain ⟨rfl, _, rfl⟩ := AuthCall.mk.inj hcall
        exact entry_not_user hentry
      · exact h.none j token' claims' now user hj hclaims' hsame hold
    | ticked happ hdb hahead => exact h.none j token' claims' now user hj hclaims' hsame hi

end AuthState

/-! ## Logout -/

open AuthState

theorem allShutting_run {s₀ s : AuthState} {as : List AuthEvent} (hjti : rt.OneExpiry)
    (h₀ : s₀.Start) (hdated : Dated rt s₀.db.committed.accessDenylist)
    (hrun : (auths rt).run s₀ as = some s) :
    s.Inv rt ∧ Dated rt s.db.committed.accessDenylist ∧ s.AllShutting := by
  have hstep : (auths rt).Invariant fun s =>
      s.Inv rt ∧ Dated rt s.db.committed.accessDenylist ∧ s.AllShutting := by
    intro s ev s' h hs
    have hst := h.1.stepped hs
    exact ⟨hst.inv h.1, hst.dated hjti h.2.1, h.2.2.step h.1 h.2.1 hs⟩
  refine hstep.run ⟨h₀.inv, hdated, ?_⟩ hrun
  intro i request now user hc
  rw [h₀.calls i] at hc
  cases hc

/-- **A logged-out token is refused**, if no purge deletes its entry while a call that
has verified it is about to look for it: after the COMMIT of the logout, no
`authenticate` that begins later with the token returns a user. -/
theorem logged_out_token_refused {s₀ s₁ s₂ t : AuthState} {as bs : List AuthEvent}
    {ev : AuthEvent} {token : String} {claims : VerifiedClaims} (hjti : rt.OneExpiry)
    (h₀ : s₀.Start) (hdated : Dated rt s₀.db.committed.accessDenylist)
    (hclaims : rt.verifyJwt token = some claims)
    (hrun : (auths rt).run s₀ as = some s₁) (hout : s₁.LogsOut ev token)
    (hstep : (auths rt).step s₁ ev = some s₂)
    (hok : (auths rt).Meets (s₂.Patient claims.jti) s₂ bs)
    (hrest : (auths rt).run s₂ bs = some t) :
    ∀ j now user, s₂.calls j = none →
      t.calls j ≠ some ⟨.authenticate token, now, .ended (.user user)⟩ := by
  obtain ⟨hinv, hdated₁, hall⟩ := allShutting_run hjti h₀ hdated hrun
  have hst := hinv.stepped hstep
  obtain ⟨claims', hclaims', hshut⟩ := hinv.logsOut_shut hall hstep hout
  obtain rfl := Option.some.inj (hclaims.symm.trans hclaims')
  have hstart : ShutSince rt claims s₂ s₂ := by
    refine ⟨hst.inv hinv, hst.dated hjti hdated₁, hshut, ?_, ?_⟩
    · rintro ⟨j, request, now, claims', hj, hi, _⟩
      rw [hj] at hi
      cases hi
    · intro j token' claims' now user hj _ _ hi
      rw [hj] at hi
      cases hi
  have hend : ShutSince rt claims s₂ t :=
    System.Meets.run (fun _ _ _ h hok hs => h.step hjti hclaims hok hs) hok hstart hrest
  intro j now user hj
  exact hend.none j token claims now user hj hclaims rfl

/-- The event is no COMMIT of a purge. -/
def noPurge (s : AuthState) : AuthEvent → Bool
  | .exec i _ | .loseAnswer i =>
    match s.calls i with
    | some ⟨_, _, .running .commitPurge⟩ => false
    | _ => true
  | _ => true

theorem patient_of_noPurge {s₂ s : AuthState} {jti : String} {ev : AuthEvent}
    (h : noPurge s ev = true) : s₂.Patient jti s ev := by
  rintro ⟨i, request, now, hi, _, ⟨d, rfl⟩ | rfl⟩
  · simp [noPurge, hi] at h
  · simp [noPurge, hi] at h

theorem demoAuthRuntime_oneExpiry : demoAuthRuntime.OneExpiry := by
  intro token token' claims claims' h h' _
  simp only [demoAuthRuntime, Option.ite_none_right_eq_some, Option.some.injEq] at h h'
  rw [← h.2, ← h'.2]

theorem demoService_dated : Dated demoAuthRuntime demoService.db.committed.accessDenylist :=
  fun _ hr => absurd hr List.not_mem_nil

theorem demoLogout_refused :
    ∃ s₁ s₂ t, (auths demoAuthRuntime).run demoService demoLogout = some s₁ ∧
      (auths demoAuthRuntime).step s₁ (.exec 1 (demoDraw 1 "r3")) = some s₂ ∧
      (auths demoAuthRuntime).run s₂ ([.call 2 (.authenticate "access")] ++ demoSteps 2 1 1 "r3")
        = some t ∧
      ∀ j now user, s₂.calls j = none →
        t.calls j ≠ some ⟨.authenticate "access", now, .ended (.user user)⟩ := by
  have hsome : ((auths demoAuthRuntime).run demoService demoLogout).any (fun s₁ =>
      (s₁.calls 1 = some ⟨.logout "access", 40000000,
        .running (.commitRevocation (.logout demoUser))⟩ : Bool) &&
      ((auths demoAuthRuntime).step s₁ (.exec 1 (demoDraw 1 "r3"))).any fun s₂ =>
        (auths demoAuthRuntime).checks noPurge s₂
            ([.call 2 (.authenticate "access")] ++ demoSteps 2 1 1 "r3") &&
        ((auths demoAuthRuntime).run s₂
          ([.call 2 (.authenticate "access")] ++ demoSteps 2 1 1 "r3")).isSome) = true := by
    decide +kernel
  obtain ⟨s₁, hrun, h⟩ := (Option.any_eq_true _ _).mp hsome
  obtain ⟨hcall, h⟩ := Bool.and_eq_true_iff.mp h
  obtain ⟨s₂, hstep, h⟩ := (Option.any_eq_true _ _).mp h
  obtain ⟨hchecks, h⟩ := Bool.and_eq_true_iff.mp h
  obtain ⟨t, hrest⟩ := Option.isSome_iff_exists.mp h
  exact ⟨s₁, s₂, t, hrun, hstep, hrest,
    logged_out_token_refused demoAuthRuntime_oneExpiry demoService_start demoService_dated rfl hrun
      ⟨1, _, _, of_decide_eq_true hcall, .inl ⟨_, rfl⟩⟩ hstep
      (.of_checks (fun _ _ => patient_of_noPurge) hchecks) hrest⟩

/-- A call verifies the token just before it expires; then the entry expires and is
purged; then the call looks for it. -/
def demoPurged : List AuthEvent :=
  [.tick 99999 99999000, .call 2 (.authenticate "access"), .tick 100001 100001000,
    .call 3 .purgeDenylist] ++ demoSteps 3 4 1 "r3" ++ demoSteps 2 1 1 "r3"

/-- **A purge can come between the two checks**: a call that begins after the logout
has committed is let in with its token. -/
theorem purge_admits_logged_out_token :
    ¬ ∀ (rt : AuthRuntime) (s₀ s₁ s₂ t : AuthState) (as bs : List AuthEvent) (ev : AuthEvent)
        (token : String), rt.OneExpiry → s₀.Start →
      Dated rt s₀.db.committed.accessDenylist → (auths rt).run s₀ as = some s₁ →
      s₁.LogsOut ev token → (auths rt).step s₁ ev = some s₂ → (auths rt).run s₂ bs = some t →
      ∀ j now user, s₂.calls j = none →
        t.calls j ≠ some ⟨.authenticate token, now, .ended (.user user)⟩ := by
  intro hclaim
  have hsome : ((auths demoAuthRuntime).run demoService demoLogout).any (fun s₁ =>
      (s₁.calls 1 = some ⟨.logout "access", 40000000,
        .running (.commitRevocation (.logout demoUser))⟩ : Bool) &&
      ((auths demoAuthRuntime).step s₁ (.exec 1 (demoDraw 1 "r3"))).any fun s₂ =>
        (s₂.calls 2 = none : Bool) &&
        ((auths demoAuthRuntime).run s₂ demoPurged).any fun t =>
          (t.calls 2 = some ⟨.authenticate "access", 99999000, .ended (.user demoUser)⟩ : Bool))
      = true := by
    decide +kernel
  obtain ⟨s₁, hrun, h⟩ := (Option.any_eq_true _ _).mp hsome
  obtain ⟨hcall, h⟩ := Bool.and_eq_true_iff.mp h
  obtain ⟨s₂, hstep, h⟩ := (Option.any_eq_true _ _).mp h
  obtain ⟨hnew, h⟩ := Bool.and_eq_true_iff.mp h
  obtain ⟨t, hrest, huser⟩ := (Option.any_eq_true _ _).mp h
  exact hclaim _ _ _ _ _ _ _ _ _ demoAuthRuntime_oneExpiry demoService_start demoService_dated hrun
    ⟨1, _, _, of_decide_eq_true hcall, .inl ⟨_, rfl⟩⟩ hstep hrest 2 _ _ (of_decide_eq_true hnew)
    (of_decide_eq_true huser)

end Marketplace
