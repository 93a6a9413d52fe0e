import Marketplace.Chain

/-!
# When a revocation is final

A family is *over* once all its committed rows are revoked: from then on no row
of it can be exchanged, so it gets no more rows.

A revocation ends the family unless it misses a row. Its `UPDATE` visits the rows
of the snapshot it began with, so it misses exactly the successor that a rotation
commits while the `UPDATE` waits for the row being rotated. When no rotation of
the family commits under such an `UPDATE`, every row is covered: revoked, already
marked, or yet to be visited.
-/

namespace Marketplace

variable {rt : AuthRuntime}

/-! ## Where rows come from -/

/-- A row of a known family was there before, or is the successor of an unrevoked
row of its family. -/
theorem AuthMoves.born {families : List String} {familyId : String} {c : AuthCall}
    {db db' : AuthDatabase} {pc : AuthPc} {st : AuthStatus}
    (hm : AuthMoves rt families c db pc st db') (hf : familyId ∈ families)
    {r' : RefreshToken} (hr' : r' ∈ db'.refreshTokens) (hfam : r'.familyId = familyId) :
    (∃ r ∈ db.refreshTokens, r.id = r'.id ∧ r.familyId = familyId ∧
      (r.revokedAt ≠ none → r'.revokedAt ≠ none)) ∨
    ∃ pair, pc = .commitRotation pair ∧ pair.accessToken.fid = familyId ∧
      (st = .ended (.pair pair) ∨ st = .ended .lost) ∧
      ∃ row ∈ db.refreshTokens, row.familyId = familyId ∧ row.usedAt = none ∧
        row.revokedAt = none ∧ ∃ now, row.use now ∈ db'.refreshTokens := by
  cases hm with
  | silent hpair huser => exact .inl ⟨r', hr', rfl, hfam, id⟩
  | login hnew hfamily hfresh hrequest =>
    rcases List.mem_append.mp hr' with hr' | hr'
    · exact .inl ⟨r', hr', rfl, hfam, id⟩
    · obtain rfl := List.mem_singleton.mp hr'
      rw [hfam] at hfresh
      exact absurd hf hfresh
  | @rotation pair _ row next now raw hst hrefresh hhash hrow hunused hlive hnew hfamily hnext
      hfid =>
    rcases List.mem_append.mp hr' with hr' | hr'
    · obtain ⟨r, hr, rfl⟩ := Table.mem_modify.mp hr'
      refine .inl ⟨r, hr, ?_⟩
      split_ifs at hfam ⊢
      · exact ⟨rfl, hfam, id⟩
      · exact ⟨rfl, hfam, id⟩
    · obtain rfl := List.mem_singleton.mp hr'
      have hrowfam : row.familyId = familyId := hfamily.symm.trans hfam
      refine .inr ⟨pair, rfl, hfid.trans hrowfam, hst, row, hrow, hrowfam, hunused, hlive, now, ?_⟩
      refine List.mem_append_left _ (Table.mem_modify.mpr ⟨row, hrow, ?_⟩)
      rw [if_pos rfl]
  | revocation hst hcause hids hdenied =>
    obtain ⟨r, hr, rfl⟩ := List.mem_map.mp hr'
    refine .inl ⟨r, hr, ?_⟩
    split_ifs at hfam ⊢
    · exact ⟨rfl, hfam, fun _ => Option.some_ne_none _⟩
    · exact ⟨rfl, hfam, id⟩
  | purge hst hrequest hjtis => exact .inl ⟨r', hr', rfl, hfam, id⟩

namespace AuthState

variable {s s' t : AuthState} {ev : AuthEvent} {i j : ℕ} {rawToken familyId : String}
  {request : AuthRequest} {now : ℤ}

/-! ## What an `UPDATE` covers -/

/-- Every row of the family is revoked, yet to be visited, or marked. -/
def Covers (familyId : String) (targets : List ℕ) (log : List AuthChange)
    (rows : List RefreshToken) : Prop :=
  ∀ r ∈ rows, r.familyId = familyId →
    r.revokedAt ≠ none ∨ r.id ∈ targets ∨ ∃ now, .setRevoked r.id now ∈ log

/-- From its snapshot to its COMMIT, a revocation of the family covers it. -/
def Covered (familyId : String) (s : AuthState) (i : ℕ) : AuthPc → Prop
  | .revokeRows k targets => k.familyId = familyId →
    Covers familyId targets (s.db.log i) s.db.committed.refreshTokens
  | .insertDenied user => user.fid = familyId →
    Covers familyId [] (s.db.log i) s.db.committed.refreshTokens
  | .commitRevocation k => k.familyId = familyId →
    Covers familyId [] (s.db.log i) s.db.committed.refreshTokens
  | _ => True

theorem covered_of_not_revokes {pc : AuthPc} (h : revokes pc = false) :
    Covered familyId s i pc := by
  cases pc with
  | revokeRows k targets => cases h
  | insertDenied user => cases h
  | commitRevocation k => cases h
  | _ => trivial

/-- The snapshot covers the family. -/
theorem covers_scan {log : List AuthChange} {rows : List RefreshToken} :
    Covers familyId ((rows.filter (revocable familyId)).map RefreshToken.id) log rows := by
  intro r hr hfam
  by_cases hlive : r.revokedAt = none
  · refine .inr (.inl (List.mem_map.mpr ⟨r, List.mem_filter.mpr ⟨hr, ?_⟩, rfl⟩))
    exact decide_eq_true ⟨hfam, hlive⟩
  · exact .inl hlive

theorem Covers.mono {targets targets' : List ℕ} {log log' : List AuthChange}
    {rows : List RefreshToken} (h : Covers familyId targets log rows)
    (hsub : ∀ r ∈ rows, r.familyId = familyId → r.id ∈ targets →
      r.revokedAt ≠ none ∨ r.id ∈ targets' ∨ ∃ now, .setRevoked r.id now ∈ log')
    (hlog : ∀ c ∈ log, c ∈ log') : Covers familyId targets' log' rows := by
  intro r hr hfam
  rcases h r hr hfam with hrevoked | htarget | ⟨now, hmarked⟩
  · exact .inl hrevoked
  · exact hsub r hr hfam htarget
  · exact .inr (.inr ⟨now, hlog _ hmarked⟩)

/-- A row not marked looks as it is committed. -/
theorem lookup_view_of_unmarked (h : s.Inv rt) {ids : List ℕ} {r : RefreshToken}
    (hlog : s.db.log i = revocations now ids) (hr : r ∈ s.db.committed.refreshTokens)
    (hunmarked : r.id ∉ ids) :
    Table.lookup RefreshToken.id r.id (s.view i).refreshTokens = some r := by
  have hkey : ∀ r : RefreshToken, (if r.id ∈ ids then r.revoke now else r).id = r.id := by
    intro r
    split_ifs
    · rfl
    · rfl
  rw [view_of_log hlog, foldl_revocations]
  change Table.lookup RefreshToken.id r.id (revokeAll ids now s.db.committed.refreshTokens) = _
  rw [revokeAll, Table.lookup_map hkey, Table.lookup_of_mem h.wellFormed.ids hr, Option.map_some,
    if_neg hunmarked]

/-- Every statement keeps the family covered, if that is its own. -/
theorem Inv.exec_covered (h : s.Inv rt) {d : AuthDraw} {pc pc' : AuthPc}
    {request' : AuthRequest} {now' : ℤ}
    (hc : s.calls i = some ⟨request, now, .running pc⟩) (hcov : Covered familyId s i pc)
    (hs : s.exec rt i ⟨request, now, .running pc⟩ d pc = some s')
    (hi : s'.calls i = some ⟨request', now', .running pc'⟩) : Covered familyId s' i pc' := by
  rcases hpc' : revokes pc' with _ | _
  · exact covered_of_not_revokes hpc'
  have hpc := (exec_flow hs hi).1 hpc'
  have hself := h.running hc
  cases pc with
  | scanFamily k =>
    have hview : s.view i = s.db.committed := view_of_nil hself.1
    simp only [AuthState.exec, hview] at hs
    obtain rfl := Option.some.inj hs
    obtain rfl := pc_of_goto hi
    rintro rfl
    exact covers_scan
  | revokeRows k targets =>
    obtain ⟨_, ids, _, hlog⟩ := hself
    cases targets with
    | nil =>
      cases k with
      | reuse familyId =>
        obtain rfl := Option.some.inj hs
        obtain rfl := pc_of_goto hi
        exact hcov
      | logout user =>
        obtain rfl := Option.some.inj hs
        obtain rfl := pc_of_goto hi
        exact hcov
    | cons id targets =>
      simp only [AuthState.exec] at hs
      split_ifs at hs with hpick
      split at hs
      · -- the row is not to be revoked any more: it is revoked or marked
        rename_i hnone
        obtain rfl := Option.some.inj hs
        obtain rfl := pc_of_goto hi
        rintro rfl
        refine Covers.mono (hcov rfl) ?_ fun _ hch => hch
        intro r hr hfam htarget
        by_cases hid : r.id = d.tokenId
        · by_cases hlive : r.revokedAt = none
          · refine .inr (.inr ⟨now, ?_⟩)
            change AuthChange.setRevoked r.id now ∈ s.db.log i
            rw [hlog]
            refine List.mem_map.mpr ⟨r.id, ?_, rfl⟩
            by_contra hmem
            have hlookup := lookup_view_of_unmarked h hlog hr hmem
            have hrev : revocable k.familyId r = true := decide_eq_true ⟨hfam, hlive⟩
            rw [← hid, hlookup, Option.filter_some_pos hrev] at hnone
            cases hnone
          · exact .inl hlive
        · exact .inr (.inl ((List.mem_erase_of_ne hid).mpr htarget))
      · obtain rfl := Option.some.inj hs
        obtain rfl := pc_of_goto hi
        have hlog' : ((s.db.acquire i (.token d.tokenId)).write i
            (.setRevoked d.tokenId now)).log i = s.db.log i ++ [.setRevoked d.tokenId now] :=
          Engine.write_log_self ..
        rintro rfl
        change Covers _ _ (((s.db.acquire i (.token d.tokenId)).write i
          (.setRevoked d.tokenId now)).log i) _
        rw [hlog']
        refine Covers.mono (hcov rfl) ?_ fun _ hch => List.mem_append_left _ hch
        intro r hr hfam htarget
        by_cases hid : r.id = d.tokenId
        · refine .inr (.inr ⟨now, List.mem_append_right _ ?_⟩)
          rw [hid]
          exact List.mem_singleton_self _
        · exact .inr (.inl ((List.mem_erase_of_ne hid).mpr htarget))
  | insertDenied user =>
    simp only [AuthState.exec] at hs
    split_ifs at hs with hfree
    split at hs
    · obtain rfl := Option.some.inj hs
      obtain rfl := pc_of_goto hi
      exact hcov
    · obtain rfl := Option.some.inj hs
      obtain rfl := pc_of_goto hi
      have hlog' : ((s.db.acquire i (.denied user.jti)).write i
          (.insertDenied ⟨user.jti, 10 ^ 6 * user.exp⟩)).log i
            = s.db.log i ++ [.insertDenied ⟨user.jti, 10 ^ 6 * user.exp⟩] :=
        Engine.write_log_self ..
      rintro rfl
      change Covers _ _ (((s.db.acquire i (.denied user.jti)).write i
          (.insertDenied ⟨user.jti, 10 ^ 6 * user.exp⟩)).log i) _
      rw [hlog']
      exact Covers.mono (hcov rfl) (fun _ _ _ hmem => absurd hmem List.not_mem_nil)
        fun _ hch => List.mem_append_left _ hch
  | commitRevocation k =>
    cases k with
    | reuse familyId =>
      obtain rfl := Option.some.inj hs
      exact absurd hi not_running_of_finish
    | logout user =>
      obtain rfl := Option.some.inj hs
      exact absurd hi not_running_of_finish
  | _ => simp [revokes] at hpc

/-- The step of a call keeps the family covered, if that is its own. -/
theorem Inv.own_covered (h : s.Inv rt) (hs : s.step rt ev = some s')
    (hcaller : ev.caller = some i) {request' : AuthRequest} {now' : ℤ} {pc pc' : AuthPc}
    (hc : s.calls i = some ⟨request, now, .running pc⟩) (hcov : Covered familyId s i pc)
    (hi : s'.calls i = some ⟨request', now', .running pc'⟩) : Covered familyId s' i pc' := by
  obtain ⟨d, hexec⟩ := running_of_step hs hcaller hc hi
  exact h.exec_covered hc hcov hexec hi

/-! ## The steps of others -/

/-- A COMMIT of a rotation of the family. -/
def Rotates (s : AuthState) (ev : AuthEvent) (familyId : String) : Prop :=
  ∃ j request now pair, s.calls j = some ⟨request, now, .running (.commitRotation pair)⟩ ∧
    pair.accessToken.fid = familyId ∧ ((∃ d, ev = .exec j d) ∨ ev = .loseAnswer j)

/-- Somebody's revoking `UPDATE` of the family is under way. -/
def Updating (s : AuthState) (familyId : String) : Prop :=
  ∃ i request now k targets,
    s.calls i = some ⟨request, now, .running (.revokeRows k targets)⟩ ∧ k.familyId = familyId

/-- No rotation of the family commits under an `UPDATE` that revokes it. -/
def Undivided (familyId : String) (s : AuthState) (ev : AuthEvent) : Prop :=
  s.Rotates ev familyId → ¬ s.Updating familyId

/-- Only a COMMIT returns a pair or loses its answer. -/
theorem commits_of_ended {c : AuthCall} {pair : TokenPair} (hs : s.step rt ev = some s')
    (hcaller : ev.caller = some j) (hj : s'.calls j = some c)
    (hst : c.status = .ended (.pair pair) ∨ c.status = .ended .lost) :
    (∃ d, ev = .exec j d) ∨ ev = .loseAnswer j := by
  cases ev with
  | exec j' d =>
    obtain rfl := Option.some.inj hcaller
    exact .inl ⟨d, rfl⟩
  | loseAnswer j' =>
    obtain rfl := Option.some.inj hcaller
    exact .inr rfl
  | fail j' =>
    obtain rfl := Option.some.inj hcaller
    simp only [step] at hs
    split at hs
    · obtain rfl := Option.some.inj hs
      simp only [abort, finish, setCall, Function.update_self, Option.some.injEq] at hj
      subst hj
      simp at hst
    · cases hs
  | crash j' =>
    obtain rfl := Option.some.inj hcaller
    simp only [step] at hs
    split at hs
    · obtain rfl := Option.some.inj hs
      simp only [abort, finish, setCall, Function.update_self, Option.some.injEq] at hj
      subst hj
      simp at hst
    · cases hs
  | call j' request => cases hcaller
  | tick appMs dbUs => cases hcaller

/-- A revocation covers its family unless a rotation adds a row. -/
theorem Covers.others {targets : List ℕ} {c : AuthCall} {pc : AuthPc}
    (h : Covers familyId targets (s.db.log i) s.db.committed.refreshTokens)
    (hij : i ≠ j) (took : Took rt s s' j c pc)
    (hold : ∀ r' ∈ s'.db.committed.refreshTokens, r'.familyId = familyId →
      ∃ r ∈ s.db.committed.refreshTokens, r.id = r'.id ∧ r.familyId = familyId ∧
        (r.revokedAt ≠ none → r'.revokedAt ≠ none)) :
    Covers familyId targets (s'.db.log i) s'.db.committed.refreshTokens := by
  rw [(took.others i hij).log]
  intro r' hr' hfam
  obtain ⟨r, hr, hid, hfam, hgrow⟩ := hold r' hr' hfam
  rw [← hid]
  rcases h r hr hfam with hrevoked | hrest
  · exact .inl (hgrow hrevoked)
  · exact .inr hrest

/-- Once all rows are revoked or marked, their locks keep rotations out. -/
theorem Covers.not_rotated {c : AuthCall} {pc : AuthPc} (hinv : s.Inv rt)
    (h : Covers familyId [] (s.db.log i) s.db.committed.refreshTokens)
    (hij : i ≠ j) (took : Took rt s s' j c pc) {row : RefreshToken}
    (hrow : row ∈ s.db.committed.refreshTokens) (hfam : row.familyId = familyId)
    (hunused : row.usedAt = none) (hlive : row.revokedAt = none)
    (hmem : row.use now ∈ s'.db.committed.refreshTokens) : False := by
  rcases h row hrow hfam with hrevoked | htarget | ⟨now', hmarked⟩
  · exact hrevoked hlive
  · exact absurd htarget List.not_mem_nil
  · -- the row is locked, so it is as it was
    have hheld : s.db.holder (.token row.id) = some i := hinv.locked i _ _ hmarked rfl
    have hsame : Table.lookup RefreshToken.id row.id s'.db.committed.refreshTokens
        = Table.lookup RefreshToken.id row.id s.db.committed.refreshTokens :=
      (took.others i hij).row _ hheld
    have hbefore := Table.lookup_of_mem hinv.wellFormed.ids hrow
    have hafter := Table.lookup_of_mem took.inv.wellFormed.ids hmem
    rw [hbefore] at hsame
    have husedrow : row.use now = row := Option.some.inj (hafter.symm.trans hsame)
    have hcontra : (row.use now).usedAt = none := by rw [husedrow, hunused]
    cases hcontra

/-- The family of a revoker is known. -/
theorem Inv.known (h : s.Inv rt) {c : AuthCall} {k : Revoker} (hc : s.calls i = some c)
    (hcause : Cause rt c.request s.db.committed.refreshTokens k) : k.familyId ∈ s.families := by
  cases k with
  | reuse familyId =>
    obtain ⟨_, _, r, hr, _, rfl, _⟩ := hcause
    exact h.families r hr
  | logout user =>
    obtain ⟨token, claims, hrequest, hclaims, rfl⟩ := hcause
    refine h.brought i c claims.fid hc ?_
    rw [hrequest, AuthRequest.families, hclaims]
    exact List.mem_singleton_self _

/-- **A revocation stays covered**, whatever the others do, as long as no rotation of
its family commits under its `UPDATE`. -/
theorem Inv.others_covered (h : s.Inv rt) (hs : s.step rt ev = some s')
    (hok : s.Undivided familyId ev) {pc : AuthPc}
    (hc : s.calls i = some ⟨request, now, .running pc⟩) (hcov : Covered familyId s i pc)
    {c : AuthCall} {pcj : AuthPc} (hij : i ≠ j) (hcaller : ev.caller = some j)
    (hj : s.calls j = some c) (hpcj : c.status = .running pcj) (took : Took rt s s' j c pcj) :
    Covered familyId s' i pc := by
  obtain ⟨c', hrequest, hcalls, hm⟩ := took.moves
  have hj' : s'.calls j = some c' := by
    rw [hcalls]
    exact Function.update_self ..
  have hself := h.running hc
  cases pc with
  | revokeRows k targets =>
    rintro rfl
    refine Covers.others (hcov rfl) hij took fun r' hr' hfam => ?_
    rcases hm.born (h.known hc hself.1) hr' hfam with hold | ⟨pair, rfl, hfid, hst, _⟩
    · exact hold
    · -- a rotation of this family: it would commit under the `UPDATE`
      have hrotates : s.Rotates ev k.familyId := by
        obtain ⟨requestj, nowj, statusj⟩ := c
        obtain rfl : statusj = _ := hpcj
        exact ⟨j, requestj, nowj, pair, hj, hfid, commits_of_ended hs hcaller hj' hst⟩
      exact absurd ⟨i, request, now, k, targets, hc, rfl⟩ (hok hrotates)
  | insertDenied user =>
    rintro rfl
    refine Covers.others (hcov rfl) hij took fun r' hr' hfam => ?_
    rcases hm.born (h.known hc hself.1) hr' hfam with
      hold | ⟨pair, _, _, _, row, hrow, hrowfam, hunused, hlive, now', hmem⟩
    · exact hold
    · exact (Covers.not_rotated h (hcov rfl) hij took hrow hrowfam hunused hlive hmem).elim
  | commitRevocation k =>
    rintro rfl
    refine Covers.others (hcov rfl) hij took fun r' hr' hfam => ?_
    rcases hm.born (h.known hc hself.1) hr' hfam with
      hold | ⟨pair, _, _, _, row, hrow, hrowfam, hunused, hlive, now', hmem⟩
    · exact hold
    · exact (Covers.not_rotated h (hcov rfl) hij took hrow hrowfam hunused hlive hmem).elim
  | _ => trivial

/-- Every revocation of the family that is under way covers it. -/
def AllCovered (familyId : String) (s : AuthState) : Prop :=
  ∀ i request now pc, s.calls i = some ⟨request, now, .running pc⟩ → Covered familyId s i pc

theorem AllCovered.of_start (h₀ : s.Start) : s.AllCovered familyId := by
  intro i request now pc hc
  rw [h₀.calls i] at hc
  cases hc

/-- A call does not begin in the middle of a revocation. -/
theorem entry_not_revokes {pc : AuthPc} (h : s.entry rt request = some (.running pc)) :
    revokes pc = false := by
  cases request with
  | logout token =>
    obtain ⟨claims, _, h⟩ := Option.map_eq_some_iff.mp h
    obtain rfl := AuthStatus.running.inj h
    rfl
  | authenticate token =>
    simp only [entry] at h
    split at h
    · cases h
    · obtain rfl := AuthStatus.running.inj (Option.some.inj h)
      rfl
  | _ =>
    obtain rfl := AuthStatus.running.inj (Option.some.inj h)
    rfl

/-- **The steps of undivided revocations keep the family covered.** -/
theorem AllCovered.step (hcov : s.AllCovered familyId) (h : s.Inv rt)
    (hok : s.Undivided familyId ev) (hs : s.step rt ev = some s') : s'.AllCovered familyId := by
  intro i request now pc hi
  cases h.stepped hs with
  | @moved _ _ j requestj nowj pcj hcaller hj took =>
    obtain ⟨_, _, hcalls, _⟩ := took.moves
    have hfound := hi
    rw [hcalls] at hfound
    rcases Slots.found_cases_some hfound with ⟨rfl, -⟩ | ⟨hij, hc⟩
    · exact h.own_covered hs hcaller hj (hcov i _ _ _ hj) hi
    · exact h.others_covered hs hok hc (hcov i _ _ _ hc) hij hcaller hj rfl took
  | @began j requestj status hj hentry =>
    rcases Slots.found_cases_some hi with ⟨rfl, hcall⟩ | ⟨-, hold⟩
    · obtain ⟨_, _, rfl⟩ := AuthCall.mk.inj hcall
      exact covered_of_not_revokes (entry_not_revokes hentry)
    · have := hcov i request now pc hold
      cases pc with
      | revokeRows k targets => exact this
      | insertDenied user => exact this
      | commitRevocation k => exact this
      | _ => trivial
  | ticked happ hdb hahead =>
    have := hcov i request now pc hi
    cases pc with
    | revokeRows k targets => exact this
    | insertDenied user => exact this
    | commitRevocation k => exact this
    | _ => trivial

/-! ## What COMMIT of a revocation does -/

/-- The family is over: its rows are revoked, and its id is taken. -/
structure Over (familyId : String) (s : AuthState) : Prop where
  revoked : ∀ r ∈ s.db.committed.refreshTokens, r.familyId = familyId → r.revokedAt ≠ none
  known : familyId ∈ s.families

/-- A COMMIT of a revocation of the family: of a `logout`, or of a `refresh` that
met a used token. -/
def Revokes (s : AuthState) (ev : AuthEvent) (familyId : String) : Prop :=
  ∃ i request now k, s.calls i = some ⟨request, now, .running (.commitRevocation k)⟩ ∧
    k.familyId = familyId ∧ ((∃ d, ev = .exec i d) ∨ ev = .loseAnswer i)

/-- A family that is covered is over after COMMIT. -/
theorem Inv.over_of_covers (h : s.Inv rt) {k : Revoker}
    (hc : s.calls i = some ⟨request, now, .running (.commitRevocation k)⟩)
    (hcov : Covers k.familyId [] (s.db.log i) s.db.committed.refreshTokens) :
    ∀ r ∈ (s.view i).refreshTokens, r.familyId = k.familyId → r.revokedAt ≠ none := by
  -- the log of a revocation is its marked rows and the denied token
  obtain ⟨_, ids, denied, _, _, hlog⟩ := h.running hc
  have hview : (s.view i).refreshTokens = revokeAll ids now s.db.committed.refreshTokens := by
    rw [view_of_log hlog, List.foldl_append, foldl_revocations, foldl_denials]
  rw [hview]
  intro r' hr' hfam
  obtain ⟨r, hr, rfl⟩ := List.mem_map.mp hr'
  by_cases hmem : r.id ∈ ids
  · rw [if_pos hmem]
    exact Option.some_ne_none _
  · rw [if_neg hmem] at hfam ⊢
    rcases hcov r hr hfam with hrevoked | htarget | ⟨now', hmarked⟩
    · exact hrevoked
    · exact absurd htarget List.not_mem_nil
    · rw [hlog] at hmarked
      rcases List.mem_append.mp hmarked with hmarked | hmarked
      · obtain ⟨id, hid, heq⟩ := List.mem_map.mp hmarked
        obtain rfl := (AuthChange.setRevoked.inj heq).1
        exact absurd hid hmem
      · obtain ⟨row, _, heq⟩ := List.mem_map.mp hmarked
        cases heq

/-- A covered family is over once its revocation has committed. -/
theorem Inv.revokes_over (h : s.Inv rt) (hcov : s.AllCovered familyId) (hs : s.step rt ev = some s')
    (hrevokes : s.Revokes ev familyId) : s'.Over familyId := by
  obtain ⟨i, request, now, k, hc, rfl, hev⟩ := hrevokes
  have hover := h.over_of_covers hc (hcov i _ _ _ hc rfl)
  have hknown := h.known hc (h.running hc).1
  rcases hev with ⟨d, rfl⟩ | rfl
  · simp only [step, hc] at hs
    cases k with
    | reuse familyId =>
      obtain rfl := Option.some.inj hs
      exact ⟨hover, hknown⟩
    | logout user =>
      obtain rfl := Option.some.inj hs
      exact ⟨hover, hknown⟩
  · simp only [step, hc] at hs
    split_ifs at hs
    obtain rfl := Option.some.inj hs
    exact ⟨hover, hknown⟩

/-- **What is over stays over.** -/
theorem Stepped.over (hs : Stepped rt s ev s') (h : s.Over familyId) : s'.Over familyId := by
  cases hs with
  | moved hcaller hc took =>
    obtain ⟨c', _, _, hm⟩ := took.moves
    refine ⟨?_, took.families _ h.known⟩
    intro r' hr' hfam
    -- a row of the family was there before, or comes from a rotation of a live row
    rcases hm.born h.known hr' hfam with ⟨r, hr, _, hrfam, hgrow⟩ | ⟨_, _, _, _, row, hrow, hrest⟩
    · exact hgrow (h.revoked r hr hrfam)
    · exact absurd hrest.2.2.1 (h.revoked row hrow hrest.1)
  | began hc hentry => exact ⟨h.revoked, List.mem_append_right _ h.known⟩
  | ticked happ hdb hahead => exact ⟨h.revoked, h.known⟩

/-- The family is over, and no call that began after `s₂` has exchanged a token of it. -/
structure OverSince (rt : AuthRuntime) (familyId : String) (s₂ s : AuthState) : Prop where
  inv : s.Inv rt
  isOver : s.Over familyId
  none : ∀ j rawToken, s₂.calls j = none → s.Exchanged j rawToken →
    ∃ r ∈ s.db.committed.refreshTokens, r.tokenHash = rt.hash rawToken ∧ r.familyId ≠ familyId

theorem OverSince.step {s₂ : AuthState} (h : OverSince rt familyId s₂ s)
    (hs : s.step rt ev = some s') : OverSince rt familyId s₂ s' := by
  have hst := h.inv.stepped hs
  refine ⟨hst.inv h.inv, hst.over h.isOver, ?_⟩
  intro j rawToken hj hex
  rcases hst.exchanged hex with hex | ⟨_, row, hrow, hhash, _, hlive, now, hmem⟩
  -- the call had exchanged it before
  · obtain ⟨r, hr, hhash, hfam⟩ := h.none j rawToken hj hex
    obtain ⟨r', hr', _, hhash', hfam', _⟩ := hst.grow r hr
    exact ⟨r', hr', hhash'.trans hhash, hfam'.trans_ne hfam⟩
  -- the call exchanges it now: the row is live, so not of the family
  · refine ⟨row.use now, hmem, hhash, ?_⟩
    intro hfam
    exact h.isOver.revoked row hrow hfam hlive

end AuthState

/-! ## Revocation -/

open AuthState

theorem allCovered_run {s₀ s : AuthState} {as : List AuthEvent} {familyId : String}
    (h₀ : s₀.Start) (hok : (auths rt).Meets (Undivided familyId) s₀ as)
    (hrun : (auths rt).run s₀ as = some s) : s.Inv rt ∧ s.AllCovered familyId := by
  have hstep : ∀ s ev s', (s.Inv rt ∧ s.AllCovered familyId) → s.Undivided familyId ev →
      (auths rt).step s ev = some s' → s'.Inv rt ∧ s'.AllCovered familyId := by
    intro s ev s' h hok hs
    exact ⟨(h.1.stepped hs).inv h.1, h.2.step h.1 hok hs⟩
  exact System.Meets.run hstep hok ⟨h₀.inv, .of_start h₀⟩ hrun

/-- **A revocation is final**, if no rotation of its family commits under its
`UPDATE`: after its COMMIT every row of the family is revoked, whatever follows, and
no `refresh` that begins later with a token of the family returns a pair. -/
theorem family_revocation_final {s₀ s₁ s₂ t : AuthState} {as bs : List AuthEvent}
    {ev : AuthEvent} {familyId : String} (h₀ : s₀.Start)
    (hok : (auths rt).Meets (Undivided familyId) s₀ as)
    (hrun : (auths rt).run s₀ as = some s₁)
    (hrevokes : s₁.Revokes ev familyId) (hstep : (auths rt).step s₁ ev = some s₂)
    (hrest : (auths rt).run s₂ bs = some t) :
    (∀ r ∈ t.db.committed.refreshTokens, r.familyId = familyId → r.revokedAt ≠ none) ∧
      ∀ j rawToken, s₂.calls j = none → t.Exchanged j rawToken →
        ∀ r ∈ t.db.committed.refreshTokens, r.tokenHash = rt.hash rawToken →
          r.familyId ≠ familyId := by
  obtain ⟨hinv, hcov⟩ := allCovered_run h₀ hok hrun
  have hstart : OverSince rt familyId s₂ s₂ := by
    refine ⟨(hinv.stepped hstep).inv hinv, hinv.revokes_over hcov hstep hrevokes, ?_⟩
    rintro j rawToken hj ⟨now, pair, hex⟩
    rw [hj] at hex
    cases hex
  have hend : OverSince rt familyId s₂ t :=
    System.Invariant.run (fun _ _ _ h hs => h.step hs) hstart hrest
  refine ⟨hend.isOver.revoked, ?_⟩
  intro j rawToken hj hex r hr hhash
  obtain ⟨r', hr', hhash', hfam⟩ := hend.none j rawToken hj hex
  obtain rfl := List.inj_on_of_nodup_map hend.inv.wellFormed.hashes hr hr'
    (hhash.trans hhash'.symm)
  exact hfam

/-- The event is no COMMIT of a rotation. -/
def noRotation (s : AuthState) : AuthEvent → Bool
  | .exec i _ | .loseAnswer i =>
    match s.calls i with
    | some ⟨_, _, .running (.commitRotation _)⟩ => false
    | _ => true
  | _ => true

theorem undivided_of_noRotation {s : AuthState} {ev : AuthEvent} {familyId : String}
    (h : noRotation s ev = true) : s.Undivided familyId ev := by
  rintro ⟨j, request, now, pair, hj, _, ⟨d, rfl⟩ | rfl⟩
  · simp [noRotation, hj] at h
  · simp [noRotation, hj] at h

/-- The user of the access token logs out: up to the COMMIT. -/
def demoLogout : List AuthEvent := [.call 1 (.logout "access")] ++ demoSteps 1 5 1 "r3"

/-- The access token's user. -/
def demoUser : AuthUser := ⟨"1", .customer, "j", 100, "f"⟩

theorem demoLogout_final :
    ∃ s₁ s₂ t, (auths demoAuthRuntime).run demoService demoLogout = some s₁ ∧
      s₁.Revokes (.exec 1 (demoDraw 1 "r3")) "f" ∧
      (auths demoAuthRuntime).step s₁ (.exec 1 (demoDraw 1 "r3")) = some s₂ ∧
      (auths demoAuthRuntime).run s₂ ([.call 2 (.refresh "r1")] ++ demoSteps 2 4 2 "r2")
        = some t ∧
      (∀ r ∈ t.db.committed.refreshTokens, r.familyId = "f" → r.revokedAt ≠ none) ∧
      ∀ j rawToken, s₂.calls j = none → t.Exchanged j rawToken →
        ∀ r ∈ t.db.committed.refreshTokens, r.tokenHash = rawToken → r.familyId ≠ "f" := by
  have hsome : ((auths demoAuthRuntime).run demoService demoLogout).any (fun s₁ =>
      (s₁.calls 1 = some ⟨.logout "access", 40000000,
        .running (.commitRevocation (.logout demoUser))⟩ : Bool) &&
      ((auths demoAuthRuntime).step s₁ (.exec 1 (demoDraw 1 "r3"))).any fun s₂ =>
        ((auths demoAuthRuntime).run s₂
          ([.call 2 (.refresh "r1")] ++ demoSteps 2 4 2 "r2")).isSome) = true := by
    decide +kernel
  have hok : (auths demoAuthRuntime).Meets (Undivided "f") demoService demoLogout :=
    .of_checks (fun _ _ => undivided_of_noRotation) (by decide +kernel)
  obtain ⟨s₁, hrun, h⟩ := (Option.any_eq_true _ _).mp hsome
  obtain ⟨hcall, h⟩ := Bool.and_eq_true_iff.mp h
  obtain ⟨s₂, hstep, h⟩ := (Option.any_eq_true _ _).mp h
  obtain ⟨t, hrest⟩ := Option.isSome_iff_exists.mp h
  have hrevokes : s₁.Revokes (.exec 1 (demoDraw 1 "r3")) "f" :=
    ⟨1, _, _, _, of_decide_eq_true hcall, rfl, .inl ⟨_, rfl⟩⟩
  exact ⟨s₁, s₂, t, hrun, hrevokes, hstep, hrest,
    family_revocation_final demoService_start hok hrun hrevokes hstep hrest⟩

/-- A rotation of `r1` to `r2` is about to commit when a logout takes the snapshot
of its `UPDATE`; then both commit, one after the other. -/
def demoMissed : List AuthEvent :=
  [.call 0 (.refresh "r1")] ++ demoSteps 0 6 2 "r2" ++
    [.call 1 (.logout "access")] ++ demoSteps 1 2 1 "r3" ++
    demoSteps 0 1 2 "r2" ++ demoSteps 1 3 1 "r3"

/-- **A rotation can slip through a revocation**: the logout has committed, and the
successor it missed is exchanged by a call that begins later. -/
theorem revocation_misses_successor :
    ¬ ∀ (rt : AuthRuntime) (s₀ s₁ s₂ t : AuthState) (as bs : List AuthEvent) (ev : AuthEvent)
        (familyId : String), s₀.Start → (auths rt).run s₀ as = some s₁ →
      s₁.Revokes ev familyId → (auths rt).step s₁ ev = some s₂ →
      (auths rt).run s₂ bs = some t →
      (∀ r ∈ t.db.committed.refreshTokens, r.familyId = familyId →
        r.revokedAt ≠ none ∨ r.usedAt ≠ none) ∧
      ∀ j rawToken, s₂.calls j = none → t.Exchanged j rawToken →
        ∀ r ∈ t.db.committed.refreshTokens, r.tokenHash = rt.hash rawToken →
          r.familyId ≠ familyId := by
  intro hclaim
  have hsome : ((auths demoAuthRuntime).run demoService demoMissed).any (fun s₁ =>
      (s₁.calls 1 = some ⟨.logout "access", 40000000,
        .running (.commitRevocation (.logout demoUser))⟩ : Bool) &&
      ((auths demoAuthRuntime).step s₁ (.exec 1 (demoDraw 1 "r3"))).any fun s₂ =>
        (s₂.calls 2 = none : Bool) &&
        ((auths demoAuthRuntime).run s₂
          ([.call 2 (.refresh "r2")] ++ demoSteps 2 7 3 "r3")).any fun t =>
            (t.calls 2 = some ⟨.refresh "r2", 40000000,
              .ended (.pair ⟨⟨"1", .customer, "k", 100, "f"⟩, "r3", 60⟩)⟩ : Bool) &&
            t.db.committed.refreshTokens.any fun r =>
              r.tokenHash = "r2" && r.familyId = "f") = true := by
    decide +kernel
  obtain ⟨s₁, hrun, h⟩ := (Option.any_eq_true _ _).mp hsome
  obtain ⟨hcall, h⟩ := Bool.and_eq_true_iff.mp h
  obtain ⟨s₂, hstep, h⟩ := (Option.any_eq_true _ _).mp h
  obtain ⟨hnew, h⟩ := Bool.and_eq_true_iff.mp h
  obtain ⟨t, hrest, h⟩ := (Option.any_eq_true _ _).mp h
  obtain ⟨hpair, h⟩ := Bool.and_eq_true_iff.mp h
  obtain ⟨r, hr, h⟩ := List.any_eq_true.mp h
  obtain ⟨hhash, hfam⟩ := Bool.and_eq_true_iff.mp h
  have hrevokes : s₁.Revokes (.exec 1 (demoDraw 1 "r3")) "f" :=
    ⟨1, _, _, _, of_decide_eq_true hcall, rfl, .inl ⟨_, rfl⟩⟩
  exact (hclaim _ _ _ _ _ _ _ _ _ demoService_start hrun hrevokes hstep hrest).2 2 "r2"
    (of_decide_eq_true hnew) ⟨_, _, of_decide_eq_true hpair⟩ r hr (of_decide_eq_true hhash)
    (of_decide_eq_true hfam)

end Marketplace
