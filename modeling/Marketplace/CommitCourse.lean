import Marketplace.Commit
import Marketplace.PartListing

/-!
# The course of a commit

A commit that is not cut short reads its row, lists the parts page by page and compares what it
has read with the plan: either it is refused for what is missing, or it sends
`CompleteMultipartUpload` with the whole plan. Two things come between: the row may be COMPLETED
already, and the upload may be over by the time its parts are asked for.

A page ends beyond the marker it began at, and only planned numbers are stored, so the listing
has no more pages than the plan has parts.
-/

namespace Marketplace

/-- The pending request of call `i` runs. -/
def FileEvent.runs (i : ℕ) : FileEvent → Bool
  | .exec j _ => j = i
  | _ => false

/-- The commit has come past `CompleteMultipartUpload`. -/
def Progress.Past : Progress CommitPc → Prop
  | .running (.head _) | .running (.update _ _) => True
  | .ended (.refused e) => e.code ≠ "parts-missing"
  | .ended (.committed _) | .ended (.thrown _) => True
  | _ => False

section Courses

variable (rt : FileRuntime) (s₀ : FileService) (as : List FileEvent) (i : ℕ) (user : AuthUser)

/-- The `SELECT` of the commit has read this row. -/
def ReadRow (row : FileRow) : Prop :=
  ∃ as₁ d as₂ t, as = as₁ ++ .exec i d :: as₂ ∧ (fileServices rt).run s₀ as₁ = some t ∧
    t.calls i = some (.commit user row.id (.running .select)) ∧ row ∈ t.files

/-- The commit has sent `CompleteMultipartUpload` of these parts, and S3 has done as it was
asked, or nothing. -/
def SentParts (id key : String) (u : UploadId) (parts : List S3Part) : Prop :=
  ∃ as₁ d as₂ t t' row, as = as₁ ++ .exec i d :: as₂ ∧ (fileServices rt).run s₀ as₁ = some t ∧
    t.calls i = some (.commit user id (.running (.complete row u parts))) ∧
    (fileServices rt).step t (.exec i d) = some t' ∧
    t'.s3 = (t.s3.completeMultipartUpload key u (namedParts parts) d.etag).toOption.getD t.s3

/-- How far a commit of the file has come with `n` requests. -/
inductive Course (r : FileRow) (u : UploadId) (partSize : ℕ) (s : FileService) (n : ℕ) :
    Progress CommitPc → Prop
  | select (hn : n = 0) : Course r u partSize s n (.running .select)
  | listing {row : FileRow} {marker : ℕ} {out : List S3Part} (hsame : row.Same r)
      (hread : Listed rt s₀ as i row u partSize marker out)
      (hmarker : marker ≤ partCount r.size partSize) (hn : n ≤ 1 + marker) :
      Course r u partSize s n (.running (.listParts row u partSize marker out))
  | completed {row : FileRow} (hsame : row.Same r) (hread : ReadRow rt s₀ as i user row)
      (hdone : row.status = .completed) : Course r u partSize s n (.ended (.committed row.view))
  | gone (hover : s.s3.Over u) : Course r u partSize s n (.ended (.thrown (.s3 .noSuchUpload)))
  | missing {row : FileRow} {out : List S3Part} (hsame : row.Same r)
      (hread : ListedAll rt s₀ as i row u partSize out)
      (hmissing : missingOf r.size partSize (lengthOf out) ≠ []) :
      Course r u partSize s n
        (.ended (.refused (partsMissing (missingOf r.size partSize (lengthOf out)))))
  | complete {row : FileRow} {out : List S3Part} (hsame : row.Same r)
      (hread : ListedAll rt s₀ as i row u partSize out)
      (hmissing : missingOf r.size partSize (lengthOf out) = [])
      (hn : n ≤ partCount r.size partSize + 2) :
      Course r u partSize s n (.running (.complete row u (goodParts r.size partSize out)))
  | sent {row : FileRow} {out : List S3Part} {p : Progress CommitPc} (hsame : row.Same r)
      (hread : ListedAll rt s₀ as i row u partSize out)
      (hmissing : missingOf r.size partSize (lengthOf out) = [])
      (hsent : SentParts rt s₀ as i user r.id r.key u (goodParts r.size partSize out))
      (hpast : p.Past) : Course r u partSize s n p

end Courses

/-! ## Where parts are missing -/

section Refusals

variable {rt : FileRuntime} {service service' : FileService} {i : ℕ} {user : AuthUser} {id : String}
  {d : FileDraw} {error : HttpError}

theorem owned_code {files : List FileRow} (h : owned files user id = .error error) :
    error.code ≠ "parts-missing" := by
  simp only [owned] at h
  split_ifs at h
  · split at h
    · obtain rfl := Except.error.inj h
      decide
    · split_ifs at h
      obtain rfl := Except.error.inj h
      simp
  · obtain rfl := Except.error.inj h
    decide

/-- Where a commit is refused because parts are missing. -/
theorem commitExec_missing {pc : CommitPc} (hs : service.commitExec i user id d pc = some service')
    (hc : service'.calls i = some (.commit user id (.ended (.refused error))))
    (hcode : error.code = "parts-missing") : ∃ row u partSize marker out page,
      pc = .listParts row u partSize marker out ∧
      service.s3.listParts row.key u marker d.page = .ok (page, false) ∧
      missingParts row.size partSize (goodParts row.size partSize (out ++ page)) ≠ [] := by
  have hset : ∀ {t : FileService} {p}, t.setCall i (.commit user id p) = service' →
      p = .ended (.refused error) := by
    rintro t p rfl
    rw [FileService.setCall_self] at hc
    cases hc
    rfl
  cases pc with
  | select =>
    simp only [FileService.commitExec] at hs
    split at hs
    · rename_i e howned
      cases hset (Option.some.inj hs)
      exact absurd hcode (owned_code howned)
    · split_ifs at hs
      · cases hset (Option.some.inj hs)
      · split at hs
        · cases hset (Option.some.inj hs)
        · split at hs <;> cases hset (Option.some.inj hs)
  | listParts row u partSize marker out =>
    simp only [FileService.commitExec] at hs
    split_ifs at hs
    split at hs
    · cases hset (Option.some.inj hs)
    · rename_i page truncated hlist
      split_ifs at hs with hmore
      · cases hset (Option.some.inj hs)
      · obtain rfl := Bool.not_eq_true _ ▸ hmore
        split at hs
        · cases hset (Option.some.inj hs)
        · rename_i hne
          exact ⟨row, u, partSize, marker, out, page, rfl, hlist, hne⟩
  | complete row u parts =>
    simp only [FileService.commitExec] at hs
    split at hs <;> cases hset (Option.some.inj hs)
  | head row =>
    simp only [FileService.commitExec] at hs
    split at hs
    · cases hset (Option.some.inj hs)
      simp at hcode
    · split_ifs at hs
      · cases hset (Option.some.inj hs)
        simp [sizeMismatch] at hcode
      · cases hset (Option.some.inj hs)
  | update row etag =>
    simp only [FileService.commitExec] at hs
    split at hs <;> cases hset (Option.some.inj hs)

/-- Only its own request ends a commit with a refusal. -/
theorem refused_step (hinv : service.Inv) {a : FileEvent} (hs : service.step rt a = some service')
    (hc : service'.calls i = some (.commit user id (.ended (.refused error)))) :
    service.calls i = some (.commit user id (.ended (.refused error))) ∨
      ∃ d pc, a = .exec i d ∧ service.calls i = some (.commit user id (.running pc)) ∧
        service.commitExec i user id d pc = some service' := by
  by_cases ha : a.call = some i
  · right
    have hset : ∀ {t : FileService} {c}, t.setCall i c = service' →
        c = .commit user id (.ended (.refused error)) := by
      rintro t c rfl
      rw [FileService.setCall_self] at hc
      exact Option.some.inj hc
    have hfails : ∀ {t : FileService} {c}, t.fails i c = some service' ∨
        t.crashes i c = some service' → False := by
      rintro t (⟨user, body, key, pc | o⟩ | ⟨user, id, pc | o⟩ | ⟨user, id, pc | o⟩) (hs | hs)
      · obtain hs := Option.some.inj hs
        cases pc <;> cases hset hs
      all_goals first
        | cases hs; done
        | cases hset (Option.some.inj hs)
    cases a with
    | intent j user body key | parts j user id | commit j user id =>
      obtain rfl := Option.some.inj ha
      obtain ⟨-, rfl⟩ := FileService.begin_eq_some hs
      cases hset rfl
    | exec j d =>
      obtain rfl := Option.some.inj ha
      obtain ⟨c, hcall, hexec⟩ := Option.bind_eq_some_iff.mp hs
      have hself := hinv.calls j
      rw [hcall] at hself
      rcases c with ⟨user, body, key, pc | o⟩ | ⟨user, id, pc | o⟩ | ⟨user, id, pc | o⟩
      · obtain ⟨e, p, -, rfl, -⟩ := FileService.intentExec_effect hself hexec
        cases hset rfl
      · cases hexec
      · obtain ⟨e, p, -, rfl, -⟩ := FileService.partsExec_effect hself hexec
        cases hset rfl
      · cases hexec
      · obtain ⟨e, p, -, heq, -, -⟩ := FileService.commitExec_effect hinv hcall hexec
        cases hset heq.symm
        exact ⟨d, pc, rfl, hcall, hexec⟩
      · cases hexec
    | fail j =>
      obtain rfl := Option.some.inj ha
      obtain ⟨c, -, hs⟩ := Option.bind_eq_some_iff.mp hs
      exact (hfails (.inl hs)).elim
    | loseAnswer j d =>
      obtain rfl := Option.some.inj ha
      obtain ⟨c, -, hs⟩ := Option.bind_eq_some_iff.mp hs
      obtain ⟨s₁, -, hs⟩ := Option.bind_eq_some_iff.mp hs
      exact (hfails (.inl hs)).elim
    | crash j =>
      obtain rfl := Option.some.inj ha
      obtain ⟨c, -, hs⟩ := Option.bind_eq_some_iff.mp hs
      exact (hfails (.inr hs)).elim
    | put | tick => cases ha
  · left
    rw [← (hinv.stepped hs).calls_ne ha]
    exact hc

end Refusals

/-! ## The course -/

section Steps

variable {rt : FileRuntime} {s₀ s s' t : FileService} {as bs : List FileEvent} {i : ℕ}
  {user : AuthUser} {id key : String} {r row : FileRow} {u : UploadId} {partSize marker n : ℕ}
  {out page : List S3Part} {p : Progress CommitPc} {d : FileDraw}

theorem ReadRow.more (h : ReadRow rt s₀ as i user row) (a : FileEvent) :
    ReadRow rt s₀ (as ++ [a]) i user row := by
  obtain ⟨as₁, d, as₂, t, rfl, hrest⟩ := h
  exact ⟨as₁, d, as₂ ++ [a], t, by simp, hrest⟩

theorem SentParts.more {parts : List S3Part} (h : SentParts rt s₀ as i user id key u parts)
    (a : FileEvent) : SentParts rt s₀ (as ++ [a]) i user id key u parts := by
  obtain ⟨as₁, d, as₂, t, t', row, rfl, hrest⟩ := h
  exact ⟨as₁, d, as₂ ++ [a], t, t', row, by simp, hrest⟩

/-- **What others do does not set a commit back.** -/
theorem Course.more (h : Course rt s₀ as i user r u partSize s n p) (hg : s.Grows s')
    (a : FileEvent) : Course rt s₀ (as ++ [a]) i user r u partSize s' n p := by
  cases h with
  | select hn => exact .select hn
  | listing hsame hread hmarker hn => exact .listing hsame (hread.more a) hmarker hn
  | completed hsame hread hdone => exact .completed hsame (hread.more a) hdone
  | gone hover => exact .gone (hover.grows hg.s3)
  | missing hsame hread hmissing => exact .missing hsame (hread.more a) hmissing
  | complete hsame hread hmissing hn => exact .complete hsame (hread.more a) hmissing hn
  | sent hsame hread hmissing hsent hpast =>
    exact .sent hsame (hread.more a) hmissing (hsent.more a) hpast

/-- The parts of an upload that is there cannot be listed only when it is over. -/
theorem S3.over_of_listParts {s3 : S3} {x : Upload} {e : S3Error} (hx : s3.uploads u = some x)
    (hkey : x.key = key) (h : s3.listParts key u marker n = .error e) :
    e = .noSuchUpload ∧ s3.Over u := by
  unfold S3.listParts at h
  split at h
  · rename_i hfind
    obtain rfl := Except.error.inj h
    refine ⟨rfl, x, hx, fun hactive => ?_⟩
    rw [S3.find_eq_some.mpr ⟨hx, hkey, hactive⟩] at hfind
    cases hfind
  · cases h

/-- The marker of the next page lies beyond that of the page, and has its place in the plan. -/
theorem Listed.next_marker (h : Listed rt s₀ as i row u partSize marker out) (hinv : s.Inv)
    (hplan : s.Planned) (hknown : Known s.files row) (hn : 0 < n)
    (hlist : s.s3.listParts row.key u marker n = .ok (page, true)) :
    marker < (page.getLast?.map S3Part.partNumber).getD 0 ∧
      (page.getLast?.map S3Part.partNumber).getD 0 ≤ partCount row.size partSize := by
  obtain ⟨x, hx, -⟩ := listParts_eq_ok hlist
  have hparts := (hplan.parts u x (S3.find_eq_some.mp hx).1).1
  obtain ⟨hasc, hlt, hpage⟩ := mem_page_iff hn hlist hx hparts rfl
  refine ⟨hlt, ?_⟩
  rcases hlast : page.getLast? with _ | last
  · rw [hlast] at hlt
    exact absurd hlt (Nat.not_lt_zero _)
  · have hmem : ∀ p ∈ page, p ∈ s.s3.stored u ∧ marker < p.partNumber := by
      intro p hp
      rw [stored_of_find hx]
      exact ⟨((hpage p).mp hp).1, ((hpage p).mp hp).2.1⟩
    obtain ⟨-, hplanned⟩ := h.append hinv hplan hknown hlist hasc hmem
    have hin : last ∈ out ++ page := List.mem_append_right _ (List.mem_of_getLast? hlast)
    exact (mem_partNumbers.mp (hplanned last hin)).2

/-- **The request of a commit takes it on.** -/
theorem Course.exec {pc : CommitPc} (h : Course rt s₀ as i user r u partSize s n (.running pc))
    (hinv : s.Inv) (hplan : s.Planned) (hrun : (fileServices rt).run s₀ as = some s)
    (hc : s.calls i = some (.commit user r.id (.running pc))) (hknown : Known s.files r)
    (hu : r.uploadId = some u) (hallowed : r.ownerId = user.id ∨ user.role = .admin)
    (hsize : computePartSize r.size = some partSize)
    (hs : s.commitExec i user r.id d pc = some s') :
    ∃ p, s'.calls i = some (.commit user r.id p) ∧
      Course rt s₀ (as ++ [.exec i d]) i user r u partSize s' (n + 1) p := by
  have hpc : s.CommitPcInv pc := by
    have := hinv.calls i
    rwa [hc] at this
  generalize hp : Progress.running pc = p at h
  cases h with
  | select hn =>
    obtain rfl := Progress.running.inj hp
    obtain ⟨row, hrow, hsame⟩ := hknown
    have howned : owned s.files user r.id = .ok row := by
      rw [hsame.id]
      refine FileService.owned_allowed hinv.stores hrow ?_
      rwa [← hsame.ownerId]
    simp only [FileService.commitExec, howned, ← hsame.uploadId, hu, ← hsame.size, hsize] at hs
    split_ifs at hs with hdone
    · obtain rfl := Option.some.inj hs
      rw [hsame.id] at hc
      exact ⟨_, FileService.setCall_self _,
        .completed hsame ⟨as, d, [], s, rfl, hrun, hc, hrow⟩ hdone⟩
    · obtain rfl := Option.some.inj hs
      rw [hsame.size] at hsize
      exact ⟨_, FileService.setCall_self _,
        .listing hsame (.start hsize) (Nat.zero_le _) (by omega)⟩
  | listing hsame hread hmarker hn =>
    obtain rfl := Progress.running.inj hp
    obtain ⟨hknown', hu'⟩ := hpc
    have hlisting : (s.calls i).any FileCall.listing = true := by
      rw [hc]
      rfl
    rename_i row marker out
    rcases hlist : s.s3.listParts row.key u marker d.page with e | ⟨page, truncated⟩
    · simp only [FileService.commitExec, hlist] at hs
      split_ifs at hs
      obtain rfl := Option.some.inj hs
      obtain ⟨r₀, hr₀, hsame₀⟩ := hknown'
      obtain ⟨x, hx, hkey⟩ := hinv.stores.uploads r₀ hr₀ u (hsame₀.uploadId.symm.trans hu')
      obtain ⟨rfl, hover⟩ := S3.over_of_listParts hx (hkey.trans hsame₀.key.symm) hlist
      exact ⟨_, FileService.setCall_self _, .gone hover⟩
    · cases truncated with
      | true =>
        simp only [FileService.commitExec, hlist] at hs
        split_ifs at hs with hpage
        obtain rfl := Option.some.inj hs
        obtain ⟨hlt, hle⟩ := hread.next_marker hinv hplan hknown' hpage hlist
        rw [← hsame.size] at hle
        exact ⟨_, FileService.setCall_self _,
          .listing hsame (hread.next hinv hplan hrun hlisting hknown' hpage hlist) hle (by omega)⟩
      | false =>
        have hall := hread.last (a := .exec i d) hinv hplan hrun hlisting hknown' hlist
        obtain rfl := commitExec_last hall.ascending hlist hs
        refine ⟨_, FileService.setCall_self _, ?_⟩
        rw [← hsame.size]
        split_ifs with hnil
        · exact .complete hsame hall hnil (by omega)
        · exact .missing hsame hall hnil
  | complete hsame hread hmissing hn =>
    obtain rfl := Progress.running.inj hp
    rename_i row out
    have hsent : s'.s3 = (s.s3.completeMultipartUpload r.key u
        (namedParts (goodParts r.size partSize out)) d.etag).toOption.getD s.s3 →
        SentParts rt s₀ (as ++ [.exec i d]) i user r.id r.key u (goodParts r.size partSize out) :=
      fun hs3 =>
        ⟨as, d, [], s, s', row, rfl, hrun, hc, Option.bind_eq_some_iff.mpr ⟨_, hc, hs⟩, hs3⟩
    rw [hsame.key] at hsent
    simp only [FileService.commitExec] at hs
    split at hs
    all_goals
      rename_i hcomplete
      rw [hcomplete] at hsent
      obtain rfl := Option.some.inj hs
      rw [← hsame.key] at hsent
      exact ⟨_, FileService.setCall_self _,
        .sent hsame (hread.more _) hmissing (hsent rfl) trivial⟩
  | sent hsame hread hmissing hsent hpast =>
    subst hp
    have hsent' := hsent.more (.exec i d)
    have hread' := hread.more (.exec i d)
    cases pc with
    | select | listParts | complete => exact hpast.elim
    | head row =>
      simp only [FileService.commitExec] at hs
      split at hs
      · obtain rfl := Option.some.inj hs
        refine ⟨_, FileService.setCall_self _, .sent hsame hread' hmissing hsent' ?_⟩
        have hcode : "object-missing" ≠ "parts-missing" := by decide
        exact hcode
      · split_ifs at hs
        · obtain rfl := Option.some.inj hs
          refine ⟨_, FileService.setCall_self _, .sent hsame hread' hmissing hsent' ?_⟩
          have hcode : "size-mismatch" ≠ "parts-missing" := by decide
          exact hcode
        · obtain rfl := Option.some.inj hs
          exact ⟨_, FileService.setCall_self _, .sent hsame hread' hmissing hsent' trivial⟩
    | update row etag =>
      simp only [FileService.commitExec] at hs
      split at hs
      · obtain rfl := Option.some.inj hs
        exact ⟨_, FileService.setCall_self _, .sent hsame hread' hmissing hsent' trivial⟩
      · obtain rfl := Option.some.inj hs
        exact ⟨_, FileService.setCall_self _, .sent hsame hread' hmissing hsent' trivial⟩
  | completed | gone | missing => cases hp

/-- A row stays. -/
theorem known_run {row : FileRow} (hinv : s.Inv) (hknown : Known s.files row)
    (hrun : (fileServices rt).run s bs = some t) : Known t.files row := by
  have hkept : (fileServices rt).Invariant fun s => s.Inv ∧ ∃ r ∈ s.files, r.Same row := by
    rintro s a s' ⟨hinv, hknown⟩ hs
    have hstep := hinv.stepped hs
    exact ⟨hstep.inv hinv, Known.grows hknown hstep.grows⟩
  exact (hkept.run ⟨hinv, hknown⟩ hrun).2

/-- The call has asked nothing yet. -/
def FileCall.Begins : FileCall → Prop
  | .intent _ _ _ p => p = .running .begin
  | .parts _ _ p => p = .running .select
  | .commit _ _ p => p = .running .select

/-- A call that was not there begins. -/
theorem call_begins (hinv : s.Inv) {a : FileEvent} (hs : s.step rt a = some s')
    (hnone : s.calls i = none) {c : FileCall} (hc : s'.calls i = some c) : c.Begins := by
  have hcall : a.call = some i := by
    by_contra hne
    rw [(hinv.stepped hs).calls_ne hne, hnone] at hc
    cases hc
  cases a with
  | intent j user body key | parts j user id | commit j user id =>
    obtain rfl := Option.some.inj hcall
    obtain ⟨-, rfl⟩ := FileService.begin_eq_some hs
    obtain rfl := Option.some.inj ((FileService.setCall_self _).symm.trans hc)
    exact rfl
  | exec j d | fail j | loseAnswer j d | crash j =>
    obtain rfl := Option.some.inj hcall
    obtain ⟨c, hbegun, -⟩ := Option.bind_eq_some_iff.mp hs
    rw [hnone] at hbegun
    cases hbegun
  | put | tick => cases hcall

/-- The request of a call leaves it a call of its kind. -/
theorem exec_kind (hinv : s.Inv) {c c' : FileCall} (hc : s.calls i = some c)
    (hs : s.exec rt i d c = some s') (hc' : s'.calls i = some c') :
    (∃ user body key pc p, c = .intent user body key (.running pc) ∧
      c' = .intent user body key p ∧ s.intentExec rt i user body key d pc = some s') ∨
    (∃ user id pc p, c = .parts user id (.running pc) ∧ c' = .parts user id p ∧
      s.partsExec rt i user id d pc = some s') ∨
    ∃ user id pc p, c = .commit user id (.running pc) ∧ c' = .commit user id p ∧
      s.commitExec i user id d pc = some s' := by
  have hself := hinv.calls i
  rw [hc] at hself
  rcases c with ⟨user, body, key, pc | o⟩ | ⟨user, id, pc | o⟩ | ⟨user, id, pc | o⟩
  · obtain ⟨e, p, -, rfl, -⟩ := FileService.intentExec_effect hself hs
    obtain rfl := Option.some.inj ((FileService.setCall_self _).symm.trans hc')
    exact .inl ⟨user, body, key, pc, p, rfl, rfl, hs⟩
  · cases hs
  · obtain ⟨e, p, -, rfl, -⟩ := FileService.partsExec_effect hself hs
    obtain rfl := Option.some.inj ((FileService.setCall_self _).symm.trans hc')
    exact .inr (.inl ⟨user, id, pc, p, rfl, rfl, hs⟩)
  · cases hs
  · obtain ⟨e, p, -, heq, -⟩ := FileService.commitExec_effect hinv hc hs
    rw [heq] at hc'
    obtain rfl := Option.some.inj ((FileService.setCall_self _).symm.trans hc')
    exact .inr (.inr ⟨user, id, pc, p, rfl, rfl, hs⟩)
  · cases hs

/-- Any other event is not the request of the call. -/
theorem runs_eq_false {a : FileEvent} (h : ∀ d, a ≠ .exec i d) : a.runs i = false := by
  cases a with
  | exec j d => exact decide_eq_false fun heq => h d (heq ▸ rfl)
  | _ => rfl

/-- **A commit is refused for want of parts only when it has read the whole list**, and some are
missing in it. -/
theorem missing_run {e : HttpError} (hstart : s₀.Start)
    (hrun : (fileServices rt).run s₀ as = some s)
    (hc : s.calls i = some (.commit user id (.ended (.refused e))))
    (hcode : e.code = "parts-missing") :
    ∃ row u partSize out, Known s.files row ∧ row.id = id ∧ row.uploadId = some u ∧
      ListedAll rt s₀ as i row u partSize out ∧ missingOf row.size partSize (lengthOf out) ≠ [] ∧
      e = partsMissing (missingOf row.size partSize (lengthOf out)) := by
  refine System.run_induction (M := fileServices rt) (J := fun as s => ∀ user id e,
    s.calls i = some (.commit user id (.ended (.refused e))) → e.code = "parts-missing" →
    ∃ row u partSize out, Known s.files row ∧ row.id = id ∧ row.uploadId = some u ∧
      ListedAll rt s₀ as i row u partSize out ∧ missingOf row.size partSize (lengthOf out) ≠ [] ∧
      e = partsMissing (missingOf row.size partSize (lengthOf out))) ?_ ?_ hrun user id e hc hcode
  · intro user id e hc
    rw [hstart.calls] at hc
    cases hc
  · intro as s a s' hrun ih hs user id e hc hcode
    obtain ⟨hinv, hplan, hknows⟩ := knows_run hstart hrun
    have hgrows := (hinv.stepped hs).grows
    rcases refused_step hinv hs hc with hold | ⟨d, pc, rfl, hcall, hexec⟩
    · obtain ⟨row, u, partSize, out, hknown, hid, hu, hread, hrest⟩ := ih user id e hold hcode
      exact ⟨row, u, partSize, out, hknown.grows hgrows, hid, hu, hread.more a, hrest⟩
    · obtain ⟨row, u, partSize, marker, out, page, rfl, hlist, -⟩ :=
        commitExec_missing hexec hc hcode
      have hself := hknows i
      rw [hcall] at hself
      obtain ⟨hid, hlisted⟩ := hself
      have hpc := hinv.calls i
      rw [hcall] at hpc
      obtain ⟨hknown, hu⟩ := hpc
      have hlisting : (s.calls i).any FileCall.listing = true := by
        rw [hcall]
        rfl
      have hall := hlisted.last (a := .exec i d) hinv hplan hrun hlisting hknown hlist
      have hset := commitExec_last hall.ascending hlist hexec
      rw [hset, FileService.setCall_self] at hc
      split_ifs at hc with hnil
      · cases hc
      · cases hc
        exact ⟨row, u, partSize, out ++ page, hknown.grows hgrows, hid, hu, hall, hnil, rfl⟩

end Steps

end Marketplace
