import Marketplace.FilesInv

/-!
# A commit that is tried again

`commit` of a multipart file asks for the list of its parts before it completes the
upload. When an earlier commit has completed the upload and died before its `UPDATE`,
that list is what fails: with `NoSuchUpload`, outside the `try` that means to catch
it. So a commit that begins after the upload was completed returns if and only if
the row it reads is already COMPLETED.
-/

namespace Marketplace

/-- The event ends call `i`, or its request, by a failure. -/
def FileEvent.Breaks (i : ℕ) : FileEvent → Prop
  | .fail j | .loseAnswer j _ | .crash j => j = i
  | _ => False

/-- The upload has been completed. -/
def S3.Completed (s : S3) (u : UploadId) : Prop :=
  ∃ x, s.uploads u = some x ∧ x.status = .completed

theorem S3.Completed.over {s : S3} {u : UploadId} (h : s.Completed u) : s.Over u := by
  obtain ⟨x, hx, hdone⟩ := h
  refine ⟨x, hx, ?_⟩
  rw [hdone]
  exact fun hactive => by cases hactive

namespace FileService

variable {rt : FileRuntime} {s s' t : FileService} {i : ℕ} {user : AuthUser} {id : String}
  {row : FileRow} {u : UploadId}

/-- A commit that is on its way to fail: it will ask for parts that are gone, or has
thrown. -/
inductive Doomed (s : FileService) (i : ℕ) (user : AuthUser) (id : String) (u : UploadId) : Prop
  | asking {row : FileRow} {partSize marker : ℕ} {out : List S3Part}
      (hcall : s.calls i = some (.commit user id (.running (.listParts row u partSize marker out))))
  | thrown {f : Failure} (hcall : s.calls i = some (.commit user id (.ended (.thrown f))))

/-- A commit on its way to fail has not returned. -/
theorem Doomed.not_committed (h : s.Doomed i user id u) (v : FileView) :
    s.calls i ≠ some (.commit user id (.ended (.committed v))) := by
  rcases h with hcall | hcall
  · rw [hcall]
    exact fun heq => by cases heq
  · rw [hcall]
    exact fun heq => by cases heq

/-- The owner, or an admin, finds the row. -/
theorem owned_allowed (h : s.StoreInv) (hrow : row ∈ s.files)
    (hallowed : row.ownerId = user.id ∨ user.role = .admin) :
    owned s.files user row.id = .ok row := by
  have hlookup : Table.lookup FileRow.id row.id s.files = some row :=
    Table.lookup_of_mem h.ids hrow
  unfold owned
  simp only [h.uuids row hrow, if_true, hlookup]
  rw [if_neg]
  rintro ⟨howner, hadmin⟩
  exact hallowed.elim howner hadmin

/-- A call waits until its request runs or fails. -/
theorem Inv.waits (h : s.Inv) {a : FileEvent} (hs : s.step rt a = some s')
    (hexec : ∀ d, a ≠ .exec i d) (hok : ¬ a.Breaks i) {c : FileCall}
    (hc : s.calls i = some c) : s'.calls i = some c := by
  have hfresh : ∀ {c'}, s.begin i c' = some s' → False := by
    intro c' hbegin
    rw [(begin_eq_some hbegin).1] at hc
    cases hc
  rw [← hc]
  refine (h.stepped hs).calls_ne ?_
  intro ha
  cases a with
  | intent | parts | commit =>
    obtain rfl := Option.some.inj ha
    exact hfresh hs
  | exec j d =>
    obtain rfl := Option.some.inj ha
    exact hexec d rfl
  | fail j => exact hok (Option.some.inj ha)
  | loseAnswer j d => exact hok (Option.some.inj ha)
  | crash j => exact hok (Option.some.inj ha)
  | put | tick => cases ha

/-- A commit on its way to fail that takes its step has thrown. -/
theorem commitExec_of_over {d : FileDraw} {partSize marker : ℕ} {out : List S3Part}
    (hover : s.s3.Over u)
    (hs : s.commitExec i user id d (.listParts row u partSize marker out) = some s') :
    s'.calls i = some (.commit user id (.ended (.thrown (.s3 .noSuchUpload)))) := by
  have hlist : s.s3.listParts row.key u marker d.page = .error .noSuchUpload := by
    unfold S3.listParts
    rw [hover.find]
  simp only [commitExec, hlist] at hs
  split_ifs at hs
  obtain rfl := Option.some.inj hs
  exact Function.update_self ..

/-- **One step keeps a commit on its way to fail**, unless it breaks the call. -/
theorem Doomed.step {a : FileEvent} (h : s.Doomed i user id u) (hinv : s.Inv)
    (hover : s.s3.Over u) (hs : s.step rt a = some s') (hok : ¬ a.Breaks i) :
    s'.Doomed i user id u := by
  by_cases hexec : ∃ d, a = .exec i d
  · obtain ⟨d, rfl⟩ := hexec
    obtain ⟨c, hc, hs⟩ := Option.bind_eq_some_iff.mp hs
    rcases h with hcall | hcall
    · obtain rfl := Option.some.inj (hcall.symm.trans hc)
      exact .thrown (commitExec_of_over hover hs)
    · obtain rfl := Option.some.inj (hcall.symm.trans hc)
      cases hs
  · have hexec' : ∀ d, a ≠ .exec i d := fun d ha => hexec ⟨d, ha⟩
    rcases h with hcall | hcall
    · exact .asking (hinv.waits hs hexec' hok hcall)
    · exact .thrown (hinv.waits hs hexec' hok hcall)

/-- **A run keeps a commit on its way to fail.** -/
theorem Doomed.run {as : List FileEvent} (h : s.Doomed i user id u) (hinv : s.Inv)
    (hover : s.s3.Over u) (hrun : (fileServices rt).run s as = some t)
    (hok : ∀ a ∈ as, ¬ a.Breaks i) : t.Doomed i user id u := by
  induction as generalizing s with
  | nil =>
    obtain rfl := Option.some.inj hrun
    exact h
  | cons a as ih =>
    obtain ⟨s', hstep, hrun⟩ := System.run_cons_eq_some hrun
    have hstepped := hinv.stepped hstep
    exact ih (h.step hinv hover hstep (hok a (List.mem_cons_self ..))) (hstepped.inv hinv)
      (hover.grows hstepped.grows.s3) hrun fun b hb => hok b (List.mem_cons_of_mem _ hb)

/-- A call that has ended stays as it is. -/
theorem Inv.ended_run (hinv : s.Inv) {as : List FileEvent} {o : FileOutcome}
    (hcall : s.calls i = some (.commit user id (.ended o)))
    (hrun : (fileServices rt).run s as = some t) (hok : ∀ a ∈ as, ¬ a.Breaks i) :
    t.calls i = some (.commit user id (.ended o)) := by
  induction as generalizing s with
  | nil =>
    obtain rfl := Option.some.inj hrun
    exact hcall
  | cons a as ih =>
    obtain ⟨s', hstep, hrun⟩ := System.run_cons_eq_some hrun
    have hexec : ∀ d, a ≠ .exec i d := by
      rintro d rfl
      obtain ⟨c, hc, hs⟩ := Option.bind_eq_some_iff.mp hstep
      obtain rfl := Option.some.inj (hcall.symm.trans hc)
      cases hs
    exact ih ((hinv.stepped hstep).inv hinv)
      (hinv.waits hstep hexec (hok a (List.mem_cons_self ..)) hcall) hrun
      fun b hb => hok b (List.mem_cons_of_mem _ hb)

/-- What the `SELECT` of the owner's commit leads to, the upload being over. -/
theorem Inv.select_step (h : s.Inv) {d : FileDraw} (hrow : row ∈ s.files)
    (hu : row.uploadId = some u) (howner : row.ownerId = user.id)
    (hs : s.commitExec i user row.id d .select = some s') :
    (row.status = .completed →
      s'.calls i = some (.commit user row.id (.ended (.committed row.view)))) ∧
    (row.status ≠ .completed → s'.Doomed i user row.id u) := by
  simp only [commitExec, owned_allowed h.stores hrow (.inl howner)] at hs
  split_ifs at hs with hdone
  · obtain rfl := Option.some.inj hs
    exact ⟨fun _ => Function.update_self .., fun hne => absurd hdone hne⟩
  · refine ⟨fun heq => absurd heq hdone, fun _ => ?_⟩
    rcases hsize : computePartSize row.size with _ | partSize
    · simp only [hu, hsize] at hs
      obtain rfl := Option.some.inj hs
      exact .thrown (Function.update_self ..)
    · simp only [hu, hsize] at hs
      obtain rfl := Option.some.inj hs
      exact .asking (Function.update_self ..)

end FileService

/-- **A commit that reads its row after the upload was completed returns a COMPLETED
view if and only if the row is COMPLETED then**, whatever happens around it, as long
as none of its requests fails. -/
theorem retried_commit_returns {rt : FileRuntime} {s₀ s t : FileService} {as bs : List FileEvent}
    {r : FileRow} {u : UploadId} {user : AuthUser} {i : ℕ} {d : FileDraw} (hstart : s₀.Start)
    (hrun : (fileServices rt).run s₀ as = some s) (hrow : r ∈ s.files)
    (hu : r.uploadId = some u) (hdone : s.s3.Completed u) (howner : r.ownerId = user.id)
    (hcall : s.calls i = some (.commit user r.id (.running .select)))
    (hnext : (fileServices rt).run s (.exec i d :: bs) = some t)
    (hok : ∀ a ∈ bs, ¬ a.Breaks i) :
    (∃ v, t.calls i = some (.commit user r.id (.ended (.committed v))) ∧
      v.status = .completed) ↔ r.status = .completed := by
  have hinv : s.Inv := fileServices_invariant.run hstart.inv hrun
  obtain ⟨s', hstep, hrest⟩ := System.run_cons_eq_some hnext
  have hstep' : s.step rt (.exec i d) = some s' := hstep
  have hstepped := hinv.stepped hstep'
  have hinv' := hstepped.inv hinv
  obtain ⟨c, hc, hexec⟩ := Option.bind_eq_some_iff.mp hstep'
  obtain rfl := Option.some.inj (hcall.symm.trans hc)
  obtain ⟨hcompleted, hpending⟩ := hinv.select_step (d := d) hrow hu howner hexec
  constructor
  · rintro ⟨v, hv, -⟩
    -- had the row been PENDING, the commit would have asked for parts that are gone
    by_contra hstatus
    have hdoomed := (hpending hstatus).run hinv' (hdone.over.grows hstepped.grows.s3) hrest hok
    exact hdoomed.not_committed v hv
  · intro hstatus
    exact ⟨r.view, hinv'.ended_run (hcompleted hstatus) hrest hok, hstatus⟩

/-- The file of 11 MiB that the customer uploads. -/
def demoBig : FileRow where
  id := "00000000-0000-4000-8000-000000000001"
  key := "uploads/1/00000000-0000-4000-8000-000000000001.bin"
  ownerId := "1"
  status := .pending
  contentType := .octetStream
  size := 11534336
  uploadId := some 7
  etag := none
  idempotencyKey := none

/-- The URL of a part. -/
def demoPartUrl (n : ℕ) : Url := ⟨.part demoBig.key 7 n, 900⟩

/-- Its parts. -/
def demoParts : List S3Part := [⟨1, 5242880, "a"⟩, ⟨2, 5242880, "b"⟩, ⟨3, 1048576, "c"⟩]

/-- An intent, and its three parts. -/
def demoUpload : List FileEvent :=
  [.intent 0 demoCustomer ⟨"big.bin", "application/octet-stream", 11534336⟩ none] ++
    demoRequests 0 8 ++ demoParts.map fun p => .put (demoPartUrl p.partNumber) p.size p.etag

/-- A commit that runs to its end, and another that begins after it. -/
def demoTwoCommits : List FileEvent :=
  demoUpload ++ [.commit 1 demoCustomer demoBig.id] ++ demoRequests 1 5 ++
    [.commit 2 demoCustomer demoBig.id]

theorem demoTwoCommits_returns :
    ∃ s t, (fileServices demoFileRuntime).run demoFiles demoTwoCommits = some s ∧
      (fileServices demoFileRuntime).run s [.exec 2 demoFileDraw] = some t ∧
      ((∃ v, t.calls 2 = some (.commit demoCustomer demoBig.id (.ended (.committed v))) ∧
        v.status = .completed) ↔
          (demoBig.complete (some "whole")).status = .completed) := by
  have hsome : ((fileServices demoFileRuntime).run demoFiles demoTwoCommits).any (fun s =>
      (demoBig.complete (some "whole") ∈ s.files : Bool) &&
      (s.s3.uploads 7 = some ⟨demoBig.key, .completed, demoParts⟩ : Bool) &&
      (s.calls 2 = some (.commit demoCustomer demoBig.id (.running .select)) : Bool) &&
      ((fileServices demoFileRuntime).run s [.exec 2 demoFileDraw]).isSome) = true := by
    decide +kernel
  obtain ⟨s, hrun, h⟩ := (Option.any_eq_true _ _).mp hsome
  obtain ⟨h, hnext⟩ := Bool.and_eq_true_iff.mp h
  obtain ⟨h, hcall⟩ := Bool.and_eq_true_iff.mp h
  obtain ⟨hrow, hupload⟩ := Bool.and_eq_true_iff.mp h
  obtain ⟨t, hnext⟩ := Option.isSome_iff_exists.mp hnext
  exact ⟨s, t, hrun, hnext, retried_commit_returns demoFiles_start hrun (of_decide_eq_true hrow)
    rfl ⟨_, of_decide_eq_true hupload, rfl⟩ rfl (of_decide_eq_true hcall) hnext
    fun _ ha => absurd ha List.not_mem_nil⟩

/-! ## A commit that dies before its `UPDATE` -/

/-- Every planned part is stored, with its planned length. -/
def PartsStored (s : FileService) (r : FileRow) (u : UploadId) : Prop :=
  ∃ x partSize, s.s3.uploads u = some x ∧ x.key = r.key ∧ x.status = .active ∧
    computePartSize r.size = some partSize ∧ ∀ n ∈ partNumbers r.size partSize,
      ∃ p ∈ x.parts, p.partNumber = n ∧ (p.size : ℤ) = partLength r.size partSize n

/-- An event of the commits of the file by the user. -/
def FileEvent.ofCommits (user : AuthUser) (id : String) (s : FileService) : FileEvent → Bool
  | .commit _ user' id' => user' = user && id' = id
  | .exec j _ | .fail j | .loseAnswer j _ | .crash j =>
    match s.calls j with
    | some (.commit user' id' _) => user' = user && id' = id
    | _ => false
  | _ => false

/-- A commit completes the upload and dies; then there is another. -/
def demoDies : List FileEvent :=
  [.commit 1 demoCustomer demoBig.id] ++ demoRequests 1 3 ++ [.crash 1]

/-- **The second commit throws**: the upload it asks about is gone, and the row is
still PENDING. -/
theorem crashed_commit_unrecoverable :
    ¬ ∀ (rt : FileRuntime) (s₀ s s₁ t : FileService) (as bs cs : List FileEvent) (r : FileRow)
        (u : UploadId) (user : AuthUser) (i : ℕ) (o : FileOutcome), s₀.Start →
      (fileServices rt).run s₀ as = some s → r ∈ s.files → r.uploadId = some u →
      r.ownerId = user.id → PartsStored s r u →
      (fileServices rt).run s bs = some s₁ →
      (fileServices rt).Meets (fun s a => a.ofCommits user r.id s = true) s bs →
      s₁.s3.Completed u →
      (fileServices rt).run s₁ (.commit i user r.id :: cs) = some t →
      (fileServices rt).Meets (fun s a => a.ofCommits user r.id s = true) s₁
        (.commit i user r.id :: cs) →
      (∀ a ∈ cs, ¬ a.Breaks i) → t.calls i = some (.commit user r.id (.ended o)) →
      ∃ v, o = .committed v ∧ v.status = .completed := by
  intro hclaim
  have hsome : ((fileServices demoFileRuntime).run demoFiles demoUpload).any (fun s =>
      (demoBig ∈ s.files : Bool) &&
      (s.s3.uploads 7 = some ⟨demoBig.key, .active, demoParts⟩ : Bool) &&
      (fileServices demoFileRuntime).checks
        (fun s a => a.ofCommits demoCustomer demoBig.id s) s demoDies &&
      ((fileServices demoFileRuntime).run s demoDies).any fun s₁ =>
        (s₁.s3.uploads 7 = some ⟨demoBig.key, .completed, demoParts⟩ : Bool) &&
        (fileServices demoFileRuntime).checks
          (fun s a => a.ofCommits demoCustomer demoBig.id s) s₁
            (.commit 2 demoCustomer demoBig.id :: demoRequests 2 2) &&
        ((fileServices demoFileRuntime).run s₁
          (.commit 2 demoCustomer demoBig.id :: demoRequests 2 2)).any fun t =>
            (t.calls 2 = some (.commit demoCustomer demoBig.id
              (.ended (.thrown (.s3 .noSuchUpload)))) : Bool)) = true := by
    decide +kernel
  obtain ⟨s, hrun, h⟩ := (Option.any_eq_true _ _).mp hsome
  obtain ⟨h, hdies⟩ := Bool.and_eq_true_iff.mp h
  obtain ⟨h, hcommits⟩ := Bool.and_eq_true_iff.mp h
  obtain ⟨hrow, hupload⟩ := Bool.and_eq_true_iff.mp h
  obtain ⟨s₁, hbs, h⟩ := (Option.any_eq_true _ _).mp hdies
  obtain ⟨h, hsecond⟩ := Bool.and_eq_true_iff.mp h
  obtain ⟨hdone, hcommits'⟩ := Bool.and_eq_true_iff.mp h
  obtain ⟨t, hcs, hcall⟩ := (Option.any_eq_true _ _).mp hsecond
  have hstored : PartsStored s demoBig 7 := by
    refine ⟨_, 5242880, of_decide_eq_true hupload, rfl, rfl, by decide +kernel, ?_⟩
    decide +kernel
  have hunbroken : ∀ a ∈ demoRequests 2 2, ¬ a.Breaks 2 := by
    intro a ha
    obtain rfl := List.eq_of_mem_replicate ha
    exact fun hbreaks => hbreaks
  obtain ⟨v, hv, _⟩ := hclaim demoFileRuntime demoFiles s s₁ t demoUpload demoDies
    (demoRequests 2 2) demoBig 7 demoCustomer 2 _ demoFiles_start hrun (of_decide_eq_true hrow)
    rfl rfl hstored hbs (.of_checks (fun _ _ h => h) hcommits) ⟨_, of_decide_eq_true hdone, rfl⟩
    hcs (.of_checks (fun _ _ h => h) hcommits') hunbroken (of_decide_eq_true hcall)
  cases hv

end Marketplace
