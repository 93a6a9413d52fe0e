import Marketplace.FilesInv

/-!
# What a COMPLETED row says about its object

`commit` looks at the object once, with `HeadObject`, and writes what it saw. From
then on nothing but a `PUT` through a URL for its key can replace the object: a
completed upload is over, and a multipart file has no such URL. A `PUT` URL is not
taken back when the file is completed, so a client that holds one can replace the
object until the URL expires.
-/

namespace Marketplace

/-- The event puts a body to the key. -/
def FileEvent.PutsTo (key : String) : FileEvent → Prop
  | .put ⟨.put key' _, _⟩ _ _ => key' = key
  | _ => False

namespace FileService

variable {rt : FileRuntime} {s s' s₀ t : FileService}

/-- Call `i` is a commit of the file with the given id, about to look at its object. -/
def Heads (s : FileService) (i : ℕ) (id : String) : Prop :=
  ∃ user id' row, s.calls i = some (.commit user id' (.running (.head row))) ∧ row.id = id

/-- A row's key belongs to no other row. -/
theorem StoreInv.key_inj (h : s.StoreInv) {r r' : FileRow} (hr : r ∈ s.files)
    (hr' : r' ∈ s.files) (hkey : r.key = r'.key) : r = r' :=
  List.inj_on_of_nodup_map h.keys hr hr' hkey

/-- **Only two things replace an object**: a `PUT` to its key, and completing an active
upload of the row with the key. -/
theorem Stepped.object {a : FileEvent} (h : Stepped s a s') (key : String) :
    s'.s3.objects key = s.s3.objects key ∨ a.PutsTo key ∨
      ∃ r ∈ s.files, r.key = key ∧ ∃ u, r.uploadId = some u ∧ ¬ s.s3.Over u := by
  cases h with
  | moved ha heffect hself hheaded =>
    cases heffect with
    | none => exact .inl rfl
    | sign url hput => exact .inl rfl
    | create hs3 =>
      obtain ⟨_, rfl⟩ := S3.createMultipartUpload_eq_some hs3
      exact .inl rfl
    | insert hpending huuid hnew hupload => exact .inl rfl
    | abort hs3 =>
      obtain ⟨x, _, rfl⟩ := S3.abortMultipartUpload_eq_ok hs3
      exact .inl rfl
    | complete hknown hu hs3 =>
      rename_i row u named etag s3
      obtain ⟨x, length, hx, rfl⟩ := S3.completeMultipartUpload_eq_ok hs3
      by_cases hkey : key = row.key
      · obtain ⟨r, hr, hsame⟩ := hknown
        refine .inr (.inr ⟨r, hr, hsame.key.symm.trans hkey.symm, u,
          hsame.uploadId.symm.trans hu, fun hover => ?_⟩)
        rw [hover.find] at hx
        cases hx
      · exact .inl (Function.update_of_ne hkey ..)
    | update hcall => exact .inl rfl
  | received ha hurl =>
    rename_i url length etag
    obtain ⟨target, expires⟩ := url
    cases target with
    | put key' contentType =>
      by_cases hkey : key = key'
      · subst ha hkey
        exact .inr (.inl rfl)
      · exact .inl (Function.update_of_ne hkey ..)
    | part key' u n =>
      rcases hpart : s.s3.uploadPart key' u ⟨n, length, etag⟩ with _ | s3
      · refine .inl ?_
        simp only [receive, hpart]
      · obtain ⟨x, parts, _, rfl⟩ := S3.uploadPart_eq_ok hpart
        refine .inl ?_
        simp only [receive, hpart]
        rfl
  | ticked ha => exact .inl rfl

/-- No `PUT` URL is for the key of a multipart file. -/
theorem Inv.not_putsTo (h : s.Inv) {a : FileEvent} (hs : s.step rt a = some s') {r : FileRow}
    (hr : r ∈ s.files) (hu : r.uploadId ≠ none) : ¬ a.PutsTo r.key := by
  intro hput
  cases a with
  | put url length etag =>
    obtain ⟨target, expires⟩ := url
    cases target with
    | put key contentType =>
      obtain rfl : key = r.key := hput
      simp only [step] at hs
      split_ifs at hs with hurl
      obtain ⟨r', hr', hkey, hnone⟩ := h.stores.urls _ hurl.1 _ _ rfl
      obtain rfl := h.stores.key_inj hr' hr hkey
      exact hu hnone
    | part => exact hput
  | _ => exact hput

/-! ## What a commit has seen -/

/-- Along the run a commit of the row's file looked at an object of the row's size,
with the ETag; and unless a `PUT` has come to its key since, the object is still
there. -/
def Seen (rt : FileRuntime) (s₀ : FileService) (as : List FileEvent) (t : FileService)
    (row : FileRow) (etag : Option String) : Prop :=
  ∃ as₁ i d as₂ s o, as = as₁ ++ .exec i d :: as₂ ∧ (fileServices rt).run s₀ as₁ = some s ∧
    s.Heads i row.id ∧ s.s3.objects row.key = some o ∧ o.contentLength = row.size ∧
    etag = some o.etag ∧
    ((row.uploadId = none → ∀ a ∈ as₂, ¬ a.PutsTo row.key) → t.s3.objects row.key = some o)

/-- The file's upload, if it has one, is over. -/
def Sealed (s : FileService) (row : FileRow) : Prop :=
  Known s.files row ∧ ∀ u, row.uploadId = some u → s.s3.Over u

/-- **What has been seen stays seen**, one event later. -/
theorem Seen.step {as : List FileEvent} {a : FileEvent} {row : FileRow} {etag : Option String}
    (h : Seen rt s₀ as s row etag) (hinv : s.Inv) (hsealed : s.Sealed row)
    (hs : s.step rt a = some s') : Seen rt s₀ (as ++ [a]) s' row etag := by
  obtain ⟨as₁, i, d, as₂, s₁, o, rfl, hrun, hheads, hobject, hsize, hetag, hstill⟩ := h
  refine ⟨as₁, i, d, as₂ ++ [a], s₁, o, ?_, hrun, hheads, hobject, hsize, hetag, ?_⟩
  · rw [List.append_assoc, List.cons_append]
  intro hquiet
  -- what was quiet over the longer run was so before
  have hbefore : s.s3.objects row.key = some o := by
    refine hstill fun hnone b hb => ?_
    exact hquiet hnone b (List.mem_append_left _ hb)
  obtain ⟨⟨r, hr, hsame⟩, hover⟩ := hsealed
  rcases (hinv.stepped hs).object row.key with heq | hput | ⟨r', hr', hkey, u, hu, hactive⟩
  · exact heq.trans hbefore
  · -- the row has no upload, or there is no `PUT` URL for it
    rcases hu : row.uploadId with _ | u
    · exact absurd hput (hquiet hu a (List.mem_append_right _ (List.mem_singleton_self _)))
    · have hmultipart : r.uploadId ≠ none := by
        rw [← hsame.uploadId, hu]
        exact fun heq => by cases heq
      rw [hsame.key] at hput
      exact absurd hput (hinv.not_putsTo hs hr hmultipart)
  · -- only one row has the key, and its upload is over
    obtain rfl := hinv.stores.key_inj hr' hr (hkey.trans hsame.key)
    exact absurd (hover u (hsame.uploadId.trans hu)) hactive

/-- What is seen of a row is seen of the copies of it. -/
theorem Seen.same {as : List FileEvent} {row row' : FileRow} {etag : Option String}
    (h : Seen rt s₀ as t row etag) (hsame : row.Same row') : Seen rt s₀ as t row' etag := by
  obtain ⟨as₁, i, d, as₂, s₁, o, hsplit, hrun, hheads, hobject, hsize, hetag, hstill⟩ := h
  refine ⟨as₁, i, d, as₂, s₁, o, hsplit, hrun, ?_, ?_, ?_, hetag, ?_⟩
  · rw [hsame.id]
    exact hheads
  · rw [hsame.key]
    exact hobject
  · rw [hsame.size]
    exact hsize
  · rw [hsame.key, hsame.uploadId]
    exact hstill

/-- Every commit about to write has seen what it writes, and every COMPLETED row what
it says. -/
structure Witnessed (rt : FileRuntime) (s₀ : FileService) (as : List FileEvent)
    (s : FileService) : Prop where
  calls : ∀ i user id row etag, s.calls i = some (.commit user id (.running (.update row etag))) →
    Seen rt s₀ as s row etag
  rows : ∀ r ∈ s.files, r.status = .completed → Seen rt s₀ as s r r.etag

/-- A row that is COMPLETED after a step was so before, or a commit has just written
it. -/
theorem Stepped.completed {a : FileEvent} (h : Stepped s a s') (hinv : s.Inv) {r : FileRow}
    (hr : r ∈ s'.files) (hdone : r.status = .completed) : r ∈ s.files ∨
      ∃ i user id row, s.calls i = some (.commit user id (.running (.update row r.etag))) ∧
        row.Same r := by
  cases h with
  | moved ha heffect hself hheaded =>
    cases heffect with
    | insert hpending huuid hnew hupload =>
      rcases List.mem_append.mp hr with hr | hr
      · exact .inl hr
      · obtain rfl := List.mem_singleton.mp hr
        rw [hpending] at hdone
        cases hdone
    | update hcall =>
      rename_i j i user id row etag
      -- `UPDATE` writes the tag into the row with the id of the call
      obtain ⟨r', hr', rfl⟩ := Table.mem_modify.mp hr
      by_cases hid : r'.id = row.id
      · rw [if_pos hid]
        have hpc := hinv.calls i
        rw [hcall] at hpc
        obtain ⟨⟨r₀, hr₀, hsame⟩, _⟩ := hpc
        have heq : r' = r₀ := List.inj_on_of_nodup_map hinv.stores.ids hr' hr₀ (hid.trans hsame.id)
        subst heq
        exact .inr ⟨i, user, id, row, hcall,
          ⟨hsame.id.symm, hsame.key.symm, hsame.size.symm, hsame.uploadId.symm,
            hsame.ownerId.symm⟩⟩
      · rw [if_neg hid]
        exact .inl hr'
    | _ => exact .inl hr
  | received ha hurl =>
    rename_i url length etag
    obtain ⟨s3, heq, _⟩ := receive_stores s length etag url.target
    rw [heq] at hr
    exact .inl hr
  | ticked ha => exact .inl hr

/-- The file of a commit about to write is sealed. -/
theorem Inv.sealed_update (h : s.Inv) {i : ℕ} {user : AuthUser} {id : String} {row : FileRow}
    {etag : Option String}
    (hcall : s.calls i = some (.commit user id (.running (.update row etag)))) : s.Sealed row := by
  have hpc := h.calls i
  rwa [hcall] at hpc

/-- A `HeadObject` that finds the object with the row's size has just seen it. -/
theorem Inv.seen (h : s.Inv) {as : List FileEvent} (hrun : (fileServices rt).run s₀ as = some s)
    {i : ℕ} {d : FileDraw} (hs : s.step rt (.exec i d) = some s') {user : AuthUser} {id : String}
    {row : FileRow} {o : S3Object}
    (hcall : s.calls i = some (.commit user id (.running (.head row))))
    (ho : s.s3.objects row.key = some o) (hsize : o.contentLength = row.size) :
    Seen rt s₀ (as ++ [.exec i d]) s' row (some o.etag) := by
  refine ⟨as, i, d, [], s, o, rfl, hrun, ⟨user, id, row, hcall, rfl⟩, ho, hsize, rfl, ?_⟩
  intro _
  have hpc := h.calls i
  rw [hcall] at hpc
  obtain ⟨⟨r, hr, hsame⟩, hover⟩ := hpc
  rcases (h.stepped hs).object row.key with heq | hput | ⟨r', hr', hkey, u, hu, hactive⟩
  · exact heq.trans ho
  · exact hput.elim
  · obtain rfl := h.stores.key_inj hr' hr (hkey.trans hsame.key)
    exact absurd (hover u (hsame.uploadId.trans hu)) hactive

/-- **One step later everything written has still been seen.** -/
theorem Witnessed.step {as : List FileEvent} {a : FileEvent} (h : Witnessed rt s₀ as s)
    (hinv : s.Inv) (hrun : (fileServices rt).run s₀ as = some s) (hs : s.step rt a = some s') :
    Witnessed rt s₀ (as ++ [a]) s' where
  calls := by
    intro i user id row etag hcall
    have hstepped := hinv.stepped hs
    by_cases ha : a.call = some i
    · cases hstepped with
      | moved ha' heffect hself hheaded =>
        rename_i j e c'
        obtain rfl := Option.some.inj (ha.symm.trans ha')
        obtain rfl := Option.some.inj ((setCall_self c').symm.trans hcall)
        obtain ⟨d, rfl, hhead, o, ho, hsize, rfl⟩ := hheaded user id row etag rfl
        exact hinv.seen hrun hs hhead ho hsize
      | received ha' hurl =>
        subst ha'
        cases ha
      | ticked ha' =>
        subst ha'
        cases ha
    · rw [hstepped.calls_ne ha] at hcall
      exact (h.calls i user id row etag hcall).step hinv (hinv.sealed_update hcall) hs
  rows := by
    intro r hr hdone
    rcases (hinv.stepped hs).completed hinv hr hdone with hr | ⟨i, user, id, row, hcall, hsame⟩
    · exact (h.rows r hr hdone).step hinv ⟨known_of_mem hr, hinv.stores.completed r hr hdone⟩ hs
    · have hseen := (h.calls i user id row r.etag hcall).step hinv (hinv.sealed_update hcall) hs
      exact hseen.same hsame

/-- **In every run what is written has been seen.** -/
theorem witnessed_run (hstart : s₀.Start) {as : List FileEvent}
    (hrun : (fileServices rt).run s₀ as = some t) : Witnessed rt s₀ as t := by
  induction as using List.reverseRecOn generalizing t with
  | nil =>
    obtain rfl := Option.some.inj hrun
    refine ⟨?_, ?_⟩
    · intro i user id row etag hcall
      rw [hstart.calls i] at hcall
      cases hcall
    · intro r hr
      rw [hstart.files] at hr
      exact absurd hr List.not_mem_nil
  | append_singleton as a ih =>
    obtain ⟨s, hfirst, hlast⟩ := System.run_append_eq_some hrun
    obtain ⟨t', hstep, hnil⟩ := System.run_cons_eq_some hlast
    obtain rfl := Option.some.inj hnil
    exact (ih hfirst).step (fileServices_invariant.run hstart.inv hfirst) hfirst hstep

end FileService

/-- **A COMPLETED row says what a commit of its file has seen**: at a `HeadObject` of
the run the object had the row's size and ETag. It is the object still, unless the
file has no upload and a `PUT` to its key has come since. -/
theorem completed_row_seen {rt : FileRuntime} {s₀ t : FileService} {as : List FileEvent}
    {r : FileRow} (hstart : s₀.Start) (hrun : (fileServices rt).run s₀ as = some t)
    (hr : r ∈ t.files) (hdone : r.status = .completed) :
    FileService.Seen rt s₀ as t r r.etag :=
  (FileService.witnessed_run hstart hrun).rows r hr hdone

/-- The small file that the customer uploads. -/
def demoSmall : FileRow where
  id := "00000000-0000-4000-8000-000000000001"
  key := "uploads/1/00000000-0000-4000-8000-000000000001.png"
  ownerId := "1"
  status := .completed
  contentType := .png
  size := 10
  uploadId := none
  etag := some "ten"
  idempotencyKey := none

/-- The URL that the intent returned. -/
def demoPutUrl : Url := ⟨.put demoSmall.key .png, 300⟩

/-- An intent, the upload and the commit. -/
def demoCommitted : List FileEvent :=
  [.intent 0 demoCustomer ⟨"a.png", "image/png", 10⟩ none] ++ demoRequests 0 3 ++
    [.put demoPutUrl 10 "ten", .commit 1 demoCustomer demoSmall.id] ++ demoRequests 1 3

theorem demoCommitted_seen :
    ∃ t, (fileServices demoFileRuntime).run demoFiles demoCommitted = some t ∧
      FileService.Seen demoFileRuntime demoFiles demoCommitted t demoSmall (some "ten") := by
  have hsome : ((fileServices demoFileRuntime).run demoFiles demoCommitted).any (fun t =>
      demoSmall ∈ t.files) = true := by
    decide +kernel
  obtain ⟨t, hrun, hr⟩ := (Option.any_eq_true _ _).mp hsome
  exact ⟨t, hrun, completed_row_seen demoFiles_start hrun (of_decide_eq_true hr) rfl⟩

/-- **A client can replace the object of a COMPLETED file** through the URL it has
uploaded it with. -/
theorem put_replaces_completed :
    ¬ ∀ (rt : FileRuntime) (s₀ t : FileService) (as : List FileEvent) (r : FileRow),
      s₀.Start → (fileServices rt).run s₀ as = some t → r ∈ t.files → r.status = .completed →
      ∃ o, t.s3.objects r.key = some o ∧ o.contentLength = r.size ∧ r.etag = some o.etag := by
  intro hclaim
  have hsome : ((fileServices demoFileRuntime).run demoFiles
      (demoCommitted ++ [.put demoPutUrl 20 "twenty"])).any (fun t =>
        (demoSmall ∈ t.files : Bool) &&
          (t.s3.objects demoSmall.key = some ⟨20, "twenty"⟩ : Bool)) = true := by
    decide +kernel
  obtain ⟨t, hrun, h⟩ := (Option.any_eq_true _ _).mp hsome
  obtain ⟨hr, hobject⟩ := Bool.and_eq_true_iff.mp h
  obtain ⟨o, ho, hlength, _⟩ := hclaim _ _ _ _ _ demoFiles_start hrun (of_decide_eq_true hr) rfl
  obtain rfl := Option.some.inj ((of_decide_eq_true hobject).symm.trans ho)
  cases hlength

end Marketplace
