import Marketplace.Completed
import Marketplace.Slots

/-!
# Downloads

`GET /files/:id` answers with a redirect to a freshly signed URL. The URL cannot be taken
back and names nobody: whoever has it reads the object, whatever the object is by then.
So the guard stands at the endpoint, and the URL is short-lived.

A download reads the row of its file and then signs. Between the two, and between the
signature and the read through it, the uploads and the commits of everybody go on.
-/

namespace Marketplace

/-- A URL that `presignGet` has signed. -/
structure GetUrl where
  key : String
  expires : ℕ
  deriving DecidableEq

/-- How a download ends. -/
inductive DownloadOutcome where
  /-- `302` -/
  | redirected (url : GetUrl)
  | refused (e : HttpError)
  | thrown (f : Failure)
  | crashed
  deriving DecidableEq

/-- Where `downloadUrl` waits. -/
inductive DownloadPc where
  /-- `SELECT * FROM files WHERE id = $1` -/
  | select
  /-- `presignGet` -/
  | presign (row : FileRow)
  | ended (o : DownloadOutcome)
  deriving DecidableEq

/-- A download. -/
structure DownloadCall where
  user : AuthUser
  id : String
  pc : DownloadPc
  deriving DecidableEq

/-- The configuration. -/
structure DownloadRuntime where
  files : FileRuntime
  getExpires : ℕ

/-- The service, the URLs that `presignGet` has signed, and the downloads. -/
structure Downloads where
  service : FileService
  urls : List GetUrl
  calls : ℕ → Option DownloadCall

/-- What can happen. -/
inductive DownloadEvent where
  /-- anything that has no part in a download -/
  | file (a : FileEvent)
  | download (i : ℕ) (user : AuthUser) (id : String)
  /-- what download `i` waits for comes -/
  | exec (i : ℕ)
  /-- what download `i` waits for fails -/
  | fail (i : ℕ)
  /-- the process of download `i` dies -/
  | crash (i : ℕ)
  /-- somebody reads through a URL, and gets the object -/
  | get (url : GetUrl) (o : Option S3Object)

/-- The event of the service. -/
def DownloadEvent.file? : DownloadEvent → Option FileEvent
  | .file a => some a
  | _ => none

/-- The download an event belongs to. -/
def DownloadEvent.call : DownloadEvent → Option ℕ
  | .download i _ _ | .exec i | .fail i | .crash i => some i
  | .file _ | .get _ _ => none

namespace Downloads

/-- Download `i` is now `c`. -/
def setCall (s : Downloads) (i : ℕ) (c : DownloadCall) : Downloads :=
  { s with calls := Function.update s.calls i (some c) }

/-- `presignGet` -/
def presignGet (rt : DownloadRuntime) (s : Downloads) (key : String) : GetUrl :=
  ⟨key, s.service.now + rt.getExpires⟩

/-- `downloadUrl`, one request at a time. -/
def exec (rt : DownloadRuntime) (s : Downloads) (i : ℕ) (c : DownloadCall) : Option Downloads :=
  match c.pc with
  | .select =>
    match owned s.service.files c.user c.id with
    | .error e => some (s.setCall i { c with pc := .ended (.refused e) })
    | .ok row =>
      if row.status ≠ .completed then
        some (s.setCall i { c with
          pc := .ended (.refused ⟨409, "not-completed", "файл ще не завершено"⟩) })
      else some (s.setCall i { c with pc := .presign row })
  | .presign row =>
    let url := s.presignGet rt row.key
    some (({ s with urls := s.urls ++ [url] } : Downloads).setCall i
      { c with pc := .ended (.redirected url) })
  | .ended _ => none

/-- Download `i` ends in another way. -/
def stop (s : Downloads) (i : ℕ) (o : DownloadOutcome) (c : DownloadCall) : Option Downloads :=
  match c.pc with
  | .ended _ => none
  | _ => some (s.setCall i { c with pc := .ended o })

/-- One event. -/
def step (rt : DownloadRuntime) (s : Downloads) : DownloadEvent → Option Downloads
  | .file a => (s.service.step rt.files a).map fun service => { s with service }
  | .download i user id =>
    match s.calls i with
    | none => some (s.setCall i ⟨user, id, .select⟩)
    | some _ => none
  | .exec i => (s.calls i).bind (s.exec rt i)
  | .fail i => (s.calls i).bind (s.stop i (.thrown .infrastructure))
  | .crash i => (s.calls i).bind (s.stop i .crashed)
  | .get url o =>
    if url ∈ s.urls ∧ s.service.now ≤ url.expires ∧ s.service.s3.objects url.key = o then some s
    else none

/-- Nothing has been uploaded or asked for. -/
structure Start (s : Downloads) : Prop where
  service : s.service.Start
  urls : s.urls = []
  calls : ∀ i, s.calls i = none

end Downloads

/-- The service with its clients and its readers. -/
def downloads (rt : DownloadRuntime) : System Downloads DownloadEvent :=
  ⟨Downloads.Start, Downloads.step rt⟩

namespace FileService

variable {rt : FileRuntime} {s s' s₀ t : FileService}

/-- A COMPLETED row stays COMPLETED; `UPDATE` may give it another ETag. -/
theorem Stepped.stays_completed {a : FileEvent} (h : Stepped s a s') {r : FileRow}
    (hr : r ∈ s.files) (hdone : r.status = .completed) :
    ∃ r' ∈ s'.files, r'.Same r ∧ r'.status = .completed := by
  have hsame : ∃ r' ∈ s.files, r'.Same r ∧ r'.status = .completed := ⟨r, hr, .refl r, hdone⟩
  cases h with
  | moved ha heffect hself hheaded =>
    cases heffect with
    | insert hpending huuid hnew hupload =>
      exact ⟨r, List.mem_append_left _ hr, .refl r, hdone⟩
    | update hcall =>
      refine ⟨_, Table.mem_modify.mpr ⟨r, hr, rfl⟩, ?_⟩
      split_ifs
      · exact ⟨⟨rfl, rfl, rfl, rfl, rfl⟩, rfl⟩
      · exact ⟨.refl r, hdone⟩
    | _ => exact hsame
  | received ha hurl =>
    rename_i url length etag
    obtain ⟨s3, heq, _⟩ := receive_stores s length etag url.target
    rw [heq]
    exact hsame
  | ticked ha => exact hsame

theorem Stepped.now_le {a : FileEvent} (h : Stepped s a s') : s.now ≤ s'.now := by
  cases h with
  | moved ha heffect hself hheaded => cases heffect <;> exact le_rfl
  | received ha hurl =>
    rename_i url length etag
    obtain ⟨s3, heq, _⟩ := receive_stores s length etag url.target
    rw [heq]
  | ticked ha => exact Nat.le_add_right ..

/-- **An object can be replaced, but is never removed.** -/
theorem Stepped.object_stays {a : FileEvent} (h : Stepped s a s') {key : String}
    (hkey : (s.s3.objects key).isSome) : (s'.s3.objects key).isSome := by
  have hput : ∀ (key' : String) (o : S3Object),
      (Function.update s.s3.objects key' (some o) key).isSome := by
    intro key' o
    rw [Function.update_apply]
    split_ifs
    · rfl
    · exact hkey
  cases h with
  | moved ha heffect hself hheaded =>
    cases heffect with
    | create hs3 =>
      obtain ⟨_, rfl⟩ := S3.createMultipartUpload_eq_some hs3
      exact hkey
    | abort hs3 =>
      obtain ⟨x, _, rfl⟩ := S3.abortMultipartUpload_eq_ok hs3
      exact hkey
    | complete hknown hu hs3 =>
      obtain ⟨x, length, hx, rfl⟩ := S3.completeMultipartUpload_eq_ok hs3
      exact hput _ _
    | _ => exact hkey
  | received ha hurl =>
    rename_i url length etag
    obtain ⟨target, expires⟩ := url
    cases target with
    | put key' contentType => exact hput _ _
    | part key' u n =>
      rcases hpart : s.s3.uploadPart key' u ⟨n, length, etag⟩ with _ | s3
      · simpa only [receive, hpart] using hkey
      · obtain ⟨x, parts, _, rfl⟩ := S3.uploadPart_eq_ok hpart
        simp only [receive, hpart]
        exact hkey
  | ticked ha => exact hkey

/-- So a key that has an object has one for the rest of the run. -/
theorem object_stays_run (h : s.Inv) {as : List FileEvent}
    (hrun : (fileServices rt).run s as = some t) {key : String}
    (hkey : (s.s3.objects key).isSome) : (t.s3.objects key).isSome :=
  fileServices_invariant.run_rel
    (R := fun a b : FileService => (a.s3.objects key).isSome → (b.s3.objects key).isSome)
    (fun _ h => h) (fun hab hbc h => hbc (hab h))
    (fun _ _ _ hinv hs h => (hinv.stepped hs).object_stays h) h hrun hkey

/-- What a commit has seen is there, or what has replaced it. -/
theorem Seen.object_isSome {as : List FileEvent} {row : FileRow} {etag : Option String}
    (h : Seen rt s₀ as t row etag) (hstart : s₀.Start)
    (hrun : (fileServices rt).run s₀ as = some t) : (t.s3.objects row.key).isSome := by
  obtain ⟨as₁, i, d, as₂, s, o, rfl, hfirst, _, hobject, _⟩ := h
  obtain ⟨s', hfirst', hlast⟩ := System.run_append_eq_some hrun
  obtain rfl := Option.some.inj (hfirst.symm.trans hfirst')
  refine object_stays_run (fileServices_invariant.run hstart.inv hfirst) hlast ?_
  rw [hobject]
  rfl

end FileService

namespace Downloads

variable {rt : DownloadRuntime} {s s' s₀ t : Downloads}

/-! ## Whose URL it is -/

/-- The file with the id is COMPLETED and the user's own, or the user is an admin. -/
def Entitled (s : FileService) (user : AuthUser) (id key : String) : Prop :=
  ∃ r ∈ s.files, r.id = id ∧ r.key = key ∧ r.status = .completed ∧
    (r.ownerId = user.id ∨ user.role = .admin)

/-- What a download knows: who waits to sign, or has been redirected, is entitled to the
object, and a URL that is still good has been signed at most `getExpires` seconds ago. -/
def CallInv (rt : DownloadRuntime) (s : FileService) (c : DownloadCall) : Prop :=
  match c.pc with
  | .presign row => Entitled s c.user c.id row.key
  | .ended (.redirected url) =>
    Entitled s c.user c.id url.key ∧ url.expires ≤ s.now + rt.getExpires
  | _ => True

/-- What the downloads keep. Every URL has been the answer to somebody. -/
structure Inv (rt : DownloadRuntime) (s : Downloads) : Prop where
  service : s.service.Inv
  calls : ∀ i c, s.calls i = some c → CallInv rt s.service c
  urls : ∀ url ∈ s.urls, ∃ i c, s.calls i = some c ∧ c.pc = .ended (.redirected url)

theorem Start.inv (h : s.Start) : s.Inv rt where
  service := h.service.inv
  calls := by
    intro i c hc
    rw [h.calls i] at hc
    cases hc
  urls := by
    intro url hurl
    rw [h.urls] at hurl
    exact absurd hurl List.not_mem_nil

theorem Entitled.stepped {s s' : FileService} {a : FileEvent} {user : AuthUser} {id key : String}
    (h : Entitled s user id key) (hs : FileService.Stepped s a s') : Entitled s' user id key := by
  obtain ⟨r, hr, hid, hkey, hdone, howner⟩ := h
  obtain ⟨r', hr', hsame, hdone'⟩ := hs.stays_completed hr hdone
  refine ⟨r', hr', hsame.id.symm.trans hid, hsame.key.symm.trans hkey, hdone', ?_⟩
  rw [← hsame.ownerId]
  exact howner

theorem CallInv.stepped {s s' : FileService} {a : FileEvent} {c : DownloadCall}
    (h : CallInv rt s c) (hs : FileService.Stepped s a s') : CallInv rt s' c := by
  obtain ⟨user, id, pc⟩ := c
  cases pc with
  | select => trivial
  | presign row => exact Entitled.stepped h hs
  | ended o =>
    cases o with
    | redirected url =>
      have hnow := hs.now_le
      exact ⟨h.1.stepped hs, h.2.trans (Nat.add_le_add_right hnow _)⟩
    | _ => trivial

/-- Who is not refused by `owned` may read the file once it is COMPLETED. -/
theorem entitled_of_owned {files : FileService} {user : AuthUser} {id : String} {row : FileRow}
    (h : owned files.files user id = .ok row) (hdone : row.status = .completed) :
    Entitled files user id row.key := by
  obtain ⟨hmem, hid⟩ := FileService.owned_eq_ok h
  refine ⟨row, hmem, hid, rfl, hdone, ?_⟩
  by_contra hnot
  obtain ⟨howner, hrole⟩ := not_or.mp hnot
  unfold owned at h
  simp only at h
  split_ifs at h
  split at h
  · cases h
  · rename_i r hr
    split_ifs at h with hrefused
    obtain rfl := Except.ok.inj h
    exact hrefused ⟨howner, hrole⟩

/-- And the other way round. -/
theorem owned_of_entitled {files : FileService} (hinv : files.StoreInv) {user : AuthUser}
    {id key : String} (h : Entitled files user id key) :
    ∃ row, owned files.files user id = .ok row ∧ row ∈ files.files ∧ row.key = key ∧
      row.status = .completed := by
  obtain ⟨r, hr, rfl, hkey, hdone, howner⟩ := h
  refine ⟨r, ?_, hr, hkey, hdone⟩
  have hallowed : ¬ (r.ownerId ≠ user.id ∧ user.role ≠ .admin) := by
    rintro ⟨hne, hrole⟩
    exact howner.elim hne hrole
  simp only [owned, hinv.uuids r hr, Table.lookup_of_mem hinv.ids hr, if_true, if_neg hallowed]

/-! ## Steps -/

/-- What an event does. -/
inductive Stepped (rt : DownloadRuntime) (s : Downloads) : DownloadEvent → Downloads → Prop
  | filed {a : FileEvent} {service : FileService}
      (hs : s.service.step rt.files a = some service) : Stepped rt s (.file a) { s with service }
  | moved {e : DownloadEvent} {i : ℕ} {c : DownloadCall} (he : e.call = some i)
      (hopen : ∀ c o, s.calls i = some c → c.pc ≠ .ended o) (hc : CallInv rt s.service c) :
      Stepped rt s e (s.setCall i c)
  | signed {i : ℕ} {c : DownloadCall} {row : FileRow} (hc : s.calls i = some c)
      (hpc : c.pc = .presign row) :
      Stepped rt s (.exec i)
        (({ s with urls := s.urls ++ [s.presignGet rt row.key] } : Downloads).setCall i
          { c with pc := .ended (.redirected (s.presignGet rt row.key)) })
  | read {url : GetUrl} {o : Option S3Object} (hurl : url ∈ s.urls)
      (hexpires : s.service.now ≤ url.expires) (ho : s.service.s3.objects url.key = o) :
      Stepped rt s (.get url o) s

/-- A download that ends in another way. -/
theorem stop_stepped {i : ℕ} {o : DownloadOutcome} {e : DownloadEvent} (he : e.call = some i)
    (ho : ∀ url, o ≠ .redirected url) (hs : (s.calls i).bind (s.stop i o) = some s') :
    Stepped rt s e s' := by
  obtain ⟨⟨user, id, pc⟩, hc, hstop⟩ := Option.bind_eq_some_iff.mp hs
  have hended : CallInv rt s.service ⟨user, id, .ended o⟩ := by
    cases o with
    | redirected url => exact absurd rfl (ho url)
    | _ => trivial
  cases pc with
  | ended o => cases hstop
  | _ =>
    obtain rfl := Option.some.inj hstop
    refine .moved he (fun c o hc' heq => ?_) hended
    obtain rfl := Option.some.inj (hc.symm.trans hc')
    cases heq

/-- **Inversion of a step.** -/
theorem stepped_of_step {e : DownloadEvent} (hs : s.step rt e = some s') : Stepped rt s e s' := by
  cases e with
  | file a =>
    obtain ⟨service, hservice, rfl⟩ := Option.map_eq_some_iff.mp hs
    exact .filed hservice
  | download i user id =>
    simp only [step] at hs
    split at hs
    · rename_i hfree
      obtain rfl := Option.some.inj hs
      refine .moved rfl (fun c o hc => ?_) trivial
      rw [hfree] at hc
      cases hc
    · cases hs
  | exec i =>
    obtain ⟨⟨user, id, pc⟩, hc, hexec⟩ := Option.bind_eq_some_iff.mp hs
    cases pc with
    | select =>
      have hopen : ∀ c o, s.calls i = some c → c.pc ≠ .ended o := by
        intro c o hc' heq
        obtain rfl := Option.some.inj (hc.symm.trans hc')
        cases heq
      simp only [exec] at hexec
      split at hexec
      · obtain rfl := Option.some.inj hexec
        exact .moved rfl hopen trivial
      · rename_i row hrow
        split_ifs at hexec with hdone
        · obtain rfl := Option.some.inj hexec
          exact .moved rfl hopen trivial
        · obtain rfl := Option.some.inj hexec
          exact .moved rfl hopen (entitled_of_owned hrow (not_not.mp hdone))
    | presign row =>
      obtain rfl := Option.some.inj hexec
      exact .signed hc rfl
    | ended o => cases hexec
  | fail i => exact stop_stepped rfl (fun _ heq => by cases heq) hs
  | crash i => exact stop_stepped rfl (fun _ heq => by cases heq) hs
  | get url o =>
    simp only [step] at hs
    split_ifs at hs with h
    obtain rfl := Option.some.inj hs
    exact .read h.1 h.2.1 h.2.2

/-- **Every step keeps the invariant.** -/
theorem Stepped.inv {e : DownloadEvent} (h : Stepped rt s e s') (hinv : s.Inv rt) :
    s'.Inv rt := by
  cases h with
  | filed hs =>
    have hstepped := hinv.service.stepped hs
    exact ⟨hstepped.inv hinv.service, fun i c hc => (hinv.calls i c hc).stepped hstepped,
      hinv.urls⟩
  | moved he hopen hc =>
    rename_i i c
    refine ⟨hinv.service, fun j c' hj => ?_, fun url hurl => ?_⟩
    · rcases Slots.found_cases_some hj with ⟨-, rfl⟩ | ⟨-, hold⟩
      · exact hc
      · exact hinv.calls j c' hold
    · -- the download that was redirected to the URL has ended, so it is another
      obtain ⟨j, c', hj, hpc⟩ := hinv.urls url hurl
      have hne : j ≠ i := by
        rintro rfl
        exact hopen c' _ hj hpc
      exact ⟨j, c', (Function.update_of_ne hne ..).trans hj, hpc⟩
  | signed hc hpc =>
    rename_i i c row
    have hknown := hinv.calls i c hc
    simp only [CallInv, hpc] at hknown
    refine ⟨hinv.service, fun j c' hj => ?_, fun url hurl => ?_⟩
    · rcases Slots.found_cases_some hj with ⟨-, rfl⟩ | ⟨-, hold⟩
      · exact ⟨hknown, le_rfl⟩
      · exact hinv.calls j c' hold
    · rcases List.mem_append.mp hurl with hold | hnew
      · obtain ⟨j, c', hj, hpc'⟩ := hinv.urls url hold
        have hne : j ≠ i := by
          rintro rfl
          obtain rfl := Option.some.inj (hc.symm.trans hj)
          rw [hpc] at hpc'
          cases hpc'
        exact ⟨j, c', (Function.update_of_ne hne ..).trans hj, hpc'⟩
      · obtain rfl := List.mem_singleton.mp hnew
        exact ⟨i, _, Function.update_self .., rfl⟩
  | read hurl hexpires ho => exact hinv

end Downloads

/-- The downloads keep their invariant. -/
theorem downloads_invariant {rt : DownloadRuntime} :
    (downloads rt).Invariant (Downloads.Inv rt) := by
  intro s e s' hinv hs
  exact (Downloads.stepped_of_step hs).inv hinv

namespace Downloads

variable {rt : DownloadRuntime} {s s' s₀ t : Downloads}

/-- The service runs as if there were no downloads. -/
theorem service_run {as : List DownloadEvent} (hrun : (downloads rt).run s as = some t) :
    (fileServices rt.files).run s.service (as.filterMap DownloadEvent.file?) = some t.service := by
  induction as generalizing s with
  | nil =>
    obtain rfl := Option.some.inj hrun
    rfl
  | cons e as ih =>
    obtain ⟨s', hs, hrest⟩ := System.run_cons_eq_some hrun
    have hlast := ih hrest
    cases stepped_of_step hs with
    | filed hservice =>
      refine (System.run_cons ..).trans ?_
      exact Option.bind_eq_some_iff.mpr ⟨_, hservice, hlast⟩
    | moved he hopen hc =>
      have hfile : e.file? = none := by
        cases e with
        | file a => cases he
        | _ => rfl
      rw [List.filterMap_cons_none hfile]
      exact hlast
    | signed hc hpc =>
      rw [List.filterMap_cons_none rfl]
      exact hlast
    | read hurl hexpires ho =>
      rw [List.filterMap_cons_none rfl]
      exact hlast

end Downloads

/-- **What is read through a signed URL**: the URL has been the answer to somebody entitled
to the file, at most `getExpires` seconds ago, and the file is COMPLETED. There is an
object. Of a multipart file it is the one that the row describes; of another file it is
the one that a commit has seen, unless a `PUT` to its key has come since. -/
theorem downloads_serve_committed {rt : DownloadRuntime} {s₀ t : Downloads}
    {as : List DownloadEvent} {url : GetUrl} {o : Option S3Object} (hstart : s₀.Start)
    (hrun : (downloads rt).run s₀ (as ++ [.get url o]) = some t) :
    ∃ i user id row object, t.calls i = some ⟨user, id, .ended (.redirected url)⟩ ∧
      owned t.service.files user id = .ok row ∧ row.status = .completed ∧ row.key = url.key ∧
      t.service.now ≤ url.expires ∧ url.expires ≤ t.service.now + rt.getExpires ∧
      o = some object ∧
      (row.uploadId ≠ none → object.contentLength = row.size ∧ row.etag = some object.etag) ∧
      FileService.Seen rt.files s₀.service (as.filterMap DownloadEvent.file?) t.service row
        row.etag := by
  obtain ⟨t', hbefore, hlast⟩ := System.run_append_eq_some hrun
  obtain ⟨t'', hstep, hnil⟩ := System.run_cons_eq_some hlast
  obtain rfl := Option.some.inj hnil
  have hfirst : s₀.Inv rt := hstart.inv
  have hinv := downloads_invariant.run hfirst hbefore
  have hservice := Downloads.service_run hbefore
  have hs : t'.step rt (.get url o) = some t'' := hstep
  cases Downloads.stepped_of_step hs with
  | moved he hopen hc => cases he
  | read hurl hexpires ho =>
    obtain ⟨i, ⟨user, id, pc⟩, hi, rfl⟩ := hinv.urls url hurl
    obtain ⟨hentitled, hage⟩ := hinv.calls i _ hi
    obtain ⟨row, howned, hrow, hkey, hdone⟩ :=
      Downloads.owned_of_entitled hinv.service.stores hentitled
    have hseen := (FileService.witnessed_run hstart.service hservice).rows row hrow hdone
    obtain ⟨object, hobject⟩ := Option.isSome_iff_exists.mp
      (hseen.object_isSome hstart.service hservice)
    rw [hkey, ho] at hobject
    refine ⟨i, user, id, row, object, hi, howned, hdone, hkey, hexpires, hage, hobject, ?_, hseen⟩
    intro hupload
    obtain ⟨as₁, j, d, as₂, s, seen, -, -, -, -, hsize, hetag, hstill⟩ := hseen
    have hthere := hstill fun hnone => absurd hnone hupload
    rw [hkey, ho, hobject] at hthere
    obtain rfl := Option.some.inj hthere
    exact ⟨hsize, hetag⟩

/-- The defaults of the configuration. -/
def demoDownloadRuntime : DownloadRuntime := ⟨demoFileRuntime, 60⟩

/-- The small file is uploaded and committed, its owner asks for it, and somebody reads it
half a minute later. -/
def demoRedirect : List DownloadEvent :=
  demoCommitted.map .file ++
    [.download 0 demoCustomer demoSmall.id, .exec 0, .exec 0, .file (.tick 30)]

/-- The URL that the owner was redirected to. -/
def demoGetUrl : GetUrl := ⟨demoSmall.key, 60⟩

theorem demoRedirect_serves : ∃ t,
    (downloads demoDownloadRuntime).run ⟨demoFiles, [], fun _ => none⟩
      (demoRedirect ++ [.get demoGetUrl (some ⟨10, "ten"⟩)]) = some t ∧
    ∃ i user id row object, t.calls i = some ⟨user, id, .ended (.redirected demoGetUrl)⟩ ∧
      owned t.service.files user id = .ok row ∧ row.status = .completed ∧
      row.key = demoGetUrl.key ∧ t.service.now ≤ demoGetUrl.expires ∧
      demoGetUrl.expires ≤ t.service.now + demoDownloadRuntime.getExpires ∧
      some (⟨10, "ten"⟩ : S3Object) = some object ∧
      (row.uploadId ≠ none → object.contentLength = row.size ∧ row.etag = some object.etag) ∧
      FileService.Seen demoDownloadRuntime.files demoFiles
        (demoRedirect.filterMap DownloadEvent.file?) t.service row row.etag := by
  have hsome : ((downloads demoDownloadRuntime).run ⟨demoFiles, [], fun _ => none⟩
      (demoRedirect ++ [.get demoGetUrl (some ⟨10, "ten"⟩)])).isSome = true := by
    decide +kernel
  obtain ⟨t, hrun⟩ := Option.isSome_iff_exists.mp hsome
  have hstart : Downloads.Start ⟨demoFiles, [], fun _ => none⟩ :=
    ⟨demoFiles_start, rfl, fun _ => rfl⟩
  exact ⟨t, hrun, downloads_serve_committed hstart hrun⟩

end Marketplace
