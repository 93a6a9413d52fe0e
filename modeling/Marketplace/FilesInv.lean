import Marketplace.Files
import Marketplace.Run

/-!
# What the file service keeps

A step of a call has one of seven *effects* on the table, the bucket and the issued
URLs; all else is local to the call. The invariant is a statement about the stores,
kept by each effect, and one about what a call knows at each of its points.

Two facts matter later. A `PUT` URL is issued only for a row that has no upload, so
a multipart file has none. And once a commit has come to `HeadObject`, the upload of
its file is over: nothing but a `PUT` can replace the object then.
-/

namespace Marketplace

/-- The same row, up to what `commit` writes. -/
structure FileRow.Same (r r' : FileRow) : Prop where
  id : r'.id = r.id
  key : r'.key = r.key
  size : r'.size = r.size
  uploadId : r'.uploadId = r.uploadId
  ownerId : r'.ownerId = r.ownerId

theorem FileRow.Same.refl (r : FileRow) : r.Same r := ⟨rfl, rfl, rfl, rfl, rfl⟩

theorem FileRow.Same.trans {r r' r'' : FileRow} (h : r.Same r') (h' : r'.Same r'') : r.Same r'' :=
  ⟨h'.id.trans h.id, h'.key.trans h.key, h'.size.trans h.size, h'.uploadId.trans h.uploadId,
    h'.ownerId.trans h.ownerId⟩

/-- The table has the row of which this is a copy. -/
def Known (files : List FileRow) (row : FileRow) : Prop := ∃ r ∈ files, r.Same row

theorem known_of_mem {files : List FileRow} {r : FileRow} (h : r ∈ files) : Known files r :=
  ⟨r, h, .refl r⟩

/-- The size of a valid body. -/
theorem parse_size {body : IntentBody} {x : Intent} (h : body.parse = some x) :
    1 ≤ x.size ∧ x.size ≤ maxObject := by
  unfold IntentBody.parse at h
  split at h
  · cases h
  · split_ifs at h with hvalid
    obtain rfl := Option.some.inj h
    obtain ⟨-, -, hpos, hmax⟩ := hvalid
    dsimp only
    omega

namespace FileService

variable {rt : FileRuntime} {s s' : FileService} {i : ℕ}

/-! ## The invariant -/

/-- What `intent` knows at each of its points. -/
def IntentPcInv (s : FileService) (user : AuthUser) : IntentPc → Prop
  | .createMultipart _ id => isUuid id = true
  | .insert x id uploadId => isUuid id = true ∧ ∀ u, uploadId = some u →
      ∃ y, s.s3.uploads u = some y ∧ y.key = objectKey user.id id x.contentType
  | .describe row => Known s.files row
  | .sign row u _ _ _ => Known s.files row ∧ row.uploadId = some u
  | _ => True

/-- What `parts` knows at each of its points. -/
def PartsPcInv (s : FileService) : PartsPc → Prop
  | .select => True
  | .listParts row u _ _ _ | .sign row u _ _ _ _ => Known s.files row ∧ row.uploadId = some u

/-- What `commit` knows at each of its points: from `HeadObject` on, the upload is
over. -/
def CommitPcInv (s : FileService) : CommitPc → Prop
  | .select => True
  | .listParts row u _ _ _ | .complete row u _ => Known s.files row ∧ row.uploadId = some u
  | .head row | .update row _ =>
    Known s.files row ∧ ∀ u, row.uploadId = some u → s.s3.Over u

/-- What a call knows. -/
def CallInv (s : FileService) : Option FileCall → Prop
  | some (.intent user _ _ (.running pc)) => s.IntentPcInv user pc
  | some (.parts _ _ (.running pc)) => s.PartsPcInv pc
  | some (.commit _ _ (.running pc)) => s.CommitPcInv pc
  | _ => True

/-- What the table, the bucket and the URLs keep. -/
structure StoreInv (s : FileService) : Prop where
  ids : (s.files.map FileRow.id).Nodup
  keys : (s.files.map FileRow.key).Nodup
  uuids : ∀ r ∈ s.files, isUuid r.id = true
  uploads : ∀ r ∈ s.files, ∀ u, r.uploadId = some u → ∃ x, s.s3.uploads u = some x ∧ x.key = r.key
  completed : ∀ r ∈ s.files, r.status = .completed → ∀ u, r.uploadId = some u → s.s3.Over u
  urls : ∀ url ∈ s.urls, ∀ key contentType, url.target = .put key contentType →
    ∃ r ∈ s.files, r.key = key ∧ r.uploadId = none

/-- What the service keeps. -/
structure Inv (s : FileService) : Prop where
  stores : s.StoreInv
  calls : ∀ i, s.CallInv (s.calls i)

/-- What stays true of rows and uploads. -/
structure Grows (s s' : FileService) : Prop where
  files : ∀ r ∈ s.files, Known s'.files r
  s3 : s.s3.Grows s'.s3

theorem Grows.refl (s : FileService) : s.Grows s := ⟨fun _ hr => known_of_mem hr, .refl _⟩

end FileService

theorem Known.grows {s s' : FileService} {row : FileRow} (h : Known s.files row)
    (hg : s.Grows s') : Known s'.files row := by
  obtain ⟨r, hr, hsame⟩ := h
  obtain ⟨r', hr', hsame'⟩ := hg.files r hr
  exact ⟨r', hr', hsame'.trans hsame⟩

namespace FileService

variable {rt : FileRuntime} {s s' : FileService} {i : ℕ}

/-- What a call knows stays true. -/
theorem CallInv.grows {c : Option FileCall} (h : s.CallInv c) (hg : s.Grows s') :
    s'.CallInv c := by
  rcases c with _ | ⟨user, body, key, pc | o⟩ | ⟨user, id, pc | o⟩ | ⟨user, id, pc | o⟩
  · trivial
  · cases pc with
    | createMultipart x id => exact h
    | insert x id uploadId =>
      refine ⟨h.1, fun u hu => ?_⟩
      obtain ⟨y, hy, hkey⟩ := h.2 u hu
      obtain ⟨z, hz, hkey', _⟩ := hg.s3 u y hy
      exact ⟨z, hz, hkey'.trans hkey⟩
    | describe row => exact Known.grows h hg
    | sign row u partSize todo parts => exact ⟨h.1.grows hg, h.2⟩
    | begin | selectKey | abort | reselect => trivial
  · trivial
  · cases pc with
    | select => trivial
    | listParts row u partSize marker out => exact ⟨h.1.grows hg, h.2⟩
    | sign row u partSize good todo missing => exact ⟨h.1.grows hg, h.2⟩
  · trivial
  · cases pc with
    | select => trivial
    | listParts row u partSize marker out => exact ⟨h.1.grows hg, h.2⟩
    | complete row u parts => exact ⟨h.1.grows hg, h.2⟩
    | head row => exact ⟨h.1.grows hg, fun u hu => (h.2 u hu).grows hg.s3⟩
    | update row etag => exact ⟨h.1.grows hg, fun u hu => (h.2 u hu).grows hg.s3⟩
  · trivial

/-- The service keeps it from the start. -/
theorem Start.inv (h : s.Start) : s.Inv where
  stores :=
    { ids := by rw [h.files]; exact List.nodup_nil
      keys := by rw [h.files]; exact List.nodup_nil
      uuids := by rw [h.files]; exact fun _ hr => absurd hr List.not_mem_nil
      uploads := by rw [h.files]; exact fun _ hr => absurd hr List.not_mem_nil
      completed := by rw [h.files]; exact fun _ hr => absurd hr List.not_mem_nil
      urls := by rw [h.urls]; exact fun _ hurl => absurd hurl List.not_mem_nil }
  calls := by
    intro i
    rw [h.calls i]
    trivial

/-! ## Effects -/

/-- What the step of a call does to the stores. -/
inductive Effect (s : FileService) : FileService → Prop
  | none : Effect s s
  | sign (url : Url) (hput : ∀ key contentType, url.target = .put key contentType →
      ∃ r ∈ s.files, r.key = key ∧ r.uploadId = none) : Effect s (s.signUrl url)
  | create {key : String} {u : UploadId} {s3 : S3}
      (hs3 : s.s3.createMultipartUpload key u = some s3) : Effect s { s with s3 }
  | insert {row : FileRow} (hpending : row.status = .pending) (huuid : isUuid row.id = true)
      (hnew : ¬ row.Duplicate s.files)
      (hupload : ∀ u, row.uploadId = some u → ∃ x, s.s3.uploads u = some x ∧ x.key = row.key) :
      Effect s { s with files := s.files ++ [row] }
  | abort {key : String} {u : UploadId} {s3 : S3}
      (hs3 : s.s3.abortMultipartUpload key u = .ok s3) : Effect s { s with s3 }
  | complete {row : FileRow} {u : UploadId} {named : List (ℕ × String)} {etag : String} {s3 : S3}
      (hknown : Known s.files row) (hu : row.uploadId = some u)
      (hs3 : s.s3.completeMultipartUpload row.key u named etag = .ok s3) : Effect s { s with s3 }
  | update {i : ℕ} {user : AuthUser} {id : String} {row : FileRow} {etag : Option String}
      (hcall : s.calls i = some (.commit user id (.running (.update row etag)))) :
      Effect s { s with files := Table.modify FileRow.id row.id (FileRow.complete etag) s.files }

variable {e : FileService}

/-- A change of the bucket alone. -/
theorem grows_s3 {s3 : S3} (h : s.s3.Grows s3) : s.Grows { s with s3 } :=
  ⟨fun _ hr => known_of_mem hr, h⟩

theorem Effect.grows (h : Effect s e) : s.Grows e := by
  cases h with
  | none => exact .refl s
  | sign url hput => exact ⟨fun _ hr => known_of_mem hr, .refl _⟩
  | create hs3 => exact grows_s3 (S3.grows_createMultipartUpload hs3)
  | insert hpending huuid hnew hupload =>
    exact ⟨fun r hr => known_of_mem (List.mem_append_left _ hr), .refl _⟩
  | abort hs3 => exact grows_s3 (S3.grows_abortMultipartUpload hs3)
  | complete hknown hu hs3 => exact grows_s3 (S3.grows_completeMultipartUpload hs3)
  | update hcall =>
    refine ⟨fun r hr => ?_, .refl _⟩
    refine ⟨_, Table.mem_modify.mpr ⟨r, hr, rfl⟩, ?_⟩
    split_ifs
    · exact ⟨rfl, rfl, rfl, rfl, rfl⟩
    · exact .refl r

/-- A change of the bucket alone keeps what the stores keep. -/
theorem StoreInv.s3 (h : s.StoreInv) {s3 : S3} (hg : s.s3.Grows s3) :
    StoreInv { s with s3 } where
  ids := h.ids
  keys := h.keys
  uuids := h.uuids
  uploads := by
    intro r hr u hu
    obtain ⟨x, hx, hkey⟩ := h.uploads r hr u hu
    obtain ⟨y, hy, hkey', _⟩ := hg u x hx
    exact ⟨y, hy, hkey'.trans hkey⟩
  completed := fun r hr hdone u hu => (h.completed r hr hdone u hu).grows hg
  urls := h.urls

/-- **Every effect keeps what the stores keep.** -/
theorem Effect.stores (h : Effect s e) (hinv : s.Inv) : e.StoreInv := by
  have hs := hinv.stores
  cases h with
  | none => exact hs
  | sign url hput =>
    refine ⟨hs.ids, hs.keys, hs.uuids, hs.uploads, hs.completed, ?_⟩
    intro url' hurl key contentType htarget
    rcases List.mem_append.mp hurl with hurl | hurl
    · exact hs.urls url' hurl key contentType htarget
    · obtain rfl := List.mem_singleton.mp hurl
      exact hput key contentType htarget
  | create hs3 => exact hs.s3 (S3.grows_createMultipartUpload hs3)
  | insert hpending huuid hnew hupload =>
    rename_i row
    refine ⟨?_, ?_, ?_, ?_, ?_, ?_⟩
    · rw [List.map_append]
      refine List.Nodup.append hs.ids (List.nodup_singleton _) ?_
      rw [List.map_singleton, List.disjoint_singleton]
      intro hmem
      obtain ⟨r, hr, hid⟩ := List.mem_map.mp hmem
      exact hnew ⟨r, hr, .inl hid⟩
    · rw [List.map_append]
      refine List.Nodup.append hs.keys (List.nodup_singleton _) ?_
      rw [List.map_singleton, List.disjoint_singleton]
      intro hmem
      obtain ⟨r, hr, hkey⟩ := List.mem_map.mp hmem
      exact hnew ⟨r, hr, .inr (.inl hkey)⟩
    · intro r hr
      rcases List.mem_append.mp hr with hr | hr
      · exact hs.uuids r hr
      · obtain rfl := List.mem_singleton.mp hr
        exact huuid
    · intro r hr
      rcases List.mem_append.mp hr with hr | hr
      · exact hs.uploads r hr
      · obtain rfl := List.mem_singleton.mp hr
        exact hupload
    · intro r hr hdone
      rcases List.mem_append.mp hr with hr | hr
      · exact hs.completed r hr hdone
      · obtain rfl := List.mem_singleton.mp hr
        rw [hpending] at hdone
        cases hdone
    · intro url hurl key contentType htarget
      obtain ⟨r, hr, hrest⟩ := hs.urls url hurl key contentType htarget
      exact ⟨r, List.mem_append_left _ hr, hrest⟩
  | abort hs3 => exact hs.s3 (S3.grows_abortMultipartUpload hs3)
  | complete hknown hu hs3 => exact hs.s3 (S3.grows_completeMultipartUpload hs3)
  | update hcall =>
    rename_i i user id row etag
    have hself := hinv.calls i
    rw [hcall] at hself
    obtain ⟨⟨r₀, hr₀, hsame⟩, hover⟩ := hself
    refine ⟨?_, ?_, ?_, ?_, ?_, ?_⟩
    · rw [Table.map_modify]
      · exact hs.ids
      · exact fun _ => rfl
    · rw [Table.map_modify]
      · exact hs.keys
      · exact fun _ => rfl
    · intro r' hr'
      obtain ⟨r, hr, rfl⟩ := Table.mem_modify.mp hr'
      split_ifs
      · exact hs.uuids r hr
      · exact hs.uuids r hr
    · intro r' hr'
      obtain ⟨r, hr, rfl⟩ := Table.mem_modify.mp hr'
      split_ifs
      · exact hs.uploads r hr
      · exact hs.uploads r hr
    · intro r' hr'
      obtain ⟨r, hr, rfl⟩ := Table.mem_modify.mp hr'
      split_ifs with hid
      · -- the row is the one the commit has a copy of
        have heq : r = r₀ := List.inj_on_of_nodup_map hs.ids hr hr₀ (hid.trans hsame.id)
        intro _ u hu
        subst heq
        exact hover u (hsame.uploadId.trans hu)
      · exact hs.completed r hr
    · intro url hurl key contentType htarget
      obtain ⟨r, hr, hkey, hnone⟩ := hs.urls url hurl key contentType htarget
      refine ⟨_, Table.mem_modify.mpr ⟨r, hr, rfl⟩, ?_⟩
      split_ifs
      · exact ⟨hkey, hnone⟩
      · exact ⟨hkey, hnone⟩

/-! ## What a step of a call does -/

variable {user : AuthUser} {id : String} {d : FileDraw}

theorem owned_eq_ok {files : List FileRow} {row : FileRow} (h : owned files user id = .ok row) :
    row ∈ files ∧ row.id = id := by
  unfold owned at h
  simp only at h
  split_ifs at h
  split at h
  · cases h
  · rename_i r hr
    split_ifs at h
    obtain rfl := Except.ok.inj h
    exact ⟨Table.mem_of_lookup hr, Table.key_of_lookup hr⟩

/-- What the catch block of an intent goes on with needs nothing. -/
theorem callInv_catchEnd {body : IntentBody} {key : Option String} {f : Failure} :
    s.CallInv (some (.intent user body key (catchEnd key f))) := by
  unfold catchEnd
  split
  · split_ifs
    · trivial
    · trivial
  · trivial

theorem callInv_catchInsert {body : IntentBody} {key : Option String} {x : Intent}
    {uploadId : Option UploadId} {f : Failure} :
    s.CallInv (some (.intent user body key (catchInsert key x id uploadId f))) := by
  unfold catchInsert
  split
  · trivial
  · exact callInv_catchEnd

theorem callInv_create {body : IntentBody} {key : Option String} {x : Intent}
    (hid : isUuid id = true) :
    s.CallInv (some (.intent user body key (.running (x.create rt id)))) := by
  unfold Intent.create
  split_ifs
  · exact hid
  · exact ⟨hid, fun _ hu => by cases hu⟩

/-- **The step of an intent.** -/
theorem intentExec_effect {body : IntentBody} {key : Option String} {pc : IntentPc}
    (hpc : s.IntentPcInv user pc)
    (hs : s.intentExec rt i user body key d pc = some s') :
    ∃ e p, Effect s e ∧ s' = e.setCall i (.intent user body key p) ∧
      e.CallInv (some (.intent user body key p)) := by
  cases pc with
  | begin =>
    simp only [intentExec] at hs
    split at hs
    · obtain rfl := Option.some.inj hs
      exact ⟨s, _, .none, rfl, trivial⟩
    · split at hs
      · obtain rfl := Option.some.inj hs
        exact ⟨s, _, .none, rfl, trivial⟩
      · split_ifs at hs with hid
        obtain rfl := Option.some.inj hs
        exact ⟨s, _, .none, rfl, callInv_create hid⟩
  | selectKey x k =>
    simp only [intentExec] at hs
    split at hs
    · rename_i row hrow
      obtain rfl := Option.some.inj hs
      exact ⟨s, _, .none, rfl, known_of_mem (List.mem_of_find?_eq_some hrow)⟩
    · split_ifs at hs with hid
      obtain rfl := Option.some.inj hs
      exact ⟨s, _, .none, rfl, callInv_create hid⟩
  | createMultipart x id =>
    simp only [intentExec] at hs
    split at hs
    · cases hs
    · rename_i s3 hs3
      obtain rfl := Option.some.inj hs
      obtain ⟨_, rfl⟩ := S3.createMultipartUpload_eq_some hs3
      refine ⟨_, _, .create hs3, rfl, hpc, fun u hu => ?_⟩
      obtain rfl := Option.some.inj hu
      exact ⟨_, Function.update_self .., rfl⟩
  | insert x id uploadId =>
    simp only [intentExec] at hs
    split_ifs at hs with hdup
    · obtain rfl := Option.some.inj hs
      exact ⟨s, _, .none, rfl, callInv_catchInsert⟩
    · obtain rfl := Option.some.inj hs
      have heffect : Effect s { s with files := s.files ++ [x.row user.id id uploadId key] } :=
        .insert rfl hpc.1 hdup hpc.2
      exact ⟨_, _, heffect, rfl,
        known_of_mem (List.mem_append_right _ (List.mem_singleton_self _))⟩
  | abort x id u f =>
    simp only [intentExec] at hs
    split at hs
    · obtain rfl := Option.some.inj hs
      exact ⟨s, _, .none, rfl, callInv_catchEnd⟩
    · rename_i s3 hs3
      obtain rfl := Option.some.inj hs
      exact ⟨_, _, .abort hs3, rfl, callInv_catchEnd⟩
  | reselect k f =>
    simp only [intentExec] at hs
    split at hs
    · rename_i row hrow
      obtain rfl := Option.some.inj hs
      exact ⟨s, _, .none, rfl, known_of_mem (List.mem_of_find?_eq_some hrow)⟩
    · obtain rfl := Option.some.inj hs
      exact ⟨s, _, .none, rfl, trivial⟩
  | describe row =>
    have hknown : Known s.files row := hpc
    rcases hu : row.uploadId with _ | u
    · simp only [intentExec, hu] at hs
      obtain rfl := Option.some.inj hs
      refine ⟨_, _, .sign _ ?_, rfl, trivial⟩
      intro key contentType htarget
      obtain ⟨rfl, rfl⟩ := UrlTarget.put.inj htarget
      obtain ⟨r, hr, hsame⟩ := hknown
      exact ⟨r, hr, hsame.key.symm, hsame.uploadId.symm.trans hu⟩
    · rcases hsize : computePartSize row.size with _ | partSize
      · simp only [intentExec, hu, hsize] at hs
        obtain rfl := Option.some.inj hs
        exact ⟨s, _, .none, rfl, trivial⟩
      · simp only [intentExec, hu, hsize] at hs
        obtain rfl := Option.some.inj hs
        exact ⟨s, _, .none, rfl, hknown, hu⟩
  | sign row u partSize todo parts =>
    cases todo with
    | nil =>
      obtain rfl := Option.some.inj hs
      exact ⟨s, _, .none, rfl, trivial⟩
    | cons n todo =>
      obtain rfl := Option.some.inj hs
      exact ⟨_, _, .sign _ (fun _ _ htarget => by cases htarget), rfl, hpc⟩

/-- **The step of `parts`.** -/
theorem partsExec_effect {pc : PartsPc} (hpc : s.PartsPcInv pc)
    (hs : s.partsExec rt i user id d pc = some s') :
    ∃ e p, Effect s e ∧ s' = e.setCall i (.parts user id p) ∧
      e.CallInv (some (.parts user id p)) := by
  cases pc with
  | select =>
    simp only [partsExec] at hs
    split at hs
    · obtain rfl := Option.some.inj hs
      exact ⟨s, _, .none, rfl, trivial⟩
    · rename_i row hrow
      split at hs
      · obtain rfl := Option.some.inj hs
        exact ⟨s, _, .none, rfl, trivial⟩
      · rename_i u hu
        split_ifs at hs
        · rcases hsize : computePartSize row.size with _ | partSize
          · simp only [hsize] at hs
            obtain rfl := Option.some.inj hs
            exact ⟨s, _, .none, rfl, trivial⟩
          · simp only [hsize] at hs
            obtain rfl := Option.some.inj hs
            exact ⟨s, _, .none, rfl, known_of_mem (owned_eq_ok hrow).1, hu⟩
        · obtain rfl := Option.some.inj hs
          exact ⟨s, _, .none, rfl, trivial⟩
  | listParts row u partSize marker out =>
    simp only [partsExec] at hs
    split_ifs at hs
    split at hs
    · obtain rfl := Option.some.inj hs
      exact ⟨s, _, .none, rfl, trivial⟩
    · split_ifs at hs
      · obtain rfl := Option.some.inj hs
        exact ⟨s, _, .none, rfl, hpc⟩
      · obtain rfl := Option.some.inj hs
        exact ⟨s, _, .none, rfl, hpc⟩
  | sign row u partSize good todo missing =>
    cases todo with
    | nil =>
      obtain rfl := Option.some.inj hs
      exact ⟨s, _, .none, rfl, trivial⟩
    | cons n todo =>
      obtain rfl := Option.some.inj hs
      exact ⟨_, _, .sign _ (fun _ _ htarget => by cases htarget), rfl, hpc⟩

/-- The only way to the `UPDATE` is from a `HeadObject` that found the object with the
row's size, and its ETag is what will be written. -/
def Headed (s : FileService) (c c' : FileCall) : Prop :=
  ∀ user id row etag, c' = .commit user id (.running (.update row etag)) →
    c = .commit user id (.running (.head row)) ∧
      ∃ o, s.s3.objects row.key = some o ∧ o.contentLength = row.size ∧ etag = some o.etag

/-- **The step of a commit.** -/
theorem commitExec_effect {pc : CommitPc} (h : s.Inv)
    (hc : s.calls i = some (.commit user id (.running pc)))
    (hs : s.commitExec i user id d pc = some s') :
    ∃ e p, Effect s e ∧ s' = e.setCall i (.commit user id p) ∧
      e.CallInv (some (.commit user id p)) ∧
      Headed s (.commit user id (.running pc)) (.commit user id p) := by
  have hpc : s.CommitPcInv pc := by
    have := h.calls i
    rwa [hc] at this
  have hended : ∀ o, Headed s (.commit user id (.running pc)) (.commit user id (.ended o)) :=
    fun _ _ _ _ _ heq => by cases heq
  cases pc with
  | select =>
    simp only [commitExec] at hs
    split at hs
    · obtain rfl := Option.some.inj hs
      exact ⟨s, _, .none, rfl, trivial, hended _⟩
    · rename_i row hrow
      obtain ⟨hmem, _⟩ := owned_eq_ok hrow
      split_ifs at hs
      · obtain rfl := Option.some.inj hs
        exact ⟨s, _, .none, rfl, trivial, hended _⟩
      · rcases hu : row.uploadId with _ | u
        · simp only [hu] at hs
          obtain rfl := Option.some.inj hs
          refine ⟨s, _, .none, rfl, ⟨known_of_mem hmem, fun u hu' => ?_⟩,
            fun _ _ _ _ heq => by cases heq⟩
          rw [hu] at hu'
          cases hu'
        · rcases hsize : computePartSize row.size with _ | partSize
          · simp only [hu, hsize] at hs
            obtain rfl := Option.some.inj hs
            exact ⟨s, _, .none, rfl, trivial, hended _⟩
          · simp only [hu, hsize] at hs
            obtain rfl := Option.some.inj hs
            exact ⟨s, _, .none, rfl, ⟨known_of_mem hmem, hu⟩, fun _ _ _ _ heq => by cases heq⟩
  | listParts row u partSize marker out =>
    simp only [commitExec] at hs
    split_ifs at hs
    split at hs
    · obtain rfl := Option.some.inj hs
      exact ⟨s, _, .none, rfl, trivial, hended _⟩
    · split_ifs at hs
      · obtain rfl := Option.some.inj hs
        exact ⟨s, _, .none, rfl, hpc, fun _ _ _ _ heq => by cases heq⟩
      · split at hs
        · obtain rfl := Option.some.inj hs
          exact ⟨s, _, .none, rfl, hpc, fun _ _ _ _ heq => by cases heq⟩
        · obtain rfl := Option.some.inj hs
          exact ⟨s, _, .none, rfl, trivial, hended _⟩
  | complete row u parts =>
    obtain ⟨hknown, hu⟩ := hpc
    simp only [commitExec] at hs
    split at hs
    · rename_i s3 hs3
      obtain rfl := Option.some.inj hs
      refine ⟨_, _, .complete hknown hu hs3, rfl, ⟨hknown, fun v hv => ?_⟩,
        fun _ _ _ _ heq => by cases heq⟩
      obtain rfl := Option.some.inj (hu.symm.trans hv)
      exact S3.over_completeMultipartUpload hs3
    · rename_i hs3
      obtain rfl := Option.some.inj hs
      refine ⟨s, _, .none, rfl, ⟨hknown, fun v hv => ?_⟩, fun _ _ _ _ heq => by cases heq⟩
      obtain rfl := Option.some.inj (hu.symm.trans hv)
      obtain ⟨r, hr, hsame⟩ := hknown
      obtain ⟨x, hx, hkey⟩ := h.stores.uploads r hr u (hsame.uploadId.symm.trans hu)
      exact S3.over_of_noSuchUpload hx (hkey.trans hsame.key.symm) hs3
    · obtain rfl := Option.some.inj hs
      exact ⟨s, _, .none, rfl, trivial, hended _⟩
  | head row =>
    simp only [commitExec] at hs
    split at hs
    · obtain rfl := Option.some.inj hs
      exact ⟨s, _, .none, rfl, trivial, hended _⟩
    · rename_i o ho
      split_ifs at hs with hsize
      · obtain rfl := Option.some.inj hs
        exact ⟨s, _, .none, rfl, trivial, hended _⟩
      · obtain rfl := Option.some.inj hs
        refine ⟨s, _, .none, rfl, hpc, ?_⟩
        intro user' id' row' etag heq
        cases heq
        exact ⟨rfl, o, ho, not_not.mp hsize, rfl⟩
  | update row etag =>
    simp only [commitExec] at hs
    split at hs
    · obtain rfl := Option.some.inj hs
      exact ⟨s, _, .none, rfl, trivial, hended _⟩
    · obtain rfl := Option.some.inj hs
      exact ⟨_, _, .update hc, rfl, trivial, hended _⟩

/-- **The step of a call**: one effect on the stores, and the call goes on. -/
theorem exec_effect (h : s.Inv) {c : FileCall} (hc : s.calls i = some c)
    (hs : s.exec rt i d c = some s') :
    ∃ e c', Effect s e ∧ s' = e.setCall i c' ∧ e.CallInv (some c') ∧ Headed s c c' := by
  have hself := h.calls i
  rw [hc] at hself
  rcases c with ⟨user, body, key, pc | o⟩ | ⟨user, id, pc | o⟩ | ⟨user, id, pc | o⟩
  · obtain ⟨e, p, he, rfl, hp⟩ := intentExec_effect hself hs
    exact ⟨e, _, he, rfl, hp, fun _ _ _ _ heq => by cases heq⟩
  · cases hs
  · obtain ⟨e, p, he, rfl, hp⟩ := partsExec_effect hself hs
    exact ⟨e, _, he, rfl, hp, fun _ _ _ _ heq => by cases heq⟩
  · cases hs
  · obtain ⟨e, p, he, rfl, hp, hheaded⟩ := commitExec_effect h hc hs
    exact ⟨e, _, he, rfl, hp, hheaded⟩
  · cases hs

/-- A call whose request fails goes on without knowing anything. -/
theorem fails_eq_some {c : FileCall} (hs : s.fails i c = some s') :
    ∃ c', s' = s.setCall i c' ∧ (∀ t : FileService, t.CallInv (some c')) ∧
      ∀ user id row etag, c' ≠ .commit user id (.running (.update row etag)) := by
  rcases c with ⟨user, body, key, pc | o⟩ | ⟨user, id, pc | o⟩ | ⟨user, id, pc | o⟩
  · obtain rfl := Option.some.inj hs
    cases pc with
    | insert x id uploadId =>
      exact ⟨_, rfl, fun _ => callInv_catchInsert, fun _ _ _ _ heq => by cases heq⟩
    | abort x id u f =>
      exact ⟨_, rfl, fun _ => callInv_catchEnd, fun _ _ _ _ heq => by cases heq⟩
    | _ => exact ⟨_, rfl, fun _ => trivial, fun _ _ _ _ heq => by cases heq⟩
  · cases hs
  · obtain rfl := Option.some.inj hs
    exact ⟨_, rfl, fun _ => trivial, fun _ _ _ _ heq => by cases heq⟩
  · cases hs
  · obtain rfl := Option.some.inj hs
    exact ⟨_, rfl, fun _ => trivial, fun _ _ _ _ heq => by cases heq⟩
  · cases hs

theorem crashes_eq_some {c : FileCall} (hs : s.crashes i c = some s') :
    ∃ c', s' = s.setCall i c' ∧ (∀ t : FileService, t.CallInv (some c')) ∧
      ∀ user id row etag, c' ≠ .commit user id (.running (.update row etag)) := by
  rcases c with ⟨user, body, key, pc | o⟩ | ⟨user, id, pc | o⟩ | ⟨user, id, pc | o⟩
  · obtain rfl := Option.some.inj hs
    exact ⟨_, rfl, fun _ => trivial, fun _ _ _ _ heq => by cases heq⟩
  · cases hs
  · obtain rfl := Option.some.inj hs
    exact ⟨_, rfl, fun _ => trivial, fun _ _ _ _ heq => by cases heq⟩
  · cases hs
  · obtain rfl := Option.some.inj hs
    exact ⟨_, rfl, fun _ => trivial, fun _ _ _ _ heq => by cases heq⟩
  · cases hs

/-! ## What an event does -/

/-- An event moves a call on, brings a body to the bucket, or lets time pass. -/
inductive Stepped (s : FileService) (a : FileEvent) : FileService → Prop
  | moved {i : ℕ} {e : FileService} {c' : FileCall} (ha : a.call = some i) (heffect : Effect s e)
      (hself : e.CallInv (some c'))
      (hheaded : ∀ user id row etag, c' = .commit user id (.running (.update row etag)) →
        ∃ d, a = .exec i d ∧ s.calls i = some (.commit user id (.running (.head row))) ∧
          ∃ o, s.s3.objects row.key = some o ∧ o.contentLength = row.size ∧
            etag = some o.etag) :
      Stepped s a (e.setCall i c')
  | received {url : Url} {length : ℕ} {etag : String} (ha : a = .put url length etag)
      (hurl : url ∈ s.urls) : Stepped s a (s.receive length etag url.target)
  | ticked {n : ℕ} (ha : a = .tick n) : Stepped s a { s with now := s.now + n }

theorem setCall_self (c : FileCall) : (s.setCall i c).calls i = some c := Function.update_self ..

/-- The other calls, of a state whose calls are those of before. -/
theorem setCall_ne {e : FileService} {c : FileCall} {j : ℕ} (hcalls : e.calls = s.calls)
    (hj : j ≠ i) : (e.setCall i c).calls j = s.calls j :=
  (Function.update_of_ne hj ..).trans (congrFun hcalls j)

theorem setCall_setCall (c c' : FileCall) : (s.setCall i c).setCall i c' = s.setCall i c' := by
  unfold setCall
  rw [Function.update_idem]

theorem begin_eq_some {c : FileCall} (hs : s.begin i c = some s') :
    s.calls i = none ∧ s' = s.setCall i c := by
  unfold begin at hs
  split at hs
  · exact ⟨‹_›, (Option.some.inj hs).symm⟩
  · cases hs

/-- **Inversion of a step.** -/
theorem Inv.stepped (h : s.Inv) {a : FileEvent} (hs : s.step rt a = some s') :
    Stepped s a s' := by
  cases a with
  | intent i user body key =>
    obtain ⟨_, rfl⟩ := begin_eq_some hs
    exact .moved rfl .none trivial fun _ _ _ _ heq => by cases heq
  | parts i user id =>
    obtain ⟨_, rfl⟩ := begin_eq_some hs
    exact .moved rfl .none trivial fun _ _ _ _ heq => by cases heq
  | commit i user id =>
    obtain ⟨_, rfl⟩ := begin_eq_some hs
    exact .moved rfl .none trivial fun _ _ _ _ heq => by cases heq
  | exec i d =>
    obtain ⟨c, hc, hexec⟩ := Option.bind_eq_some_iff.mp hs
    obtain ⟨e, c', heffect, rfl, hself, hheaded⟩ := exec_effect h hc hexec
    refine .moved rfl heffect hself fun user id row etag heq => ?_
    obtain ⟨rfl, hobject⟩ := hheaded user id row etag heq
    exact ⟨d, rfl, hc, hobject⟩
  | fail i =>
    obtain ⟨c, _, hfails⟩ := Option.bind_eq_some_iff.mp hs
    obtain ⟨c', rfl, hself, hnot⟩ := fails_eq_some hfails
    exact .moved rfl .none (hself s) fun user id row etag heq => absurd heq (hnot user id row etag)
  | loseAnswer i d =>
    obtain ⟨c, hc, hlost⟩ := Option.bind_eq_some_iff.mp hs
    obtain ⟨s₁, hexec, hfails⟩ := Option.bind_eq_some_iff.mp hlost
    obtain ⟨e, c₁, heffect, rfl, _, _⟩ := exec_effect h hc hexec
    obtain ⟨c', rfl, hself, hnot⟩ := fails_eq_some hfails
    rw [setCall_setCall]
    exact .moved rfl heffect (hself e)
      fun user id row etag heq => absurd heq (hnot user id row etag)
  | crash i =>
    obtain ⟨c, _, hcrashes⟩ := Option.bind_eq_some_iff.mp hs
    obtain ⟨c', rfl, hself, hnot⟩ := crashes_eq_some hcrashes
    exact .moved rfl .none (hself s) fun user id row etag heq => absurd heq (hnot user id row etag)
  | put url length etag =>
    simp only [step] at hs
    split_ifs at hs with hurl
    obtain rfl := Option.some.inj hs
    exact .received rfl hurl.1
  | tick n =>
    obtain rfl := Option.some.inj hs
    exact .ticked rfl

theorem Effect.calls_eq (h : Effect s e) : e.calls = s.calls := by
  cases h <;> rfl

/-- A body that comes through a URL replaces an object or a part. -/
theorem receive_stores (s : FileService) (length : ℕ) (etag : String) (target : UrlTarget) :
    ∃ s3, s.receive length etag target = { s with s3 } ∧ s.s3.Grows s3 := by
  cases target with
  | put key contentType => exact ⟨_, rfl, .refl _⟩
  | part key u n =>
    rcases hpart : s.s3.uploadPart key u ⟨n, length, etag⟩ with _ | s3
    · refine ⟨s.s3, ?_, .refl _⟩
      simp only [receive, hpart]
    · refine ⟨s3, ?_, S3.grows_uploadPart hpart⟩
      simp only [receive, hpart]

/-- Rows and uploads stay. -/
theorem Stepped.grows {a : FileEvent} (h : Stepped s a s') : s.Grows s' := by
  cases h with
  | moved ha heffect hself hheaded => exact ⟨heffect.grows.files, heffect.grows.s3⟩
  | received ha hurl =>
    rename_i url length etag
    obtain ⟨s3, heq, hg⟩ := receive_stores s length etag url.target
    rw [heq]
    exact grows_s3 hg
  | ticked ha => exact ⟨fun _ hr => known_of_mem hr, .refl _⟩

/-- A call goes on only by an event of its own. -/
theorem Stepped.calls_ne {a : FileEvent} (h : Stepped s a s') {j : ℕ} (hj : a.call ≠ some j) :
    s'.calls j = s.calls j := by
  cases h with
  | moved ha heffect hself hheaded =>
    rename_i i e c'
    have hne : j ≠ i := fun heq => hj (heq ▸ ha)
    exact setCall_ne heffect.calls_eq hne
  | received ha hurl =>
    rename_i url length etag
    obtain ⟨s3, heq, _⟩ := receive_stores s length etag url.target
    rw [heq]
  | ticked ha => rfl

/-- **Every step keeps the invariant.** -/
theorem Stepped.inv {a : FileEvent} (h : Stepped s a s') (hinv : s.Inv) : s'.Inv := by
  have hgrows := h.grows
  cases h with
  | moved ha heffect hself hheaded =>
    rename_i i e c'
    have hs := heffect.stores hinv
    refine ⟨⟨hs.ids, hs.keys, hs.uuids, hs.uploads, hs.completed, hs.urls⟩, fun j => ?_⟩
    by_cases hj : j = i
    · subst hj
      rw [setCall_self]
      exact CallInv.grows hself ⟨fun _ hr => known_of_mem hr, .refl _⟩
    · rw [setCall_ne heffect.calls_eq hj]
      exact CallInv.grows (hinv.calls j) hgrows
  | received ha hurl =>
    rename_i url length etag
    obtain ⟨s3, heq, hg⟩ := receive_stores s length etag url.target
    rw [heq] at hgrows ⊢
    exact ⟨hinv.stores.s3 hg, fun j => CallInv.grows (hinv.calls j) hgrows⟩
  | ticked ha =>
    have hs := hinv.stores
    exact ⟨⟨hs.ids, hs.keys, hs.uuids, hs.uploads, hs.completed, hs.urls⟩,
      fun j => CallInv.grows (hinv.calls j) hgrows⟩

end FileService

/-- The service keeps its invariant. -/
theorem fileServices_invariant {rt : FileRuntime} :
    (fileServices rt).Invariant FileService.Inv := by
  intro s a s' h hs
  exact (h.stepped hs).inv h

end Marketplace
