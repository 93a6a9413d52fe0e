import Marketplace.FilesInv

/-!
# What the requests of an intent do

`intent` looks the key up, opens a multipart upload, and inserts the row, in three requests to
two systems. What it answers is *served* from a row of its owner and its key; between opening an
upload and inserting the row, or aborting the upload, the call *holds* it.

Of the requests of the other calls and of the clients it only matters what they make of the rows
and the uploads.
-/

namespace Marketplace

/-! ## What a call serves and holds -/

/-- The file that a call answers with, from the moment it has a row for it. -/
def IntentPc.served : IntentPc → Option (String × String)
  | .describe row | .sign row _ _ _ _ => some (row.id, row.key)
  | _ => none

/-- The upload a call has opened and not given to a row, with its key. -/
def IntentPc.held (user : AuthUser) : IntentPc → Option (UploadId × String)
  | .insert x id (some u) | .abort x id u _ => some (u, objectKey user.id id x.contentType)
  | _ => none

/-- It is about to open an upload. -/
def IntentPc.opening : IntentPc → Bool
  | .createMultipart _ _ => true
  | _ => false

/-- The row it is about to insert. -/
def IntentPc.inserting (files : List FileRow) (user : AuthUser) (key : Option String) :
    IntentPc → Option FileRow
  | .insert x id uploadId =>
    let row := x.row user.id id uploadId key
    if row.Duplicate files then none else some row
  | _ => none

/-- The file it answers with. -/
def intentServed : Progress IntentPc → Option (String × String)
  | .running pc => pc.served
  | .ended (.described d) => some (d.id, d.key)
  | .ended _ => none

/-- The upload it holds. -/
def intentHeld (user : AuthUser) : Progress IntentPc → Option (UploadId × String)
  | .running pc => pc.held user
  | .ended _ => none

/-- The key it looks up is its own. -/
def IntentAsked (key : Option String) : Progress IntentPc → Prop
  | .running (.selectKey _ k) | .running (.reselect k _) => truthy key = some k
  | _ => True

/-- Call `i` is an intent. -/
def FileService.Intends (s : FileService) (i : ℕ) (user : AuthUser) (key : Option String)
    (p : Progress IntentPc) : Prop :=
  ∃ body, s.calls i = some (.intent user body key p)

/-- The uploads a call opens. -/
def FileService.opens (s : FileService) : FileEvent → List (ℕ × UploadId)
  | .exec i d =>
    match s.calls i with
    | some (.intent _ _ _ (.running pc)) => if pc.opening then [(i, d.uploadId)] else []
    | _ => []
  | _ => []

/-- The rows a call inserts. -/
def FileService.inserts (s : FileService) : FileEvent → List (ℕ × FileRow)
  | .exec i _ =>
    match s.calls i with
    | some (.intent user _ key (.running pc)) =>
      ((pc.inserting s.files user key).map fun row => (i, row)).toList
    | _ => []
  | _ => []

/-- The request is answered. -/
def Answered (_ : FileService) : FileEvent → Prop
  | .fail _ | .loseAnswer _ _ | .crash _ => False
  | _ => True

instance {s : FileService} : DecidablePred (Answered s)
  | .fail _ | .loseAnswer _ _ | .crash _ => inferInstanceAs (Decidable False)
  | .intent _ _ _ _ | .parts _ _ _ | .commit _ _ _ | .exec _ _ | .put _ _ _ | .tick _ =>
    inferInstanceAs (Decidable True)

/-! ## What a request of an intent does -/

/-- A row without what `commit` writes. -/
def FileRow.fixed (r : FileRow) : FileRow := { r with status := .pending, etag := none }

/-- How one request moves an intent on, and what it makes of the table and the bucket. -/
inductive IntentMoves (s e : FileService) (user : AuthUser) (key : Option String) (u : UploadId)
    (pc : IntentPc) (p : Progress IntentPc) : Prop
  /-- it goes on, or answers; with a row it had, or has found by its key -/
  | goes (hpc : pc.opening = false) (hrow : pc.inserting s.files user key = none)
    (hfiles : e.files = s.files) (hs3 : e.s3 = s.s3)
    (hheld : intentHeld user p = pc.held user)
    (hserved : ∀ x, intentServed p = some x → pc.served = some x ∨ ∃ r ∈ s.files,
      x = (r.id, r.key) ∧ r.ownerId = user.id ∧ r.idempotencyKey = key ∧ key ≠ none)
  | creates {k : String} (hpc : pc.opening = true) (hrow : pc.inserting s.files user key = none)
    (hfiles : e.files = s.files)
    (hs3 : s.s3.createMultipartUpload k u = some e.s3) (hheld : intentHeld user p = some (u, k))
    (hserved : intentServed p = none)
  | inserts {row : FileRow} (hpc : pc.opening = false)
    (hrow : pc.inserting s.files user key = some row) (hpending : row.fixed = row)
    (hnew : ¬ row.Duplicate s.files) (howner : row.ownerId = user.id)
    (hkey : row.idempotencyKey = key)
    (hupload : ∀ v, row.uploadId = some v ↔ ∃ k, pc.held user = some (v, k))
    (hfiles : e.files = s.files ++ [row]) (hs3 : e.s3 = s.s3) (hheld : intentHeld user p = none)
    (hserved : intentServed p = some (row.id, row.key))
  | aborts {k : String} {v : UploadId} (hpc : pc.opening = false)
    (hrow : pc.inserting s.files user key = none) (hfiles : e.files = s.files)
    (hholds : pc.held user = some (v, k)) (hs3 : s.s3.abortMultipartUpload k v = .ok e.s3)
    (hheld : intentHeld user p = none) (hserved : intentServed p = none)
  /-- S3 does not know the upload -/
  | abortFails {k : String} {v : UploadId} {error : S3Error} (hholds : pc.held user = some (v, k))
    (hs3 : s.s3.abortMultipartUpload k v = .error error)

section Requests

variable {rt : FileRuntime} {s s' : FileService} {i : ℕ} {user : AuthUser} {body : IntentBody}
  {key : Option String} {d : FileDraw} {pc : IntentPc} {x : Intent} {id k : String}
  {uploadId : Option UploadId} {f : Failure}

theorem truthy_eq_some (h : truthy key = some k) : key = some k :=
  (Option.filter_eq_some_iff.mp h).1

theorem findByKey_eq_some {row : FileRow} (h : findByKey s.files user.id k = some row) :
    row ∈ s.files ∧ row.ownerId = user.id ∧ row.idempotencyKey = some k := by
  have hmem := List.mem_of_find?_eq_some h
  have hrow := List.find?_some h
  exact ⟨hmem, of_decide_eq_true hrow⟩

variable (user key f) in
/-- The end of the `catch` block serves and holds nothing. -/
theorem catchEnd_cases : IntentAsked key (catchEnd key f) ∧ intentServed (catchEnd key f) = none ∧
    intentHeld user (catchEnd key f) = none := by
  unfold catchEnd
  split
  · rename_i k hk
    split_ifs
    · exact ⟨hk, rfl, rfl⟩
    · exact ⟨trivial, rfl, rfl⟩
  · exact ⟨trivial, rfl, rfl⟩

variable (user key x id uploadId f) in
/-- The `catch` block holds what the `INSERT` held. -/
theorem catchInsert_cases : IntentAsked key (catchInsert key x id uploadId f) ∧
    intentServed (catchInsert key x id uploadId f) = none ∧
    intentHeld user (catchInsert key x id uploadId f) =
      (IntentPc.insert x id uploadId).held user := by
  rcases uploadId with _ | u
  · exact catchEnd_cases user key f
  · exact ⟨trivial, rfl, rfl⟩

theorem create_cases : IntentAsked key (.running (x.create rt id)) ∧
    (x.create rt id).served = none ∧ (x.create rt id).held user = none := by
  unfold Intent.create
  split_ifs
  · exact ⟨trivial, rfl, rfl⟩
  · exact ⟨trivial, rfl, rfl⟩

/-- A call that has nothing, and finds nothing. -/
theorem IntentMoves.idle {u : UploadId} {p : Progress IntentPc} (hopening : pc.opening = false)
    (hrow : pc.inserting s.files user key = none) (hpc : pc.held user = none)
    (hheld : intentHeld user p = none) (hserved : intentServed p = none) :
    IntentMoves s s user key u pc p := by
  refine .goes hopening hrow rfl rfl (hheld.trans hpc.symm) fun y hy => ?_
  rw [hserved] at hy
  cases hy

/-- **The request of an intent.** -/
theorem intentExec_moves (hasked : IntentAsked key (.running pc))
    (hs : s.intentExec rt i user body key d pc = some s') :
    ∃ e p, s' = e.setCall i (.intent user body key p) ∧ e.calls = s.calls ∧ IntentAsked key p ∧
      IntentMoves s e user key d.uploadId pc p := by
  have hcreate : ∀ y id, IntentAsked key (.running (Intent.create rt y id)) ∧
      (Intent.create rt y id).served = none ∧ (Intent.create rt y id).held user = none :=
    fun y id => create_cases
  cases pc with
  | begin =>
    simp only [FileService.intentExec] at hs
    split at hs
    · obtain rfl := Option.some.inj hs
      exact ⟨s, _, rfl, rfl, trivial, .idle rfl rfl rfl rfl rfl⟩
    · split at hs
      · rename_i k hk
        obtain rfl := Option.some.inj hs
        exact ⟨s, _, rfl, rfl, hk, .idle rfl rfl rfl rfl rfl⟩
      · split_ifs at hs
        obtain rfl := Option.some.inj hs
        obtain ⟨hasked', hserved, hheld⟩ := hcreate _ d.id
        exact ⟨s, _, rfl, rfl, hasked', .idle rfl rfl rfl hheld hserved⟩
  | selectKey y k =>
    simp only [FileService.intentExec] at hs
    split at hs
    · rename_i row hrow
      obtain rfl := Option.some.inj hs
      obtain ⟨hmem, howner, hkey⟩ := findByKey_eq_some hrow
      refine ⟨s, _, rfl, rfl, trivial, .goes rfl rfl rfl rfl rfl fun z hz => .inr ⟨row, hmem, ?_⟩⟩
      have heq : key = some k := truthy_eq_some hasked
      exact ⟨(Option.some.inj hz).symm, howner, hkey.trans heq.symm, heq ▸ Option.some_ne_none k⟩
    · split_ifs at hs
      obtain rfl := Option.some.inj hs
      obtain ⟨hasked', hserved, hheld⟩ := hcreate y d.id
      exact ⟨s, _, rfl, rfl, hasked', .idle rfl rfl rfl hheld hserved⟩
  | createMultipart y id =>
    simp only [FileService.intentExec] at hs
    split at hs
    · cases hs
    · rename_i s3 hs3
      obtain rfl := Option.some.inj hs
      exact ⟨{ s with s3 }, _, rfl, rfl, trivial, .creates rfl rfl rfl hs3 rfl rfl⟩
  | insert y id uploadId =>
    simp only [FileService.intentExec] at hs
    split_ifs at hs with hdup
    · obtain rfl := Option.some.inj hs
      -- the owner has used the key: the upload that is held goes to the `catch` block
      obtain ⟨hasked', hserved, hheld⟩ := catchInsert_cases user key y id uploadId
        .uniqueViolation
      refine ⟨s, _, rfl, rfl, hasked', .goes rfl (if_pos hdup) rfl rfl hheld fun z hz => ?_⟩
      rw [hserved] at hz
      cases hz
    · obtain rfl := Option.some.inj hs
      refine ⟨{ s with files := s.files ++ [y.row user.id id uploadId key] }, _, rfl, rfl, trivial,
        .inserts rfl (if_neg hdup) rfl hdup rfl rfl (fun v => ?_) rfl rfl rfl rfl⟩
      rcases uploadId with _ | v
      · constructor
        · rintro ⟨⟩
        · rintro ⟨k, ⟨⟩⟩
      · constructor
        · intro h
          obtain rfl := Option.some.inj h
          exact ⟨_, rfl⟩
        · rintro ⟨k, h⟩
          obtain ⟨rfl, -⟩ := Prod.mk.inj (Option.some.inj h)
          rfl
  | abort y id u f =>
    -- the row is not there, so the upload is aborted before the answer
    obtain ⟨hasked', hserved, hheld⟩ := catchEnd_cases user key f
    simp only [FileService.intentExec] at hs
    split at hs
    · rename_i error hs3
      obtain rfl := Option.some.inj hs
      exact ⟨s, _, rfl, rfl, hasked', .abortFails rfl hs3⟩
    · rename_i s3 hs3
      obtain rfl := Option.some.inj hs
      exact ⟨{ s with s3 }, _, rfl, rfl, hasked', .aborts rfl rfl rfl rfl hs3 hheld hserved⟩
  | reselect k f =>
    simp only [FileService.intentExec] at hs
    split at hs
    · rename_i row hrow
      obtain rfl := Option.some.inj hs
      obtain ⟨hmem, howner, hkey⟩ := findByKey_eq_some hrow
      refine ⟨s, _, rfl, rfl, trivial, .goes rfl rfl rfl rfl rfl fun z hz => .inr ⟨row, hmem, ?_⟩⟩
      have heq : key = some k := truthy_eq_some hasked
      exact ⟨(Option.some.inj hz).symm, howner, hkey.trans heq.symm, heq ▸ Option.some_ne_none k⟩
    · obtain rfl := Option.some.inj hs
      exact ⟨s, _, rfl, rfl, trivial, .idle rfl rfl rfl rfl rfl⟩
  | describe row =>
    simp only [FileService.intentExec] at hs
    split at hs
    · obtain rfl := Option.some.inj hs
      exact ⟨s.signUrl _, _, rfl, rfl, trivial, .goes rfl rfl rfl rfl rfl fun z hz => .inl hz⟩
    · split at hs
      · obtain rfl := Option.some.inj hs
        exact ⟨s, _, rfl, rfl, trivial, .idle rfl rfl rfl rfl rfl⟩
      · obtain rfl := Option.some.inj hs
        exact ⟨s, _, rfl, rfl, trivial, .goes rfl rfl rfl rfl rfl fun z hz => .inl hz⟩
  | sign row u partSize todo parts =>
    cases todo with
    | nil =>
      obtain rfl := Option.some.inj hs
      exact ⟨s, _, rfl, rfl, trivial, .goes rfl rfl rfl rfl rfl fun z hz => .inl hz⟩
    | cons n todo =>
      obtain rfl := Option.some.inj hs
      exact ⟨s.signUrl _, _, rfl, rfl, trivial, .goes rfl rfl rfl rfl rfl fun z hz => .inl hz⟩

/-! ## What the other requests do -/

/-- What the requests of `parts` and `commit`, and of the clients, make of the table and the
bucket. -/
inductive StoresMove (s e : FileService) : Prop
  | stay (hfiles : e.files = s.files) (hs3 : e.s3 = s.s3)
  | receives (hfiles : e.files = s.files) {k : String} {u : UploadId} {part : S3Part}
    (hs3 : s.s3.uploadPart k u part = .ok e.s3)
  | replaces (hfiles : e.files = s.files) (huploads : e.s3.uploads = s.s3.uploads)
  | completes (hfiles : e.files = s.files) {k : String} {u : UploadId} {named : List (ℕ × String)}
    {etag : String} (hrow : ∃ r ∈ s.files, r.uploadId = some u)
    (hs3 : s.s3.completeMultipartUpload k u named etag = .ok e.s3)
  | updates {rowId : String} {etag : Option String}
    (hfiles : e.files = Table.modify FileRow.id rowId (FileRow.complete etag) s.files)
    (hs3 : e.s3 = s.s3)

/-- A call that goes on without a change of the stores. -/
theorem stays {π : Type} {f : Progress π → FileCall} {p : Progress π}
    (hs : some (s.setCall i (f p)) = some s') :
    ∃ e p, s' = e.setCall i (f p) ∧ e.calls = s.calls ∧ StoresMove s e := by
  obtain rfl := Option.some.inj hs
  exact ⟨s, p, rfl, rfl, .stay rfl rfl⟩

theorem partsExec_stay {id : String} {pc : PartsPc} (hs : s.partsExec rt i user id d pc = some s') :
    ∃ e p, s' = e.setCall i (.parts user id p) ∧ e.calls = s.calls ∧ StoresMove s e := by
  cases pc with
  | select =>
    simp only [FileService.partsExec] at hs
    split at hs
    · exact stays hs
    · split at hs
      · exact stays hs
      · split_ifs at hs
        · split at hs
          · exact stays hs
          · exact stays hs
        · exact stays hs
  | listParts row u partSize marker out =>
    simp only [FileService.partsExec] at hs
    split_ifs at hs
    split at hs
    · exact stays hs
    · split_ifs at hs
      · exact stays hs
      · exact stays hs
  | sign row u partSize good todo missing =>
    cases todo with
    | nil =>
      exact stays hs
    | cons n todo =>
      obtain rfl := Option.some.inj hs
      exact ⟨s.signUrl _, _, rfl, rfl, .stay rfl rfl⟩

theorem commitExec_moves {id : String} {pc : CommitPc} (h : s.CommitPcInv pc)
    (hs : s.commitExec i user id d pc = some s') :
    ∃ e p, s' = e.setCall i (.commit user id p) ∧ e.calls = s.calls ∧ StoresMove s e := by
  cases pc with
  | select =>
    simp only [FileService.commitExec] at hs
    split at hs
    · exact stays hs
    · split_ifs at hs
      · exact stays hs
      · split at hs
        · exact stays hs
        · split at hs
          · exact stays hs
          · exact stays hs
  | listParts row u partSize marker out =>
    simp only [FileService.commitExec] at hs
    split_ifs at hs
    split at hs
    · exact stays hs
    · split_ifs at hs
      · exact stays hs
      · split at hs
        · exact stays hs
        · exact stays hs
  | complete row u parts =>
    obtain ⟨⟨r, hr, hsame⟩, hu⟩ := h
    simp only [FileService.commitExec] at hs
    split at hs
    · rename_i s3 hs3
      obtain rfl := Option.some.inj hs
      exact ⟨{ s with s3 }, _, rfl, rfl,
        .completes rfl ⟨r, hr, hsame.uploadId.symm.trans hu⟩ hs3⟩
    · exact stays hs
    · exact stays hs
  | head row =>
    simp only [FileService.commitExec] at hs
    split at hs
    · exact stays hs
    · split_ifs at hs
      · exact stays hs
      · exact stays hs
  | update row etag =>
    simp only [FileService.commitExec] at hs
    split at hs
    · exact stays hs
    · obtain rfl := Option.some.inj hs
      exact ⟨{ s with files := _ }, _, rfl, rfl, .updates rfl rfl⟩

end Requests

end Marketplace
