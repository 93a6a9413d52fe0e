import Marketplace.Auth
import Marketplace.Limits
import Marketplace.S3
import Marketplace.Table

/-!
# `FilesService`, request by request

`intent`, `parts` and `commit` over one table and one bucket, in the style of the
checkout: a program counter for each point at which a call waits for Postgres or S3,
and one step for the pending request with the JavaScript up to the next. Every
statement commits on its own.

Signing a URL asks nobody: it takes the URL's place in the list of those that have
been issued, with the instant at which it expires. A client may put a body of any
length through an issued URL until then, also after the file is completed: a URL
cannot be taken back.
-/

namespace Marketplace

/-! ## Rows, bodies, answers -/

/-- `CONTENT_TYPES` -/
inductive ContentType where
  | jpeg
  | png
  | webp
  | pdf
  | octetStream
  deriving DecidableEq

/-- The extension of the object's key. -/
def ContentType.extension : ContentType → String
  | .jpeg => "jpg"
  | .png => "png"
  | .webp => "webp"
  | .pdf => "pdf"
  | .octetStream => "bin"

/-- The keys of `CONTENT_TYPES`. -/
def ContentType.parse (s : String) : Option ContentType :=
  [("image/jpeg", .jpeg), ("image/png", .png), ("image/webp", .webp), ("application/pdf", .pdf),
    ("application/octet-stream", .octetStream)].lookup s

/-- The body of an intent. -/
structure IntentBody where
  filename : String
  contentType : String
  size : ℤ
  deriving DecidableEq

/-- What is used of a valid body; the file name is checked and dropped. -/
structure Intent where
  contentType : ContentType
  size : ℕ
  deriving DecidableEq

/-- `String.length` of JavaScript. -/
def utf16Length (s : String) : ℕ := (s.toList.map fun c => if 0x10000 ≤ c.val then 2 else 1).sum

/-- `intentSchema.safeParse` -/
def IntentBody.parse (b : IntentBody) : Option Intent :=
  match ContentType.parse b.contentType with
  | none => none
  | some contentType =>
    if 1 ≤ utf16Length b.filename ∧ utf16Length b.filename ≤ 255 ∧ 1 ≤ b.size ∧ b.size ≤ maxObject
    then some ⟨contentType, b.size.toNat⟩ else none

/-- `CHK_files_status` -/
inductive FileStatus where
  | pending
  | completed
  deriving DecidableEq

/-- A row of `files`. -/
structure FileRow where
  id : String
  key : String
  ownerId : String
  status : FileStatus
  contentType : ContentType
  size : ℕ
  uploadId : Option UploadId
  etag : Option String
  idempotencyKey : Option String
  deriving DecidableEq

/-- What a signed URL lets its bearer do. -/
inductive UrlTarget where
  /-- `presignPut`; the content type is signed as well -/
  | put (key : String) (contentType : ContentType)
  /-- `presignPart` -/
  | part (key : String) (uploadId : UploadId) (partNumber : ℕ)
  deriving DecidableEq

/-- A signed URL. -/
structure Url where
  target : UrlTarget
  expires : ℕ
  deriving DecidableEq

/-- `PartInfo` -/
structure PartInfo where
  partNumber : ℕ
  length : ℤ
  url : Url
  deriving DecidableEq

/-- The ways to upload in an `UploadDescriptor`. -/
inductive UploadPlan where
  | put (url : Url) (contentType : ContentType)
  | multipart (uploadId : UploadId) (partSize partCount : ℕ) (parts : List PartInfo)
  deriving DecidableEq

/-- `UploadDescriptor` -/
structure UploadDescriptor where
  id : String
  key : String
  status : FileStatus
  expiresIn : ℕ
  plan : UploadPlan
  deriving DecidableEq

/-- What `parts` returns. -/
structure PartsView where
  id : String
  partSize : ℕ
  partCount : ℕ
  uploaded : List (ℕ × ℕ)
  missing : List PartInfo
  expiresIn : ℕ
  deriving DecidableEq

/-- What `commit` returns. -/
structure FileView where
  id : String
  key : String
  status : FileStatus
  size : ℕ
  etag : Option String
  deriving DecidableEq

/-- `view` -/
def FileRow.view (r : FileRow) : FileView := ⟨r.id, r.key, r.status, r.size, r.etag⟩

/-- What `UPDATE files SET status = 'COMPLETED', etag = $2` makes of a row. -/
def FileRow.complete (etag : Option String) (r : FileRow) : FileRow :=
  { r with status := .completed, etag }

/-- An `HttpException`. -/
structure HttpError where
  status : ℕ
  code : String
  detail : String
  deriving DecidableEq

/-- What a call throws that is no `HttpException`. -/
inductive Failure where
  | s3 (e : S3Error)
  | uniqueViolation
  | rangeError
  | typeError
  /-- a request that failed -/
  | infrastructure
  deriving DecidableEq

/-- How a call ends. -/
inductive FileOutcome where
  | described (d : UploadDescriptor)
  | listed (v : PartsView)
  | committed (v : FileView)
  | refused (e : HttpError)
  | thrown (f : Failure)
  | crashed
  deriving DecidableEq

/-! ## Calls -/

/-- Where `intent` waits, with its local variables. -/
inductive IntentPc where
  | begin
  /-- `SELECT * FROM files WHERE owner_id = $1 AND idempotency_key = $2` -/
  | selectKey (x : Intent) (key : String)
  /-- `CreateMultipartUploadCommand` -/
  | createMultipart (x : Intent) (id : String)
  /-- `INSERT INTO files` -/
  | insert (x : Intent) (id : String) (uploadId : Option UploadId)
  /-- `AbortMultipartUploadCommand` of the `catch` block -/
  | abort (x : Intent) (id : String) (uploadId : UploadId) (f : Failure)
  /-- the same `SELECT` in the `catch` block -/
  | reselect (key : String) (f : Failure)
  /-- `describe` -/
  | describe (row : FileRow)
  /-- the loop of `describe` -/
  | sign (row : FileRow) (uploadId : UploadId) (partSize : ℕ) (todo : List ℕ)
    (parts : List PartInfo)
  deriving DecidableEq

/-- Where `parts` waits, with its local variables. -/
inductive PartsPc where
  /-- `SELECT * FROM files WHERE id = $1` -/
  | select
  /-- `ListPartsCommand` -/
  | listParts (row : FileRow) (uploadId : UploadId) (partSize marker : ℕ) (out : List S3Part)
  /-- the loop over what is missing -/
  | sign (row : FileRow) (uploadId : UploadId) (partSize : ℕ) (good : List S3Part)
    (todo : List ℕ) (missing : List PartInfo)
  deriving DecidableEq

/-- Where `commit` waits, with its local variables. -/
inductive CommitPc where
  /-- `SELECT * FROM files WHERE id = $1` -/
  | select
  /-- `ListPartsCommand` -/
  | listParts (row : FileRow) (uploadId : UploadId) (partSize marker : ℕ) (out : List S3Part)
  /-- `CompleteMultipartUploadCommand` -/
  | complete (row : FileRow) (uploadId : UploadId) (parts : List S3Part)
  /-- `HeadObjectCommand` -/
  | head (row : FileRow)
  /-- `UPDATE files SET status = 'COMPLETED', etag = $2 …` -/
  | update (row : FileRow) (etag : Option String)
  deriving DecidableEq

/-- A call waits at a point or has ended. -/
inductive Progress (π : Type) where
  | running (pc : π)
  | ended (o : FileOutcome)
  deriving DecidableEq

/-- A call of the service. -/
inductive FileCall where
  | intent (user : AuthUser) (body : IntentBody) (key : Option String) (p : Progress IntentPc)
  | parts (user : AuthUser) (id : String) (p : Progress PartsPc)
  | commit (user : AuthUser) (id : String) (p : Progress CommitPc)
  deriving DecidableEq

/-- The configuration, and the text that the schema's library makes of its issues. -/
structure FileRuntime where
  putExpires : ℕ
  partExpires : ℕ
  multipartThreshold : ℕ
  issues : IntentBody → String

/-- What a step may draw: an id from `randomUUID()`; an upload id, an ETag and a page
size from S3. -/
structure FileDraw where
  id : String
  uploadId : UploadId
  etag : String
  page : ℕ

/-- The table, the bucket, the URLs that have been signed, the clock in seconds, and
the calls. -/
structure FileService where
  files : List FileRow
  s3 : S3
  urls : List Url
  now : ℕ
  calls : ℕ → Option FileCall

/-! ## Pure parts -/

/-- `UUID_RE` -/
def isUuid (s : String) : Bool :=
  let hex (c : Char) : Bool := c.isDigit || decide ('a' ≤ c ∧ c ≤ 'f')
  let groups := s.toList.splitOn '-'
  decide (groups.map List.length = [8, 4, 4, 4, 12]) && groups.all fun g => g.all hex

/-- `uploads/${user.id}/${id}.${ext}`: no byte of the file name. -/
def objectKey (userId id : String) (contentType : ContentType) : String :=
  "uploads/" ++ userId ++ "/" ++ id ++ "." ++ contentType.extension

/-- A header that is present and not empty. -/
def truthy (key : Option String) : Option String := key.filter (· ≠ "")

/-- The row with the owner and the key. -/
def findByKey (files : List FileRow) (userId key : String) : Option FileRow :=
  files.find? fun r => r.ownerId = userId ∧ r.idempotencyKey = some key

/-- What comes after the `SELECT` by key has found nothing. -/
def Intent.create (rt : FileRuntime) (x : Intent) (id : String) : IntentPc :=
  if rt.multipartThreshold < x.size then .createMultipart x id else .insert x id none

/-- The row of `INSERT INTO files`. -/
def Intent.row (x : Intent) (userId id : String) (uploadId : Option UploadId)
    (key : Option String) : FileRow :=
  { id, key := objectKey userId id x.contentType, ownerId := userId, status := .pending
    contentType := x.contentType, size := x.size, uploadId, etag := none, idempotencyKey := key }

/-- The row violates `PK_files`, `UQ_files_key` or `UQ_files_idempotency`. -/
def FileRow.Duplicate (files : List FileRow) (row : FileRow) : Prop :=
  ∃ r ∈ files, r.id = row.id ∨ r.key = row.key ∨
    (row.idempotencyKey ≠ none ∧ r.ownerId = row.ownerId ∧ r.idempotencyKey = row.idempotencyKey)

instance (files : List FileRow) (row : FileRow) : Decidable (row.Duplicate files) :=
  inferInstanceAs (Decidable (∃ r ∈ files, _ ∨ _ ∨ _))

/-- The end of the `catch` block of `intent`. -/
def catchEnd (key : Option String) (f : Failure) : Progress IntentPc :=
  match truthy key with
  | some key => if f = .uniqueViolation then .running (.reselect key f) else .ended (.thrown f)
  | none => .ended (.thrown f)

/-- The `catch` block of `intent`. -/
def catchInsert (key : Option String) (x : Intent) (id : String) (uploadId : Option UploadId)
    (f : Failure) : Progress IntentPc :=
  match uploadId with
  | some u => .running (.abort x id u f)
  | none => catchEnd key f

/-- `owned` -/
def owned (files : List FileRow) (user : AuthUser) (id : String) : Except HttpError FileRow :=
  let notFound : HttpError := ⟨404, "file-not-found", "файл не знайдено"⟩
  if isUuid id then
    match Table.lookup FileRow.id id files with
    | none => .error notFound
    | some row =>
      if row.ownerId ≠ user.id ∧ user.role ≠ .admin then
        .error ⟨403, "not-owner", "це не ваш файл"⟩
      else .ok row
  else .error notFound

/-- The parts that have the length planned for them: a shorter one was cut off. -/
def goodParts (size partSize : ℕ) (out : List S3Part) : List S3Part :=
  out.filter fun p => (p.size : ℤ) = partLength size partSize p.partNumber

/-- The planned parts that are not among these. -/
def missingParts (size partSize : ℕ) (good : List S3Part) : List ℕ :=
  (partNumbers size partSize).filter fun n => n ∉ good.map S3Part.partNumber

/-- `parts-missing` -/
def partsMissing (missing : List ℕ) : HttpError :=
  ⟨409, "parts-missing", "бракує частин: " ++ ", ".intercalate ((missing.take 20).map toString) ++
    if 20 < missing.length then "…" else ""⟩

/-- `size-mismatch` -/
def sizeMismatch (found expected : ℕ) : HttpError :=
  ⟨409, "size-mismatch", "розмір у сховищі " ++ toString found ++ " Б, очікувався " ++
    toString expected ++ " Б"⟩

/-- The parts in the order and form of `CompleteMultipartUpload`. -/
def namedParts (parts : List S3Part) : List (ℕ × String) :=
  (parts.insertionSort S3.before).map fun p => (p.partNumber, p.etag)

namespace FileService

/-- Call `i` is now `c`. -/
def setCall (s : FileService) (i : ℕ) (c : FileCall) : FileService :=
  { s with calls := Function.update s.calls i (some c) }

/-- Sign a URL. -/
def signUrl (s : FileService) (url : Url) : FileService := { s with urls := s.urls ++ [url] }

/-- The URL `presignPart` makes now. -/
def partUrl (rt : FileRuntime) (s : FileService) (row : FileRow) (u : UploadId) (n : ℕ) : Url :=
  ⟨.part row.key u n, s.now + rt.partExpires⟩

/-- An entry of a list of parts. -/
def partInfo (rt : FileRuntime) (s : FileService) (row : FileRow) (u : UploadId)
    (partSize n : ℕ) : PartInfo :=
  ⟨n, partLength row.size partSize n, s.partUrl rt row u n⟩

/-! ## `intent` -/

/-- Run the pending request of an intent. -/
def intentExec (rt : FileRuntime) (s : FileService) (i : ℕ) (user : AuthUser) (body : IntentBody)
    (key : Option String) (d : FileDraw) : IntentPc → Option FileService
  | .begin =>
    match body.parse with
    | none =>
      some (s.setCall i (.intent user body key
        (.ended (.refused ⟨400, "invalid-intent", rt.issues body⟩))))
    | some x =>
      match truthy key with
      | some k => some (s.setCall i (.intent user body key (.running (.selectKey x k))))
      | none =>
        if isUuid d.id then some (s.setCall i (.intent user body key (.running (x.create rt d.id))))
        else none
  | .selectKey x k =>
    match findByKey s.files user.id k with
    | some row => some (s.setCall i (.intent user body key (.running (.describe row))))
    | none =>
      if isUuid d.id then some (s.setCall i (.intent user body key (.running (x.create rt d.id))))
      else none
  | .createMultipart x id =>
    match s.s3.createMultipartUpload (objectKey user.id id x.contentType) d.uploadId with
    | none => none
    | some s3 =>
      some (({ s with s3 } : FileService).setCall i
        (.intent user body key (.running (.insert x id (some d.uploadId)))))
  | .insert x id uploadId =>
    let row := x.row user.id id uploadId key
    if row.Duplicate s.files then
      some (s.setCall i (.intent user body key (catchInsert key x id uploadId .uniqueViolation)))
    else
      some (({ s with files := s.files ++ [row] } : FileService).setCall i
        (.intent user body key (.running (.describe row))))
  | .abort x id u f =>
    -- whatever it answers is caught
    match s.s3.abortMultipartUpload (objectKey user.id id x.contentType) u with
    | .error _ => some (s.setCall i (.intent user body key (catchEnd key f)))
    | .ok s3 =>
      some (({ s with s3 } : FileService).setCall i (.intent user body key (catchEnd key f)))
  | .reselect k f =>
    match findByKey s.files user.id k with
    | some row => some (s.setCall i (.intent user body key (.running (.describe row))))
    | none => some (s.setCall i (.intent user body key (.ended (.thrown f))))
  | .describe row =>
    match row.uploadId with
    | none =>
      let url : Url := ⟨.put row.key row.contentType, s.now + rt.putExpires⟩
      some ((s.signUrl url).setCall i (.intent user body key (.ended (.described
        ⟨row.id, row.key, row.status, rt.putExpires, .put url row.contentType⟩))))
    | some u =>
      match computePartSize row.size with
      | none => some (s.setCall i (.intent user body key (.ended (.thrown .rangeError))))
      | some partSize =>
        some (s.setCall i (.intent user body key
          (.running (.sign row u partSize (partNumbers row.size partSize) []))))
  | .sign row u partSize [] parts =>
    some (s.setCall i (.intent user body key (.ended (.described
      ⟨row.id, row.key, row.status, rt.partExpires,
        .multipart u partSize (partCount row.size partSize) parts⟩))))
  | .sign row u partSize (n :: todo) parts =>
    some ((s.signUrl (s.partUrl rt row u n)).setCall i (.intent user body key
      (.running (.sign row u partSize todo (parts ++ [s.partInfo rt row u partSize n])))))

/-- The pending request of an intent fails. -/
def intentFails (s : FileService) (i : ℕ) (user : AuthUser) (body : IntentBody)
    (key : Option String) : IntentPc → FileService
  | .insert x id uploadId =>
    s.setCall i (.intent user body key (catchInsert key x id uploadId .infrastructure))
  | .abort _ _ _ f => s.setCall i (.intent user body key (catchEnd key f))
  | _ => s.setCall i (.intent user body key (.ended (.thrown .infrastructure)))

/-! ## `parts` -/

/-- Run the pending request of `parts`. -/
def partsExec (rt : FileRuntime) (s : FileService) (i : ℕ) (user : AuthUser) (id : String)
    (d : FileDraw) : PartsPc → Option FileService
  | .select =>
    match owned s.files user id with
    | .error e => some (s.setCall i (.parts user id (.ended (.refused e))))
    | .ok row =>
      match row.uploadId with
      | none =>
        some (s.setCall i (.parts user id (.ended (.refused
          ⟨409, "not-multipart", "це не multipart-завантаження"⟩))))
      | some u =>
        if row.status = .pending then
          match computePartSize row.size with
          | none => some (s.setCall i (.parts user id (.ended (.thrown .rangeError))))
          | some partSize =>
            some (s.setCall i (.parts user id (.running (.listParts row u partSize 0 []))))
        else
          some (s.setCall i (.parts user id (.ended (.refused
            ⟨409, "already-completed", "файл уже завершено"⟩))))
  | .listParts row u partSize marker out =>
    if 0 < d.page then
      match s.s3.listParts row.key u marker d.page with
      | .error e => some (s.setCall i (.parts user id (.ended (.thrown (.s3 e)))))
      | .ok (page, truncated) =>
        let out := out ++ page
        if truncated then
          let marker := (page.getLast?.map S3Part.partNumber).getD 0
          some (s.setCall i (.parts user id (.running (.listParts row u partSize marker out))))
        else
          let good := goodParts row.size partSize out
          some (s.setCall i (.parts user id (.running
            (.sign row u partSize good (missingParts row.size partSize good) []))))
    else none
  | .sign row _ partSize good [] missing =>
    some (s.setCall i (.parts user id (.ended (.listed
      ⟨row.id, partSize, partCount row.size partSize,
        good.map fun p => (p.partNumber, p.size), missing, rt.partExpires⟩))))
  | .sign row u partSize good (n :: todo) missing =>
    some ((s.signUrl (s.partUrl rt row u n)).setCall i (.parts user id
      (.running (.sign row u partSize good todo (missing ++ [s.partInfo rt row u partSize n])))))

/-! ## `commit` -/

/-- Run the pending request of `commit`. -/
def commitExec (s : FileService) (i : ℕ) (user : AuthUser) (id : String) (d : FileDraw) :
    CommitPc → Option FileService
  | .select =>
    match owned s.files user id with
    | .error e => some (s.setCall i (.commit user id (.ended (.refused e))))
    | .ok row =>
      if row.status = .completed then
        some (s.setCall i (.commit user id (.ended (.committed row.view))))
      else
        match row.uploadId with
        | none => some (s.setCall i (.commit user id (.running (.head row))))
        | some u =>
          match computePartSize row.size with
          | none => some (s.setCall i (.commit user id (.ended (.thrown .rangeError))))
          | some partSize =>
            some (s.setCall i (.commit user id (.running (.listParts row u partSize 0 []))))
  | .listParts row u partSize marker out =>
    if 0 < d.page then
      match s.s3.listParts row.key u marker d.page with
      | .error e => some (s.setCall i (.commit user id (.ended (.thrown (.s3 e)))))
      | .ok (page, truncated) =>
        let out := out ++ page
        if truncated then
          let marker := (page.getLast?.map S3Part.partNumber).getD 0
          some (s.setCall i (.commit user id (.running (.listParts row u partSize marker out))))
        else
          let good := goodParts row.size partSize out
          match missingParts row.size partSize good with
          | [] => some (s.setCall i (.commit user id (.running (.complete row u good))))
          | missing =>
            some (s.setCall i (.commit user id (.ended (.refused (partsMissing missing)))))
    else none
  | .complete row u parts =>
    match s.s3.completeMultipartUpload row.key u (namedParts parts) d.etag with
    | .ok s3 =>
      some (({ s with s3 } : FileService).setCall i (.commit user id (.running (.head row))))
    -- an earlier commit has completed the upload
    | .error .noSuchUpload => some (s.setCall i (.commit user id (.running (.head row))))
    | .error e => some (s.setCall i (.commit user id (.ended (.thrown (.s3 e)))))
  | .head row =>
    match s.s3.objects row.key with
    | none =>
      some (s.setCall i (.commit user id (.ended (.refused
        ⟨409, "object-missing", "у сховищі немає обʼєкта — байти не завантажено"⟩))))
    | some o =>
      if o.contentLength ≠ row.size then
        some (s.setCall i (.commit user id (.ended (.refused
          (sizeMismatch o.contentLength row.size)))))
      else some (s.setCall i (.commit user id (.running (.update row (some o.etag)))))
  | .update row etag =>
    let files := Table.modify FileRow.id row.id (FileRow.complete etag) s.files
    match Table.lookup FileRow.id row.id files with
    | none => some (s.setCall i (.commit user id (.ended (.thrown .typeError))))
    | some r =>
      some (({ s with files } : FileService).setCall i (.commit user id
        (.ended (.committed r.view))))

end FileService

/-! ## Events -/

/-- What can happen. -/
inductive FileEvent where
  | intent (i : ℕ) (user : AuthUser) (body : IntentBody) (key : Option String)
  | parts (i : ℕ) (user : AuthUser) (id : String)
  | commit (i : ℕ) (user : AuthUser) (id : String)
  /-- the pending request of call `i` runs -/
  | exec (i : ℕ) (d : FileDraw)
  /-- the pending request of call `i` fails, without effect -/
  | fail (i : ℕ)
  /-- the pending request of call `i` takes effect, but its answer is lost -/
  | loseAnswer (i : ℕ) (d : FileDraw)
  /-- the process of call `i` dies -/
  | crash (i : ℕ)
  /-- a client puts a body through a URL -/
  | put (url : Url) (length : ℕ) (etag : String)
  | tick (seconds : ℕ)

/-- The call an event belongs to. -/
def FileEvent.call : FileEvent → Option ℕ
  | .intent i _ _ _ | .parts i _ _ | .commit i _ _ | .exec i _ | .fail i | .loseAnswer i _
  | .crash i => some i
  | .put _ _ _ | .tick _ => none

namespace FileService

/-- The pending request of call `i` runs. -/
def exec (rt : FileRuntime) (s : FileService) (i : ℕ) (d : FileDraw) :
    FileCall → Option FileService
  | .intent user body key (.running pc) => s.intentExec rt i user body key d pc
  | .parts user id (.running pc) => s.partsExec rt i user id d pc
  | .commit user id (.running pc) => s.commitExec i user id d pc
  | _ => none

/-- The pending request of call `i` fails. -/
def fails (s : FileService) (i : ℕ) : FileCall → Option FileService
  | .intent user body key (.running pc) => some (s.intentFails i user body key pc)
  | .parts user id (.running _) =>
    some (s.setCall i (.parts user id (.ended (.thrown .infrastructure))))
  | .commit user id (.running _) =>
    some (s.setCall i (.commit user id (.ended (.thrown .infrastructure))))
  | _ => none

/-- Call `i` ends with its process. -/
def crashes (s : FileService) (i : ℕ) : FileCall → Option FileService
  | .intent user body key (.running _) =>
    some (s.setCall i (.intent user body key (.ended .crashed)))
  | .parts user id (.running _) => some (s.setCall i (.parts user id (.ended .crashed)))
  | .commit user id (.running _) => some (s.setCall i (.commit user id (.ended .crashed)))
  | _ => none

/-- A body comes through a URL. S3 refuses a part of an upload that is over. -/
def receive (s : FileService) (length : ℕ) (etag : String) : UrlTarget → FileService
  | .put key _ => { s with s3 := s.s3.putObject key ⟨length, etag⟩ }
  | .part key u n =>
    match s.s3.uploadPart key u ⟨n, length, etag⟩ with
    | .ok s3 => { s with s3 }
    | .error _ => s

/-- A new call. -/
def begin (s : FileService) (i : ℕ) (c : FileCall) : Option FileService :=
  match s.calls i with
  | none => some (s.setCall i c)
  | some _ => none

/-- One event. -/
def step (rt : FileRuntime) (s : FileService) : FileEvent → Option FileService
  | .intent i user body key => s.begin i (.intent user body key (.running .begin))
  | .parts i user id => s.begin i (.parts user id (.running .select))
  | .commit i user id => s.begin i (.commit user id (.running .select))
  | .exec i d => (s.calls i).bind (s.exec rt i d)
  | .fail i => (s.calls i).bind (s.fails i)
  | .loseAnswer i d =>
    (s.calls i).bind fun c => (s.exec rt i d c).bind fun s' => s'.fails i c
  | .crash i => (s.calls i).bind (s.crashes i)
  | .put url length etag =>
    if url ∈ s.urls ∧ s.now ≤ url.expires then some (s.receive length etag url.target) else none
  | .tick seconds => some { s with now := s.now + seconds }

/-- The service before its first call, with an empty table and an empty bucket. -/
structure Start (s : FileService) : Prop where
  files : s.files = []
  objects : ∀ key, s.s3.objects key = none
  uploads : ∀ u, s.s3.uploads u = none
  urls : s.urls = []
  calls : ∀ i, s.calls i = none

end FileService

/-- The service with its clients. -/
def fileServices (rt : FileRuntime) : System FileService FileEvent :=
  ⟨FileService.Start, FileService.step rt⟩

/-! ## A small service -/

/-- The defaults of the configuration. -/
def demoFileRuntime : FileRuntime where
  putExpires := 300
  partExpires := 900
  multipartThreshold := 8388608
  issues := fun _ => ""

/-- Nothing has been uploaded. -/
def demoFiles : FileService where
  files := []
  s3 := ⟨fun _ => none, fun _ => none⟩
  urls := []
  now := 0
  calls := fun _ => none

theorem demoFiles_start : demoFiles.Start :=
  ⟨rfl, fun _ => rfl, fun _ => rfl, rfl, fun _ => rfl⟩

/-- A customer. -/
def demoCustomer : AuthUser := ⟨"1", .customer, "j", 100, "f"⟩

/-- What the steps of the small service draw: its first file is upload 7. -/
def demoFileDraw : FileDraw := ⟨"00000000-0000-4000-8000-000000000001", 7, "whole", 1000⟩

/-- `n` requests of call `i`, one after another. -/
def demoRequests (i n : ℕ) : List FileEvent := List.replicate n (.exec i demoFileDraw)

end Marketplace
