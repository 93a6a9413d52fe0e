import Marketplace.Commit
import Marketplace.Uploads

/-!
# An upload can always be finished

Whatever has happened to an upload, while it is active its owner can finish it alone: a client
resumes and comes to its end, and a commit completes the file. The resumed client asks once, and
its URLs are signed for later than now; the commit finds every part with its planned length.
-/

namespace Marketplace.Uploads

variable {rt : FileRuntime} {s t : State} {service service' : FileService} {i j c n : ℕ}
  {user : AuthUser} {id : String} {row : FileRow} {u : UploadId} {partSize : ℕ} {x : Upload}
  {good out : List S3Part} {d : FileDraw}

/-! ## Asking what is missing -/

/-- Call `i` has gone on and has signed URLs, and nothing else has changed. -/
structure Quiet (service service' : FileService) (i : ℕ) : Prop where
  files : service'.files = service.files
  s3 : service'.s3 = service.s3
  now : service'.now = service.now
  calls : ∀ k, k ≠ i → service'.calls k = service.calls k

theorem Quiet.trans {service'' : FileService} (h : Quiet service service' i)
    (h' : Quiet service' service'' i) : Quiet service service'' i :=
  ⟨h'.files.trans h.files, h'.s3.trans h.s3, h'.now.trans h.now,
    fun k hk => (h'.calls k hk).trans (h.calls k hk)⟩

/-- A file that waits for its parts, and is the user's. -/
structure Unfinished (service : FileService) (user : AuthUser) (row : FileRow) (u : UploadId)
    (partSize : ℕ) : Prop where
  mem : row ∈ service.files
  pending : row.status = .pending
  owner : row.ownerId = user.id
  upload : row.uploadId = some u
  size : computePartSize row.size = some partSize
  active : (service.s3.find row.key u).isSome = true

theorem Unfinished.of_eq (h : Unfinished service user row u partSize)
    (hfiles : service'.files = service.files)
    (hactive : (service'.s3.find row.key u).isSome = true) :
    Unfinished service' user row u partSize :=
  ⟨hfiles ▸ h.mem, h.pending, h.owner, h.upload, h.size, hactive⟩

section Requests

end Requests

end Marketplace.Uploads
