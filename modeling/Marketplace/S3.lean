import Mathlib.Algebra.Ring.Nat
import Mathlib.Data.List.Sort
import Mathlib.Logic.Function.Basic

/-!
# What the service relies on of S3

Objects by key, and multipart uploads by id. An upload is active until it is
completed or aborted; from then on every request for it fails with `NoSuchUpload`,
and its id is not given out again. `CompleteMultipartUpload` creates the object and
ends the upload at once.

Of an object only its length and its ETag are kept. ETags are drawn by S3; of the id
of an upload only its identity matters.
-/

namespace Marketplace

/-- Identity of a multipart upload. -/
abbrev UploadId : Type := ℕ

/-- What `HeadObject` reports. -/
structure S3Object where
  contentLength : ℕ
  etag : String
  deriving DecidableEq

/-- A stored part, as `ListParts` reports it. -/
structure S3Part where
  partNumber : ℕ
  size : ℕ
  etag : String
  deriving DecidableEq

/-- What has become of an upload. -/
inductive UploadStatus where
  | active
  | completed
  | aborted
  deriving DecidableEq

/-- A multipart upload; its parts are in ascending order. -/
structure Upload where
  key : String
  status : UploadStatus
  parts : List S3Part
  deriving DecidableEq

/-- The errors of S3 that the requests of the service can meet. -/
inductive S3Error where
  | noSuchUpload
  | invalidPart
  | invalidPartOrder
  deriving DecidableEq

/-- A bucket. -/
structure S3 where
  objects : String → Option S3Object
  uploads : UploadId → Option Upload

namespace S3

/-- The order of parts. -/
def before (p q : S3Part) : Prop := p.partNumber ≤ q.partNumber

instance : DecidableRel before := fun p q =>
  inferInstanceAs (Decidable (p.partNumber ≤ q.partNumber))

/-- The upload, if it is active and belongs to the key. -/
def find (s : S3) (key : String) (u : UploadId) : Option Upload :=
  (s.uploads u).filter fun x => x.key = key ∧ x.status = .active

/-- Replace an upload. -/
def setUpload (s : S3) (u : UploadId) (x : Upload) : S3 :=
  { s with uploads := Function.update s.uploads u (some x) }

/-- `PutObject`: the body replaces the object. -/
def putObject (s : S3) (key : String) (o : S3Object) : S3 :=
  { s with objects := Function.update s.objects key (some o) }

/-- `CreateMultipartUpload`, with an id that has not been given out. -/
def createMultipartUpload (s : S3) (key : String) (u : UploadId) : Option S3 :=
  match s.uploads u with
  | none => some (s.setUpload u ⟨key, .active, []⟩)
  | some _ => none

/-- `UploadPart`: the body replaces the part. -/
def uploadPart (s : S3) (key : String) (u : UploadId) (p : S3Part) : Except S3Error S3 :=
  match s.find key u with
  | none => .error .noSuchUpload
  | some x =>
    .ok (s.setUpload u { x with
      parts := (x.parts.filter fun q => q.partNumber ≠ p.partNumber).orderedInsert before p })

/-- `ListParts`: at most `n` parts after the marker, and whether more remain. -/
def listParts (s : S3) (key : String) (u : UploadId) (marker n : ℕ) :
    Except S3Error (List S3Part × Bool) :=
  match s.find key u with
  | none => .error .noSuchUpload
  | some x =>
    let rest := x.parts.filter fun p => marker < p.partNumber
    .ok (rest.take n, decide (n < rest.length))

/-- `CompleteMultipartUpload` of the parts named by number and ETag. -/
def completeMultipartUpload (s : S3) (key : String) (u : UploadId) (named : List (ℕ × String))
    (etag : String) : Except S3Error S3 :=
  match s.find key u with
  | none => .error .noSuchUpload
  | some x =>
    if (named.map Prod.fst).Pairwise (· < ·) then
      match named.mapM fun (n, e) => x.parts.find? fun p => p.partNumber = n ∧ p.etag = e with
      | none => .error .invalidPart
      | some parts =>
        .ok ((s.putObject key ⟨(parts.map S3Part.size).sum, etag⟩).setUpload u
          { x with status := .completed })
    else .error .invalidPartOrder

/-- `AbortMultipartUpload` -/
def abortMultipartUpload (s : S3) (key : String) (u : UploadId) : Except S3Error S3 :=
  match s.find key u with
  | none => .error .noSuchUpload
  | some x => .ok (s.setUpload u { x with status := .aborted })

/-! ## What requests do

A request of an upload that is not active fails; what is over stays as it is. -/

variable {s s' s'' : S3} {key : String} {u : UploadId}

theorem find_eq_some {x : Upload} :
    s.find key u = some x ↔ s.uploads u = some x ∧ x.key = key ∧ x.status = .active := by
  simp [find, Option.filter_eq_some_iff]

/-- The upload is completed or aborted. -/
def Over (s : S3) (u : UploadId) : Prop := ∃ x, s.uploads u = some x ∧ x.status ≠ .active

theorem Over.find (h : s.Over u) (key : String) : s.find key u = none := by
  obtain ⟨x, hx, hover⟩ := h
  rcases hfind : s.find key u with _ | y
  · rfl
  · obtain ⟨hy, _, hactive⟩ := find_eq_some.mp hfind
    obtain rfl := Option.some.inj (hx.symm.trans hy)
    exact absurd hactive hover

/-- An upload stays one of its key, and what is over does not change. -/
def Grows (s s' : S3) : Prop :=
  ∀ u x, s.uploads u = some x →
    ∃ y, s'.uploads u = some y ∧ y.key = x.key ∧ (x.status ≠ .active → y = x)

theorem Grows.refl (s : S3) : s.Grows s := fun _ x hx => ⟨x, hx, rfl, fun _ => rfl⟩

theorem Over.grows (h : s.Over u) (hg : s.Grows s') : s'.Over u := by
  obtain ⟨x, hx, hover⟩ := h
  obtain ⟨y, hy, _, hsame⟩ := hg u x hx
  obtain rfl := hsame hover
  exact ⟨y, hy, hover⟩

/-- A new upload, or another state of an active one. -/
theorem grows_setUpload {x : Upload}
    (h : ∀ y, s.uploads u = some y → y.status = .active ∧ x.key = y.key) :
    s.Grows (s.setUpload u x) := by
  intro v y hy
  by_cases hv : v = u
  · subst hv
    obtain ⟨hactive, hkey⟩ := h y hy
    exact ⟨x, Function.update_self .., hkey, fun hover => absurd hactive hover⟩
  · exact ⟨y, (Function.update_of_ne hv ..).trans hy, rfl, fun _ => rfl⟩

theorem createMultipartUpload_eq_some (h : s.createMultipartUpload key u = some s') :
    s.uploads u = none ∧ s' = s.setUpload u ⟨key, .active, []⟩ := by
  unfold createMultipartUpload at h
  split at h
  · exact ⟨‹_›, (Option.some.inj h).symm⟩
  · cases h

theorem grows_createMultipartUpload (h : s.createMultipartUpload key u = some s') :
    s.Grows s' := by
  obtain ⟨hnone, rfl⟩ := createMultipartUpload_eq_some h
  refine grows_setUpload ?_
  intro y hy
  rw [hnone] at hy
  cases hy

theorem uploadPart_eq_ok {p : S3Part} (h : s.uploadPart key u p = .ok s') :
    ∃ x parts, s.find key u = some x ∧ s' = s.setUpload u { x with parts } := by
  unfold uploadPart at h
  split at h
  · cases h
  · rename_i x hx
    obtain rfl := Except.ok.inj h
    exact ⟨x, _, hx, rfl⟩

theorem abortMultipartUpload_eq_ok (h : s.abortMultipartUpload key u = .ok s') :
    ∃ x, s.find key u = some x ∧ s' = s.setUpload u { x with status := .aborted } := by
  unfold abortMultipartUpload at h
  split at h
  · cases h
  · rename_i x hx
    exact ⟨x, hx, (Except.ok.inj h).symm⟩

theorem completeMultipartUpload_eq_ok {named : List (ℕ × String)} {etag : String}
    (h : s.completeMultipartUpload key u named etag = .ok s') :
    ∃ x length, s.find key u = some x ∧
      s' = (s.putObject key ⟨length, etag⟩).setUpload u { x with status := .completed } := by
  unfold completeMultipartUpload at h
  split at h
  · cases h
  · rename_i x hx
    split_ifs at h
    split at h
    · cases h
    · exact ⟨x, _, hx, (Except.ok.inj h).symm⟩

/-- A change of an upload that was found. -/
theorem grows_of_find {x y : Upload} (h : s.find key u = some x) (hkey : y.key = x.key) :
    s.Grows (s.setUpload u y) := by
  obtain ⟨hx, _, hactive⟩ := find_eq_some.mp h
  refine grows_setUpload ?_
  intro z hz
  obtain rfl := Option.some.inj (hx.symm.trans hz)
  exact ⟨hactive, hkey⟩

theorem grows_uploadPart {p : S3Part} (h : s.uploadPart key u p = .ok s') : s.Grows s' := by
  obtain ⟨x, parts, hx, rfl⟩ := uploadPart_eq_ok h
  exact grows_of_find hx rfl

theorem grows_abortMultipartUpload (h : s.abortMultipartUpload key u = .ok s') : s.Grows s' := by
  obtain ⟨x, hx, rfl⟩ := abortMultipartUpload_eq_ok h
  exact grows_of_find hx rfl

theorem grows_completeMultipartUpload {named : List (ℕ × String)} {etag : String}
    (h : s.completeMultipartUpload key u named etag = .ok s') : s.Grows s' := by
  obtain ⟨x, length, hx, rfl⟩ := completeMultipartUpload_eq_ok h
  exact grows_of_find (s := s.putObject key ⟨length, etag⟩) hx rfl

/-- **Completing an upload is the end of it.** -/
theorem over_completeMultipartUpload {named : List (ℕ × String)} {etag : String}
    (h : s.completeMultipartUpload key u named etag = .ok s') : s'.Over u := by
  obtain ⟨x, length, _, rfl⟩ := completeMultipartUpload_eq_ok h
  exact ⟨_, Function.update_self .., fun hactive => by cases hactive⟩

/-- An upload that is there and does not let itself be completed for want of it is
over. -/
theorem over_of_noSuchUpload {named : List (ℕ × String)} {etag : String} {x : Upload}
    (hx : s.uploads u = some x) (hkey : x.key = key)
    (h : s.completeMultipartUpload key u named etag = .error .noSuchUpload) : s.Over u := by
  refine ⟨x, hx, fun hactive => ?_⟩
  have hfind := find_eq_some.mpr ⟨hx, hkey, hactive⟩
  unfold completeMultipartUpload at h
  rw [hfind] at h
  simp only at h
  split_ifs at h
  · split at h
    · cases h
    · cases h
  · cases h

end S3

end Marketplace
