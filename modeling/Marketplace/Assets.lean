import Marketplace.Events
import Marketplace.Files
import Marketplace.LastSeparator
import Marketplace.Utf16

/-!
# Assets with a digest in their names

An asset is published under a key that is made of its name and of the first digits of the
digest of its contents. Nothing is ever invalidated: what has other contents gets another
key, and old entries of caches disturb nobody. That rests on keys being different.

The digest is a parameter here, any function to eight hexadecimal digits. That two bodies
may have one digest cannot be helped; but two names never have one key, however they look
(`hashedKey_injective`). So in a bucket that others use as well, what is under a key is the
asset of that name and digest that was published last (`assets_never_collide`).
-/

namespace Marketplace.Assets

open Json (Units)

/-! ## Digests -/

/-- `Buffer | string` -/
inductive Body where
  | buffer (bytes : List UInt8)
  | text (s : Units)
  deriving DecidableEq

/-- The bytes that are hashed and stored. -/
def Body.bytes : Body → List UInt8
  | .buffer bytes => bytes
  | .text s => Utf8.encode (Utf16.decode s)

/-- `0` to `9` and `a` to `f` -/
def IsHexDigit (u : UInt16) : Prop := (0x30 ≤ u ∧ u ≤ 0x39) ∨ (0x61 ≤ u ∧ u ≤ 0x66)

instance (u : UInt16) : Decidable (IsHexDigit u) :=
  inferInstanceAs (Decidable ((0x30 ≤ u ∧ u ≤ 0x39) ∨ (0x61 ≤ u ∧ u ≤ 0x66)))

/-- Eight hexadecimal digits. -/
structure ShortDigest where
  digits : Units
  length : digits.length = 8
  hex : ∀ u ∈ digits, IsHexDigit u
  deriving DecidableEq

theorem isHexDigit_of_all {s : Units} (h : s.all (fun u => decide (IsHexDigit u)) = true) :
    ∀ u ∈ s, IsHexDigit u := fun u hu => of_decide_eq_true (List.all_eq_true.mp h u hu)

/-- A byte in hexadecimal. -/
theorem hexByte_digits (b : UInt8) : (Utf16.encode (hexByte b).toList).length = 2 ∧
    ∀ u ∈ Utf16.encode (hexByte b).toList, IsHexDigit u := by
  have hall : ∀ n < 256, (Utf16.encode (hexByte (.ofNat n)).toList).length = 2 ∧
      (Utf16.encode (hexByte (.ofNat n)).toList).all (fun u => decide (IsHexDigit u)) = true := by
    decide +kernel
  obtain ⟨hlength, hdigits⟩ := hall b.toNat b.toNat_lt
  rw [UInt8.ofNat_toNat] at hlength hdigits
  exact ⟨hlength, isHexDigit_of_all hdigits⟩

/-- `digest('hex')` -/
def hexText (bytes : List UInt8) : Units := bytes.flatMap fun b => Utf16.encode (hexByte b).toList

theorem length_hexText (bytes : List UInt8) : (hexText bytes).length = 2 * bytes.length := by
  induction bytes with
  | nil => rfl
  | cons b bytes ih =>
    rw [hexText, List.flatMap_cons, List.length_append, (hexByte_digits b).1, ← hexText, ih,
      List.length_cons]
    omega

/-- `createHash('sha256').update(body).digest('hex').slice(0, 8)` -/
def shortDigest (sha256 : List UInt8 → Vector UInt8 32) (body : Body) : ShortDigest where
  digits := (hexText (sha256 body.bytes).toList).take 8
  length := by
    rw [List.length_take, length_hexText, Vector.length_toList]
    rfl
  hex := by
    intro u hu
    obtain ⟨b, -, hb⟩ := List.mem_flatMap.mp (List.mem_of_mem_take hu)
    exact (hexByte_digits b).2 u hb

/-! ## Keys -/

/-- `'.'` -/
def dot : UInt16 := 0x2e

/-- `ASSET_PREFIX` -/
def assetPrefix : Units := Utf16.encode "assets/".toList

variable (digest : Body → ShortDigest)

/-- `hashedKey` -/
def hashedKey (name : Units) (body : Body) : Units :=
  let hash := (digest body).digits
  let (stem, ext) := LastSeparator.cut dot name
  assetPrefix ++ (stem ++ dot :: hash ++ ext)

/-- A digest has no dot in it. -/
theorem dot_notMem (h : ShortDigest) : dot ∉ h.digits := by
  intro hdot
  have hnone : ¬ IsHexDigit dot := by decide
  exact hnone (h.hex dot hdot)

/-- **The key determines the name and the digest.** -/
theorem hashedKey_injective {name name' : Units} {body body' : Body}
    (h : hashedKey digest name body = hashedKey digest name' body') :
    name = name' ∧ digest body = digest body' := by
  have hmark : LastSeparator.mark dot (digest body).digits name =
      LastSeparator.mark dot (digest body').digits name' := List.append_cancel_left h
  obtain ⟨hname, hdigits⟩ :=
    LastSeparator.mark_injective (dot_notMem _) (dot_notMem _) hmark
  refine ⟨hname, ?_⟩
  generalize digest body = x at hdigits
  generalize digest body' = x' at hdigits
  cases x
  cases x'
  congr

/-! ## The bucket -/

/-- `IMMUTABLE` -/
def immutable : String := "public, max-age=31536000, immutable"

/-- An object with the headers that it is served with. -/
structure StoredObject where
  body : List UInt8
  contentType : String
  cacheControl : Option String
  deriving DecidableEq

/-- A bucket. -/
abbrev Bucket : Type := Units → Option StoredObject

/-- The object that is published. -/
def asset (body : Body) (contentType : String) : StoredObject :=
  ⟨body.bytes, contentType, some immutable⟩

/-- `publishAsset`: what is in the bucket after it, and the key. -/
def publishAsset (s3 : Bucket) (name : Units) (body : Body) (contentType : String) :
    Bucket × Units :=
  let key := hashedKey digest name body
  (Function.update s3 key (some (asset body contentType)), key)

/-- What changes the bucket. A publication that failed may be among these, if the store has
carried it out. -/
inductive BucketEvent where
  | publishAsset (name : Units) (body : Body) (contentType : String)
  /-- A file is uploaded, or its parts are put together. -/
  | upload (userId id : String) (contentType : ContentType) (o : StoredObject)
  deriving DecidableEq

/-- One event. -/
def Bucket.step (s3 : Bucket) : BucketEvent → Option Bucket
  | .publishAsset name body contentType => some (publishAsset digest s3 name body contentType).1
  | .upload userId id contentType o =>
    some (Function.update s3 (Utf16.encode (objectKey userId id contentType).toList) (some o))

/-- Buckets that assets and files are put into. -/
def buckets : System Bucket BucketEvent := ⟨fun _ => True, Bucket.step digest⟩

/-- The asset that the event publishes, if it has this name and digest. -/
def BucketEvent.published (name : Units) (hash : ShortDigest) : BucketEvent → Option StoredObject
  | .publishAsset name' body contentType =>
    if name' = name ∧ digest body = hash then some (asset body contentType) else none
  | .upload .. => none

/-- Files are not among the assets. -/
theorem hashedKey_ne_objectKey (name : Units) (body : Body) (userId id : String)
    (contentType : ContentType) :
    hashedKey digest name body ≠ Utf16.encode (objectKey userId id contentType).toList := by
  intro h
  have hasset : (hashedKey digest name body).head? = some 0x61 := rfl
  have hfile : (Utf16.encode (objectKey userId id contentType).toList).head? = some 0x75 := by
    rw [objectKey, String.append_assoc, String.append_assoc, String.append_assoc,
      String.append_assoc, String.toList_append, Utf16.encode_append]
    rfl
  rw [h, hfile] at hasset
  exact absurd hasset (by decide)

variable {digest}

/-- **One event**: a key changes only if its asset is published. -/
theorem Bucket.step_key {s s' : Bucket} {a : BucketEvent} (h : s.step digest a = some s')
    (name : Units) (body : Body) : s' (hashedKey digest name body) =
      (a.published digest name (digest body)).or (s (hashedKey digest name body)) := by
  cases a with
  | publishAsset name' body' contentType =>
    obtain rfl := Option.some.inj h
    simp only [BucketEvent.published, publishAsset]
    by_cases hkey : hashedKey digest name body = hashedKey digest name' body'
    · obtain ⟨rfl, hdigest⟩ := hashedKey_injective digest hkey
      rw [if_pos ⟨rfl, hdigest.symm⟩, hkey, Function.update_self]
      rfl
    -- another key, so another name or digest
    · rw [if_neg, Function.update_of_ne hkey]
      · rfl
      · rintro ⟨rfl, hdigest⟩
        refine hkey ?_
        rw [hashedKey, hashedKey, hdigest]
  | upload userId id contentType o =>
    obtain rfl := Option.some.inj h
    exact Function.update_of_ne (hashedKey_ne_objectKey digest name body userId id contentType) ..

/-- **Names and digests have keys of their own**: two keys are the same only if the names and
the digests are, so in every run what is under a key is the last asset that was published
with its name and its digest, or what was there before. -/
theorem assets_never_collide (digest : Body → ShortDigest) :
    (∀ (name name' : Units) (body body' : Body),
      hashedKey digest name body = hashedKey digest name' body' →
        name = name' ∧ digest body = digest body') ∧
    ∀ (s₀ s : Bucket) (as : List BucketEvent), (buckets digest).run s₀ as = some s →
      ∀ (name : Units) (body : Body), s (hashedKey digest name body) =
        ((as.filterMap fun a => a.published digest name (digest body)).getLast?).or
          (s₀ (hashedKey digest name body)) := by
  refine ⟨fun _ _ _ _ h => hashedKey_injective digest h, ?_⟩
  intro s₀ s as hrun name body
  refine System.run_induction (J := fun as s => s (hashedKey digest name body) =
    ((as.filterMap fun a => a.published digest name (digest body)).getLast?).or
      (s₀ (hashedKey digest name body))) rfl ?_ hrun
  intro as t a t' _ ih hstep
  rw [Bucket.step_key hstep, ih, List.filterMap_append]
  rcases h : a.published digest name (digest body) with _ | o
  · rw [List.filterMap_cons_none h, List.filterMap_nil, List.append_nil, Option.none_or]
  · rw [List.filterMap_cons_some h, List.filterMap_nil, List.getLast?_concat, Option.some_or,
      Option.some_or]

/-- The digest of one body, and that of the others; only the first bytes matter. -/
def demoSha256 (bytes : List UInt8) : Vector UInt8 32 :=
  let first : List UInt8 :=
    if bytes = [97] then [0x15, 0xc4, 0x2a, 0xb7] else [0x9f, 0x3a, 0x01, 0xde]
  .ofFn fun i => first.getD i 0

def demoDigest : Body → ShortDigest := shortDigest demoSha256

example : hashedKey demoDigest (Utf16.encode "app.css".toList) (.buffer [97]) =
    Utf16.encode "assets/app.15c42ab7.css".toList := by decide +kernel

end Marketplace.Assets
