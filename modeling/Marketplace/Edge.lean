import Marketplace.Percent
import Mathlib.Logic.Function.Basic

/-!
# The edge

The layer with a cache that stands before the closed store of files. A request is handled
by an asynchronous function that nobody awaits: it decodes the target, refuses what is no
public asset, looks into the cache, and if need be asks the store. While it waits for the
store other requests go on, so it is two steps, `begin` and `resume`, and between them the
cache may become another.

What is thrown outside of the `try` block reaches nobody: the request is never answered,
and the process ends. Two calls there can throw, `decodeURIComponent` for a target and
`writeHead` for the header fields of an entry. The handler answers every request for which
these two do not (`edge_answers_iff`).
-/

namespace Marketplace.Edge

/-! ## How long an object is fresh -/

/-- `\w` -/
def isWord (c : Char) : Bool := c.isAlphanum || c = '_'

/-- `\b`, between a character and what comes after it. -/
def boundary (before : Option Char) (after : List Char) : Bool :=
  before.any isWord != after.head?.any isWord

/-- What comes after a word in small letters, whatever letters it is written with. -/
def after : List Char → List Char → Option (List Char)
  | [], cs => some cs
  | w :: ws, c :: cs => if c.toLower = w then after ws cs else none
  | _ :: _, [] => none

/-- The first place where a pattern matches. -/
def search {α : Type} (pattern : Option Char → List Char → Option α) :
    Option Char → List Char → Option α
  | before, [] => pattern before []
  | before, c :: cs =>
    match pattern before (c :: cs) with
    | some found => some found
    | none => search pattern (some c) cs

/-- `/\b(no-store|no-cache|private)\b/i` -/
def notShared (before : Option Char) (cs : List Char) : Option Unit :=
  if boundary before cs ∧ ∃ word ∈ ["no-store", "no-cache", "private"],
      (after word.toList cs).any (boundary word.toList.getLast?) then some () else none

/-- `/\b…=(\d+)/i` -/
def seconds (field : String) (before : Option Char) (cs : List Char) : Option String :=
  if boundary before cs then
    (after (field ++ "=").toList cs).bind fun rest =>
      let digits := rest.takeWhile Char.isDigit
      if digits = [] then none else some (String.ofList digits)
  else none

/-- `ttlSec`; none is `Infinity`. -/
def ttlSec (cc : String) : Option ℚ :=
  if (search notShared none cc.toList).isSome then some 0
  else
    match search (seconds "s-maxage") none cc.toList with
    | some digits => NumericLiteral.number digits
    | none =>
      match search (seconds "max-age") none cc.toList with
      | some digits => NumericLiteral.number digits
      | none => some 0

/-! ## The store -/

/-- What `s3.send` or the reading of a body throws; `text` is what `String` makes of it. -/
structure S3Error where
  name : Option String
  code : Option String
  message : Option String
  text : String
  httpStatusCode : Option ℕ
  deriving DecidableEq

/-- `errName` -/
def errName (e : S3Error) : String :=
  match e.name with
  | some name => name
  | none =>
    match e.code with
    | some code => code
    | none => e.message.getD e.text

/-- `errStatus` -/
def errStatus (e : S3Error) : ℕ := e.httpStatusCode.getD 0

/-- What `GetObject` returns; the body is what `transformToByteArray` makes of it. -/
structure GetObjectOutput where
  body : Option (Except S3Error (List UInt8))
  cacheControl : Option String
  contentType : Option String
  etag : Option String

/-- `o.Body!` where there is none -/
def noBody : S3Error :=
  let message := "Cannot read properties of undefined (reading 'transformToByteArray')"
  ⟨some "TypeError", none, some message, "TypeError: " ++ message, none⟩

/-! ## Answers -/

/-- `Entry`; it never expires if `expires` is none. -/
structure Entry where
  body : List UInt8
  type : String
  etag : Option String
  cc : String
  expires : Option ℚ
  deriving DecidableEq

/-- A response that was sent. -/
structure Answer where
  status : ℕ
  headers : List (String × String)
  body : List UInt8
  deriving DecidableEq

/-- What is thrown outside of the `try` block. -/
inductive Failure where
  /-- `URIError` -/
  | uriMalformed
  /-- `ERR_INVALID_CHAR` -/
  | invalidChar (header : String)
  deriving DecidableEq

/-- The characters of a header field. -/
def isHeaderChar (c : Char) : Bool :=
  c = '\t' || (0x20 ≤ c.toNat && c.toNat ≤ 0x7e) || (0x80 ≤ c.toNat && c.toNat ≤ 0xff)

/-- A text that may stand in a header field. -/
def isHeaderText (text : String) : Bool := text.toList.all isHeaderChar

/-- `res.writeHead(…)` and `res.end(…)` -/
def respond (status : ℕ) (headers : List (String × String)) (body : List UInt8) :
    Except Failure Answer :=
  match headers.find? fun h => !isHeaderText h.2 with
  | some (header, _) => .error (.invalidChar header)
  | none => .ok ⟨status, headers, body⟩

/-- The cache and the statistics of `startEdge`. -/
structure State where
  cache : String → Option Entry
  origin : ℕ

/-- The end of a handler: what it sent, what it rejects with, and the state it leaves. -/
structure Handled where
  answers : List Answer
  rejection : Option Failure
  state : State

/-- The handler ends with this response, or with an error. -/
def finish (s : State) : Except Failure Answer → Handled
  | .ok answer => ⟨[answer], none, s⟩
  | .error e => ⟨[], some e, s⟩

/-! ## The handler -/

/-- `ASSET_PREFIX` -/
def assetPrefix : String := "assets/"

/-- `(req.url ?? '/').split('?')[0]` -/
def path (url : Option String) : List Char := (url.getD "/").toList.takeWhile fun c => c ≠ '?'

/-- `….replace(/^\//, '')` -/
def keyOf : List Char → String
  | '/' :: cs => .ofList cs
  | cs => .ofList cs

/-- Not for the public. -/
def Refused (method key : String) : Prop :=
  method ≠ "GET" ∨ ¬ assetPrefix.toList <+: key.toList ∨ "..".toList <:+: key.toList

instance (method key : String) : Decidable (Refused method key) :=
  inferInstanceAs (Decidable (method ≠ "GET" ∨ ¬ assetPrefix.toList <+: key.toList ∨
    "..".toList <:+: key.toList))

/-- `hit.expires <= Date.now()` -/
def Entry.expired (e : Entry) (now : ℕ) : Bool := e.expires.any fun t => t ≤ (now : ℚ)

/-- The header fields of an entry. -/
def Entry.headers (e : Entry) (xcache : String) : List (String × String) :=
  [("Content-Type", e.type), ("Cache-Control", e.cc)] ++
    (match e.etag with
      | some etag => if etag = "" then [] else [("ETag", etag)]
      | none => []) ++
    [("X-Cache", xcache)]

/-- The handler after its first part. -/
inductive Begun where
  | ended (h : Handled)
  /-- it waits for the store -/
  | asks (key : String) (s : State)

/-- The handler until it ends or waits. -/
def begin (s : State) (method : String) (url : Option String) (now : ℕ) : Begun :=
  match Percent.decodeURIComponent (path url) with
  | none => .ended ⟨[], some .uriMalformed, s⟩
  | some text =>
    let key := keyOf text
    if Refused method key then .ended (finish s (respond 403 [] []))
    else
      match s.cache key with
      | some hit =>
        if hit.expired now then
          .asks key ⟨Function.update s.cache key none, s.origin + 1⟩
        else .ended (finish s (respond 200 (hit.headers "HIT") hit.body))
      | none => .asks key { s with origin := s.origin + 1 }

/-- The entry that is made of what the store sends. -/
def fetch (sent : Except S3Error GetObjectOutput) (now : ℕ) : Except S3Error Entry := do
  let o ← sent
  let body ← o.body.getD (throw noBody)
  let cc := o.cacheControl.getD ""
  return {
    body
    type := o.contentType.getD "application/octet-stream"
    etag := o.etag
    cc
    expires := do Binary64.double (now + (← Binary64.double ((← ttlSec cc) * 1000))) }

/-- The handler after the store has sent an object or an error. -/
def resume (s : State) (key : String) (sent : Except S3Error GetObjectOutput) (now : ℕ) : Handled :=
  match fetch sent now with
  | .error e =>
    finish s (respond (if errName e = "NoSuchKey" ∨ errStatus e = 404 then 404 else 502) [] [])
  | .ok hit =>
    let s := if (ttlSec hit.cc).all fun t => 0 < t then
      { s with cache := Function.update s.cache key (some hit) } else s
    finish s (respond 200 (hit.headers "MISS") hit.body)

/-- A request from its beginning to its end: the state and the time where it begins, and the
state, the outcome and the time where it goes on after the store. -/
def handle (s : State) (method : String) (url : Option String) (now : ℕ) (s' : State)
    (sent : Except S3Error GetObjectOutput) (now' : ℕ) : Handled :=
  match begin s method url now with
  | .ended h => h
  | .asks key _ => resume s' key sent now'

/-! ## One answer -/

/-- The handler does not reject, and has sent one response, with one of these four codes. -/
structure Handled.Once (h : Handled) : Prop where
  settled : h.rejection = none
  once : ∃ answer, h.answers = [answer] ∧ answer.status ∈ [200, 403, 404, 502]

/-- The header fields of the entry can be sent. -/
structure Entry.Sendable (e : Entry) : Prop where
  type : isHeaderText e.type = true
  cc : isHeaderText e.cc = true
  etag : ∀ etag ∈ e.etag, isHeaderText etag = true

/-- The entry that is sent: a fresh one of the cache, or what the store has sent. -/
inductive Serves (s : State) (key : String) (now : ℕ) (sent : Except S3Error GetObjectOutput)
    (now' : ℕ) (e : Entry) : Prop
  | hit (hcache : s.cache key = some e) (hfresh : e.expired now = false)
  | miss (hcache : ∀ hit, s.cache key = some hit → hit.expired now = true)
    (hsent : fetch sent now' = .ok e)

section Once

variable {s s' : State} {method key : String} {url : Option String} {now now' : ℕ}
  {sent : Except S3Error GetObjectOutput} {e : Entry} {text : List Char}

/-- Without header fields nothing can go wrong. -/
theorem once_bare {status : ℕ} (h : status ∈ [200, 403, 404, 502]) :
    (finish s (respond status [] [])).Once :=
  ⟨rfl, _, rfl, h⟩

/-- The header fields of an entry are texts if those are that it has from the store. -/
theorem headers_iff {xcache : String} (hx : isHeaderText xcache = true) :
    (∀ h ∈ e.headers xcache, isHeaderText h.2 = true) ↔ e.Sendable := by
  have hempty : isHeaderText "" = true := by decide
  constructor
  · intro h
    refine ⟨h ("Content-Type", e.type) (by simp [Entry.headers]),
      h ("Cache-Control", e.cc) (by simp [Entry.headers]), fun etag hetag => ?_⟩
    by_cases hnil : etag = ""
    · rw [hnil]
      exact hempty
    · refine h ("ETag", etag) ?_
      rw [Entry.headers, Option.mem_def.mp hetag]
      simp only [if_neg hnil]
      simp
  · rintro ⟨htype, hcc, hetag⟩ h hh
    rw [Entry.headers] at hh
    rcases List.mem_append.mp hh with hh | hh
    · rcases List.mem_append.mp hh with hh | hh
      · rcases List.mem_cons.mp hh with rfl | hh
        · exact htype
        · rw [List.mem_singleton.mp hh]
          exact hcc
      · rcases he : e.etag with _ | etag
        · rw [he] at hh
          cases hh
        · simp only [he] at hh
          split_ifs at hh
          · cases hh
          · rw [List.mem_singleton.mp hh]
            exact hetag etag he
    · rw [List.mem_singleton.mp hh]
      exact hx

/-- An entry is sent if its header fields can be. -/
theorem once_entry {xcache : String} (hx : isHeaderText xcache = true) :
    (finish s (respond 200 (e.headers xcache) e.body)).Once ↔ e.Sendable := by
  rw [← headers_iff hx]
  rcases hfind : (e.headers xcache).find? (fun h => !isHeaderText h.2) with _ | ⟨header, text⟩
  · have hsent : respond 200 (e.headers xcache) e.body = .ok ⟨200, e.headers xcache, e.body⟩ := by
      simp only [respond, hfind]
    rw [hsent]
    refine iff_of_true ⟨rfl, _, rfl, List.mem_cons_self ..⟩ fun h hh => ?_
    have hnot := List.find?_eq_none.mp hfind h hh
    simpa using hnot
  · have hthrown : respond 200 (e.headers xcache) e.body = .error (.invalidChar header) := by
      simp only [respond, hfind]
    rw [hthrown]
    refine iff_of_false (fun h => ?_) fun h => ?_
    · cases h.settled
    · have hbad := List.find?_some hfind
      rw [h _ (List.mem_of_find?_eq_some hfind)] at hbad
      cases hbad

/-- After the store has answered, what can go wrong is the entry that is made of it. -/
theorem resume_once : (resume s key sent now).Once ↔ ∀ e, fetch sent now = .ok e → e.Sendable := by
  rw [resume]
  rcases fetch sent now with failure | hit
  · refine iff_of_true ?_ fun e he => by cases he
    simp only
    split_ifs
    · exact once_bare (by decide)
    · exact once_bare (by decide)
  · refine (once_entry (by decide)).trans ⟨?_, fun h => h hit rfl⟩
    rintro h e he
    obtain rfl := Except.ok.inj he
    exact h

/-- Where the target is no text, nobody is answered. -/
theorem handle_malformed (h : Percent.decodeURIComponent (path url) = none) :
    handle s method url now s' sent now' = ⟨[], some .uriMalformed, s⟩ := by
  rw [handle, begin, h]

theorem handle_refused (h : Percent.decodeURIComponent (path url) = some text)
    (hrefused : Refused method (keyOf text)) :
    handle s method url now s' sent now' = finish s (respond 403 [] []) := by
  simp only [handle, begin, h, if_pos hrefused]

/-- What is not refused is answered once if what it is answered with can be sent. -/
theorem handle_serves (h : Percent.decodeURIComponent (path url) = some text)
    (hpublic : ¬ Refused method (keyOf text)) :
    (handle s method url now s' sent now').Once ↔
      ∀ e, Serves s (keyOf text) now sent now' e → e.Sendable := by
  simp only [handle, begin, h, if_neg hpublic]
  rcases hcache : s.cache (keyOf text) with _ | hit
  · refine resume_once.trans ⟨fun hsend e he => ?_, fun hsend e he => hsend e (.miss ?_ he)⟩
    · cases he with
      | hit hsome hfresh => cases hcache.symm.trans hsome
      | miss _ hsent => exact hsend e hsent
    · intro hit hsome
      cases hcache.symm.trans hsome
  · by_cases hexpired : hit.expired now = true
    · simp only [if_pos hexpired]
      refine resume_once.trans ⟨fun hsend e he => ?_, fun hsend e he => hsend e (.miss ?_ he)⟩
      · cases he with
        | hit hsome hfresh =>
          obtain rfl := Option.some.inj (hcache.symm.trans hsome)
          cases hexpired.symm.trans hfresh
        | miss _ hsent => exact hsend e hsent
      · intro hit' hsome
        -- the entry is in the cache, but too old
        obtain rfl := Option.some.inj (hcache.symm.trans hsome)
        exact hexpired
    · simp only [if_neg hexpired]
      refine (once_entry (by decide)).trans ⟨fun hsend e he => ?_, fun hsend => hsend hit ?_⟩
      · cases he with
        | hit hsome hfresh =>
          obtain rfl := Option.some.inj (hcache.symm.trans hsome)
          exact hsend
        | miss hall _ => exact absurd (hall hit hcache) hexpired
      · exact .hit hcache (Bool.eq_false_iff.mpr hexpired)

end Once

/-- What can be answered: a target that is a text, and for a public key an entry with header
fields that can be sent, if any is sent. -/
def Answerable (s : State) (method : String) (url : Option String) (now : ℕ)
    (sent : Except S3Error GetObjectOutput) (now' : ℕ) : Prop :=
  ∃ text, Percent.Escaped (path url) text ∧ (¬ Refused method (keyOf text) →
    ∀ e, Serves s (keyOf text) now sent now' e → e.Sendable)

/-- **The edge answers what can be answered**, once, and nothing else. -/
theorem edge_answers_iff (s : State) (method : String) (url : Option String) (now : ℕ)
    (s' : State) (sent : Except S3Error GetObjectOutput) (now' : ℕ) :
    (handle s method url now s' sent now').Once ↔ Answerable s method url now sent now' := by
  rcases hdecode : Percent.decodeURIComponent (path url) with _ | text
  · rw [handle_malformed hdecode]
    refine ⟨fun h => ?_, ?_⟩
    · cases h.settled
    · rintro ⟨text, htext, -⟩
      rw [Percent.decodeURIComponent_eq_some_iff.mpr htext] at hdecode
      cases hdecode
  · have htext := Percent.decodeURIComponent_eq_some_iff.mp hdecode
    have hunique : ∀ text', Percent.Escaped (path url) text' → text' = text := fun text' h =>
      Option.some.inj ((Percent.decodeURIComponent_eq_some_iff.mpr h).symm.trans hdecode)
    by_cases hrefused : Refused method (keyOf text)
    · rw [handle_refused hdecode hrefused]
      exact iff_of_true (once_bare (by decide)) ⟨text, htext, fun h => absurd hrefused h⟩
    · rw [handle_serves hdecode hrefused]
      refine ⟨fun h => ⟨text, htext, fun _ => h⟩, ?_⟩
      rintro ⟨text', htext', h⟩
      obtain rfl := hunique text' htext'
      exact h hrefused

/-- An edge that has served nothing. -/
def cold : State := ⟨fun _ => none, 0⟩

/-- An object that may be kept for a minute. -/
def demoObject (cacheControl : String) : Except S3Error GetObjectOutput :=
  .ok ⟨some (.ok [0x2e]), some cacheControl, some "text/css", some "\"15c42ab7\""⟩

theorem demoAsset_answered :
    (handle cold "GET" (some "/assets/app%2ecss?v=1") 0 cold (demoObject "max-age=60") 5).Once := by
  refine (edge_answers_iff ..).mpr ⟨"/assets/app.css".toList, ?_, fun _ e he => ?_⟩
  · exact Percent.decodeURIComponent_eq_some_iff.mp (by decide +kernel)
  · cases he with
    | hit hcache hfresh => cases hcache
    | miss hcache hsent =>
      obtain rfl := Except.ok.inj hsent
      exact ⟨by decide, by decide, by decide⟩

/-- **A target that is no text is never answered**, and neither is an object whose header
fields cannot be sent: the handler rejects, which nobody handles. -/
theorem malformed_target_is_not_answered :
    ¬ (handle cold "GET" (some "/%E0%A4%A") 0 cold (demoObject "max-age=60") 5).Once ∧
    (handle cold "GET" (some "/%E0%A4%A") 0 cold (demoObject "max-age=60") 5).answers = [] ∧
    ¬ (handle cold "GET" (some "/assets/app.css") 0 cold (demoObject "max-age=60\n") 5).Once := by
  refine ⟨fun h => ?_, by decide +kernel, fun h => ?_⟩
  · have hsettled := h.settled
    revert hsettled
    decide +kernel
  · have hsettled := h.settled
    revert hsettled
    decide +kernel

end Marketplace.Edge
