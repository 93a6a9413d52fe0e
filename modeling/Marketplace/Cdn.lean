import Marketplace.Assets
import Marketplace.Edge

/-!
# The edge before its bucket

The edge of `Edge`, with any number of requests under way, before a bucket into which assets
are published and files uploaded all the time. A request that is not answered from the cache
asks the store; the store reads the object at some moment of its own, and the handler goes on
at another.

Nothing is ever invalidated, so the question is what a client can be given. What is sent was
in the bucket under that key when it was read, for this request or for the one that has left
it in the cache, and what is sent from the cache had not expired (`edge_serves_bucket`).
Under a key with a digest in it that is as good as asking the store, as long as no two contents
with that name have one digest (`published_url_serves_body`).
-/

namespace Marketplace.Cdn

open Edge (Entry GetObjectOutput)
open Assets (Bucket BucketEvent Body ShortDigest StoredObject)
open Json (Units)

/-! ## Steps -/

/-- Where a request is. -/
inductive CdnStatus where
  /-- it waits for the store -/
  | asking (key : String)
  /-- the store has sent this, and the handler has not gone on yet -/
  | sent (key : String) (output : Except Edge.S3Error GetObjectOutput)
  /-- the handler is at its end, at this time -/
  | ended (answers : List Edge.Answer) (finishedAt : ℕ)

/-- A request to the edge. -/
structure CdnRequest where
  method : String
  url : Option String
  status : CdnStatus

/-- The edge, the bucket, the clock, the requests. -/
structure CdnState where
  edge : Edge.State
  /-- the process runs: nobody handles the rejection of a handler -/
  alive : Bool
  bucket : Bucket
  now : ℕ
  requests : ℕ → Option CdnRequest

/-- The key of a bucket that the edge asks for. -/
def bucketKey (key : String) : Units := Utf16.encode key.toList

/-- What `GetObject` sends of an object; the entity tag is made of the body. -/
def objectOutput (etag : List UInt8 → String) (o : StoredObject) : GetObjectOutput where
  body := some (.ok o.body)
  cacheControl := o.cacheControl
  contentType := some o.contentType
  etag := some (etag o.body)

/-- `NoSuchKey` -/
def noSuchKey : Edge.S3Error :=
  ⟨some "NoSuchKey", none, some "The specified key does not exist.", "NoSuchKey", some 404⟩

/-- `GetObject` -/
def getObject (etag : List UInt8 → String) (s3 : Bucket) (key : String) :
    Except Edge.S3Error GetObjectOutput :=
  match s3 (bucketKey key) with
  | some o => .ok (objectOutput etag o)
  | none => .error noSuchKey

/-- What can happen. -/
inductive CdnEvent where
  /-- something is put into the bucket -/
  | bucket (ev : BucketEvent)
  | tick (ms : ℕ)
  /-- a request arrives -/
  | request (k : ℕ) (method : String) (url : Option String)
  /-- the store reads the object -/
  | read (k : ℕ)
  /-- the call of the store throws -/
  | fail (k : ℕ) (e : Edge.S3Error)
  /-- the handler goes on -/
  | resume (k : ℕ)

namespace CdnState

/-- Request `k` has got so far. -/
def reach (s : CdnState) (k : ℕ) (r : CdnRequest) (status : CdnStatus) : CdnState :=
  { s with requests := Function.update s.requests k (some { r with status }) }

/-- The handler of request `k` is at its end. -/
def finish (s : CdnState) (k : ℕ) (r : CdnRequest) (h : Edge.Handled) : CdnState :=
  ({ s with
    edge := h.state
    alive := s.alive && h.rejection.isNone } : CdnState).reach k r (.ended h.answers s.now)

end CdnState

variable (digest : Body → ShortDigest) (etag : List UInt8 → String)

/-- One event. -/
def CdnState.step (s : CdnState) : CdnEvent → Option CdnState
  | .bucket ev => (s.bucket.step digest ev).map fun bucket => { s with bucket }
  | .tick ms => some { s with now := s.now + ms }
  | .request k method url =>
    match s.alive, s.requests k with
    | true, none =>
      match Edge.begin s.edge method url s.now with
      | .ended h => some (s.finish k ⟨method, url, .ended [] s.now⟩ h)
      | .asks key edge => some (({ s with edge } : CdnState).reach k ⟨method, url, .asking key⟩
          (.asking key))
    | _, _ => none
  | .read k =>
    match s.requests k with
    | some ⟨method, url, .asking key⟩ =>
      some (s.reach k ⟨method, url, .asking key⟩ (.sent key (getObject etag s.bucket key)))
    | _ => none
  | .fail k e =>
    match s.requests k with
    | some ⟨method, url, .asking key⟩ =>
      some (s.reach k ⟨method, url, .asking key⟩ (.sent key (.error e)))
    | _ => none
  | .resume k =>
    match s.alive, s.requests k with
    | true, some ⟨method, url, .sent key output⟩ =>
      some (s.finish k ⟨method, url, .sent key output⟩ (Edge.resume s.edge key output s.now))
    | _, _ => none

/-- The edge, from its start, before any bucket. -/
def cdns : System CdnState CdnEvent where
  start s := s.edge = Edge.cold ∧ s.alive = true ∧ ∀ k, s.requests k = none
  step := CdnState.step digest etag

/-! ## Where an entry comes from -/

/-- The store reads the object for request `k`, which asks for the key. -/
def Read (s₀ : CdnState) (as : List CdnEvent) (k : ℕ) (key : String) (o : StoredObject) : Prop :=
  ∃ first rest s₁ method url, as = first ++ .read k :: rest ∧
    (cdns digest etag).run s₀ first = some s₁ ∧
    s₁.requests k = some ⟨method, url, .asking key⟩ ∧ s₁.bucket (bucketKey key) = some o

/-- Request `k` goes on at time `t`, and makes the entry of the object that was read for it. -/
def Fetched (s₀ : CdnState) (as : List CdnEvent) (k : ℕ) (key : String) (o : StoredObject)
    (e : Entry) (t : ℕ) : Prop :=
  ∃ first rest s₁ method url, as = first ++ .resume k :: rest ∧
    (cdns digest etag).run s₀ first = some s₁ ∧ s₁.now = t ∧
    s₁.requests k = some ⟨method, url, .sent key (.ok (objectOutput etag o))⟩ ∧
    Read digest etag s₀ first k key o ∧ Edge.fetch (.ok (objectOutput etag o)) t = .ok e

/-- Request `k` arrives at time `t` and finds the entry in the cache, where another request has
left it; it has not expired. -/
def Found (s₀ : CdnState) (as : List CdnEvent) (k : ℕ) (method : String) (url : Option String)
    (key : String) (o : StoredObject) (e : Entry) (t : ℕ) : Prop :=
  ∃ first rest s₁ j fetchedAt, as = first ++ .request k method url :: rest ∧
    (cdns digest etag).run s₀ first = some s₁ ∧ s₁.now = t ∧ s₁.edge.cache key = some e ∧
    e.expired t = false ∧ Fetched digest etag s₀ first j key o e fetchedAt

/-- The key that the request asks for. -/
def Asks (method : String) (url : Option String) (key : String) : Prop :=
  ∃ text, Percent.decodeURIComponent (Edge.path url) = some text ∧ key = Edge.keyOf text ∧
    ¬ Edge.Refused method key

/-- A full answer to request `k`, sent at time `now`: the entry that is sent, and where it comes
from. -/
def Served (s₀ : CdnState) (as : List CdnEvent) (k : ℕ) (r : CdnRequest) (answer : Edge.Answer)
    (now : ℕ) : Prop :=
  ∃ key o e, Asks r.method r.url key ∧ answer.body = o.body ∧
    (answer.headers = e.headers "MISS" ∧ Fetched digest etag s₀ as k key o e now ∨
      answer.headers = e.headers "HIT" ∧ Found digest etag s₀ as k r.method r.url key o e now)

/-! ## What the handler does -/

section Handler

variable {etag} {e : Edge.State} {method key : String} {url : Option String} {now : ℕ}
  {h : Edge.Handled}

/-- The end of a handler that sends an entry. -/
theorem answers_respond {entry : Entry} {xcache : String} {answer : Edge.Answer}
    (hmem : answer ∈ (Edge.finish e (Edge.respond 200 (entry.headers xcache) entry.body)).answers) :
    answer.body = entry.body ∧ answer.headers = entry.headers xcache := by
  simp only [Edge.respond] at hmem
  split at hmem
  · exact absurd hmem List.not_mem_nil
  · obtain rfl := List.mem_singleton.mp hmem
    exact ⟨rfl, rfl⟩

theorem state_finish (r : Except Edge.Failure Edge.Answer) : (Edge.finish e r).state = e := by
  rcases r with failure | answer
  · rfl
  · rfl

/-- A handler without header fields. -/
theorem answers_bare {code : ℕ} {answer : Edge.Answer} (hcode : code ≠ 200)
    (hmem : answer ∈ (Edge.finish e (Edge.respond code [] [])).answers) : answer.status ≠ 200 := by
  obtain rfl := List.mem_singleton.mp hmem
  exact hcode

/-- The handler ends before it asks: with a hit that has not expired, or without an entry. -/
theorem begin_ended (hbegin : Edge.begin e method url now = .ended h) : h.state = e ∧
    ∀ answer ∈ h.answers, answer.status = 200 → ∃ key entry, Asks method url key ∧
      e.cache key = some entry ∧ entry.expired now = false ∧ answer.body = entry.body ∧
      answer.headers = entry.headers "HIT" := by
  simp only [Edge.begin] at hbegin
  split at hbegin
  · obtain rfl := Edge.Begun.ended.inj hbegin
    exact ⟨rfl, fun answer hmem => absurd hmem List.not_mem_nil⟩
  · rename_i text htext
    split_ifs at hbegin with hrefused
    · obtain rfl := Edge.Begun.ended.inj hbegin
      exact ⟨state_finish _, fun answer hmem h200 =>
        absurd h200 (answers_bare (by decide) hmem)⟩
    · split at hbegin
      · rename_i hit hcache
        split_ifs at hbegin with hexpired
        obtain rfl := Edge.Begun.ended.inj hbegin
        refine ⟨state_finish _, fun answer hmem _ => ?_⟩
        obtain ⟨hbody, hheaders⟩ := answers_respond hmem
        exact ⟨_, hit, ⟨text, htext, rfl, hrefused⟩, hcache, Bool.eq_false_iff.mpr hexpired, hbody,
          hheaders⟩
      · cases hbegin

/-- The handler asks: nothing is added to the cache. -/
theorem begin_asks {e' : Edge.State} (hbegin : Edge.begin e method url now = .asks key e') :
    Asks method url key ∧
      ∀ key' entry, e'.cache key' = some entry → e.cache key' = some entry := by
  simp only [Edge.begin] at hbegin
  split at hbegin
  · cases hbegin
  · rename_i text htext
    split_ifs at hbegin with hrefused
    split at hbegin
    · split_ifs at hbegin
      obtain ⟨rfl, rfl⟩ := Edge.Begun.asks.inj hbegin
      refine ⟨⟨text, htext, rfl, hrefused⟩, fun key' entry hentry => ?_⟩
      rcases Slots.found_cases hentry with ⟨-, hnone⟩ | ⟨-, hold⟩
      · cases hnone
      · exact hold
    · obtain ⟨rfl, rfl⟩ := Edge.Begun.asks.inj hbegin
      exact ⟨⟨text, htext, rfl, hrefused⟩, fun key' entry hentry => hentry⟩

/-- The handler goes on: what it keeps and what it sends is the entry of what the store sent. -/
theorem resume_entry (e : Edge.State) (key : String)
    (output : Except Edge.S3Error GetObjectOutput) (now : ℕ) :
    (∀ key' entry, (Edge.resume e key output now).state.cache key' = some entry →
      e.cache key' = some entry ∨ key' = key ∧ Edge.fetch output now = .ok entry) ∧
    ∀ answer ∈ (Edge.resume e key output now).answers, answer.status = 200 →
      ∃ entry, Edge.fetch output now = .ok entry ∧ answer.body = entry.body ∧
        answer.headers = entry.headers "MISS" := by
  simp only [Edge.resume]
  rcases hfetch : Edge.fetch output now with failure | hit
  · refine ⟨fun key' entry hentry => .inl ?_, fun answer hmem h200 => absurd h200 ?_⟩
    · rw [state_finish] at hentry
      exact hentry
    · refine answers_bare ?_ hmem
      split_ifs <;> decide
  · refine ⟨fun key' entry hentry => ?_, fun answer hmem _ => ⟨hit, rfl, answers_respond hmem⟩⟩
    rw [state_finish] at hentry
    split_ifs at hentry
    · rcases Slots.found_cases_some hentry with ⟨rfl, rfl⟩ | ⟨-, hold⟩
      · exact .inr ⟨rfl, rfl⟩
      · exact .inl hold
    · exact .inl hentry

/-- The entry has the body of the object. -/
theorem fetch_body {o : StoredObject} {entry : Entry}
    (hfetch : Edge.fetch (.ok (objectOutput etag o)) now = .ok entry) : entry.body = o.body := by
  obtain rfl := Except.ok.inj hfetch
  rfl

end Handler

/-! ## Runs -/

section Runs

variable {digest etag} {s₀ s s' : CdnState} {as : List CdnEvent} {ev : CdnEvent} {key : String}
  {o : StoredObject} {e : Entry} {k now : ℕ} {r : CdnRequest} {answer : Edge.Answer}

theorem Read.snoc (h : Read digest etag s₀ as k key o) (ev : CdnEvent) :
    Read digest etag s₀ (as ++ [ev]) k key o := by
  obtain ⟨first, rest, s₁, method, url, rfl, hread⟩ := h
  exact ⟨first, rest ++ [ev], s₁, method, url, by simp, hread⟩

theorem Fetched.snoc (h : Fetched digest etag s₀ as k key o e now) (ev : CdnEvent) :
    Fetched digest etag s₀ (as ++ [ev]) k key o e now := by
  obtain ⟨first, rest, s₁, method, url, rfl, hfetched⟩ := h
  exact ⟨first, rest ++ [ev], s₁, method, url, by simp, hfetched⟩

theorem Found.snoc {method : String} {url : Option String}
    (h : Found digest etag s₀ as k method url key o e now) (ev : CdnEvent) :
    Found digest etag s₀ (as ++ [ev]) k method url key o e now := by
  obtain ⟨first, rest, s₁, j, fetchedAt, rfl, hfound⟩ := h
  exact ⟨first, rest ++ [ev], s₁, j, fetchedAt, by simp, hfound⟩

theorem Served.snoc (h : Served digest etag s₀ as k r answer now) (ev : CdnEvent) :
    Served digest etag s₀ (as ++ [ev]) k r answer now := by
  obtain ⟨key, o, e, hasks, hbody, ⟨hmiss, hfetched⟩ | ⟨hhit, hfound⟩⟩ := h
  · exact ⟨key, o, e, hasks, hbody, .inl ⟨hmiss, hfetched.snoc ev⟩⟩
  · exact ⟨key, o, e, hasks, hbody, .inr ⟨hhit, hfound.snoc ev⟩⟩

/-- Whatever is sent was in the bucket when the store has read it. -/
theorem Served.object (h : Served digest etag s₀ as k r answer now) :
    ∃ key o first rest s₁, Asks r.method r.url key ∧ answer.body = o.body ∧ as = first ++ rest ∧
      (cdns digest etag).run s₀ first = some s₁ ∧ s₁.bucket (bucketKey key) = some o := by
  have hfetched : ∃ key o e as' rest j t, Asks r.method r.url key ∧ answer.body = o.body ∧
      as = as' ++ rest ∧ Fetched digest etag s₀ as' j key o e t := by
    obtain ⟨key, o, e, hasks, hbody, ⟨-, hfetched⟩ | ⟨-, hfound⟩⟩ := h
    · exact ⟨key, o, e, as, [], k, now, hasks, hbody, (List.append_nil as).symm, hfetched⟩
    · obtain ⟨as', rest, s₁, j, t, hsplit, -, -, -, -, hfetched⟩ := hfound
      exact ⟨key, o, e, as', _, j, t, hasks, hbody, hsplit, hfetched⟩
  obtain ⟨key, o, e, _, rest, j, t, hasks, hbody, rfl, hfetched⟩ := hfetched
  obtain ⟨_, rest₁, -, -, -, rfl, -, -, -, hread, -⟩ := hfetched
  obtain ⟨first, rest₂, s₁, -, -, rfl, hrun, -, ho⟩ := hread
  exact ⟨key, o, first, .read j :: rest₂ ++ .resume j :: rest₁ ++ rest, s₁, hasks, hbody,
    by simp, hrun, ho⟩

/-- What is known of request `k`. -/
def Sourced (digest : Body → ShortDigest) (etag : List UInt8 → String) (s₀ : CdnState)
    (as : List CdnEvent) (k : ℕ) (r : CdnRequest) : Prop :=
  match r.status with
  | .asking key => Asks r.method r.url key
  | .sent key output => Asks r.method r.url key ∧
      ∀ out, output = .ok out → ∃ o, out = objectOutput etag o ∧ Read digest etag s₀ as k key o
  | .ended answers finishedAt =>
    ∀ answer ∈ answers, answer.status = 200 → Served digest etag s₀ as k r answer finishedAt

/-- What holds after each step of a run. -/
structure CdnState.Inv (digest : Body → ShortDigest) (etag : List UInt8 → String) (s₀ : CdnState)
    (as : List CdnEvent) (s : CdnState) : Prop where
  cache : ∀ key e, s.edge.cache key = some e → ∃ j o t, Fetched digest etag s₀ as j key o e t
  requests : ∀ k r, s.requests k = some r → Sourced digest etag s₀ as k r

theorem Sourced.snoc (h : Sourced digest etag s₀ as k r) (ev : CdnEvent) :
    Sourced digest etag s₀ (as ++ [ev]) k r := by
  rcases r with ⟨method, url, key | ⟨key, output⟩ | ⟨answers, finishedAt⟩⟩
  · exact h
  · refine ⟨h.1, fun out hout => ?_⟩
    obtain ⟨o, ho, hread⟩ := h.2 out hout
    exact ⟨o, ho, hread.snoc ev⟩
  · exact fun answer hmem h200 => (h answer hmem h200).snoc ev

theorem CdnState.Inv.snoc (h : CdnState.Inv digest etag s₀ as s) (ev : CdnEvent) :
    CdnState.Inv digest etag s₀ (as ++ [ev]) s where
  cache := by
    intro key e he
    obtain ⟨j, o, t, hfetched⟩ := h.cache key e he
    exact ⟨j, o, t, hfetched.snoc ev⟩
  requests := fun k r hr => (h.requests k r hr).snoc ev

/-- A request gets on. -/
theorem CdnState.Inv.reach {status : CdnStatus} {edge : Edge.State} {alive : Bool}
    (h : CdnState.Inv digest etag s₀ as s)
    (hcache : ∀ key e, edge.cache key = some e →
      s.edge.cache key = some e ∨ ∃ j o t, Fetched digest etag s₀ as j key o e t)
    (hstatus : Sourced digest etag s₀ as k { r with status }) :
    CdnState.Inv digest etag s₀ as (({ s with edge, alive } : CdnState).reach k r status) := by
  refine ⟨fun key e he => (hcache key e he).elim (h.cache key e) id, fun k' r' hr' => ?_⟩
  rcases Slots.found_cases_some hr' with ⟨rfl, rfl⟩ | ⟨-, hold⟩
  · exact hstatus
  · exact h.requests k' r' hold

/-- **Every event** keeps track of where things come from. -/
theorem CdnState.Inv.step (h : CdnState.Inv digest etag s₀ as s)
    (hrun : (cdns digest etag).run s₀ as = some s) (hs : s.step digest etag ev = some s') :
    CdnState.Inv digest etag s₀ (as ++ [ev]) s' := by
  have hnext := h.snoc ev
  cases ev with
  | bucket bucketEv =>
    obtain ⟨bucket', -, rfl⟩ := Option.map_eq_some_iff.mp hs
    exact ⟨hnext.cache, hnext.requests⟩
  | tick ms =>
    obtain rfl := Option.some.inj hs
    exact ⟨hnext.cache, hnext.requests⟩
  | request k method url =>
    simp only [CdnState.step] at hs
    split at hs
    · split at hs
      · rename_i handled hbegin
        obtain rfl := Option.some.inj hs
        obtain ⟨hstate, hsends⟩ := begin_ended hbegin
        refine hnext.reach (fun key e he => .inl (hstate ▸ he)) fun answer hmem h200 => ?_
        obtain ⟨key, entry, hasks, hcache, hfresh, hbody, hheaders⟩ := hsends answer hmem h200
        obtain ⟨j, o, t, hfetched⟩ := h.cache key entry hcache
        obtain ⟨-, -, -, -, -, -, -, -, -, -, hfetch⟩ := id hfetched
        exact ⟨key, o, entry, hasks, hbody.trans (fetch_body hfetch), .inr ⟨hheaders,
          as, [], s, j, t, rfl, hrun, rfl, hcache, hfresh, hfetched⟩⟩
      · rename_i key edge hbegin
        obtain rfl := Option.some.inj hs
        obtain ⟨hasks, hcache⟩ := begin_asks hbegin
        exact hnext.reach (fun key e he => .inl (hcache key e he)) hasks
    · cases hs
  | read k =>
    simp only [CdnState.step] at hs
    split at hs
    · rename_i method url key hk
      obtain rfl := Option.some.inj hs
      refine hnext.reach (fun key e he => .inl he) ⟨h.requests k _ hk, fun out hout => ?_⟩
      simp only [getObject] at hout
      split at hout
      · rename_i o ho
        obtain rfl := Except.ok.inj hout
        exact ⟨o, rfl, as, [], s, method, url, rfl, hrun, hk, ho⟩
      · cases hout
    · cases hs
  | fail k e =>
    simp only [CdnState.step] at hs
    split at hs
    · rename_i method url key hk
      obtain rfl := Option.some.inj hs
      exact hnext.reach (fun key e he => .inl he) ⟨h.requests k _ hk, fun out hout => by cases hout⟩
    · cases hs
  | resume k =>
    simp only [CdnState.step] at hs
    split at hs
    · rename_i method url key output _ hk
      obtain rfl := Option.some.inj hs
      obtain ⟨hasks, hread⟩ : Asks method url key ∧ _ := h.requests k _ hk
      have hfetched : ∀ entry, Edge.fetch output s.now = .ok entry → ∃ o,
          entry.body = o.body ∧
            Fetched digest etag s₀ (as ++ [.resume k]) k key o entry s.now := by
        intro entry hentry
        rcases output with failure | out
        · cases hentry
        · obtain ⟨o, rfl, hown⟩ := hread out rfl
          exact ⟨o, fetch_body hentry, as, [], s, method, url, rfl, hrun, rfl, hk, hown, hentry⟩
      obtain ⟨hcache, hsends⟩ := resume_entry s.edge key output s.now
      refine hnext.reach (fun key' e he => ?_) fun answer hmem h200 => ?_
      · rcases hcache key' e he with hold | ⟨rfl, hentry⟩
        · exact .inl hold
        · obtain ⟨o, -, hfetched⟩ := hfetched e hentry
          exact .inr ⟨k, o, s.now, hfetched⟩
      · obtain ⟨entry, hentry, hbody, hheaders⟩ := hsends answer hmem h200
        obtain ⟨o, ho, hfetched⟩ := hfetched entry hentry
        exact ⟨key, o, entry, hasks, hbody.trans ho, .inl ⟨hheaders, hfetched⟩⟩
    · cases hs

theorem cdn_inv (h₀ : (cdns digest etag).start s₀)
    (hrun : (cdns digest etag).run s₀ as = some s) : CdnState.Inv digest etag s₀ as s := by
  refine System.run_induction (J := CdnState.Inv digest etag s₀) ?_
    (fun _ _ _ _ hrun h hs => h.step hrun hs) hrun
  refine ⟨fun key e he => ?_, fun k r hr => ?_⟩
  · rw [h₀.1] at he
    cases he
  · rw [h₀.2.2 k] at hr
    cases hr

end Runs

/-- **Nothing is made up, and nothing private leaks**: a full answer has the body of an object
that was in the bucket when the store read it, under a public key, the one that the target asks
for. A MISS sends what was read for that very request; a HIT what the cache had when the
request arrived, and it had not expired. -/
theorem edge_serves_bucket {digest : Body → ShortDigest} {etag : List UInt8 → String}
    {s₀ s : CdnState} {as : List CdnEvent} {k : ℕ} {method : String} {url : Option String}
    {answers : List Edge.Answer} {finishedAt : ℕ} (h₀ : (cdns digest etag).start s₀)
    (hrun : (cdns digest etag).run s₀ as = some s)
    (hk : s.requests k = some ⟨method, url, .ended answers finishedAt⟩) :
    ∀ answer ∈ answers, answer.status = 200 →
      Served digest etag s₀ as k ⟨method, url, .ended answers finishedAt⟩ answer finishedAt :=
  (cdn_inv h₀ hrun).requests k _ hk

/-! ## Keys with a digest -/

section Published

variable {digest : Body → ShortDigest} {etag : List UInt8 → String} {s₀ s s' : CdnState}
  {as : List CdnEvent} {ev : CdnEvent} {name : Units} {body : Body}

/-- All that is published in the run under this name and digest has this body. -/
def OneBody (digest : Body → ShortDigest) (name : Units) (body : Body) (as : List CdnEvent) :
    Prop :=
  ∀ body' contentType, .bucket (.publishAsset name body' contentType) ∈ as →
    digest body' = digest body → body'.bytes = body.bytes

/-- A target asks for one key. -/
theorem Asks.unique {method key key' : String} {url : Option String} (h : Asks method url key)
    (h' : Asks method url key') : key = key' := by
  obtain ⟨text, htext, rfl, -⟩ := h
  obtain ⟨text', htext', rfl, -⟩ := h'
  rw [Option.some.inj (htext.symm.trans htext')]

/-- Only an event of the bucket changes it. -/
theorem bucket_of_step (hs : s.step digest etag ev = some s') :
    s'.bucket = s.bucket ∨
      ∃ bucketEv, ev = .bucket bucketEv ∧ s.bucket.step digest bucketEv = some s'.bucket := by
  cases ev with
  | bucket bucketEv =>
    obtain ⟨bucket', hbucket, rfl⟩ := Option.map_eq_some_iff.mp hs
    exact .inr ⟨bucketEv, rfl, hbucket⟩
  | tick ms =>
    obtain rfl := Option.some.inj hs
    exact .inl rfl
  | request k method url =>
    simp only [CdnState.step] at hs
    split at hs
    · split at hs
      · obtain rfl := Option.some.inj hs
        exact .inl rfl
      · obtain rfl := Option.some.inj hs
        exact .inl rfl
    · cases hs
  | read k | fail k _ | resume k =>
    simp only [CdnState.step] at hs
    split at hs
    · obtain rfl := Option.some.inj hs
      exact .inl rfl
    · cases hs

/-- What is in the bucket under the key. -/
theorem bucket_oneBody (hone : OneBody digest name body as)
    (hold : ∀ o, s₀.bucket (Assets.hashedKey digest name body) = some o → o.body = body.bytes)
    (hrun : (cdns digest etag).run s₀ as = some s) :
    ∀ o, s.bucket (Assets.hashedKey digest name body) = some o → o.body = body.bytes := by
  refine System.run_induction (J := fun as s => OneBody digest name body as → ∀ o,
    s.bucket (Assets.hashedKey digest name body) = some o → o.body = body.bytes) (fun _ => hold)
    ?_ hrun hone
  intro as t ev t' _ ih hstep hone o ho
  have ih := ih fun body' contentType hmem =>
    hone body' contentType (List.mem_append_left _ hmem)
  rcases bucket_of_step hstep with hsame | ⟨bucketEv, rfl, hbucket⟩
  · rw [hsame] at ho
    exact ih o ho
  · rw [Bucket.step_key hbucket] at ho
    cases bucketEv with
    | upload userId id contentType o' => exact ih o ho
    | publishAsset name' body' contentType =>
      simp only [BucketEvent.published] at ho
      split_ifs at ho with hsame
      · obtain ⟨rfl, hdigest⟩ := hsame
        obtain rfl := Option.some.inj ho
        exact hone body' contentType (List.mem_append_right _ (List.mem_singleton_self _)) hdigest
      · exact ih o ho

end Published

/-- **A published URL serves its contents** for ever: what is answered under a key with a digest
has the body that was published with it, however often other contents are published under the
same name, whatever the cache still has, and without any invalidation. -/
theorem published_url_serves_body {digest : Body → ShortDigest} {etag : List UInt8 → String}
    {s₀ s : CdnState} {as : List CdnEvent} {name : Units} {body : Body} {k : ℕ}
    {method key : String} {url : Option String} {answers : List Edge.Answer} {finishedAt : ℕ}
    (h₀ : (cdns digest etag).start s₀) (hone : OneBody digest name body as)
    (hold : ∀ o, s₀.bucket (Assets.hashedKey digest name body) = some o → o.body = body.bytes)
    (hkey : bucketKey key = Assets.hashedKey digest name body)
    (hrun : (cdns digest etag).run s₀ as = some s)
    (hk : s.requests k = some ⟨method, url, .ended answers finishedAt⟩)
    (hasks : Asks method url key) :
    ∀ answer ∈ answers, answer.status = 200 → answer.body = body.bytes := by
  intro answer hmem h200
  have hserved : Served digest etag s₀ as k _ answer finishedAt :=
    (cdn_inv h₀ hrun).requests k _ hk answer hmem h200
  obtain ⟨key', o, first, rest, s₁, hasks', hbody, rfl, hfirst, ho⟩ := hserved.object
  obtain rfl := hasks.unique hasks'
  have hone₁ : OneBody digest name body first := fun body' contentType hmem =>
    hone body' contentType (List.mem_append_left _ hmem)
  rw [hbody]
  exact bucket_oneBody hone₁ hold hfirst o (hkey ▸ ho)

/-- An edge before an empty bucket. -/
def demoCdn : CdnState := ⟨Edge.cold, true, fun _ => none, 0, fun _ => none⟩

/-- A style sheet is published, fetched, and published anew; then it is asked for again. -/
def demoDeploy : List CdnEvent :=
  [.bucket (.publishAsset (Utf16.encode "app.css".toList) (.buffer [97]) "text/css"),
    .request 0 "GET" (some "/assets/app.15c42ab7.css"), .read 0, .tick 5, .resume 0,
    .bucket (.publishAsset (Utf16.encode "app.css".toList) (.buffer [98]) "text/css"),
    .tick 60000, .request 1 "GET" (some "/assets/app.15c42ab7.css?v=2")]

/-- What is asked for again. -/
def demoAnswer : Edge.Answer :=
  ⟨200, [("Content-Type", "text/css"), ("Cache-Control", "public, max-age=31536000, immutable"),
    ("ETag", "\"e\""), ("X-Cache", "HIT")], [97]⟩

theorem demoDeploy_run : ∃ s,
    (cdns Assets.demoDigest fun _ => "\"e\"").run demoCdn demoDeploy = some s ∧
      s.requests 1 = some ⟨"GET", some "/assets/app.15c42ab7.css?v=2",
        .ended [demoAnswer] 60005⟩ := by
  have hsome : ((cdns Assets.demoDigest fun _ => "\"e\"").run demoCdn demoDeploy).any (fun s =>
      (s.requests 1).any fun r =>
        match r with
        | ⟨method, url, .ended answers finishedAt⟩ => decide (method = "GET" ∧
            url = some "/assets/app.15c42ab7.css?v=2" ∧ answers = [demoAnswer] ∧
            finishedAt = 60005)
        | _ => false) = true := by
    decide +kernel
  obtain ⟨s, hrun, h⟩ := (Option.any_eq_true _ _).mp hsome
  obtain ⟨⟨method, url, status⟩, hr, h⟩ := (Option.any_eq_true _ _).mp h
  rcases status with key | ⟨key, output⟩ | ⟨answers, finishedAt⟩
  · cases h
  · cases h
  · obtain ⟨rfl, rfl, rfl, rfl⟩ := of_decide_eq_true h
    exact ⟨s, hrun, hr⟩

theorem demoDeploy_served : ∃ s,
    (cdns Assets.demoDigest fun _ => "\"e\"").run demoCdn demoDeploy = some s ∧
      ∀ answer ∈ [demoAnswer], answer.status = 200 →
        Served Assets.demoDigest (fun _ => "\"e\"") demoCdn demoDeploy 1
          ⟨"GET", some "/assets/app.15c42ab7.css?v=2", .ended [demoAnswer] 60005⟩ answer 60005 := by
  obtain ⟨s, hrun, hr⟩ := demoDeploy_run
  exact ⟨s, hrun, edge_serves_bucket ⟨rfl, rfl, fun _ => rfl⟩ hrun hr⟩

theorem demoDeploy_body : ∃ s,
    (cdns Assets.demoDigest fun _ => "\"e\"").run demoCdn demoDeploy = some s ∧
      ∀ answer ∈ [demoAnswer], answer.status = 200 → answer.body = [97] := by
  obtain ⟨s, hrun, hr⟩ := demoDeploy_run
  have hone : OneBody Assets.demoDigest (Utf16.encode "app.css".toList) (.buffer [97])
      demoDeploy := by
    intro body' contentType hmem hdigest
    simp only [demoDeploy, List.mem_cons, reduceCtorEq, CdnEvent.bucket.injEq,
      BucketEvent.publishAsset.injEq, List.not_mem_nil, or_false, false_or] at hmem
    rcases hmem with ⟨-, rfl, -⟩ | ⟨-, rfl, -⟩
    · rfl
    · exact absurd hdigest (by decide +kernel)
  have hkey : bucketKey "assets/app.15c42ab7.css" =
      Assets.hashedKey Assets.demoDigest (Utf16.encode "app.css".toList) (.buffer [97]) := by
    decide +kernel
  have hasks : Asks "GET" (some "/assets/app.15c42ab7.css?v=2") "assets/app.15c42ab7.css" :=
    ⟨"/assets/app.15c42ab7.css".toList, by decide +kernel, by decide +kernel, by decide +kernel⟩
  exact ⟨s, hrun, published_url_serves_body ⟨rfl, rfl, fun _ => rfl⟩ hone
    (fun o ho => by cases ho) hkey hrun hr hasks⟩

end Marketplace.Cdn
