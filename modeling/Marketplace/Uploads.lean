import Marketplace.Offers

/-!
# Uploading in parts, and dying of it

The clients of `client-mpu.ts` over the file service. One starts an upload and may be killed
after any part; another asks what is missing and puts that. A client can die at any moment, and
then a body may still be under way: S3 may get it long after, or never.

Nobody but these clients puts parts. So every part is put with its planned length, and what is
stored stays good whoever dies: an upload that was broken anywhere goes on where it stopped.
-/

namespace Marketplace.Uploads

/-! ## Clients -/

/-- Where a client is. -/
inductive ClientPc where
  /-- it waits for the answer of its call -/
  | waits
  /-- a part is being put, and then the others; whether S3 has answered, and with 200 -/
  | puts (part : PartInfo) (answer : Option Bool) (todo : List PartInfo)
  /-- the process has ended, with exit code 0 or not; a body may still be under way -/
  | ended (ok : Bool) (left : Option PartInfo)
  deriving DecidableEq

/-- A process of `client-mpu.ts`. -/
structure Client where
  /-- its call of the service -/
  call : ℕ
  /-- `start`: it kills itself after this part or a later one -/
  dieAfter : Option ℤ
  pc : ClientPc
  deriving DecidableEq

/-- The head of the loop over the parts. -/
def ClientPc.loop : List PartInfo → ClientPc
  | [] => .ended true none
  | part :: todo => .puts part none todo

/-- What comes after the answer to a part. -/
def ClientPc.next (dieAfter : Option ℤ) (part : PartInfo) (todo : List PartInfo) : Bool → ClientPc
  | false => .ended false none
  | true =>
    if dieAfter.any fun n => n ≤ (part.partNumber : ℤ) then .ended false none else .loop todo

/-- What an answer offers to put: `d.multipart.parts` of `start`, `d.missing` of `resume`. Any
other answer makes the client throw. -/
def answer : FileCall → Option (Option (List PartInfo))
  | .intent _ _ _ (.ended (.described d)) =>
    match d.plan with
    | .multipart _ _ _ parts => some (some parts)
    | .put _ _ => some none
  | .parts _ _ (.ended (.listed v)) => some (some v.missing)
  | .intent _ _ _ (.ended _) | .parts _ _ (.ended _) => some none
  | _ => none

/-- The body of `start`. -/
def startBody (size : ℤ) : IntentBody := ⟨"big.bin", "application/octet-stream", size⟩

/-- The service and the clients. -/
structure State where
  service : FileService
  clients : ℕ → Option Client

/-- What can happen. -/
inductive Event where
  /-- something happens to the service, but no part is put -/
  | service (a : FileEvent)
  | start (c i : ℕ) (user : AuthUser) (size : ℤ) (dieAfter : Option ℤ)
  | resume (c i : ℕ) (user : AuthUser) (id : String)
  /-- client `c` has the answer of its call -/
  | answer (c : ℕ)
  /-- S3 gets the body that client `c` has sent -/
  | deliver (c : ℕ) (etag : String)
  /-- client `c` has the answer of S3 -/
  | next (c : ℕ)
  /-- client `c` is killed, or an error or its timeout ends it -/
  | die (c : ℕ)

/-- A body is put as a part. -/
def putsPart : FileEvent → Bool
  | .put ⟨.part _ _ _, _⟩ _ _ => true
  | _ => false

/-- S3 takes a body that comes through this URL: the upload is active. -/
def accepts (s : FileService) : UrlTarget → Bool
  | .part key u _ => (s.s3.find key u).isSome
  | .put _ _ => true

namespace State

/-- Client `c` is now this one. -/
def setClient (s : State) (c : ℕ) (x : Client) : State :=
  { s with clients := Function.update s.clients c (some x) }

/-- A new client calls the service. -/
def begins (rt : FileRuntime) (s : State) (c i : ℕ) (dieAfter : Option ℤ) (a : FileEvent) :
    Option State :=
  match s.clients c with
  | none => (s.service.step rt a).map fun service =>
      ({ s with service } : State).setClient c ⟨i, dieAfter, .waits⟩
  | some _ => none

/-- S3 gets the body of a part: `putPart`. -/
def put (rt : FileRuntime) (s : State) (part : PartInfo) (etag : String) : Option State :=
  (s.service.step rt (.put part.url part.length.toNat etag)).map fun service => { s with service }

/-- One event. -/
def step (rt : FileRuntime) (s : State) : Event → Option State
  | .service a =>
    if putsPart a then none else (s.service.step rt a).map fun service => { s with service }
  | .start c i user size dieAfter =>
    s.begins rt c i dieAfter (.intent i user (startBody size) none)
  | .resume c i user id => s.begins rt c i none (.parts i user id)
  | .answer c =>
    match s.clients c with
    | some ⟨i, dieAfter, .waits⟩ =>
      match (s.service.calls i).bind Uploads.answer with
      | none => none
      | some none => some (s.setClient c ⟨i, dieAfter, .ended false none⟩)
      | some (some parts) => some (s.setClient c ⟨i, dieAfter, .loop parts⟩)
    | _ => none
  | .deliver c etag =>
    match s.clients c with
    | some ⟨i, dieAfter, .puts part none todo⟩ =>
      (s.put rt part etag).map fun s' => s'.setClient c
        ⟨i, dieAfter, .puts part (some (accepts s.service part.url.target)) todo⟩
    | some ⟨i, dieAfter, .ended ok (some part)⟩ =>
      (s.put rt part etag).map fun s' => s'.setClient c ⟨i, dieAfter, .ended ok none⟩
    | _ => none
  | .next c =>
    match s.clients c with
    | some ⟨i, dieAfter, .puts part (some ok) todo⟩ =>
      some (s.setClient c ⟨i, dieAfter, .next dieAfter part todo ok⟩)
    | _ => none
  | .die c =>
    match s.clients c with
    | some ⟨i, dieAfter, .waits⟩ => some (s.setClient c ⟨i, dieAfter, .ended false none⟩)
    | some ⟨i, dieAfter, .puts part none _⟩ =>
      some (s.setClient c ⟨i, dieAfter, .ended false (some part)⟩)
    | some ⟨i, dieAfter, .puts _ (some _) _⟩ =>
      some (s.setClient c ⟨i, dieAfter, .ended false none⟩)
    | _ => none

/-- Before the first client. -/
structure Start (s : State) : Prop where
  service : s.service.Start
  clients : ∀ c, s.clients c = none

end State

/-- The service with the clients. -/
def uploads (rt : FileRuntime) : System State Event := ⟨State.Start, State.step rt⟩

/-! ## Steps -/

variable {rt : FileRuntime} {s s' t : State} {e : Event}

/-- The bodies that a client may still send. -/
def ClientPc.hands : ClientPc → List PartInfo
  | .waits => []
  | .puts part _ todo => part :: todo
  | .ended _ left => left.toList

/-- How a client goes on by itself. -/
inductive Goes (s : FileService) (x : Client) : ClientPc → Prop
  | offered {parts : List PartInfo} (hpc : x.pc = .waits)
      (hanswer : (s.calls x.call).bind answer = some (some parts)) : Goes s x (.loop parts)
  | next {part : PartInfo} {todo : List PartInfo} (hpc : x.pc = .puts part (some true) todo) :
      Goes s x (.loop todo)
  | dies {left : Option PartInfo} (hleft : ∀ part ∈ left, part ∈ x.pc.hands) :
      Goes s x (.ended false left)

/-- What the delivery of a part is to its client. -/
inductive Delivered (s : FileService) (part : PartInfo) : ClientPc → ClientPc → Prop
  | part {todo : List PartInfo} : Delivered s part (.puts part none todo)
      (.puts part (some (accepts s part.url.target)) todo)
  | late {ok : Bool} : Delivered s part (.ended ok (some part)) (.ended ok none)

/-- An event is one of the service, begins a client, moves one on, or delivers a part. -/
inductive Stepped (rt : FileRuntime) (s : State) : State → Prop
  | other {a : FileEvent} {service : FileService} (ha : putsPart a = false)
      (hs : s.service.step rt a = some service) : Stepped rt s { s with service }
  | began {a : FileEvent} {service : FileService} {c i : ℕ} {dieAfter : Option ℤ}
      (hfree : s.clients c = none) (ha : putsPart a = false) (hcall : s.service.calls i = none)
      (hs : s.service.step rt a = some service) :
      Stepped rt s (({ s with service } : State).setClient c ⟨i, dieAfter, .waits⟩)
  | moved {c : ℕ} {x : Client} {pc : ClientPc} (hx : s.clients c = some x)
      (hgoes : Goes s.service x pc) : Stepped rt s (s.setClient c { x with pc })
  | delivered {c : ℕ} {x : Client} {pc : ClientPc} {part : PartInfo} {etag : String}
      {service : FileService} (hx : s.clients c = some x)
      (hpart : Delivered s.service part x.pc pc)
      (hs : s.service.step rt (.put part.url part.length.toNat etag) = some service) :
      Stepped rt s (({ s with service } : State).setClient c { x with pc })

theorem stepped_of_begins {c i : ℕ} {dieAfter : Option ℤ} {a : FileEvent}
    (ha : putsPart a = false) (hcall : ∀ service, s.service.step rt a = some service →
      s.service.calls i = none) (hs : s.begins rt c i dieAfter a = some s') :
    Stepped rt s s' := by
  unfold State.begins at hs
  split at hs
  · rename_i hfree
    obtain ⟨service, hservice, rfl⟩ := Option.map_eq_some_iff.mp hs
    exact .began hfree ha (hcall service hservice) hservice
  · cases hs

/-- **Inversion of a step.** -/
theorem stepped (hs : s.step rt e = some s') : Stepped rt s s' := by
  cases e with
  | service a =>
    simp only [State.step] at hs
    split_ifs at hs with ha
    obtain ⟨service, hservice, rfl⟩ := Option.map_eq_some_iff.mp hs
    exact .other (Bool.not_eq_true _ ▸ ha) hservice
  | start c i user size dieAfter =>
    refine stepped_of_begins rfl (fun service h => ?_) hs
    have hbegin : s.service.begin i (.intent user (startBody size) none (.running .begin)) =
      some service := h
    exact (FileService.begin_eq_some hbegin).1
  | resume c i user id =>
    refine stepped_of_begins rfl (fun service h => ?_) hs
    have hbegin : s.service.begin i (.parts user id (.running .select)) = some service := h
    exact (FileService.begin_eq_some hbegin).1
  | answer c =>
    simp only [State.step] at hs
    split at hs
    · rename_i i dieAfter hx
      split at hs
      · cases hs
      · obtain rfl := Option.some.inj hs
        exact .moved hx (.dies fun part hpart => by cases hpart)
      · rename_i parts hanswer
        obtain rfl := Option.some.inj hs
        exact .moved hx (.offered rfl hanswer)
    · cases hs
  | deliver c etag =>
    simp only [State.step] at hs
    split at hs
    · rename_i i dieAfter part todo hx
      obtain ⟨s₁, hput, rfl⟩ := Option.map_eq_some_iff.mp hs
      obtain ⟨service, hservice, rfl⟩ := Option.map_eq_some_iff.mp hput
      exact .delivered hx .part hservice
    · rename_i i dieAfter ok part hx
      obtain ⟨s₁, hput, rfl⟩ := Option.map_eq_some_iff.mp hs
      obtain ⟨service, hservice, rfl⟩ := Option.map_eq_some_iff.mp hput
      exact .delivered hx .late hservice
    · cases hs
  | next c =>
    simp only [State.step] at hs
    split at hs
    · rename_i i dieAfter part ok todo hx
      obtain rfl := Option.some.inj hs
      have hdies : Goes s.service ⟨i, dieAfter, .puts part (some ok) todo⟩ (.ended false none) :=
        .dies fun part hpart => by cases hpart
      cases ok with
      | false => exact .moved hx hdies
      | true =>
        refine .moved hx ?_
        unfold ClientPc.next
        split_ifs
        · exact hdies
        · exact .next rfl
    · cases hs
  | die c =>
    simp only [State.step] at hs
    split at hs
    · rename_i i dieAfter hx
      obtain rfl := Option.some.inj hs
      exact .moved hx (.dies fun part hpart => by cases hpart)
    · rename_i i dieAfter part todo hx
      obtain rfl := Option.some.inj hs
      refine .moved hx (.dies fun part' hpart => ?_)
      obtain rfl := Option.mem_some.mp hpart
      exact List.mem_cons_self ..
    · rename_i i dieAfter part ok todo hx
      obtain rfl := Option.some.inj hs
      exact .moved hx (.dies fun part hpart => by cases hpart)
    · cases hs

/-! ## What is put fits -/

/-- A body that comes through the URL of a part has the length planned for it. -/
def Fits (files : List FileRow) : FileEvent → Prop
  | .put url length _ => ∀ key u n, url.target = .part key u n →
    ∃ row partSize, InParts files row u partSize ∧ (length : ℤ) = partLength row.size partSize n
  | _ => True

theorem Fits.grows {service service' : FileService} {a : FileEvent} (h : Fits service.files a)
    (hg : service.Grows service') : Fits service'.files a := by
  cases a with
  | put url length etag =>
    intro key u n htarget
    obtain ⟨row, partSize, hrow, hlength⟩ := h key u n htarget
    exact ⟨row, partSize, hrow.grows hg, hlength⟩
  | _ => trivial

theorem fits_of_not {files : List FileRow} {a : FileEvent} (ha : putsPart a = false) :
    Fits files a := by
  cases a with
  | put url length etag =>
    obtain ⟨target, expires⟩ := url
    rintro key u n rfl
    cases ha
  | _ => trivial

/-- An upload is one file's. -/
theorem inParts_same {service : FileService} {row row' : FileRow} {u : UploadId} {p p' : ℕ}
    (hinv : service.StoreInv) (h : InParts service.files row u p)
    (h' : InParts service.files row' u p') :
    row'.id = row.id ∧ row'.key = row.key ∧ row'.size = row.size ∧ p' = p := by
  obtain ⟨r, hr, hsame⟩ := h.known
  obtain ⟨r', hr', hsame'⟩ := h'.known
  obtain ⟨x, hx, hkey⟩ := hinv.uploads r hr u (hsame.uploadId.symm.trans h.upload)
  obtain ⟨x', hx', hkey'⟩ := hinv.uploads r' hr' u (hsame'.uploadId.symm.trans h'.upload)
  obtain rfl := Option.some.inj (hx.symm.trans hx')
  obtain rfl : r' = r := List.inj_on_of_nodup_map hinv.keys hr' hr (hkey'.symm.trans hkey)
  have hsize : row'.size = row.size := hsame'.size.trans hsame.size.symm
  have hp := h'.size
  rw [hsize, h.size] at hp
  exact ⟨hsame'.id.trans hsame.id.symm, hsame'.key.trans hsame.key.symm, hsize,
    (Option.some.inj hp).symm⟩

theorem Fits.planned {service : FileService} {a : FileEvent} {row : FileRow} {u : UploadId}
    {partSize : ℕ} (h : Fits service.files a) (hinv : service.StoreInv)
    (hrow : InParts service.files row u partSize) : PlannedPut row.size partSize u a := by
  cases a with
  | put url length etag =>
    intro key n htarget
    obtain ⟨row', partSize', hrow', hlength⟩ := h key u n htarget
    obtain ⟨-, -, hsize, rfl⟩ := inParts_same hinv hrow hrow'
    rw [← hsize]
    exact hlength
  | _ => trivial

/-- A planned part is not empty. -/
theorem partLength_pos {size partSize n : ℕ} (hmax : size ≤ maxObject)
    (hsize : computePartSize size = some partSize) (hn : n ∈ partNumbers size partSize) :
    0 < partLength size partSize n := by
  obtain ⟨p, hp, hmin, -⟩ := computePartSize_spec hmax
  obtain rfl := Option.some.inj (hsize.symm.trans hp)
  have hpos : 0 < partSize := lt_of_lt_of_le (by decide) hmin
  obtain ⟨h1, hcount⟩ := mem_partNumbers.mp hn
  have hlt : (n - 1) * partSize < size := by
    rw [partCount] at hcount
    exact (lt_ceilDiv_iff hpos).mp (by omega)
  have hcast : ((n : ℤ) - 1) * partSize < size := by
    have h : (((n - 1 : ℕ) : ℤ)) * partSize < size := by exact_mod_cast hlt
    rwa [Nat.cast_sub h1, Nat.cast_one] at h
  rw [partLength]
  exact lt_min (by exact_mod_cast hpos) (by linarith)

/-- The parts in the hands of the clients are those of plans, and the service has been reached
by putting such. -/
structure Inv (rt : FileRuntime) (s : State) : Prop where
  reached : ∃ s₀ as, FileService.Start s₀ ∧ (fileServices rt).run s₀ as = some s.service ∧
    ∀ a ∈ as, Fits s.service.files a
  hands : ∀ c x, s.clients c = some x → ∀ part ∈ x.pc.hands, ∃ row u partSize,
    InParts s.service.files row u partSize ∧ Offered row u partSize part

theorem State.Start.inv (h : s.Start) : Inv rt s where
  reached := ⟨s.service, [], h.service, rfl, fun _ ha => absurd ha List.not_mem_nil⟩
  hands := by
    intro c x hx
    rw [h.clients c] at hx
    cases hx

/-- What is known of the service. -/
theorem Inv.service (h : Inv rt s) :
    s.service.Inv ∧ s.service.Planned ∧ ∀ i, s.service.OffersInv (s.service.calls i) := by
  obtain ⟨s₀, as, hstart, hrun, -⟩ := h.reached
  obtain ⟨hinv, hplan, -⟩ := knows_run hstart hrun
  exact ⟨hinv, hplan, offers_run hstart hrun⟩

/-- An event of the service that fits. -/
theorem Inv.serviceStep (h : Inv rt s) {a : FileEvent} {service : FileService}
    (hs : s.service.step rt a = some service) (hfits : Fits s.service.files a) :
    s.service.Grows service ∧ Fits service.files a ∧ Inv rt { s with service } := by
  obtain ⟨hinv, -, -⟩ := h.service
  have hgrows := (hinv.stepped hs).grows
  refine ⟨hgrows, hfits.grows hgrows, ?_, fun c x hx part hpart => ?_⟩
  · obtain ⟨s₀, as, hstart, hrun, has⟩ := h.reached
    refine ⟨s₀, as ++ [a], hstart, System.run_snoc hrun hs, fun b hb => ?_⟩
    rcases List.mem_append.mp hb with hb | hb
    · exact (has b hb).grows hgrows
    · obtain rfl := List.mem_singleton.mp hb
      exact hfits.grows hgrows
  · obtain ⟨row, u, partSize, hrow, hoffered⟩ := h.hands c x hx part hpart
    exact ⟨row, u, partSize, hrow.grows hgrows, hoffered⟩

/-- What an answer offers is offered as planned. -/
theorem offered_answer {service : FileService} {c : FileCall} {parts : List PartInfo}
    (h : service.OffersInv (some c)) (hanswer : answer c = some (some parts)) :
    ∃ row u partSize, InParts service.files row u partSize ∧
      ∀ part ∈ parts, Offered row u partSize part := by
  rcases c with ⟨user, body, key, pc | o⟩ | ⟨user, id, pc | o⟩ | ⟨user, id, pc | o⟩
  · cases hanswer
  · cases o with
    | described d =>
      rcases hplan : d.plan with ⟨url, contentType⟩ | ⟨u, partSize, count, parts'⟩
      · simp [answer, hplan] at hanswer
      · simp only [answer, hplan, Option.some.injEq] at hanswer
        subst hanswer
        obtain ⟨row, hrow, -, -, hoffered⟩ := h u partSize count parts' hplan
        exact ⟨row, u, partSize, hrow, hoffered⟩
    | _ => cases hanswer
  · cases hanswer
  · cases o with
    | listed v =>
      obtain rfl := Option.some.inj (Option.some.inj hanswer)
      obtain ⟨row, u, hrow, -, hoffered⟩ := h
      exact ⟨row, u, v.partSize, hrow, hoffered⟩
    | _ => cases hanswer
  · cases hanswer
  · cases hanswer

theorem hands_loop (parts : List PartInfo) : (ClientPc.loop parts).hands = parts := by
  cases parts with
  | nil => rfl
  | cons part todo => rfl

/-- What a client may still send after it has gone on. -/
theorem Goes.hands {service : FileService} {x : Client} {pc : ClientPc} (h : Goes service x pc)
    {part : PartInfo} (hpart : part ∈ pc.hands) : part ∈ x.pc.hands ∨
      ∃ parts, part ∈ parts ∧ (service.calls x.call).bind answer = some (some parts) := by
  cases h with
  | offered hpc hanswer =>
    rw [hands_loop] at hpart
    exact .inr ⟨_, hpart, hanswer⟩
  | next hpc =>
    rw [hands_loop] at hpart
    rw [hpc]
    exact .inl (List.mem_cons_of_mem _ hpart)
  | dies hleft => exact .inl (hleft part (Option.mem_toList.mp hpart))

/-- What is delivered was in the hands of its client, who keeps no more than before. -/
theorem Delivered.hands {service : FileService} {part : PartInfo} {pc pc' : ClientPc}
    (h : Delivered service part pc pc') :
    part ∈ pc.hands ∧ ∀ part' ∈ pc'.hands, part' ∈ pc.hands := by
  cases h with
  | part => exact ⟨List.mem_cons_self .., fun _ h => h⟩
  | late => exact ⟨List.mem_singleton_self _, fun _ h => absurd h List.not_mem_nil⟩

/-- The body of an offered part fits. -/
theorem Inv.fits (h : Inv rt s) {c : ℕ} {x : Client} (hx : s.clients c = some x)
    {part : PartInfo} (hpart : part ∈ x.pc.hands) (etag : String) :
    Fits s.service.files (.put part.url part.length.toNat etag) := by
  obtain ⟨-, hplan, -⟩ := h.service
  obtain ⟨row, u, partSize, hrow, hoffered⟩ := h.hands c x hx part hpart
  intro key u' n htarget
  obtain ⟨rfl, rfl, rfl⟩ := UrlTarget.part.inj (hoffered.target.symm.trans htarget)
  refine ⟨row, partSize, hrow, ?_⟩
  obtain ⟨r, hr, hsame⟩ := hrow.known
  have hpos : 0 < partLength row.size partSize part.partNumber := by
    refine partLength_pos ?_ hrow.size hoffered.number
    rw [hsame.size]
    exact (hplan.sizes r hr).2
  rw [hoffered.length, Int.toNat_of_nonneg hpos.le]

/-- The clients after one of them has changed. -/
theorem Inv.setClient (h : Inv rt s) {c : ℕ} {x : Client}
    (hhands : ∀ part ∈ x.pc.hands, ∃ row u partSize,
      InParts s.service.files row u partSize ∧ Offered row u partSize part) :
    Inv rt (s.setClient c x) := by
  refine ⟨h.reached, fun c' x' hx' => ?_⟩
  rcases Slots.found_cases_some hx' with ⟨rfl, rfl⟩ | ⟨-, hold⟩
  · exact hhands
  · exact h.hands c' x' hold

/-- **Every step keeps the invariant**, and is nothing or an event that fits to the service. -/
theorem Inv.step (h : Inv rt s) (hs : Stepped rt s s') : Inv rt s' ∧
    (s'.service = s.service ∨
      ∃ a, s.service.step rt a = some s'.service ∧ Fits s'.service.files a) := by
  cases hs with
  | other ha hservice =>
    obtain ⟨-, hfits, hinv⟩ := h.serviceStep hservice (fits_of_not ha)
    exact ⟨hinv, .inr ⟨_, hservice, hfits⟩⟩
  | began hfree ha hcall hservice =>
    obtain ⟨-, hfits, hinv⟩ := h.serviceStep hservice (fits_of_not ha)
    exact ⟨hinv.setClient fun part hpart => absurd hpart List.not_mem_nil,
      .inr ⟨_, hservice, hfits⟩⟩
  | moved hx hgoes =>
    rename_i c x pc
    refine ⟨h.setClient fun part hpart => ?_, .inl rfl⟩
    rcases hgoes.hands hpart with hpart | ⟨parts, hpart, hanswer⟩
    · exact h.hands c x hx part hpart
    · obtain ⟨-, -, hoffers⟩ := h.service
      obtain ⟨call, hcall, hanswer⟩ := Option.bind_eq_some_iff.mp hanswer
      have hself := hoffers x.call
      rw [hcall] at hself
      obtain ⟨row, u, partSize, hrow, hoffered⟩ := offered_answer hself hanswer
      exact ⟨row, u, partSize, hrow, hoffered part hpart⟩
  | delivered hx hpart hservice =>
    rename_i c x pc part etag service
    obtain ⟨hmem, hkeeps⟩ := hpart.hands
    obtain ⟨-, hfits, hinv⟩ := h.serviceStep hservice (h.fits hx hmem etag)
    exact ⟨hinv.setClient fun part' hpart' => hinv.hands c x hx part' (hkeeps part' hpart'),
      .inr ⟨_, hservice, hfits⟩⟩

/-- What a run of the clients is to the service. -/
theorem service_run (h : Inv rt s) {bs : List Event} (hrun : (uploads rt).run s bs = some t) :
    Inv rt t ∧ ∃ as, (fileServices rt).run s.service as = some t.service ∧
      ∀ a ∈ as, Fits t.service.files a := by
  refine System.run_induction (M := uploads rt) (J := fun _ t => Inv rt t ∧ ∃ as,
    (fileServices rt).run s.service as = some t.service ∧ ∀ a ∈ as, Fits t.service.files a)
    ⟨h, [], rfl, fun _ ha => absurd ha List.not_mem_nil⟩ ?_ hrun
  rintro bs t e t' - ⟨hinv, as, has, hfits⟩ hs
  obtain ⟨hinv', hsame | ⟨a, hstep, ha⟩⟩ := hinv.step (stepped hs)
  · exact ⟨hinv', as, hsame ▸ has, hsame ▸ hfits⟩
  · refine ⟨hinv', as ++ [a], System.run_snoc has hstep, fun b hb => ?_⟩
    rcases List.mem_append.mp hb with hb | hb
    · exact (hfits b hb).grows (hinv.service.1.stepped hstep).grows
    · obtain rfl := List.mem_singleton.mp hb
      exact ha

/-! ## What is stored stays so -/

section Stored

variable {service₀ service service' : FileService} {as bs : List FileEvent} {i n : ℕ}
  {row : FileRow} {u : UploadId} {partSize : ℕ} {length : Option ℕ}

theorem inParts_run (hinv : service.Inv) (hrun : (fileServices rt).run service bs = some service')
    (h : InParts service.files row u partSize) : InParts service'.files row u partSize := by
  obtain ⟨r, hr, hsame⟩ := h.known
  obtain ⟨r', hr', hsame'⟩ := known_run hinv (known_of_mem hr) hrun
  exact ⟨⟨r', hr', hsame'.trans hsame⟩, h.upload, h.size⟩

/-- A settled part stays so while what is put fits. -/
theorem settled_later (hstart : service₀.Start)
    (hbefore : (fileServices rt).run service₀ as = some service)
    (hrun : (fileServices rt).run service bs = some service')
    (hfits : ∀ a ∈ bs, Fits service'.files a) (hrow : InParts service'.files row u partSize)
    (h : Settled row.size partSize u n service) : Settled row.size partSize u n service' := by
  have hinv : service'.Inv :=
    fileServices_invariant.run (fileServices_invariant.run hstart.inv hbefore) hrun
  exact h.run hstart hbefore hrun fun a ha => (hfits a ha).planned hinv.stores hrow

/-- What was stored as planned at some moment of a listing is so now. -/
theorem settled_of_saw (hstart : service₀.Start)
    (hrun : (fileServices rt).run service₀ as = some service)
    (hfits : ∀ a ∈ as, Fits service.files a) (hrow : InParts service.files row u partSize)
    (hsaw : SawLength rt service₀ as i u n length)
    (h : asPlanned row.size partSize (fun _ => length) n = true) :
    Settled row.size partSize u n service := by
  obtain ⟨as₁, as₂, t, rfl, ht, -, -, hlength⟩ := hsaw
  obtain ⟨t', ht', hrest⟩ := System.run_append_eq_some hrun
  obtain rfl := Option.some.inj (ht.symm.trans ht')
  have hthen : Settled row.size partSize u n t := by
    rw [Settled, asPlanned, hlength]
    exact h
  exact settled_later hstart ht hrest (fun a ha => hfits a (List.mem_append_right _ ha)) hrow hthen

/-- What is settled before a call is read as planned by it. -/
theorem planned_of_saw (hstart : service₀.Start)
    (hbefore : (fileServices rt).run service₀ as = some service)
    (hrun : (fileServices rt).run service bs = some service')
    (hfits : ∀ a ∈ bs, Fits service'.files a) (hrow : InParts service'.files row u partSize)
    (h : Settled row.size partSize u n service) (hfree : service.calls i = none)
    (hsaw : SawLength rt service₀ (as ++ bs) i u n length) :
    asPlanned row.size partSize (fun _ => length) n = true := by
  have hinv : service'.Inv :=
    fileServices_invariant.run (fileServices_invariant.run hstart.inv hbefore) hrun
  obtain ⟨bs₁, bs₂, t, rfl, ht, -, hlength⟩ := hsaw.after hstart.inv hbefore hfree
  have hthen := h.run hstart hbefore ht fun a ha =>
    (hfits a (List.mem_append_left _ ha)).planned hinv.stores hrow
  rw [Settled, asPlanned, hlength] at hthen
  exact hthen

end Stored

/-- **A settled part stays so, whatever the clients do.** -/
theorem settled_run (h : Inv rt s) {bs : List Event} (hrun : (uploads rt).run s bs = some t)
    {row : FileRow} {u : UploadId} {partSize n : ℕ} (hrow : InParts s.service.files row u partSize)
    (hsettled : Settled row.size partSize u n s.service) :
    Settled row.size partSize u n t.service := by
  obtain ⟨s₀, as₀, hstart, hbefore, -⟩ := h.reached
  obtain ⟨-, as, has, hfits⟩ := service_run h hrun
  exact settled_later hstart hbefore has hfits (inParts_run h.service.1 has hrow) hsettled

/-! ## A client that is done -/

/-- The part is stored with its planned length. -/
def Done (service : FileService) (part : PartInfo) : Prop :=
  ∃ row u partSize, InParts service.files row u partSize ∧ Offered row u partSize part ∧
    Settled row.size partSize u part.partNumber service

/-- How far a client has come with what its call has offered. -/
structure Progress (service : FileService) (x : Client) : Prop where
  given : ∀ part ∈ x.pc.hands, ∃ parts, part ∈ parts ∧
    (service.calls x.call).bind answer = some (some parts)
  puts : ∀ part answered todo, x.pc = .puts part answered todo → ∃ done,
    (service.calls x.call).bind answer = some (some (done ++ part :: todo)) ∧
      (∀ m ∈ done, Done service m) ∧ (answered = some true → Done service part)
  ended : ∀ left, x.pc = .ended true left → ∃ parts,
    (service.calls x.call).bind answer = some (some parts) ∧ ∀ m ∈ parts, Done service m

/-- A call that has answered stays as it is. -/
theorem calls_of_answer {service service' : FileService} {a : FileEvent} {i : ℕ}
    {o : Option (List PartInfo)} (hinv : service.Inv) (hs : service.step rt a = some service')
    (h : (service.calls i).bind answer = some o) : service'.calls i = service.calls i := by
  obtain ⟨c, hc, hanswer⟩ := Option.bind_eq_some_iff.mp h
  have hended : (∀ d, service.exec rt i d c = none) ∧ service.fails i c = none ∧
      service.crashes i c = none := by
    rcases c with ⟨user, body, key, pc | o⟩ | ⟨user, id, pc | o⟩ | ⟨user, id, pc | o⟩
    · cases hanswer
    · exact ⟨fun _ => rfl, rfl, rfl⟩
    · cases hanswer
    · exact ⟨fun _ => rfl, rfl, rfl⟩
    · cases hanswer
    · cases hanswer
  by_cases ha : a.call = some i
  · exfalso
    have hbegin : ∀ c', service.begin i c' = some service' → False := by
      intro c' hbegin
      obtain ⟨hnone, -⟩ := FileService.begin_eq_some hbegin
      rw [hc] at hnone
      cases hnone
    cases a with
    | intent j user body key | parts j user id | commit j user id =>
      obtain rfl := Option.some.inj ha
      exact hbegin _ hs
    | exec j d =>
      obtain rfl := Option.some.inj ha
      simp only [FileService.step, hc, Option.bind_some, hended.1] at hs
      cases hs
    | fail j =>
      obtain rfl := Option.some.inj ha
      simp only [FileService.step, hc, Option.bind_some, hended.2.1] at hs
      cases hs
    | loseAnswer j d =>
      obtain rfl := Option.some.inj ha
      simp only [FileService.step, hc, Option.bind_some, hended.1, Option.bind_none] at hs
      cases hs
    | crash j =>
      obtain rfl := Option.some.inj ha
      simp only [FileService.step, hc, Option.bind_some, hended.2.2] at hs
      cases hs
    | put | tick => cases ha
  · exact (hinv.stepped hs).calls_ne ha

section Progress

variable {service' : FileService} {a : FileEvent} {x : Client} {part : PartInfo}

theorem Done.later (h : Done s.service part) (hinv : Inv rt s)
    (hs : s.service.step rt a = some service') (hfits : Fits service'.files a) :
    Done service' part := by
  obtain ⟨row, u, partSize, hrow, hoffered, hsettled⟩ := h
  obtain ⟨hservice, hplan, -⟩ := hinv.service
  have hstep := hservice.stepped hs
  have hrow' := hrow.grows hstep.grows
  exact ⟨row, u, partSize, hrow', hoffered,
    hsettled.step hplan hstep (hfits.planned (hstep.inv hservice).stores hrow')⟩

theorem Progress.later (h : Progress s.service x) (hinv : Inv rt s)
    (hs : s.service.step rt a = some service') (hfits : Fits service'.files a) :
    Progress service' x := by
  have hsame : ∀ {parts}, (s.service.calls x.call).bind answer = some (some parts) →
      (service'.calls x.call).bind answer = some (some parts) := by
    intro parts hanswer
    rw [calls_of_answer hinv.service.1 hs hanswer]
    exact hanswer
  refine ⟨fun part hpart => ?_, fun part answered todo hpc => ?_, fun left hpc => ?_⟩
  · obtain ⟨parts, hmem, hanswer⟩ := h.given part hpart
    exact ⟨parts, hmem, hsame hanswer⟩
  · obtain ⟨done, hanswer, hdone, hpart⟩ := h.puts part answered todo hpc
    exact ⟨done, hsame hanswer, fun m hm => (hdone m hm).later hinv hs hfits,
      fun hyes => (hpart hyes).later hinv hs hfits⟩
  · obtain ⟨parts, hanswer, hdone⟩ := h.ended left hpc
    exact ⟨parts, hsame hanswer, fun m hm => (hdone m hm).later hinv hs hfits⟩

/-- The loop goes on after what is done. -/
theorem progress_loop {service : FileService} {done todo : List PartInfo}
    (hanswer : (service.calls x.call).bind answer = some (some (done ++ todo)))
    (hdone : ∀ m ∈ done, Done service m) : Progress service { x with pc := .loop todo } := by
  refine ⟨fun part hpart => ?_, fun part answered todo' hpc => ?_, fun left hpc => ?_⟩
  · rw [hands_loop] at hpart
    exact ⟨_, List.mem_append_right _ hpart, hanswer⟩
  · cases todo with
    | nil => cases hpc
    | cons next todo =>
      obtain ⟨rfl, rfl, rfl⟩ := ClientPc.puts.inj hpc
      exact ⟨done, hanswer, hdone, fun heq => by cases heq⟩
  · cases todo with
    | nil =>
      rw [List.append_nil] at hanswer
      exact ⟨done, hanswer, hdone⟩
    | cons next todo => cases hpc

/-- A client that goes on by itself. -/
theorem Progress.goes {service : FileService} {pc : ClientPc} (h : Progress service x)
    (hgoes : Goes service x pc) : Progress service { x with pc } := by
  cases hgoes with
  | offered hpc hanswer =>
    rename_i parts
    have hanswer : (service.calls x.call).bind answer = some (some ([] ++ parts)) := hanswer
    exact progress_loop hanswer fun m hm => absurd hm List.not_mem_nil
  | next hpc =>
    rename_i part todo
    obtain ⟨done, hanswer, hdone, hpart⟩ := h.puts _ _ _ hpc
    have hanswer : (service.calls x.call).bind answer = some (some ((done ++ [part]) ++ todo)) := by
      rw [List.append_assoc]
      exact hanswer
    refine progress_loop hanswer fun m hm => ?_
    rcases List.mem_append.mp hm with hm | hm
    · exact hdone m hm
    · obtain rfl := List.mem_singleton.mp hm
      exact hpart rfl
  | dies hleft =>
    refine ⟨fun part hpart => ?_, fun _ _ _ hpc => (by cases hpc),
      fun _ hpc => (by cases hpc)⟩
    exact h.given part (hleft part (Option.mem_toList.mp hpart))

/-- A part that S3 has taken is done. -/
theorem done_of_accepts (hinv : Inv rt s) {c : ℕ} (hx : s.clients c = some x)
    (hpart : part ∈ x.pc.hands) {etag : String}
    (hs : s.service.step rt (.put part.url part.length.toNat etag) = some service')
    (haccepts : accepts s.service part.url.target = true) : Done service' part := by
  obtain ⟨row, u, partSize, hrow, hoffered⟩ := hinv.hands c x hx part hpart
  obtain ⟨hservice, hplan, -⟩ := hinv.service
  have hgrows := (hservice.stepped hs).grows
  refine ⟨row, u, partSize, hrow.grows hgrows, hoffered, ?_⟩
  rw [hoffered.target, accepts] at haccepts
  have hputs : PutsPart u part.partNumber (.put part.url part.length.toNat etag) :=
    ⟨row.key, hoffered.target⟩
  have hstep : (fileServices rt).step s.service (.put part.url part.length.toNat etag) =
    some service' := hs
  refine settled_of_put hservice hplan hputs
    ((hinv.fits hx hpart etag).planned hservice.stores hrow) ?_ hstep
  intro hover
  rw [hover.find] at haccepts
  cases haccepts

/-- The client of a delivered part. -/
theorem Progress.delivered (h : Progress s.service x) (hinv : Inv rt s) {c : ℕ}
    (hx : s.clients c = some x) {pc : ClientPc} (hpart : Delivered s.service part x.pc pc)
    {etag : String}
    (hs : s.service.step rt (.put part.url part.length.toNat etag) = some service') :
    Progress service' { x with pc } := by
  obtain ⟨hmem, hkeeps⟩ := hpart.hands
  have hfits := (hinv.fits hx hmem etag).grows (hinv.service.1.stepped hs).grows
  have hlater := h.later hinv hs hfits
  have hgiven : ∀ m ∈ pc.hands, ∃ parts, m ∈ parts ∧
      (service'.calls x.call).bind answer = some (some parts) :=
    fun m hm => hlater.given m (hkeeps m hm)
  obtain ⟨call, dieAfter, pc'⟩ := x
  dsimp only at hpart
  cases hpart with
  | part =>
    refine ⟨hgiven, fun part' answered todo' hpc => ?_, fun _ hpc => (by cases hpc)⟩
    obtain ⟨rfl, rfl, rfl⟩ := ClientPc.puts.inj hpc
    obtain ⟨done, hanswer, hdone, -⟩ := hlater.puts _ _ _ rfl
    exact ⟨done, hanswer, hdone,
      fun hyes => done_of_accepts hinv hx hmem hs (Option.some.inj hyes)⟩
  | late =>
    refine ⟨hgiven, fun _ _ _ hpc => (by cases hpc), fun left hpc => ?_⟩
    obtain ⟨rfl, -⟩ := ClientPc.ended.inj hpc
    exact hlater.ended _ rfl

end Progress

/-- **Every step keeps how far the clients have come.** -/
theorem progress_step (hinv : Inv rt s) (h : ∀ c x, s.clients c = some x → Progress s.service x)
    (hs : Stepped rt s s') {c : ℕ} {x : Client} (hx : s'.clients c = some x) :
    Progress s'.service x := by
  cases hs with
  | other ha hservice =>
    obtain ⟨-, hfits, -⟩ := hinv.serviceStep hservice (fits_of_not ha)
    exact (h c x hx).later hinv hservice hfits
  | began hfree ha hcall hservice =>
    obtain ⟨-, hfits, -⟩ := hinv.serviceStep hservice (fits_of_not ha)
    rcases Slots.found_cases_some hx with ⟨rfl, rfl⟩ | ⟨-, hold⟩
    · exact ⟨fun _ hpart => absurd hpart List.not_mem_nil, fun _ _ _ hpc => (by cases hpc),
        fun _ hpc => (by cases hpc)⟩
    · exact (h c x hold).later hinv hservice hfits
  | moved hx' hgoes =>
    rcases Slots.found_cases_some hx with ⟨rfl, rfl⟩ | ⟨-, hold⟩
    · exact (h _ _ hx').goes hgoes
    · exact h c x hold
  | delivered hx' hpart hservice =>
    rename_i c' x' pc part etag service
    obtain ⟨hmem, -⟩ := hpart.hands
    obtain ⟨-, hfits, -⟩ := hinv.serviceStep hservice (hinv.fits hx' hmem etag)
    rcases Slots.found_cases_some hx with ⟨rfl, rfl⟩ | ⟨-, hold⟩
    · exact (h _ _ hx').delivered hinv hx' hpart hservice
    · exact (h c x hold).later hinv hservice hfits

theorem progress_run (hstart : s.Start) {es : List Event} (hrun : (uploads rt).run s es = some t) :
    Inv rt t ∧ ∀ c x, t.clients c = some x → Progress t.service x := by
  have hkept : (uploads rt).Invariant fun s =>
      Inv rt s ∧ ∀ c x, s.clients c = some x → Progress s.service x := by
    rintro s e s' ⟨hinv, hprogress⟩ hs
    exact ⟨(hinv.step (stepped hs)).1, fun c x hx => progress_step hinv hprogress (stepped hs) hx⟩
  refine hkept.run ⟨hstart.inv, fun c x hx => ?_⟩ hrun
  rw [hstart.clients c] at hx
  cases hx

/-! ## What is missing -/

/-- The file an answer is about. -/
def fileOf : FileCall → Option String
  | .intent _ _ _ (.ended (.described d)) => some d.id
  | .parts _ _ (.ended (.listed v)) => some v.id
  | _ => none

/-- Every planned part of the file is stored with its planned length. -/
def Uploaded (service : FileService) (row : FileRow) (u : UploadId) (partSize : ℕ) : Prop :=
  ∀ n ∈ partNumbers row.size partSize, Settled row.size partSize u n service

/-- A file has one upload. -/
theorem inParts_of_id {service : FileService} {row row' : FileRow} {u u' : UploadId} {p p' : ℕ}
    (hinv : service.StoreInv) (h : InParts service.files row u p)
    (h' : InParts service.files row' u' p') (hid : row'.id = row.id) : u' = u := by
  obtain ⟨r, hr, hsame⟩ := h.known
  obtain ⟨r', hr', hsame'⟩ := h'.known
  obtain rfl : r' = r := List.inj_on_of_nodup_map hinv.ids hr' hr
    (hsame'.id.symm.trans (hid.trans hsame.id))
  have hu : r'.uploadId = some u := hsame.uploadId.symm.trans h.upload
  have hu' : r'.uploadId = some u' := hsame'.uploadId.symm.trans h'.upload
  exact Option.some.inj (hu'.symm.trans hu)

/-- What is done of an offered part is done for the file. -/
theorem Done.settled {service : FileService} {row : FileRow} {u : UploadId} {partSize : ℕ}
    {part : PartInfo} (h : Done service part) (hinv : service.StoreInv)
    (hrow : InParts service.files row u partSize) (hoffered : Offered row u partSize part) :
    Settled row.size partSize u part.partNumber service := by
  obtain ⟨row', u', partSize', hrow', hoffered', hsettled⟩ := h
  obtain ⟨-, rfl, -⟩ := UrlTarget.part.inj (hoffered'.target.symm.trans hoffered.target)
  obtain ⟨-, -, hsize, rfl⟩ := inParts_same hinv hrow hrow'
  rwa [hsize] at hsettled

/-- What the answer of `parts` says of the file. -/
theorem listed_of_knows {service₀ service : FileService} {as : List FileEvent} {i : ℕ}
    {user : AuthUser} {id : String} {v : PartsView} {row : FileRow} {u : UploadId} {partSize : ℕ}
    (hstart : service₀.Start) (hrun : (fileServices rt).run service₀ as = some service)
    (hc : service.calls i = some (.parts user id (.ended (.listed v))))
    (hrow : InParts service.files row u partSize) (hid : v.id = row.id) :
    v.partSize = partSize ∧ ∃ out, ListedAll rt service₀ as i row u partSize out ∧
      v.missing.map PartInfo.partNumber = missingOf row.size partSize (lengthOf out) := by
  obtain ⟨hinv, -, hknows⟩ := knows_run hstart hrun
  have hself := hknows i
  rw [hc] at hself
  obtain ⟨row', u', out, hknown, hu, -, hall, hid', -, -, hmissing, -⟩ := hself
  have hrow' : InParts service.files row' u' v.partSize := ⟨hknown, hu, hall.size⟩
  obtain rfl := inParts_of_id hinv.stores hrow hrow' (hid'.symm.trans hid)
  obtain ⟨-, -, hsize, hpart⟩ := inParts_same hinv.stores hrow hrow'
  rw [hpart, hsize] at hmissing
  refine ⟨hpart, out, ⟨hrow.size, hall.ascending, ?_, hall.saw⟩, hmissing⟩
  rw [← hsize, ← hpart]
  exact hall.planned

/-- **What was stored before a call is not reported missing by it.** -/
theorem settled_not_missing (h : Inv rt s) {es : List Event} (hrun : (uploads rt).run s es = some t)
    {row : FileRow} {u : UploadId} {partSize n : ℕ} (hrow : InParts s.service.files row u partSize)
    (hsettled : Settled row.size partSize u n s.service) {i : ℕ} (hfree : s.service.calls i = none)
    {user : AuthUser} {id : String} {v : PartsView}
    (hc : t.service.calls i = some (.parts user id (.ended (.listed v)))) (hid : v.id = row.id) :
    n ∉ v.missing.map PartInfo.partNumber := by
  obtain ⟨s₀, as₀, hstart, hbefore, -⟩ := h.reached
  obtain ⟨-, as, has, hfits⟩ := service_run h hrun
  have hall : (fileServices rt).run s₀ (as₀ ++ as) = some t.service := by
    rw [System.run_append, hbefore]
    exact has
  have hrow' := inParts_run h.service.1 has hrow
  obtain ⟨-, out, hlisted, hmissing⟩ := listed_of_knows hstart hall hc hrow' hid
  rw [hmissing]
  intro hn
  obtain ⟨hmem, hnot⟩ := List.mem_filter.mp hn
  have hplanned := planned_of_saw hstart hbefore has hfits hrow' hsettled hfree
    (hlisted.saw n (mem_partNumbers.mp hmem).1)
  rw [asPlanned] at hplanned hnot
  rw [hplanned] at hnot
  cases hnot

/-- What is not reported missing is stored. -/
theorem settled_of_not_missing (h : Inv rt s) {row : FileRow} {u : UploadId} {partSize n : ℕ}
    (hrow : InParts s.service.files row u partSize) {i : ℕ} {user : AuthUser} {id : String}
    {v : PartsView} (hc : s.service.calls i = some (.parts user id (.ended (.listed v))))
    (hid : v.id = row.id) (hn : n ∈ partNumbers row.size partSize)
    (hnot : n ∉ v.missing.map PartInfo.partNumber) :
    Settled row.size partSize u n s.service := by
  obtain ⟨s₀, as, hstart, hrun, hfits⟩ := h.reached
  obtain ⟨-, out, hlisted, hmissing⟩ := listed_of_knows hstart hrun hc hrow hid
  refine settled_of_saw hstart hrun hfits hrow (hlisted.saw n (mem_partNumbers.mp hn).1) ?_
  by_contra hbad
  refine hnot ?_
  rw [hmissing]
  refine List.mem_filter.mpr ⟨hn, ?_⟩
  rw [Bool.not_eq_true', ← Bool.not_eq_true]
  exact hbad

/-- **A client that is done has uploaded the file.** -/
theorem uploaded_of_ended (h : Inv rt s) {x : Client} (hprogress : Progress s.service x)
    {left : Option PartInfo} (hpc : x.pc = .ended true left) :
    ∃ row u partSize, (s.service.calls x.call).bind fileOf = some row.id ∧
      InParts s.service.files row u partSize ∧ Uploaded s.service row u partSize := by
  obtain ⟨parts, hanswer, hdone⟩ := hprogress.ended left hpc
  obtain ⟨hinv, -, hoffers⟩ := h.service
  obtain ⟨call, hcall, hanswer⟩ := Option.bind_eq_some_iff.mp hanswer
  have hself := hoffers x.call
  rw [hcall] at hself ⊢
  rcases call with ⟨user, body, key, pc | o⟩ | ⟨user, id, pc | o⟩ | ⟨user, id, pc | o⟩
  · cases hanswer
  · cases o with
    | described d =>
      rcases hplan : d.plan with ⟨url, contentType⟩ | ⟨u, partSize, count, parts'⟩
      · simp [answer, hplan] at hanswer
      · simp only [answer, hplan, Option.some.injEq] at hanswer
        subst hanswer
        obtain ⟨row, hrow, hid, hnumbers, hoffered⟩ := hself u partSize count parts' hplan
        refine ⟨row, u, partSize, congrArg some hid.symm, hrow, fun n hn => ?_⟩
        rw [← hnumbers] at hn
        obtain ⟨m, hm, rfl⟩ := List.mem_map.mp hn
        exact (hdone m hm).settled hinv.stores hrow (hoffered m hm)
    | _ => cases hanswer
  · cases hanswer
  · cases o with
    | listed v =>
      obtain rfl := Option.some.inj (Option.some.inj hanswer)
      obtain ⟨row, u, hrow, hid, hoffered⟩ := hself
      refine ⟨row, u, v.partSize, congrArg some hid.symm, hrow, fun n hn => ?_⟩
      by_cases hmissing : n ∈ v.missing.map PartInfo.partNumber
      · obtain ⟨m, hm, rfl⟩ := List.mem_map.mp hmissing
        exact (hdone m hm).settled hinv.stores hrow (hoffered m hm)
      · exact settled_of_not_missing h hrow hcall hid.symm hn hmissing
    | _ => cases hanswer
  · cases hanswer
  · cases hanswer

/-! ## Commits -/

/-- **Once everything is uploaded, no commit is refused for a missing part.** -/
theorem not_refused (h : Inv rt s) {row : FileRow} {u : UploadId} {partSize : ℕ}
    (hrow : InParts s.service.files row u partSize) (huploaded : Uploaded s.service row u partSize)
    {i : ℕ} (hfree : s.service.calls i = none) {es : List Event}
    (hrun : (uploads rt).run s es = some t) (user : AuthUser) (error : HttpError)
    (hc : t.service.calls i = some (.commit user row.id (.ended (.refused error)))) :
    error.code ≠ "parts-missing" := by
  intro hcode
  obtain ⟨hinv, as, has, hfits⟩ := service_run h hrun
  obtain ⟨s₀, as₀, hstart, hbefore, -⟩ := h.reached
  have hthen : (fileServices rt).run s₀ (as₀ ++ as) = some t.service := by
    rw [System.run_append, hbefore]
    exact has
  obtain ⟨row', u', partSize', out, hknown, hid, hu, hall, hmissing, -⟩ :=
    missing_run hstart hthen hc hcode
  -- it is about the file that is uploaded
  obtain ⟨hservice, -, -⟩ := hinv.service
  have hrow₁ := inParts_run h.service.1 has hrow
  obtain rfl := inParts_of_id hservice.stores hrow₁ ⟨hknown, hu, hall.size⟩ hid
  obtain ⟨-, -, hsize, rfl⟩ := inParts_same hservice.stores hrow₁ ⟨hknown, hu, hall.size⟩
  rw [hsize] at hmissing
  -- and the commit saw every part, since all are settled and it began later
  refine hmissing (List.filter_eq_nil_iff.mpr fun n hn => ?_)
  have hplanned := planned_of_saw hstart hbefore has hfits hrow₁ (huploaded n hn) hfree
    (hall.saw n (mem_partNumbers.mp hn).1)
  rw [asPlanned] at hplanned ⊢
  rw [hplanned]
  exact Bool.false_ne_true

/-! ## Broken uploads -/

/-- The call of a client was not there before the client. -/
theorem fresh_call (h : Inv rt s) {es : List Event} (hrun : (uploads rt).run s es = some t) {c : ℕ}
    {x : Client} (hc : s.clients c = none) (hx : t.clients c = some x) :
    s.service.calls x.call = none := by
  refine System.run_induction (M := uploads rt) (J := fun _ t => ∀ x, t.clients c = some x →
    s.service.calls x.call = none) ?_ ?_ hrun x hx
  · intro x hx
    rw [hc] at hx
    cases hx
  · intro es t e t' hrun ih hs x hx
    obtain ⟨-, as, has, -⟩ := service_run h hrun
    cases stepped hs with
    | other ha hservice => exact ih x hx
    | began hfree ha hcall hservice =>
      rcases Slots.found_cases_some hx with ⟨rfl, rfl⟩ | ⟨-, hold⟩
      · by_contra hbegun
        exact call_run h.service.1 hbegun has hcall
      · exact ih x hold
    | moved hx' hgoes | delivered hx' hpart hservice =>
      rcases Slots.found_cases_some hx with ⟨rfl, rfl⟩ | ⟨-, hx⟩
      · have hold := ih _ hx'
        exact hold
      · exact ih x hx

/-- What the clients can rely on, whatever they do after `s`. -/
structure Resumable (rt : FileRuntime) (s : State) : Prop where
  /-- a part that is stored with its planned length stays so -/
  kept : ∀ row u partSize n es t, InParts s.service.files row u partSize →
    Settled row.size partSize u n s.service → (uploads rt).run s es = some t →
    Settled row.size partSize u n t.service
  /-- and no client that resumes later puts it again -/
  skipped : ∀ row u partSize n es t c x user id p, InParts s.service.files row u partSize →
    Settled row.size partSize u n s.service → s.clients c = none →
    (uploads rt).run s es = some t → t.clients c = some x →
    t.service.calls x.call = some (.parts user id p) →
    ∀ part ∈ x.pc.hands, part.url.target ≠ .part row.key u n
  /-- a client that ends well has its whole file uploaded -/
  uploaded : ∀ c x left, s.clients c = some x → x.pc = .ended true left → ∃ row u partSize,
    (s.service.calls x.call).bind fileOf = some row.id ∧
      InParts s.service.files row u partSize ∧ Uploaded s.service row u partSize
  /-- then nothing of it is missing -/
  complete : ∀ row u partSize es t i user v, InParts s.service.files row u partSize →
    Uploaded s.service row u partSize → s.service.calls i = none →
    (uploads rt).run s es = some t →
    t.service.calls i = some (.parts user row.id (.ended (.listed v))) → v.missing = []
  /-- and no commit is refused because of it -/
  committed : ∀ row u partSize es t i user error, InParts s.service.files row u partSize →
    Uploaded s.service row u partSize → s.service.calls i = none →
    (uploads rt).run s es = some t →
    t.service.calls i = some (.commit user row.id (.ended (.refused error))) →
    error.code ≠ "parts-missing"

/-- The answer of `parts` is about the file that was asked for. -/
theorem listed_id (h : Inv rt s) {i : ℕ} {user : AuthUser} {id : String} {v : PartsView}
    (hc : s.service.calls i = some (.parts user id (.ended (.listed v)))) : v.id = id := by
  obtain ⟨s₀, as, hstart, hrun, -⟩ := h.reached
  have hself := (knows_run hstart hrun).2.2 i
  rw [hc] at hself
  obtain ⟨row, u, out, -, -, hid, -, hid', -⟩ := hself
  exact hid'.trans hid

/-- **A broken upload goes on where it stopped**: in every run of clients that start, resume and
die at any moment, with bodies that arrive late or never. -/
theorem broken_uploads_resume {s₀ : State} (hstart : s₀.Start) {es₀ : List Event}
    (hrun : (uploads rt).run s₀ es₀ = some s) : Resumable rt s := by
  obtain ⟨hinv, hprogress⟩ := progress_run hstart hrun
  refine ⟨?_, ?_, ?_, ?_, ?_⟩
  · intro row u partSize n es t hrow hsettled ht
    exact settled_run hinv ht hrow hsettled
  · rintro row u partSize n es t c x user id p hrow hsettled hc ht hx hcall part hpart htarget
    have hrun' : (uploads rt).run s₀ (es₀ ++ es) = some t := by
      rw [System.run_append, hrun]
      exact ht
    obtain ⟨hinv', hprogress'⟩ := progress_run hstart hrun'
    obtain ⟨parts, hmem, hanswer⟩ := (hprogress' c x hx).given part hpart
    rw [hcall, Option.bind_some] at hanswer
    obtain ⟨hservice, -, hoffers⟩ := hinv'.service
    have hself := hoffers x.call
    rw [hcall] at hself
    rcases p with pc | o
    · cases hanswer
    · cases o with
      | listed v =>
        obtain rfl := Option.some.inj (Option.some.inj hanswer)
        obtain ⟨row', u', hrow', hid, hoffered⟩ := hself
        obtain ⟨-, rfl, rfl⟩ := UrlTarget.part.inj ((hoffered part hmem).target.symm.trans htarget)
        obtain ⟨-, as, has, -⟩ := service_run hinv ht
        have hrow₁ := inParts_run hinv.service.1 has hrow
        obtain ⟨hid', -⟩ := inParts_same hservice.stores hrow₁ hrow'
        exact settled_not_missing hinv ht hrow hsettled (fresh_call hinv ht hc hx) hcall
          (hid.symm.trans hid') (List.mem_map_of_mem hmem)
      | _ => cases hanswer
  · intro c x left hx hpc
    exact uploaded_of_ended hinv (hprogress c x hx) hpc
  · intro row u partSize es t i user v hrow huploaded hfree ht hc
    obtain ⟨hinv', as, has, -⟩ := service_run hinv ht
    have hid := listed_id hinv' hc
    obtain ⟨s₁, as₁, hstart₁, hrun₁, -⟩ := hinv'.reached
    obtain ⟨-, out, -, hmissing⟩ :=
      listed_of_knows hstart₁ hrun₁ hc (inParts_run hinv.service.1 has hrow) hid
    refine List.eq_nil_iff_forall_not_mem.mpr fun m hm => ?_
    have hn : m.partNumber ∈ v.missing.map PartInfo.partNumber := List.mem_map_of_mem hm
    have hplanned : m.partNumber ∈ partNumbers row.size partSize := by
      rw [hmissing] at hn
      exact List.mem_of_mem_filter hn
    exact settled_not_missing hinv ht hrow (huploaded _ hplanned) hfree hc hid hn
  · intro row u partSize es t i user error hrow huploaded hfree ht hc
    exact not_refused hinv hrow huploaded hfree ht user error hc

/-- A client starts an upload of 11 MiB and is killed after the first part; the body of the
second is under way and comes late. Another client resumes. -/
def demoBrokenUpload : List Event :=
  .start 0 0 demoCustomer 11534336 (some 2) ::
    (List.replicate 8 (.service (.exec 0 demoFileDraw)) ++
    [.answer 0, .deliver 0 "a", .next 0, .die 0, .resume 1 1 demoCustomer demoFileDraw.id] ++
    List.replicate 5 (.service (.exec 1 demoFileDraw)) ++
    [.answer 1, .deliver 1 "b", .next 1, .deliver 0 "late", .deliver 1 "c", .next 1])

theorem demoBrokenUpload_resumes :
    ∃ s, (uploads demoFileRuntime).run ⟨demoFiles, fun _ => none⟩ demoBrokenUpload = some s ∧
      (s.clients 0).map Client.pc = some (.ended false none) ∧
      (s.clients 1).map Client.pc = some (.ended true none) ∧
      s.service.s3.stored 7 = [⟨1, 5242880, "a"⟩, ⟨2, 5242880, "late"⟩, ⟨3, 1048576, "c"⟩] ∧
      Resumable demoFileRuntime s := by
  have hsome : ((uploads demoFileRuntime).run ⟨demoFiles, fun _ => none⟩ demoBrokenUpload).any
      (fun s => decide ((s.clients 0).map Client.pc = some (.ended false none)) &&
        (decide ((s.clients 1).map Client.pc = some (.ended true none)) &&
          decide (s.service.s3.stored 7 =
            [⟨1, 5242880, "a"⟩, ⟨2, 5242880, "late"⟩, ⟨3, 1048576, "c"⟩]))) = true := by
    decide +kernel
  obtain ⟨s, hrun, hs⟩ := (Option.any_eq_true _ _).mp hsome
  obtain ⟨h0, hs⟩ := Bool.and_eq_true_iff.mp hs
  obtain ⟨h1, hstored⟩ := Bool.and_eq_true_iff.mp hs
  exact ⟨s, hrun, of_decide_eq_true h0, of_decide_eq_true h1, of_decide_eq_true hstored,
    broken_uploads_resume ⟨demoFiles_start, fun _ => rfl⟩ hrun⟩

end Marketplace.Uploads
