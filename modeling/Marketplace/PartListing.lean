import Marketplace.FilesInv
import Marketplace.Parts

/-!
# Listing the parts of an upload

`parts` and `commit` read the list of the stored parts page by page, while clients may put
parts. A number is read with the page that covers it, so the list is what was stored *number by
number*, each at some moment of the listing; the numbers of earlier pages do not come back,
because a page begins after the marker.

Only planned numbers are ever stored, because only their URLs are signed. So the listed parts
are parts of the plan, and what is missing of the plan follows from the lengths.
-/

namespace Marketplace

/-! ## What is planned -/

/-- The parts S3 has of an upload. -/
def S3.stored (s : S3) (u : UploadId) : List S3Part := (s.uploads u).elim [] Upload.parts

/-- The number is one of the plan of the file with this key and upload. -/
def PlannedPart (files : List FileRow) (key : String) (u : UploadId) (n : ℕ) : Prop :=
  ∃ r ∈ files, r.key = key ∧ r.uploadId = some u ∧
    ∃ partSize, computePartSize r.size = some partSize ∧ n ∈ partNumbers r.size partSize

/-- What an intent knows of sizes and plans. -/
def IntentPc.Planned : IntentPc → Prop
  | .selectKey x _ | .createMultipart x _ | .insert x _ _ => 1 ≤ x.size ∧ x.size ≤ maxObject
  | .sign row _ partSize todo _ =>
    computePartSize row.size = some partSize ∧ ∀ n ∈ todo, n ∈ partNumbers row.size partSize
  | _ => True

/-- Sizes are accepted ones, and parts have a place in a plan. -/
structure FileService.Planned (s : FileService) : Prop where
  sizes : ∀ r ∈ s.files, 1 ≤ r.size ∧ r.size ≤ maxObject
  urls : ∀ url ∈ s.urls, ∀ key u n, url.target = .part key u n → PlannedPart s.files key u n
  parts : ∀ u x, s.s3.uploads u = some x →
    Ascending x.parts ∧ ∀ p ∈ x.parts, PlannedPart s.files x.key u p.partNumber

/-! ## What is read -/

/-- The call waits for a page of the list of parts. -/
def FileCall.listing : FileCall → Bool
  | .parts _ _ (.running (.listParts ..)) | .commit _ _ (.running (.listParts ..)) => true
  | _ => false

/-- At some moment of the listing of call `i`, at which the upload was active, this was the length
stored for the number `n`. -/
def SawLength (rt : FileRuntime) (s₀ : FileService) (as : List FileEvent) (i : ℕ) (u : UploadId)
    (n : ℕ) (length : Option ℕ) : Prop :=
  ∃ as₁ as₂ t, as = as₁ ++ as₂ ∧ (fileServices rt).run s₀ as₁ = some t ∧
    (t.calls i).any FileCall.listing = true ∧ (∃ key, (t.s3.find key u).isSome = true) ∧
    lengthOf (t.s3.stored u) n = length

/-- The parts that have been listed, up to the marker. -/
structure Listed (rt : FileRuntime) (s₀ : FileService) (as : List FileEvent) (i : ℕ)
    (row : FileRow) (u : UploadId) (partSize marker : ℕ) (out : List S3Part) : Prop where
  size : computePartSize row.size = some partSize
  ascending : Ascending out
  upto : ∀ p ∈ out, p.partNumber ≤ marker
  planned : ∀ p ∈ out, p.partNumber ∈ partNumbers row.size partSize
  saw : ∀ n, 1 ≤ n → n ≤ marker → SawLength rt s₀ as i u n (lengthOf out n)

/-- The parts after the last page. -/
structure ListedAll (rt : FileRuntime) (s₀ : FileService) (as : List FileEvent) (i : ℕ)
    (row : FileRow) (u : UploadId) (partSize : ℕ) (out : List S3Part) : Prop where
  size : computePartSize row.size = some partSize
  ascending : Ascending out
  planned : ∀ p ∈ out, p.partNumber ∈ partNumbers row.size partSize
  saw : ∀ n, 1 ≤ n → SawLength rt s₀ as i u n (lengthOf out n)

section Reading

variable {rt : FileRuntime} {s₀ s s' : FileService} {as : List FileEvent} {a : FileEvent} {i : ℕ}
  {row : FileRow} {u : UploadId} {partSize marker m n : ℕ} {out page : List S3Part}
  {length : Option ℕ} {key : String}

theorem SawLength.more (h : SawLength rt s₀ as i u n length) (a : FileEvent) :
    SawLength rt s₀ (as ++ [a]) i u n length := by
  obtain ⟨as₁, as₂, t, rfl, hrest⟩ := h
  exact ⟨as₁, as₂ ++ [a], t, List.append_assoc .., hrest⟩

/-- Before the first page. -/
theorem Listed.start (hsize : computePartSize row.size = some partSize) :
    Listed rt s₀ as i row u partSize 0 [] where
  size := hsize
  ascending := List.Pairwise.nil
  upto := fun _ hp => absurd hp List.not_mem_nil
  planned := fun _ hp => absurd hp List.not_mem_nil
  saw := fun n hpos hn => by omega

theorem Listed.more (h : Listed rt s₀ as i row u partSize marker out) (a : FileEvent) :
    Listed rt s₀ (as ++ [a]) i row u partSize marker out :=
  ⟨h.size, h.ascending, h.upto, h.planned, fun n hpos hn => (h.saw n hpos hn).more a⟩

theorem ListedAll.more (h : ListedAll rt s₀ as i row u partSize out) (a : FileEvent) :
    ListedAll rt s₀ (as ++ [a]) i row u partSize out :=
  ⟨h.size, h.ascending, h.planned, fun n hpos => (h.saw n hpos).more a⟩

theorem PlannedPart.grows {s s' : FileService} (h : PlannedPart s.files key u n)
    (hg : s.Grows s') : PlannedPart s'.files key u n := by
  obtain ⟨r, hr, hkey, hu, partSize, hsize, hn⟩ := h
  obtain ⟨r', hr', hsame⟩ := hg.files r hr
  refine ⟨r', hr', hsame.key.symm.trans hkey, hsame.uploadId.symm.trans hu, partSize, ?_⟩
  rw [← hsame.size]
  exact ⟨hsize, hn⟩

/-- A file has one plan. -/
theorem PlannedPart.mem (h : PlannedPart s.files row.key u n) (hinv : s.StoreInv)
    (hknown : Known s.files row) (hsize : computePartSize row.size = some partSize) :
    n ∈ partNumbers row.size partSize := by
  obtain ⟨r, hr, hkey, -, partSize', hsize', hn⟩ := h
  obtain ⟨r₀, hr₀, hsame⟩ := hknown
  have heq : r = r₀ := List.inj_on_of_nodup_map hinv.keys hr hr₀ (hkey.trans hsame.key)
  subst heq
  rw [hsame.size] at hsize ⊢
  obtain rfl := Option.some.inj (hsize.symm.trans hsize')
  exact hn

theorem stored_of_find {x : Upload} (hx : s.s3.find key u = some x) : s.s3.stored u = x.parts := by
  rw [S3.stored, (S3.find_eq_some.mp hx).1]
  rfl

section Page

variable (h : Listed rt s₀ as i row u partSize marker out) (hinv : s.Inv) (hplan : s.Planned)
  (hrun : (fileServices rt).run s₀ as = some s) (hlisting : (s.calls i).any FileCall.listing = true)
  (hknown : Known s.files row)

include h hinv hplan hknown in
/-- A page, put after those before it. -/
theorem Listed.append {truncated : Bool}
    (hlist : s.s3.listParts row.key u marker n = .ok (page, truncated)) (hpage : Ascending page)
    (hmem : ∀ p ∈ page, p ∈ s.s3.stored u ∧ marker < p.partNumber) :
    Ascending (out ++ page) ∧ ∀ p ∈ out ++ page, p.partNumber ∈ partNumbers row.size partSize := by
  refine ⟨List.pairwise_append.mpr ⟨h.ascending, hpage, fun p hp q hq => ?_⟩, fun p hp => ?_⟩
  · exact lt_of_le_of_lt (h.upto p hp) (hmem q hq).2
  · rcases List.mem_append.mp hp with hp | hp
    · exact h.planned p hp
    · obtain ⟨x, hx, -⟩ := listParts_eq_ok hlist
      obtain ⟨hx', hkey, -⟩ := S3.find_eq_some.mp hx
      have hstored := (hmem p hp).1
      rw [stored_of_find hx] at hstored
      have hpart := (hplan.parts u x hx').2 p hstored
      rw [hkey] at hpart
      exact hpart.mem hinv.stores hknown h.size

include h hrun hlisting in
/-- What is read of a number: what was read before, or what is stored now. -/
theorem Listed.saw_append (hactive : ∃ key, (s.s3.find key u).isSome = true)
    (hasc : Ascending (out ++ page)) (hstored : Ascending (s.s3.stored u))
    (hmem : ∀ p ∈ page, p ∈ s.s3.stored u ∧ marker < p.partNumber)
    (hcovers : ∀ p ∈ s.s3.stored u, p.partNumber = n → marker < n → p ∈ page) (hpos : 1 ≤ n) :
    SawLength rt s₀ (as ++ [a]) i u n (lengthOf (out ++ page) n) := by
  by_cases hn : n ≤ marker
  · have hsame : lengthOf (out ++ page) n = lengthOf out n := by
      refine lengthOf_congr hasc h.ascending fun p hp => ?_
      rw [List.mem_append, or_iff_left_iff_imp]
      intro hpage
      have := (hmem p hpage).2
      omega
    rw [hsame]
    exact (h.saw n hpos hn).more a
  · refine ⟨as, [a], s, rfl, hrun, hlisting, hactive, lengthOf_congr hstored hasc fun p hp => ?_⟩
    rw [List.mem_append]
    constructor
    · exact fun hp' => .inr (hcovers p hp' hp (not_le.mp hn))
    · rintro (hout | hpage)
      · have := h.upto p hout
        omega
      · exact (hmem p hpage).1

include h hinv hplan hrun hlisting hknown in
/-- **A page that is not the last.** -/
theorem Listed.next (hn : 0 < n) (hlist : s.s3.listParts row.key u marker n = .ok (page, true)) :
    Listed rt s₀ (as ++ [a]) i row u partSize ((page.getLast?.map S3Part.partNumber).getD 0)
      (out ++ page) := by
  obtain ⟨x, hx, -⟩ := listParts_eq_ok hlist
  have hstored := stored_of_find hx
  have hparts := (hplan.parts u x (S3.find_eq_some.mp hx).1).1
  obtain ⟨hasc, hlt, hpage⟩ := mem_page_iff hn hlist hx hparts rfl
  have hmem : ∀ p ∈ page, p ∈ s.s3.stored u ∧ marker < p.partNumber := by
    intro p hp
    rw [hstored]
    exact ⟨((hpage p).mp hp).1, ((hpage p).mp hp).2.1⟩
  obtain ⟨hasc', hplanned⟩ := h.append hinv hplan hknown hlist hasc hmem
  refine ⟨h.size, hasc', fun p hp => ?_, hplanned, fun n hpos hle => ?_⟩
  · rcases List.mem_append.mp hp with hp | hp
    · exact (h.upto p hp).trans hlt.le
    · exact ((hpage p).mp hp).2.2
  · refine h.saw_append hrun hlisting ⟨_, Option.isSome_of_eq_some hx⟩ hasc' (hstored ▸ hparts) hmem
      (fun p hp hnumber hgt => ?_) hpos
    rw [hstored] at hp
    subst hnumber
    exact (hpage p).mpr ⟨hp, hgt, hle⟩

include h hinv hplan hrun hlisting hknown in
/-- **The last page.** -/
theorem Listed.last (hlist : s.s3.listParts row.key u marker n = .ok (page, false)) :
    ListedAll rt s₀ (as ++ [a]) i row u partSize (out ++ page) := by
  obtain ⟨x, hx, -⟩ := listParts_eq_ok hlist
  have hstored := stored_of_find hx
  have hparts := (hplan.parts u x (S3.find_eq_some.mp hx).1).1
  obtain ⟨hasc, hpage⟩ := mem_lastPage_iff hlist hx hparts
  have hmem : ∀ p ∈ page, p ∈ s.s3.stored u ∧ marker < p.partNumber := by
    intro p hp
    rw [hstored]
    exact (hpage p).mp hp
  obtain ⟨hasc', hplanned⟩ := h.append hinv hplan hknown hlist hasc hmem
  refine ⟨h.size, hasc', hplanned, fun n hpos => ?_⟩
  refine h.saw_append hrun hlisting ⟨_, Option.isSome_of_eq_some hx⟩ hasc' (hstored ▸ hparts) hmem
    (fun p hp hnumber hgt => ?_) hpos
  rw [hstored] at hp
  subst hnumber
  exact (hpage p).mpr ⟨hp, hgt⟩

end Page

end Reading

/-! ## What the calls know -/

/-- What a call of `parts` knows of its listing. -/
def PartsKnows (rt : FileRuntime) (s₀ : FileService) (as : List FileEvent) (i : ℕ)
    (id : String) (s : FileService) : Progress PartsPc → Prop
  | .running (.listParts row u partSize marker out) =>
    row.id = id ∧ Listed rt s₀ as i row u partSize marker out
  | .running (.sign row u partSize good todo missing) =>
    row.id = id ∧ ∃ out, ListedAll rt s₀ as i row u partSize out ∧
      good = goodParts row.size partSize out ∧
      missing.map PartInfo.partNumber ++ todo = missingOf row.size partSize (lengthOf out) ∧
      ∀ m ∈ missing, m.length = partLength row.size partSize m.partNumber
  | .ended (.listed v) =>
    ∃ row u out, Known s.files row ∧ row.uploadId = some u ∧ row.id = id ∧
      ListedAll rt s₀ as i row u v.partSize out ∧ v.id = row.id ∧
      v.partCount = partCount row.size v.partSize ∧
      v.uploaded = (goodParts row.size v.partSize out).map (fun p => (p.partNumber, p.size)) ∧
      v.missing.map PartInfo.partNumber = missingOf row.size v.partSize (lengthOf out) ∧
      ∀ m ∈ v.missing, m.length = partLength row.size v.partSize m.partNumber
  | _ => True

/-- What a commit knows of its listing. -/
def CommitKnows (rt : FileRuntime) (s₀ : FileService) (as : List FileEvent) (i : ℕ)
    (id : String) : Progress CommitPc → Prop
  | .running (.listParts row u partSize marker out) =>
    row.id = id ∧ Listed rt s₀ as i row u partSize marker out
  | _ => True

/-- What a call knows of its listing and its plan. -/
def CallKnows (rt : FileRuntime) (s₀ : FileService) (as : List FileEvent) (i : ℕ)
    (s : FileService) : Option FileCall → Prop
  | some (.intent _ _ _ (.running pc)) => pc.Planned
  | some (.parts _ id p) => PartsKnows rt s₀ as i id s p
  | some (.commit _ id p) => CommitKnows rt s₀ as i id p
  | _ => True

section Steps

variable {rt : FileRuntime} {s₀ s s' : FileService} {as : List FileEvent} {a : FileEvent} {i : ℕ}
  {user : AuthUser} {id : String} {d : FileDraw}

/-- What is known stays known. -/
theorem CallKnows.more {c : Option FileCall} (h : CallKnows rt s₀ as i s c) (hg : s.Grows s')
    (a : FileEvent) : CallKnows rt s₀ (as ++ [a]) i s' c := by
  rcases c with _ | ⟨user, body, key, pc | o⟩ | ⟨user, id, pc | o⟩ | ⟨user, id, pc | o⟩
  · trivial
  · exact h
  · trivial
  · cases pc with
    | select => trivial
    | listParts row u partSize marker out => exact ⟨h.1, h.2.more a⟩
    | sign row u partSize good todo missing =>
      obtain ⟨hid, out, hall, hrest⟩ := h
      exact ⟨hid, out, hall.more a, hrest⟩
  · cases o with
    | listed v =>
      obtain ⟨row, u, out, hknown, hu, hid, hall, hrest⟩ := h
      exact ⟨row, u, out, hknown.grows hg, hu, hid, hall.more a, hrest⟩
    | _ => trivial
  · cases pc with
    | listParts row u partSize marker out => exact ⟨h.1, h.2.more a⟩
    | _ => trivial
  · trivial

/-- What the request of a call may add to the table and to the URLs. -/
structure Adds (s s' : FileService) : Prop where
  files : ∀ r ∈ s'.files, (∃ r₀ ∈ s.files, r₀.Same r) ∨ 1 ≤ r.size ∧ r.size ≤ maxObject
  urls : ∀ url ∈ s'.urls, url ∈ s.urls ∨
    ∀ key u n, url.target = .part key u n → PlannedPart s.files key u n

theorem Adds.of_eq (hfiles : s'.files = s.files) (hurls : s'.urls = s.urls) : Adds s s' := by
  refine ⟨fun r hr => .inl ⟨r, hfiles ▸ hr, .refl r⟩, fun url hurl => .inl (hurls ▸ hurl)⟩

/-- A URL for a planned part. -/
theorem Adds.sign {row : FileRow} {u : UploadId} {partSize n : ℕ} (hknown : Known s.files row)
    (hu : row.uploadId = some u) (hsize : computePartSize row.size = some partSize)
    (hn : n ∈ partNumbers row.size partSize) (hfiles : s'.files = s.files)
    (hurls : s'.urls = s.urls ++ [s.partUrl rt row u n]) : Adds s s' := by
  refine ⟨fun r hr => .inl ⟨r, hfiles ▸ hr, .refl r⟩, fun url hurl => ?_⟩
  rw [hurls] at hurl
  rcases List.mem_append.mp hurl with hurl | hurl
  · exact .inl hurl
  · obtain rfl := List.mem_singleton.mp hurl
    refine .inr fun key v m htarget => ?_
    obtain ⟨rfl, rfl, rfl⟩ := UrlTarget.part.inj htarget
    obtain ⟨r, hr, hsame⟩ := hknown
    refine ⟨r, hr, hsame.key.symm, hsame.uploadId.symm.trans hu, partSize, ?_⟩
    rw [← hsame.size]
    exact ⟨hsize, hn⟩

theorem planned_create {x : Intent} (h : 1 ≤ x.size ∧ x.size ≤ maxObject) :
    (x.create rt id).Planned := by
  unfold Intent.create
  split_ifs
  · exact h
  · exact h

/-- The `catch` block needs no plan. -/
theorem knows_catchEnd {body : IntentBody} {key : Option String} {f : Failure} :
    CallKnows rt s₀ as i s (some (.intent user body key (catchEnd key f))) := by
  unfold catchEnd
  split
  · split_ifs
    · trivial
    · trivial
  · trivial

theorem knows_catchInsert {body : IntentBody} {key : Option String} {x : Intent}
    {uploadId : Option UploadId} {f : Failure} :
    CallKnows rt s₀ as i s (some (.intent user body key (catchInsert key x id uploadId f))) := by
  unfold catchInsert
  split
  · trivial
  · exact knows_catchEnd

variable (s₀ as) in
/-- **The request of an intent.** -/
theorem intentExec_adds {body : IntentBody} {key : Option String} {pc : IntentPc}
    (hpc : s.IntentPcInv user pc) (hplan : pc.Planned)
    (hs : s.intentExec rt i user body key d pc = some s') :
    ∃ p, s'.calls i = some (.intent user body key p) ∧ Adds s s' ∧
      CallKnows rt s₀ as i s' (some (.intent user body key p)) := by
  cases pc with
  | begin =>
    simp only [FileService.intentExec] at hs
    split at hs
    · obtain rfl := Option.some.inj hs
      exact ⟨_, FileService.setCall_self _, .of_eq rfl rfl, trivial⟩
    · rename_i x hx
      split at hs
      · obtain rfl := Option.some.inj hs
        exact ⟨_, FileService.setCall_self _, .of_eq rfl rfl, parse_size hx⟩
      · split_ifs at hs
        obtain rfl := Option.some.inj hs
        exact ⟨_, FileService.setCall_self _, .of_eq rfl rfl, planned_create (parse_size hx)⟩
  | selectKey x k =>
    simp only [FileService.intentExec] at hs
    split at hs
    · obtain rfl := Option.some.inj hs
      exact ⟨_, FileService.setCall_self _, .of_eq rfl rfl, trivial⟩
    · split_ifs at hs
      obtain rfl := Option.some.inj hs
      exact ⟨_, FileService.setCall_self _, .of_eq rfl rfl, planned_create hplan⟩
  | createMultipart x id =>
    simp only [FileService.intentExec] at hs
    split at hs
    · cases hs
    · obtain rfl := Option.some.inj hs
      exact ⟨_, FileService.setCall_self _, .of_eq rfl rfl, hplan⟩
  | insert x id uploadId =>
    simp only [FileService.intentExec] at hs
    split_ifs at hs
    · obtain rfl := Option.some.inj hs
      exact ⟨_, FileService.setCall_self _, .of_eq rfl rfl, knows_catchInsert⟩
    · obtain rfl := Option.some.inj hs
      refine ⟨_, FileService.setCall_self _, ⟨fun r hr => ?_, fun url hurl => .inl hurl⟩, trivial⟩
      rcases List.mem_append.mp hr with hr | hr
      · exact .inl ⟨r, hr, .refl r⟩
      · obtain rfl := List.mem_singleton.mp hr
        exact .inr hplan
  | abort x id u f =>
    simp only [FileService.intentExec] at hs
    split at hs
    · obtain rfl := Option.some.inj hs
      exact ⟨_, FileService.setCall_self _, .of_eq rfl rfl, knows_catchEnd⟩
    · obtain rfl := Option.some.inj hs
      exact ⟨_, FileService.setCall_self _, .of_eq rfl rfl, knows_catchEnd⟩
  | reselect k f =>
    simp only [FileService.intentExec] at hs
    split at hs
    · obtain rfl := Option.some.inj hs
      exact ⟨_, FileService.setCall_self _, .of_eq rfl rfl, trivial⟩
    · obtain rfl := Option.some.inj hs
      exact ⟨_, FileService.setCall_self _, .of_eq rfl rfl, trivial⟩
  | describe row =>
    simp only [FileService.intentExec] at hs
    split at hs
    · obtain rfl := Option.some.inj hs
      refine ⟨_, FileService.setCall_self _,
        ⟨fun r hr => .inl ⟨r, hr, .refl r⟩, fun url hurl => ?_⟩, trivial⟩
      rcases List.mem_append.mp hurl with hurl | hurl
      · exact .inl hurl
      · obtain rfl := List.mem_singleton.mp hurl
        exact .inr fun key u n htarget => by cases htarget
    · split at hs
      · obtain rfl := Option.some.inj hs
        exact ⟨_, FileService.setCall_self _, .of_eq rfl rfl, trivial⟩
      · rename_i partSize hsize
        obtain rfl := Option.some.inj hs
        exact ⟨_, FileService.setCall_self _, .of_eq rfl rfl, hsize, fun n hn => hn⟩
  | sign row u partSize todo parts =>
    obtain ⟨hsize, htodo⟩ := hplan
    cases todo with
    | nil =>
      obtain rfl := Option.some.inj hs
      exact ⟨_, FileService.setCall_self _, .of_eq rfl rfl, trivial⟩
    | cons n todo =>
      obtain rfl := Option.some.inj hs
      have hn := htodo n (List.mem_cons_self ..)
      exact ⟨_, FileService.setCall_self _, .sign hpc.1 hpc.2 hsize hn rfl rfl, hsize,
        fun m hm => htodo m (List.mem_cons_of_mem _ hm)⟩

/-- **The request of `parts`.** -/
theorem partsExec_adds {pc : PartsPc} (hinv : s.Inv) (hplan : s.Planned)
    (hrun : (fileServices rt).run s₀ as = some s)
    (hc : s.calls i = some (.parts user id (.running pc)))
    (hknows : PartsKnows rt s₀ as i id s (.running pc))
    (hs : s.partsExec rt i user id d pc = some s') (a : FileEvent) :
    ∃ p, s'.calls i = some (.parts user id p) ∧ Adds s s' ∧
      PartsKnows rt s₀ (as ++ [a]) i id s' p := by
  have hpc : s.PartsPcInv pc := by
    have := hinv.calls i
    rwa [hc] at this
  cases pc with
  | select =>
    simp only [FileService.partsExec] at hs
    split at hs
    · obtain rfl := Option.some.inj hs
      exact ⟨_, FileService.setCall_self _, .of_eq rfl rfl, trivial⟩
    · rename_i row hrow
      split at hs
      · obtain rfl := Option.some.inj hs
        exact ⟨_, FileService.setCall_self _, .of_eq rfl rfl, trivial⟩
      · rename_i u hu
        split_ifs at hs
        · split at hs
          · obtain rfl := Option.some.inj hs
            exact ⟨_, FileService.setCall_self _, .of_eq rfl rfl, trivial⟩
          · rename_i partSize hsize
            obtain rfl := Option.some.inj hs
            exact ⟨_, FileService.setCall_self _, .of_eq rfl rfl, (FileService.owned_eq_ok hrow).2,
              .start hsize⟩
        · obtain rfl := Option.some.inj hs
          exact ⟨_, FileService.setCall_self _, .of_eq rfl rfl, trivial⟩
  | listParts row u partSize marker out =>
    obtain ⟨hknown, hu⟩ := hpc
    have hlisting : (s.calls i).any FileCall.listing = true := by
      rw [hc]
      rfl
    simp only [FileService.partsExec] at hs
    split_ifs at hs with hpage
    split at hs
    · obtain rfl := Option.some.inj hs
      exact ⟨_, FileService.setCall_self _, .of_eq rfl rfl, trivial⟩
    · rename_i page truncated hlist
      split_ifs at hs with hmore
      · subst hmore
        obtain rfl := Option.some.inj hs
        exact ⟨_, FileService.setCall_self _, .of_eq rfl rfl,
          hknows.1, hknows.2.next hinv hplan hrun hlisting hknown hpage hlist⟩
      · obtain rfl := Bool.not_eq_true _ ▸ hmore
        obtain rfl := Option.some.inj hs
        have hall : ListedAll rt s₀ (as ++ [a]) i row u partSize (out ++ page) :=
          hknows.2.last hinv hplan hrun hlisting hknown hlist
        exact ⟨_, FileService.setCall_self _, .of_eq rfl rfl, hknows.1, _, hall, rfl,
          missingParts_goodParts hall.ascending, fun m hm => absurd hm List.not_mem_nil⟩
  | sign row u partSize good todo missing =>
    obtain ⟨hknown, hu⟩ := hpc
    obtain ⟨hid, out, hall, rfl, htodo, hlength⟩ := hknows
    cases todo with
    | nil =>
      obtain rfl := Option.some.inj hs
      rw [List.append_nil] at htodo
      exact ⟨_, FileService.setCall_self _, .of_eq rfl rfl, row, u, out, hknown, hu, hid,
        hall.more a, rfl, rfl, rfl, htodo, hlength⟩
    | cons n todo =>
      obtain rfl := Option.some.inj hs
      have hn : n ∈ partNumbers row.size partSize := by
        refine List.mem_of_mem_filter (p := fun n =>
          !asPlanned row.size partSize (lengthOf out) n) ?_
        rw [← missingOf, ← htodo]
        exact List.mem_append_right _ (List.mem_cons_self ..)
      refine ⟨_, FileService.setCall_self _, .sign hknown hu hall.size hn rfl rfl, hid, out,
        hall.more a, rfl, ?_, fun m hm => ?_⟩
      · rw [List.map_append, List.append_assoc]
        exact htodo
      · rcases List.mem_append.mp hm with hm | hm
        · exact hlength m hm
        · obtain rfl := List.mem_singleton.mp hm
          rfl

/-- The last page of a commit. -/
theorem commitExec_last {row : FileRow} {u : UploadId} {partSize marker : ℕ}
    {out page : List S3Part} (hasc : Ascending (out ++ page))
    (hlist : s.s3.listParts row.key u marker d.page = .ok (page, false))
    (hs : s.commitExec i user id d (.listParts row u partSize marker out) = some s') :
    s' = s.setCall i (.commit user id
      (if missingOf row.size partSize (lengthOf (out ++ page)) = [] then
        .running (.complete row u (goodParts row.size partSize (out ++ page)))
      else .ended (.refused
        (partsMissing (missingOf row.size partSize (lengthOf (out ++ page))))))) := by
  simp only [FileService.commitExec, hlist] at hs
  split_ifs at hs with hpage hfalse
  · exact hfalse.elim
  · rw [missingParts_goodParts hasc] at hs
    split at hs
    · rename_i hnil
      rw [if_pos hnil]
      exact (Option.some.inj hs).symm
    · rename_i hne
      rw [if_neg hne]
      exact (Option.some.inj hs).symm

/-- **The request of a commit.** -/
theorem commitExec_adds {pc : CommitPc} (hinv : s.Inv) (hplan : s.Planned)
    (hrun : (fileServices rt).run s₀ as = some s)
    (hc : s.calls i = some (.commit user id (.running pc)))
    (hknows : CommitKnows rt s₀ as i id (.running pc))
    (hs : s.commitExec i user id d pc = some s') (a : FileEvent) :
    ∃ p, s'.calls i = some (.commit user id p) ∧ Adds s s' ∧
      CommitKnows rt s₀ (as ++ [a]) i id p := by
  have hpc : s.CommitPcInv pc := by
    have := hinv.calls i
    rwa [hc] at this
  cases pc with
  | select =>
    simp only [FileService.commitExec] at hs
    split at hs
    · obtain rfl := Option.some.inj hs
      exact ⟨_, FileService.setCall_self _, .of_eq rfl rfl, trivial⟩
    · rename_i row hrow
      split_ifs at hs
      · obtain rfl := Option.some.inj hs
        exact ⟨_, FileService.setCall_self _, .of_eq rfl rfl, trivial⟩
      · split at hs
        · obtain rfl := Option.some.inj hs
          exact ⟨_, FileService.setCall_self _, .of_eq rfl rfl, trivial⟩
        · split at hs
          · obtain rfl := Option.some.inj hs
            exact ⟨_, FileService.setCall_self _, .of_eq rfl rfl, trivial⟩
          · rename_i partSize hsize
            obtain rfl := Option.some.inj hs
            exact ⟨_, FileService.setCall_self _, .of_eq rfl rfl, (FileService.owned_eq_ok hrow).2,
              .start hsize⟩
  | listParts row u partSize marker out =>
    obtain ⟨hknown, hu⟩ := hpc
    have hlisting : (s.calls i).any FileCall.listing = true := by
      rw [hc]
      rfl
    rcases hlist : s.s3.listParts row.key u marker d.page with e | ⟨page, truncated⟩
    · simp only [FileService.commitExec, hlist] at hs
      split_ifs at hs
      obtain rfl := Option.some.inj hs
      exact ⟨_, FileService.setCall_self _, .of_eq rfl rfl, trivial⟩
    · cases truncated with
      | true =>
        simp only [FileService.commitExec, hlist] at hs
        split_ifs at hs with hpage
        obtain rfl := Option.some.inj hs
        exact ⟨_, FileService.setCall_self _, .of_eq rfl rfl,
          hknows.1, hknows.2.next hinv hplan hrun hlisting hknown hpage hlist⟩
      | false =>
        have hall : ListedAll rt s₀ (as ++ [a]) i row u partSize (out ++ page) :=
          hknows.2.last hinv hplan hrun hlisting hknown hlist
        obtain rfl := commitExec_last hall.ascending hlist hs
        refine ⟨_, FileService.setCall_self _, .of_eq rfl rfl, ?_⟩
        split_ifs
        · trivial
        · trivial
  | complete row u parts =>
    simp only [FileService.commitExec] at hs
    split at hs
    · obtain rfl := Option.some.inj hs
      exact ⟨_, FileService.setCall_self _, .of_eq rfl rfl, trivial⟩
    · obtain rfl := Option.some.inj hs
      exact ⟨_, FileService.setCall_self _, .of_eq rfl rfl, trivial⟩
    · obtain rfl := Option.some.inj hs
      exact ⟨_, FileService.setCall_self _, .of_eq rfl rfl, trivial⟩
  | head row =>
    simp only [FileService.commitExec] at hs
    split at hs
    · obtain rfl := Option.some.inj hs
      exact ⟨_, FileService.setCall_self _, .of_eq rfl rfl, trivial⟩
    · split_ifs at hs
      · obtain rfl := Option.some.inj hs
        exact ⟨_, FileService.setCall_self _, .of_eq rfl rfl, trivial⟩
      · obtain rfl := Option.some.inj hs
        exact ⟨_, FileService.setCall_self _, .of_eq rfl rfl, trivial⟩
  | update row etag =>
    simp only [FileService.commitExec] at hs
    split at hs
    · obtain rfl := Option.some.inj hs
      exact ⟨_, FileService.setCall_self _, .of_eq rfl rfl, trivial⟩
    · obtain rfl := Option.some.inj hs
      refine ⟨_, FileService.setCall_self _, ⟨fun r hr => ?_, fun url hurl => .inl hurl⟩, trivial⟩
      obtain ⟨r₀, hr₀, rfl⟩ := Table.mem_modify.mp hr
      refine .inl ⟨r₀, hr₀, ?_⟩
      split_ifs
      · exact ⟨rfl, rfl, rfl, rfl, rfl⟩
      · exact .refl r₀

/-! ## Every event -/

/-- **The request of a call.** -/
theorem exec_adds {c : FileCall} (hinv : s.Inv) (hplan : s.Planned)
    (hrun : (fileServices rt).run s₀ as = some s) (hc : s.calls i = some c)
    (hknows : CallKnows rt s₀ as i s (some c)) (hs : s.exec rt i d c = some s') (a : FileEvent) :
    Adds s s' ∧ CallKnows rt s₀ (as ++ [a]) i s' (s'.calls i) := by
  have hself := hinv.calls i
  rw [hc] at hself
  rcases c with ⟨user, body, key, pc | o⟩ | ⟨user, id, pc | o⟩ | ⟨user, id, pc | o⟩
  · obtain ⟨p, hp, hadds, hknows'⟩ := intentExec_adds s₀ as hself hknows hs
    rw [hp]
    exact ⟨hadds, hknows'.more (.refl s') a⟩
  · cases hs
  · obtain ⟨p, hp, hadds, hknows'⟩ := partsExec_adds hinv hplan hrun hc hknows hs a
    rw [hp]
    exact ⟨hadds, hknows'⟩
  · cases hs
  · obtain ⟨p, hp, hadds, hknows'⟩ := commitExec_adds hinv hplan hrun hc hknows hs a
    rw [hp]
    exact ⟨hadds, hknows'⟩
  · cases hs

variable (rt s₀ as) in
/-- A call whose request fails, or that dies, knows nothing. -/
theorem fails_knows {c : FileCall} (hs : s.fails i c = some s' ∨ s.crashes i c = some s') :
    ∃ c', s' = s.setCall i c' ∧ CallKnows rt s₀ as i s' (some c') := by
  rcases c with ⟨user, body, key, pc | o⟩ | ⟨user, id, pc | o⟩ | ⟨user, id, pc | o⟩
  · rcases hs with hs | hs
    · obtain rfl := Option.some.inj hs
      cases pc with
      | insert x id uploadId => exact ⟨_, rfl, knows_catchInsert⟩
      | abort x id u f => exact ⟨_, rfl, knows_catchEnd⟩
      | _ => exact ⟨_, rfl, trivial⟩
    · obtain rfl := Option.some.inj hs
      exact ⟨_, rfl, trivial⟩
  · rcases hs with hs | hs <;> cases hs
  · rcases hs with hs | hs <;> obtain rfl := Option.some.inj hs <;> exact ⟨_, rfl, trivial⟩
  · rcases hs with hs | hs <;> cases hs
  · rcases hs with hs | hs <;> obtain rfl := Option.some.inj hs <;> exact ⟨_, rfl, trivial⟩
  · rcases hs with hs | hs <;> cases hs

theorem stored_setUpload (s : S3) (u v : UploadId) (x : Upload) :
    (s.setUpload v x).stored u = if u = v then x.parts else s.stored u := by
  split_ifs with huv
  · subst huv
    simp only [S3.stored, S3.setUpload, Function.update_self]
    rfl
  · simp only [S3.stored, S3.setUpload, Function.update_of_ne huv]

/-- An upload that is found and keeps its parts. -/
theorem stored_of_same {s3 : S3} {key : String} {u v : UploadId} {x y : Upload}
    (hx : s3.find key v = some x) (hparts : y.parts = x.parts) :
    (s3.setUpload v y).stored u = s3.stored u := by
  rw [stored_setUpload]
  split_ifs with huv
  · rw [huv, hparts, S3.stored, (S3.find_eq_some.mp hx).1]
    rfl
  · rfl

/-- The requests of the calls leave the parts alone. -/
theorem FileService.Effect.stored {e : FileService} (h : FileService.Effect s e) (u : UploadId) :
    e.s3.stored u = s.s3.stored u := by
  cases h with
  | none | sign | insert | update => rfl
  | create hs3 =>
    obtain ⟨hnone, rfl⟩ := S3.createMultipartUpload_eq_some hs3
    rw [stored_setUpload]
    split_ifs with huv
    · rw [huv, S3.stored, hnone]
      rfl
    · rfl
  | abort hs3 =>
    obtain ⟨x, hx, rfl⟩ := S3.abortMultipartUpload_eq_ok hs3
    exact stored_of_same hx rfl
  | complete hknown hu hs3 =>
    obtain ⟨x, length, hx, rfl⟩ := S3.completeMultipartUpload_eq_ok hs3
    rename_i row v named etag
    have hfound : (s.s3.putObject row.key ⟨length, etag⟩).find row.key v = some x := hx
    exact stored_of_same hfound rfl

/-- A body that comes through the URL of a part takes its place, if the upload is active. -/
theorem receive_part {length n : ℕ} {etag key : String} {v : UploadId} (u : UploadId) :
    (s.receive length etag (.part key v n)).s3.stored u =
      if u = v ∧ (s.s3.find key v).isSome = true then
        ((s.s3.stored u).filter fun q => q.partNumber ≠ n).orderedInsert S3.before ⟨n, length, etag⟩
      else s.s3.stored u := by
  rcases hfind : s.s3.find key v with _ | x
  · simp [FileService.receive, S3.uploadPart, hfind]
  · have hstored := stored_of_find hfind
    simp only [FileService.receive, S3.uploadPart, hfind, stored_setUpload, Option.isSome_some,
      and_true]
    split_ifs with huv
    · rw [huv, hstored]
    · rfl

/-- **What an event makes of the stored parts**: a body that is put may replace one. -/
theorem stored_step (h : s.Stepped a s') (u : UploadId) : s'.s3.stored u = s.s3.stored u ∨
    ∃ url l etag key n, a = .put url l etag ∧ url ∈ s.urls ∧ url.target = .part key u n ∧
      s'.s3.stored u = ((s.s3.stored u).filter fun q => q.partNumber ≠ n).orderedInsert S3.before
        ⟨n, l, etag⟩ := by
  cases h with
  | moved ha heffect hself hheaded => exact .inl (heffect.stored u)
  | received ha hurl =>
    rename_i url l etag
    rcases htarget : url.target with ⟨key, contentType⟩ | ⟨key, v, n⟩
    · exact .inl rfl
    · rw [receive_part]
      split_ifs with hactive
      · obtain ⟨rfl, -⟩ := hactive
        exact .inr ⟨url, l, etag, key, n, ha, hurl, htarget, rfl⟩
      · exact .inl rfl
  | ticked ha => exact .inl rfl

/-- What is stored is planned. -/
theorem FileService.Planned.stored (h : s.Planned) (u : UploadId) : Ascending (s.s3.stored u) := by
  rcases hu : s.s3.uploads u with _ | x
  · rw [S3.stored, hu]
    exact List.Pairwise.nil
  · rw [S3.stored, hu]
    exact (h.parts u x hu).1

/-- **Every event keeps sizes and plans.** -/
theorem FileService.Planned.step (h : s.Planned) (hinv : s.Inv) (hstep : s.Stepped a s')
    (hadds : Adds s s') : s'.Planned := by
  have hgrows := hstep.grows
  refine ⟨fun r hr => ?_, fun url hurl key u n htarget => ?_, fun u x' hx' => ?_⟩
  · rcases hadds.files r hr with ⟨r₀, hr₀, hsame⟩ | hsize
    · rw [hsame.size]
      exact h.sizes r₀ hr₀
    · exact hsize
  · rcases hadds.urls url hurl with hold | hnew
    · exact (h.urls url hold key u n htarget).grows hgrows
    · exact (hnew key u n htarget).grows hgrows
  · have hparts : x'.parts = s'.s3.stored u := by
      rw [S3.stored, hx']
      rfl
    -- a part that was there, of an upload that is still that of its key
    have hold : ∀ p ∈ s.s3.stored u, PlannedPart s'.files x'.key u p.partNumber := by
      intro p hp
      rcases hx : s.s3.uploads u with _ | x
      · rw [S3.stored, hx] at hp
        cases hp
      · rw [S3.stored, hx] at hp
        obtain ⟨y, hy, hkey, -⟩ := hgrows.s3 u x hx
        obtain rfl := Option.some.inj (hx'.symm.trans hy)
        rw [hkey]
        exact ((h.parts u x hx).2 p hp).grows hgrows
    rw [hparts]
    rcases stored_step hstep u with hsame | ⟨url, l, etag, key, n, rfl, hurl, htarget, hnew⟩
    · rw [hsame]
      exact ⟨h.stored u, hold⟩
    · rw [hnew]
      refine ⟨ascending_replace (p := ⟨n, l, etag⟩) (h.stored u), fun p hp => ?_⟩
      rcases (mem_replace (p := ⟨n, l, etag⟩)).mp hp with rfl | ⟨hp, -⟩
      · have hplanned := h.urls url hurl key u n htarget
        obtain ⟨r, hr, hkey, hu, -⟩ := id hplanned
        obtain ⟨x, hx, hxkey⟩ := hinv.stores.uploads r hr u hu
        obtain ⟨y, hy, hykey, -⟩ := hgrows.s3 u x hx
        obtain rfl := Option.some.inj (hx'.symm.trans hy)
        rw [hykey, hxkey, hkey]
        exact hplanned.grows hgrows
      · exact hold p hp

/-- **Every event keeps what the calls know.** -/
theorem knows_step (hinv : s.Inv) (hplan : s.Planned) (hrun : (fileServices rt).run s₀ as = some s)
    (hknows : ∀ i, CallKnows rt s₀ as i s (s.calls i)) (hs : s.step rt a = some s') :
    s'.Planned ∧ ∀ i, CallKnows rt s₀ (as ++ [a]) i s' (s'.calls i) := by
  have hstep := hinv.stepped hs
  have hother : ∀ j, a.call ≠ some j → CallKnows rt s₀ (as ++ [a]) j s' (s'.calls j) := by
    intro j hj
    rw [hstep.calls_ne hj]
    exact (hknows j).more hstep.grows a
  -- it is enough to look at the call of the event
  have hall : ∀ i, a.call = some i → Adds s s' → CallKnows rt s₀ (as ++ [a]) i s' (s'.calls i) →
      s'.Planned ∧ ∀ i, CallKnows rt s₀ (as ++ [a]) i s' (s'.calls i) := by
    intro i ha hadds hself
    refine ⟨hplan.step hinv hstep hadds, fun j => ?_⟩
    by_cases hj : j = i
    · exact hj ▸ hself
    · exact hother j fun hcall => hj (Option.some.inj (hcall.symm.trans ha))
  have hbegin : ∀ i c, s.begin i c = some s' → a.call = some i →
      (∀ t, CallKnows rt s₀ (as ++ [a]) i t (some c)) →
      s'.Planned ∧ ∀ i, CallKnows rt s₀ (as ++ [a]) i s' (s'.calls i) := by
    intro i c hbegin ha hself
    obtain ⟨-, rfl⟩ := FileService.begin_eq_some hbegin
    refine hall i ha (.of_eq rfl rfl) ?_
    rw [FileService.setCall_self]
    exact hself _
  cases a with
  | intent i user body key => exact hbegin i _ hs rfl fun _ => trivial
  | parts i user id => exact hbegin i _ hs rfl fun _ => trivial
  | commit i user id => exact hbegin i _ hs rfl fun _ => trivial
  | exec i d =>
    obtain ⟨c, hc, hexec⟩ := Option.bind_eq_some_iff.mp hs
    have hself := hknows i
    rw [hc] at hself
    obtain ⟨hadds, hknows'⟩ := exec_adds hinv hplan hrun hc hself hexec (.exec i d)
    exact hall i rfl hadds hknows'
  | fail i =>
    obtain ⟨c, -, hfails⟩ := Option.bind_eq_some_iff.mp hs
    obtain ⟨c', rfl, hself⟩ := fails_knows rt s₀ (as ++ [.fail i]) (.inl hfails)
    refine hall i rfl (.of_eq rfl rfl) ?_
    rw [FileService.setCall_self]
    exact hself
  | loseAnswer i d =>
    obtain ⟨c, hc, hlost⟩ := Option.bind_eq_some_iff.mp hs
    obtain ⟨s₁, hexec, hfails⟩ := Option.bind_eq_some_iff.mp hlost
    have hknown := hknows i
    rw [hc] at hknown
    obtain ⟨hadds, -⟩ := exec_adds hinv hplan hrun hc hknown hexec (.loseAnswer i d)
    obtain ⟨c', rfl, hself⟩ := fails_knows rt s₀ (as ++ [.loseAnswer i d]) (.inl hfails)
    refine hall i rfl ⟨hadds.files, hadds.urls⟩ ?_
    rw [FileService.setCall_self]
    exact hself
  | crash i =>
    obtain ⟨c, -, hcrashes⟩ := Option.bind_eq_some_iff.mp hs
    obtain ⟨c', rfl, hself⟩ := fails_knows rt s₀ (as ++ [.crash i]) (.inr hcrashes)
    refine hall i rfl (.of_eq rfl rfl) ?_
    rw [FileService.setCall_self]
    exact hself
  | put url length etag =>
    have hsame : s'.files = s.files ∧ s'.urls = s.urls := by
      simp only [FileService.step] at hs
      split_ifs at hs
      obtain rfl := Option.some.inj hs
      obtain ⟨s3, heq, -⟩ := FileService.receive_stores s length etag url.target
      rw [heq]
      exact ⟨rfl, rfl⟩
    exact ⟨hplan.step hinv hstep (.of_eq hsame.1 hsame.2), fun j => hother j fun hj => by cases hj⟩
  | tick seconds =>
    obtain rfl := Option.some.inj hs
    exact ⟨hplan.step hinv hstep (.of_eq rfl rfl), fun j => hother j fun hj => by cases hj⟩

/-- **What is known in every run.** -/
theorem knows_run (hstart : s₀.Start) (hrun : (fileServices rt).run s₀ as = some s) :
    s.Inv ∧ s.Planned ∧ ∀ i, CallKnows rt s₀ as i s (s.calls i) := by
  refine System.run_induction (M := fileServices rt) (J := fun as s =>
    s.Inv ∧ s.Planned ∧ ∀ i, CallKnows rt s₀ as i s (s.calls i)) ?_
    (fun as s a s' hrun h hs => ?_) hrun
  · refine ⟨hstart.inv, ⟨fun r hr => ?_, fun url hurl => ?_, fun u x hx => ?_⟩, fun i => ?_⟩
    · rw [hstart.files] at hr
      cases hr
    · rw [hstart.urls] at hurl
      cases hurl
    · rw [hstart.uploads] at hx
      cases hx
    · rw [hstart.calls]
      trivial
  · obtain ⟨hinv, hplan, hknows⟩ := h
    exact ⟨fileServices_invariant s a s' hinv hs, knows_step hinv hplan hrun hknows hs⟩

end Steps

end Marketplace
