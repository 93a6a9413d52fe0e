import Marketplace.Resume

/-!
# What the service offers a client to put

An intent for a large file answers with every part of its plan, and `parts` with those that are
missing. Each comes with its length and with a URL for this part of this upload, so that a client
needs to know no more. The lists are made URL by URL, while other calls go on.
-/

namespace Marketplace

/-- The part is offered as the plan of the file has it. -/
structure Offered (row : FileRow) (u : UploadId) (partSize : ℕ) (m : PartInfo) : Prop where
  number : m.partNumber ∈ partNumbers row.size partSize
  length : m.length = partLength row.size partSize m.partNumber
  target : m.url.target = .part row.key u m.partNumber

/-- The row is that of a file in parts of this size. -/
structure InParts (files : List FileRow) (row : FileRow) (u : UploadId) (partSize : ℕ) : Prop where
  known : Known files row
  upload : row.uploadId = some u
  size : computePartSize row.size = some partSize

theorem InParts.grows {s s' : FileService} {row : FileRow} {u : UploadId} {partSize : ℕ}
    (h : InParts s.files row u partSize) (hg : s.Grows s') : InParts s'.files row u partSize :=
  ⟨h.known.grows hg, h.upload, h.size⟩

namespace FileService

variable {rt : FileRuntime} {s s' : FileService} {i : ℕ} {user : AuthUser} {id : String}
  {d : FileDraw} {row : FileRow} {u : UploadId} {partSize : ℕ}

/-- What a call has to offer. -/
def OffersInv (s : FileService) : Option FileCall → Prop
  | some (.intent _ _ _ (.running (.sign row u partSize todo parts))) =>
    InParts s.files row u partSize ∧
      parts.map PartInfo.partNumber ++ todo = partNumbers row.size partSize ∧
      ∀ m ∈ parts, Offered row u partSize m
  | some (.intent _ _ _ (.ended (.described d))) =>
    ∀ u partSize count parts, d.plan = .multipart u partSize count parts →
      ∃ row, InParts s.files row u partSize ∧ row.id = d.id ∧
        parts.map PartInfo.partNumber = partNumbers row.size partSize ∧
        ∀ m ∈ parts, Offered row u partSize m
  | some (.parts _ _ (.running (.listParts row u partSize _ _))) => InParts s.files row u partSize
  | some (.parts _ _ (.running (.sign row u partSize _ todo missing))) =>
    InParts s.files row u partSize ∧ (∀ n ∈ todo, n ∈ partNumbers row.size partSize) ∧
      ∀ m ∈ missing, Offered row u partSize m
  | some (.parts _ _ (.ended (.listed v))) =>
    ∃ row u, InParts s.files row u v.partSize ∧ row.id = v.id ∧
      ∀ m ∈ v.missing, Offered row u v.partSize m
  | _ => True

/-- What is offered stays so. -/
theorem OffersInv.grows {c : Option FileCall} (h : s.OffersInv c) (hg : s.Grows s') :
    s'.OffersInv c := by
  rcases c with _ | ⟨user, body, key, pc | o⟩ | ⟨user, id, pc | o⟩ | ⟨user, id, pc | o⟩
  · trivial
  · cases pc with
    | sign row u partSize todo parts => exact ⟨h.1.grows hg, h.2⟩
    | _ => trivial
  · cases o with
    | described d =>
      intro u partSize count parts hplan
      obtain ⟨row, hrow, hrest⟩ := h u partSize count parts hplan
      exact ⟨row, hrow.grows hg, hrest⟩
    | _ => trivial
  · cases pc with
    | select => trivial
    | listParts row u partSize marker out => exact InParts.grows h hg
    | sign row u partSize good todo missing => exact ⟨h.1.grows hg, h.2⟩
  · cases o with
    | listed v =>
      obtain ⟨row, u, hrow, hrest⟩ := h
      exact ⟨row, u, hrow.grows hg, hrest⟩
    | _ => trivial
  · trivial
  · trivial

/-- A part that is signed now. -/
theorem offered_partInfo {n : ℕ} (hn : n ∈ partNumbers row.size partSize) :
    Offered row u partSize (s.partInfo rt row u partSize n) := ⟨hn, rfl, rfl⟩

/-- The list of what is offered, with one more. -/
theorem offered_snoc {parts : List PartInfo} {n : ℕ}
    (hparts : ∀ m ∈ parts, Offered row u partSize m) (hn : n ∈ partNumbers row.size partSize) :
    ∀ m ∈ parts ++ [s.partInfo rt row u partSize n], Offered row u partSize m := by
  intro m hm
  rcases List.mem_append.mp hm with hm | hm
  · exact hparts m hm
  · obtain rfl := List.mem_singleton.mp hm
    exact offered_partInfo hn

theorem offers_catchEnd {body : IntentBody} {key : Option String} {f : Failure} :
    s.OffersInv (some (.intent user body key (catchEnd key f))) := by
  unfold catchEnd
  split
  · split_ifs <;> trivial
  · trivial

theorem offers_catchInsert {body : IntentBody} {key : Option String} {x : Intent}
    {uploadId : Option UploadId} {f : Failure} :
    s.OffersInv (some (.intent user body key (catchInsert key x id uploadId f))) := by
  unfold catchInsert
  split
  · trivial
  · exact offers_catchEnd

theorem offers_create {body : IntentBody} {key : Option String} {x : Intent} :
    s.OffersInv (some (.intent user body key (.running (x.create rt id)))) := by
  unfold Intent.create
  split_ifs <;> trivial

/-- **The request of an intent.** -/
theorem intentExec_offers {body : IntentBody} {key : Option String} {pc : IntentPc}
    (hpc : s.IntentPcInv user pc)
    (hoffers : s.OffersInv (some (.intent user body key (.running pc))))
    (hs : s.intentExec rt i user body key d pc = some s') : s'.OffersInv (s'.calls i) := by
  cases pc with
  | begin =>
    simp only [intentExec] at hs
    split at hs
    · obtain rfl := Option.some.inj hs
      rw [setCall_self]
      trivial
    · split at hs
      · obtain rfl := Option.some.inj hs
        rw [setCall_self]
        trivial
      · split_ifs at hs
        obtain rfl := Option.some.inj hs
        rw [setCall_self]
        exact offers_create
  | selectKey x k =>
    simp only [intentExec] at hs
    split at hs
    · obtain rfl := Option.some.inj hs
      rw [setCall_self]
      trivial
    · split_ifs at hs
      obtain rfl := Option.some.inj hs
      rw [setCall_self]
      exact offers_create
  | createMultipart x id =>
    simp only [intentExec] at hs
    split at hs
    · cases hs
    · obtain rfl := Option.some.inj hs
      rw [setCall_self]
      trivial
  | insert x id uploadId =>
    simp only [intentExec] at hs
    split_ifs at hs
    · obtain rfl := Option.some.inj hs
      rw [setCall_self]
      exact offers_catchInsert
    · obtain rfl := Option.some.inj hs
      rw [setCall_self]
      trivial
  | abort x id u f =>
    simp only [intentExec] at hs
    split at hs <;> obtain rfl := Option.some.inj hs <;> rw [setCall_self] <;> exact offers_catchEnd
  | reselect k f =>
    simp only [intentExec] at hs
    split at hs <;> obtain rfl := Option.some.inj hs <;> rw [setCall_self] <;> trivial
  | describe row =>
    simp only [intentExec] at hs
    split at hs
    · obtain rfl := Option.some.inj hs
      rw [setCall_self]
      intro u partSize count parts hplan
      cases hplan
    · rename_i u hu
      split at hs
      · obtain rfl := Option.some.inj hs
        rw [setCall_self]
        trivial
      · rename_i partSize hsize
        obtain rfl := Option.some.inj hs
        rw [setCall_self]
        exact ⟨⟨hpc, hu, hsize⟩, rfl, fun m hm => absurd hm List.not_mem_nil⟩
  | sign row u partSize todo parts =>
    obtain ⟨hrow, hnumbers, hparts⟩ := hoffers
    cases todo with
    | nil =>
      obtain rfl := Option.some.inj hs
      rw [setCall_self]
      intro u' partSize' count parts' hplan
      obtain ⟨rfl, rfl, -, rfl⟩ := UploadPlan.multipart.inj hplan
      rw [List.append_nil] at hnumbers
      exact ⟨row, hrow, rfl, hnumbers, hparts⟩
    | cons n todo =>
      obtain rfl := Option.some.inj hs
      rw [setCall_self]
      have hn : n ∈ partNumbers row.size partSize :=
        hnumbers ▸ List.mem_append_right _ (List.mem_cons_self ..)
      refine ⟨⟨hrow.known, hrow.upload, hrow.size⟩, ?_, offered_snoc hparts hn⟩
      rw [List.map_append, List.append_assoc]
      exact hnumbers

/-- **The request of `parts`.** -/
theorem partsExec_offers {pc : PartsPc}
    (hoffers : s.OffersInv (some (.parts user id (.running pc))))
    (hs : s.partsExec rt i user id d pc = some s') : s'.OffersInv (s'.calls i) := by
  cases pc with
  | select =>
    simp only [partsExec] at hs
    split at hs
    · obtain rfl := Option.some.inj hs
      rw [setCall_self]
      trivial
    · rename_i row hrow
      split at hs
      · obtain rfl := Option.some.inj hs
        rw [setCall_self]
        trivial
      · rename_i u hu
        split_ifs at hs
        · split at hs
          · obtain rfl := Option.some.inj hs
            rw [setCall_self]
            trivial
          · rename_i partSize hsize
            obtain rfl := Option.some.inj hs
            rw [setCall_self]
            exact ⟨known_of_mem (owned_eq_ok hrow).1, hu, hsize⟩
        · obtain rfl := Option.some.inj hs
          rw [setCall_self]
          trivial
  | listParts row u partSize marker out =>
    simp only [partsExec] at hs
    split_ifs at hs
    split at hs
    · obtain rfl := Option.some.inj hs
      rw [setCall_self]
      trivial
    · split_ifs at hs
      · obtain rfl := Option.some.inj hs
        rw [setCall_self]
        exact hoffers
      · obtain rfl := Option.some.inj hs
        rw [setCall_self]
        exact ⟨hoffers, fun n hn => List.mem_of_mem_filter hn,
          fun m hm => absurd hm List.not_mem_nil⟩
  | sign row u partSize good todo missing =>
    obtain ⟨hrow, htodo, hmissing⟩ := hoffers
    cases todo with
    | nil =>
      obtain rfl := Option.some.inj hs
      rw [setCall_self]
      exact ⟨row, u, hrow, rfl, hmissing⟩
    | cons n todo =>
      obtain rfl := Option.some.inj hs
      rw [setCall_self]
      exact ⟨⟨hrow.known, hrow.upload, hrow.size⟩, fun m hm => htodo m (List.mem_cons_of_mem _ hm),
        offered_snoc hmissing (htodo n (List.mem_cons_self ..))⟩

/-- **The request of a call.** -/
theorem exec_offers {c : FileCall} (hinv : s.Inv) (hc : s.calls i = some c)
    (hoffers : s.OffersInv (some c)) (hs : s.exec rt i d c = some s') :
    s'.OffersInv (s'.calls i) := by
  have hself := hinv.calls i
  rw [hc] at hself
  rcases c with ⟨user, body, key, pc | o⟩ | ⟨user, id, pc | o⟩ | ⟨user, id, pc | o⟩
  · exact intentExec_offers hself hoffers hs
  · cases hs
  · exact partsExec_offers hoffers hs
  · cases hs
  · obtain ⟨e, p, -, rfl, -, -⟩ := commitExec_effect hinv hc hs
    rw [setCall_self]
    trivial
  · cases hs

/-- A call whose request fails, or that dies, offers nothing. -/
theorem fails_offers {c : FileCall} (hs : s.fails i c = some s' ∨ s.crashes i c = some s') :
    ∃ c', s' = s.setCall i c' ∧ s'.OffersInv (some c') := by
  rcases c with ⟨user, body, key, pc | o⟩ | ⟨user, id, pc | o⟩ | ⟨user, id, pc | o⟩
  · rcases hs with hs | hs
    · obtain rfl := Option.some.inj hs
      cases pc with
      | insert x id uploadId => exact ⟨_, rfl, offers_catchInsert⟩
      | abort x id u f => exact ⟨_, rfl, offers_catchEnd⟩
      | _ => exact ⟨_, rfl, trivial⟩
    · obtain rfl := Option.some.inj hs
      exact ⟨_, rfl, trivial⟩
  · rcases hs with hs | hs <;> cases hs
  · rcases hs with hs | hs <;> obtain rfl := Option.some.inj hs <;> exact ⟨_, rfl, trivial⟩
  · rcases hs with hs | hs <;> cases hs
  · rcases hs with hs | hs <;> obtain rfl := Option.some.inj hs <;> exact ⟨_, rfl, trivial⟩
  · rcases hs with hs | hs <;> cases hs

/-- **Every event keeps what is offered.** -/
theorem offers_step {a : FileEvent} (hinv : s.Inv) (hoffers : ∀ i, s.OffersInv (s.calls i))
    (hs : s.step rt a = some s') (i : ℕ) : s'.OffersInv (s'.calls i) := by
  have hstep := hinv.stepped hs
  by_cases ha : a.call = some i
  · have hself := hoffers i
    cases a with
    | intent j user body key | parts j user id | commit j user id =>
      obtain rfl := Option.some.inj ha
      obtain ⟨-, rfl⟩ := begin_eq_some hs
      rw [setCall_self]
      trivial
    | exec j d =>
      obtain rfl := Option.some.inj ha
      obtain ⟨c, hc, hexec⟩ := Option.bind_eq_some_iff.mp hs
      rw [hc] at hself
      exact exec_offers hinv hc hself hexec
    | fail j =>
      obtain rfl := Option.some.inj ha
      obtain ⟨c, -, hfails⟩ := Option.bind_eq_some_iff.mp hs
      obtain ⟨c', rfl, hnothing⟩ := fails_offers (.inl hfails)
      rw [setCall_self]
      exact hnothing
    | loseAnswer j d =>
      obtain rfl := Option.some.inj ha
      obtain ⟨c, -, hlost⟩ := Option.bind_eq_some_iff.mp hs
      obtain ⟨s₁, -, hfails⟩ := Option.bind_eq_some_iff.mp hlost
      obtain ⟨c', rfl, hnothing⟩ := fails_offers (.inl hfails)
      rw [setCall_self]
      exact hnothing
    | crash j =>
      obtain rfl := Option.some.inj ha
      obtain ⟨c, -, hcrashes⟩ := Option.bind_eq_some_iff.mp hs
      obtain ⟨c', rfl, hnothing⟩ := fails_offers (.inr hcrashes)
      rw [setCall_self]
      exact hnothing
    | put | tick => cases ha
  · rw [hstep.calls_ne ha]
    exact (hoffers i).grows hstep.grows

end FileService

/-- **What the calls offer in every run.** -/
theorem offers_run {rt : FileRuntime} {s₀ s : FileService} {as : List FileEvent}
    (hstart : s₀.Start) (hrun : (fileServices rt).run s₀ as = some s) (i : ℕ) :
    s.OffersInv (s.calls i) := by
  have hkept : (fileServices rt).Invariant fun s => s.Inv ∧ ∀ i, s.OffersInv (s.calls i) := by
    rintro s a s' ⟨hinv, hoffers⟩ hs
    exact ⟨fileServices_invariant s a s' hinv hs, FileService.offers_step hinv hoffers hs⟩
  refine (hkept.run ⟨hstart.inv, fun i => ?_⟩ hrun).2 i
  rw [hstart.calls]
  trivial

end Marketplace
