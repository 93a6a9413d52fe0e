import Marketplace.Intents

/-!
# Upload intents with the same key

Two calls with one key may both find nothing and both open an upload; the unique index lets one
row in. The other call holds an upload that belongs to no row, until it has aborted it in the
`catch` block, and then answers with the row it finds.

An upload that is active belongs to a row or is held by a call that goes on; nobody else holds
it, so nobody else completes or aborts it.
-/

namespace Marketplace

/-! ## What is kept -/

/-- The table without what `commit` writes. -/
def FileService.rows (s : FileService) : List FileRow := s.files.map FileRow.fixed

/-- An upload without its parts. -/
def S3.state (s : S3) (u : UploadId) : Option (String × UploadStatus) :=
  (s.uploads u).map fun x => (x.key, x.status)

/-- Call `i` holds the upload `u` of the key `k`. -/
def FileService.Holds (s : FileService) (i : ℕ) (u : UploadId) (k : String) : Prop :=
  ∃ user key p, s.Intends i user key p ∧ intentHeld user p = some (u, k)

/-- What the intents keep, after they have opened these uploads and inserted these rows. -/
structure Intents (opened : List (ℕ × UploadId)) (inserted : List (ℕ × FileRow))
    (s : FileService) : Prop where
  keys : ∀ r ∈ s.rows, ∀ r' ∈ s.rows, r.ownerId = r'.ownerId →
    r.idempotencyKey = r'.idempotencyKey → r.idempotencyKey ≠ none → r = r'
  asked : ∀ i user key p, s.Intends i user key p → IntentAsked key p
  served : ∀ i user key p x, s.Intends i user key p → intentServed p = some x →
    ∃ r ∈ s.rows, x = (r.id, r.key) ∧ r.ownerId = user.id ∧ r.idempotencyKey = key
  /-- without a key, a row is one call's own -/
  alone : ∀ i j user user' p p' x, s.Intends i user none p → s.Intends j user' none p' →
    intentServed p = some x → intentServed p' = some x → i = j
  held : ∀ i u k, s.Holds i u k →
    s.s3.state u = some (k, .active) ∧ ∀ r ∈ s.rows, r.uploadId ≠ some u
  holders : ∀ i j u k k', s.Holds i u k → s.Holds j u k' → i = j
  active : ∀ u k, s.s3.state u = some (k, .active) →
    (∃ r ∈ s.rows, r.uploadId = some u) ∨ ∃ i k', s.Holds i u k'
  opened : ∀ x ∈ opened, (∃ r ∈ s.rows, (x.1, r) ∈ inserted ∧ r.uploadId = some x.2) ∨
    (∃ k, s.Holds x.1 x.2 k) ∨ ∃ k, s.s3.state x.2 = some (k, .aborted)

section Stores

variable {s : S3} {s3 : S3} {k : String} {u : UploadId}

theorem state_eq_some {k : String} {status : UploadStatus} :
    s.state u = some (k, status) ↔ ∃ x, s.uploads u = some x ∧ x.key = k ∧ x.status = status := by
  simp [S3.state, Option.map_eq_some_iff]

theorem state_setUpload (s : S3) (u : UploadId) (x : Upload) :
    (s.setUpload u x).state = Function.update s.state u (some (x.key, x.status)) := by
  funext v
  by_cases hv : v = u
  · subst hv
    simp [S3.state, S3.setUpload]
  · simp [S3.state, S3.setUpload, Function.update_of_ne hv]

theorem state_of_find {x : Upload} (h : s.find k u = some x) : s.state u = some (k, .active) := by
  obtain ⟨hx, hkey, hactive⟩ := S3.find_eq_some.mp h
  exact state_eq_some.mpr ⟨x, hx, hkey, hactive⟩

theorem find_of_state (h : s.state u = some (k, .active)) : ∃ x, s.find k u = some x := by
  obtain ⟨x, hx, hkey, hactive⟩ := state_eq_some.mp h
  exact ⟨x, S3.find_eq_some.mpr ⟨hx, hkey, hactive⟩⟩

theorem state_createMultipartUpload (h : s.createMultipartUpload k u = some s3) :
    s.state u = none ∧ s3.state = Function.update s.state u (some (k, .active)) := by
  obtain ⟨hnone, rfl⟩ := S3.createMultipartUpload_eq_some h
  refine ⟨?_, state_setUpload ..⟩
  rw [S3.state, hnone]
  rfl

theorem state_uploadPart {part : S3Part} (h : s.uploadPart k u part = .ok s3) :
    s3.state = s.state := by
  obtain ⟨x, parts, hx, rfl⟩ := S3.uploadPart_eq_ok h
  obtain ⟨hupload, -⟩ := S3.find_eq_some.mp hx
  rw [state_setUpload]
  refine Function.update_eq_self_iff.mpr ?_
  rw [S3.state, hupload]
  rfl

theorem state_abortMultipartUpload (h : s.abortMultipartUpload k u = .ok s3) :
    s.state u = some (k, .active) ∧ s3.state = Function.update s.state u (some (k, .aborted)) := by
  obtain ⟨x, hx, rfl⟩ := S3.abortMultipartUpload_eq_ok h
  obtain ⟨-, hkey, -⟩ := S3.find_eq_some.mp hx
  rw [state_setUpload, hkey]
  exact ⟨state_of_find hx, rfl⟩

/-- An upload that is active can be aborted. -/
theorem abortMultipartUpload_of_state (h : s.state u = some (k, .active)) {error : S3Error} :
    s.abortMultipartUpload k u ≠ .error error := by
  obtain ⟨x, hx⟩ := find_of_state h
  simp [S3.abortMultipartUpload, hx]

theorem state_completeMultipartUpload {named : List (ℕ × String)} {etag : String}
    (h : s.completeMultipartUpload k u named etag = .ok s3) :
    s.state u = some (k, .active) ∧
      s3.state = Function.update s.state u (some (k, .completed)) := by
  obtain ⟨x, length, hx, rfl⟩ := S3.completeMultipartUpload_eq_ok h
  obtain ⟨-, hkey, -⟩ := S3.find_eq_some.mp hx
  rw [state_setUpload, hkey]
  exact ⟨state_of_find hx, rfl⟩

end Stores

/-- What the other requests make of the rows and the uploads: an upload of a row may be
completed. -/
theorem StoresMove.stores {s e : FileService} (h : StoresMove s e) :
    e.rows = s.rows ∧ (e.s3.state = s.s3.state ∨ ∃ u k, (∃ r ∈ s.rows, r.uploadId = some u) ∧
      s.s3.state u = some (k, .active) ∧
      e.s3.state = Function.update s.s3.state u (some (k, .completed))) := by
  have hsame : e.files = s.files → e.rows = s.rows := fun heq => by rw [FileService.rows, heq]; rfl
  cases h with
  | stay hfiles hs3 => exact ⟨hsame hfiles, .inl (by rw [hs3])⟩
  | receives hfiles hs3 => exact ⟨hsame hfiles, .inl (state_uploadPart hs3)⟩
  | replaces hfiles huploads =>
    refine ⟨hsame hfiles, .inl (funext fun u => ?_)⟩
    rw [S3.state, huploads]
    rfl
  | completes hfiles hrow hs3 =>
    obtain ⟨r, hr, hu⟩ := hrow
    exact ⟨hsame hfiles, .inr ⟨_, _, ⟨r.fixed, List.mem_map_of_mem hr, hu⟩,
      state_completeMultipartUpload hs3⟩⟩
  | updates hfiles hs3 =>
    refine ⟨?_, .inl (by rw [hs3])⟩
    rw [FileService.rows, hfiles, Table.modify, List.map_map, FileService.rows]
    refine List.map_congr_left fun r _ => ?_
    rw [Function.comp_apply]
    split_ifs
    · rfl
    · rfl

section Moves

variable {opened : List (ℕ × UploadId)} {inserted : List (ℕ × FileRow)} {s e : FileService}
  {i j : ℕ} {user user' : AuthUser}
  {body : IntentBody} {key key' : Option String} {pc : IntentPc} {p p' : Progress IntentPc}
  {u : UploadId} {k : String}

/-- **The requests of the others** leave what the intents keep. -/
theorem Intents.other (h : Intents opened inserted s) (hmove : StoresMove s e)
    (hcalls : ∀ j user key p, e.Intends j user key p ↔ s.Intends j user key p) :
    Intents opened inserted e := by
  obtain ⟨hrows, hstate⟩ := hmove.stores
  have hholds : ∀ j u k, e.Holds j u k ↔ s.Holds j u k := by
    intro j u k
    simp only [FileService.Holds, hcalls]
  -- the others can only complete an upload: what is active now was active before
  have hactive : ∀ u k, e.s3.state u = some (k, .active) → s.s3.state u = some (k, .active) := by
    intro u k hu
    rcases hstate with hsame | ⟨v, k', -, -, hupdate⟩
    · rwa [hsame] at hu
    · rw [hupdate] at hu
      rcases Slots.found_cases_some hu with ⟨-, heq⟩ | ⟨-, hold⟩
      · cases heq
      · exact hold
  refine ⟨?_, ?_, ?_, ?_, ?_, ?_, ?_, ?_⟩
  · rw [hrows]
    exact h.keys
  · exact fun i user key p hi => h.asked i user key p ((hcalls ..).mp hi)
  · rw [hrows]
    exact fun i user key p x hi => h.served i user key p x ((hcalls ..).mp hi)
  · exact fun i j user user' p p' x hi hj =>
      h.alone i j user user' p p' x ((hcalls ..).mp hi) ((hcalls ..).mp hj)
  · intro i u k hi
    obtain ⟨hu, hfree⟩ := h.held i u k ((hholds ..).mp hi)
    rw [hrows]
    refine ⟨?_, hfree⟩
    rcases hstate with hsame | ⟨v, k', ⟨r, hr, hv⟩, -, hupdate⟩
    · rwa [hsame]
    · -- the upload that is completed is a row's
      have hne : u ≠ v := fun heq => hfree r hr (heq ▸ hv)
      rwa [hupdate, Function.update_of_ne hne]
  · exact fun i j u k k' hi hj => h.holders i j u k k' ((hholds ..).mp hi) ((hholds ..).mp hj)
  · intro u k hu
    simp only [hrows, hholds]
    exact h.active u k (hactive u k hu)
  · intro x hx
    simp only [hrows, hholds]
    rcases h.opened x hx with hrow | hheld | ⟨k, haborted⟩
    · exact .inl hrow
    · exact .inr (.inl hheld)
    · refine .inr (.inr ⟨k, ?_⟩)
      rcases hstate with hsame | ⟨v, k', -, hv, hupdate⟩
      · rwa [hsame]
      · have hne : x.2 ≠ v := by
          rintro rfl
          rw [haborted] at hv
          cases hv
        rwa [hupdate, Function.update_of_ne hne]

/-- The intents after call `i` has gone on. -/
theorem intends_setCall (hcalls : e.calls = s.calls) :
    (e.setCall i (.intent user body key p)).Intends j user' key' p' ↔
      (j = i ∧ user' = user ∧ key' = key ∧ p' = p) ∨ (j ≠ i ∧ s.Intends j user' key' p') := by
  unfold FileService.Intends
  by_cases hj : j = i
  · subst hj
    simp only [FileService.setCall, Function.update_self, Option.some.injEq,
      FileCall.intent.injEq, ne_eq, not_true_eq_false, false_and, or_false, true_and]
    constructor
    · rintro ⟨body', rfl, rfl, rfl, rfl⟩
      exact ⟨rfl, rfl, rfl⟩
    · rintro ⟨rfl, rfl, rfl⟩
      exact ⟨body, rfl, rfl, rfl, rfl⟩
  · simp only [FileService.setCall, Function.update_of_ne hj, hj, hcalls, false_and, ne_eq,
      not_false_eq_true, true_and, false_or]

/-- What is held then. -/
theorem holds_setCall (hcalls : e.calls = s.calls) :
    (e.setCall i (.intent user body key p)).Holds j u k ↔
      (j = i ∧ intentHeld user p = some (u, k)) ∨ (j ≠ i ∧ s.Holds j u k) := by
  unfold FileService.Holds
  simp only [intends_setCall hcalls]
  constructor
  · rintro ⟨user', key', p', ⟨rfl, rfl, rfl, rfl⟩ | ⟨hj, hintends⟩, hheld⟩
    · exact .inl ⟨rfl, hheld⟩
    · exact .inr ⟨hj, user', key', p', hintends, hheld⟩
  · rintro (⟨rfl, hheld⟩ | ⟨hj, user', key', p', hintends, hheld⟩)
    · exact ⟨user, key, p, .inl ⟨rfl, rfl, rfl, rfl⟩, hheld⟩
    · exact ⟨user', key', p', .inr ⟨hj, hintends⟩, hheld⟩

/-- A call is at one point. -/
theorem Intends.unique (hi : s.Intends i user key p) (hi' : s.Intends i user' key' p') :
    user = user' ∧ key = key' ∧ p = p' := by
  obtain ⟨body, hc⟩ := hi
  obtain ⟨body', hc'⟩ := hi'
  obtain ⟨rfl, -, rfl, rfl⟩ := FileCall.intent.inj (Option.some.inj (hc.symm.trans hc'))
  exact ⟨rfl, rfl, rfl⟩

/-- A call holds an upload at most. -/
theorem Holds.of_intends (hi : s.Intends i user key p) :
    s.Holds i u k ↔ intentHeld user p = some (u, k) := by
  constructor
  · rintro ⟨user', key', p', hi', hheld⟩
    obtain ⟨rfl, rfl, rfl⟩ := Intends.unique hi hi'
    exact hheld
  · exact fun hheld => ⟨user, key, p, hi, hheld⟩

section Own

variable (h : Intents opened inserted s) (hi : s.Intends i user key (.running pc))
  (hcalls : e.calls = s.calls) (hasked : IntentAsked key p)

include hi hcalls in
/-- Holding what it held, a call changes nothing of who holds what. -/
theorem holds_same (hheld : intentHeld user p = pc.held user) :
    (e.setCall i (.intent user body key p)).Holds j u k ↔ s.Holds j u k := by
  rw [holds_setCall hcalls, hheld]
  by_cases hj : j = i
  · subst hj
    rw [Holds.of_intends hi]
    simp only [ne_eq, not_true_eq_false, false_and, or_false, true_and]
    rfl
  · simp only [hj, false_and, ne_eq, not_false_eq_true, true_and, false_or]

include h hcalls hasked in
theorem asked_setCall : ∀ j user' key' p',
    (e.setCall i (.intent user body key p)).Intends j user' key' p' → IntentAsked key' p' := by
  intro j user' key' p' hj
  rcases (intends_setCall hcalls).mp hj with ⟨rfl, rfl, rfl, rfl⟩ | ⟨-, hj⟩
  · exact hasked
  · exact h.asked j user' key' p' hj

include h hcalls in
/-- What is served without a key stays one call's own, if the call serves what it served. -/
theorem alone_setCall (halone : key = none → ∀ x, intentServed p = some x →
      ∀ j user' p', j ≠ i → s.Intends j user' none p' → intentServed p' ≠ some x) :
    ∀ j j' user₁ user₂ p₁ p₂ x, (e.setCall i (.intent user body key p)).Intends j user₁ none p₁ →
      (e.setCall i (.intent user body key p)).Intends j' user₂ none p₂ →
      intentServed p₁ = some x → intentServed p₂ = some x → j = j' := by
  intro j j' user₁ user₂ p₁ p₂ x hj hj' hx hx'
  rcases (intends_setCall hcalls).mp hj with ⟨rfl, rfl, hkey, rfl⟩ | ⟨hne, hold⟩
  · rcases (intends_setCall hcalls).mp hj' with ⟨rfl, -, -, -⟩ | ⟨hne', hold'⟩
    · rfl
    · exact absurd hx' (halone hkey.symm x hx j' user₂ p₂ hne' hold')
  · rcases (intends_setCall hcalls).mp hj' with ⟨rfl, rfl, hkey, rfl⟩ | ⟨-, hold'⟩
    · exact absurd hx (halone hkey.symm x hx' j user₁ p₁ hne hold)
    · exact h.alone j j' user₁ user₂ p₁ p₂ x hold hold' hx hx'

include h hi hcalls hasked in
/-- It goes on, or answers. -/
theorem Intents.goes (hfiles : e.files = s.files) (hs3 : e.s3 = s.s3)
    (hheld : intentHeld user p = pc.held user)
    (hserved : ∀ x, intentServed p = some x → pc.served = some x ∨ ∃ r ∈ s.files,
      x = (r.id, r.key) ∧ r.ownerId = user.id ∧ r.idempotencyKey = key ∧ key ≠ none) :
    Intents opened inserted (e.setCall i (.intent user body key p)) := by
  have hrows : (e.setCall i (.intent user body key p)).rows = s.rows := by
    change e.files.map FileRow.fixed = _
    rw [hfiles]
    rfl
  have hstate : (e.setCall i (.intent user body key p)).s3.state = s.s3.state := by
    change e.s3.state = _
    rw [hs3]
  have hholds : ∀ j u k, (e.setCall i (.intent user body key p)).Holds j u k ↔ s.Holds j u k :=
    fun j u k => holds_same hi hcalls hheld
  refine ⟨?_, asked_setCall h hcalls hasked, ?_, alone_setCall h hcalls ?_, ?_, ?_, ?_, ?_⟩
  · rw [hrows]
    exact h.keys
  · rw [hrows]
    intro j user' key' p' x hj hx
    rcases (intends_setCall hcalls).mp hj with ⟨rfl, rfl, rfl, rfl⟩ | ⟨-, hj⟩
    · rcases hserved x hx with hx | ⟨r, hr, hrx, howner, hkey, -⟩
      · exact h.served _ _ _ _ x hi hx
      · exact ⟨r.fixed, List.mem_map_of_mem hr, hrx, howner, hkey⟩
    · exact h.served j user' key' p' x hj hx
  · -- without a key it serves the row that it served before, not one that it has found
    intro hkey x hx j user' p' hne hj hx'
    rcases hserved x hx with hx | ⟨r, hr, -, -, -, hsome⟩
    · subst hkey
      exact hne (h.alone j i user' user p' _ x hj hi hx' hx)
    · exact hsome hkey
  · intro j u k hj
    rw [hstate, hrows]
    exact h.held j u k ((hholds ..).mp hj)
  · exact fun j j' u k k' hj hj' => h.holders j j' u k k' ((hholds ..).mp hj) ((hholds ..).mp hj')
  · intro u k hu
    simp only [hrows, hholds]
    rw [hstate] at hu
    exact h.active u k hu
  · intro x hx
    simp only [hrows, hholds, hstate]
    exact h.opened x hx

include h hi hcalls hasked in
/-- It opens an upload. -/
theorem Intents.creates (huploads : ∀ r ∈ s.rows, ∀ v, r.uploadId = some v → s.s3.state v ≠ none)
    (hpc : pc.opening = true) (hfiles : e.files = s.files)
    (hs3 : s.s3.createMultipartUpload k u = some e.s3) (hheld : intentHeld user p = some (u, k))
    (hserved : intentServed p = none) :
    Intents (opened ++ [(i, u)]) inserted (e.setCall i (.intent user body key p)) := by
  obtain ⟨hnone, hstate⟩ := state_createMultipartUpload hs3
  have hrows : (e.setCall i (.intent user body key p)).rows = s.rows := by
    change e.files.map FileRow.fixed = _
    rw [hfiles]
    rfl
  have hstate' : (e.setCall i (.intent user body key p)).s3.state =
      Function.update s.s3.state u (some (k, .active)) := hstate
  have hidle : ∀ v k', ¬ s.Holds i v k' := by
    intro v k' hv
    rw [Holds.of_intends hi] at hv
    cases pc with
    | createMultipart x id => cases hv
    | _ => cases hpc
  have hne : ∀ j v k', s.Holds j v k' → v ≠ u := by
    rintro j v k' hv rfl
    rw [(h.held j v k' hv).1] at hnone
    cases hnone
  have hholds : ∀ j v k', (e.setCall i (.intent user body key p)).Holds j v k' ↔
      (j = i ∧ v = u ∧ k' = k) ∨ s.Holds j v k' := by
    intro j v k'
    rw [holds_setCall hcalls, hheld, Option.some.injEq, Prod.mk.injEq]
    constructor
    · rintro (⟨rfl, rfl, rfl⟩ | ⟨-, hv⟩)
      · exact .inl ⟨rfl, rfl, rfl⟩
      · exact .inr hv
    · rintro (⟨rfl, rfl, rfl⟩ | hv)
      · exact .inl ⟨rfl, rfl, rfl⟩
      · exact .inr ⟨fun heq => hidle v k' (heq ▸ hv), hv⟩
  refine ⟨?_, asked_setCall h hcalls hasked, ?_, alone_setCall h hcalls ?_, ?_, ?_, ?_, ?_⟩
  · rw [hrows]
    exact h.keys
  · rw [hrows]
    intro j user' key' p' x hj hx
    rcases (intends_setCall hcalls).mp hj with ⟨rfl, rfl, rfl, rfl⟩ | ⟨-, hj⟩
    · rw [hserved] at hx
      cases hx
    · exact h.served j user' key' p' x hj hx
  · intro _ x hx
    rw [hserved] at hx
    cases hx
  · intro j v k' hj
    rw [hstate', hrows]
    rcases (hholds ..).mp hj with ⟨rfl, rfl, rfl⟩ | hj
    · exact ⟨Function.update_self .., fun r hr hv => huploads r hr _ hv hnone⟩
    · rw [Function.update_of_ne (hne j v k' hj)]
      exact h.held j v k' hj
  · intro j j' v k₁ k₂ hj hj'
    rcases (hholds ..).mp hj with ⟨rfl, rfl, rfl⟩ | hold
    · rcases (hholds ..).mp hj' with ⟨rfl, -, -⟩ | hold'
      · rfl
      · exact absurd rfl (hne _ _ _ hold')
    · rcases (hholds ..).mp hj' with ⟨rfl, rfl, rfl⟩ | hold'
      · exact absurd rfl (hne _ _ _ hold)
      · exact h.holders j j' v k₁ k₂ hold hold'
  · intro v k' hv
    simp only [hrows, hholds]
    rw [hstate'] at hv
    by_cases huv : v = u
    · exact .inr ⟨i, k, .inl ⟨rfl, huv, rfl⟩⟩
    · rw [Function.update_of_ne huv] at hv
      rcases h.active v k' hv with hrow | ⟨j, k₁, hj⟩
      · exact .inl hrow
      · exact .inr ⟨j, k₁, .inr hj⟩
  · intro x hx
    simp only [hrows, hholds, hstate']
    rcases List.mem_append.mp hx with hx | hx
    · rcases h.opened x hx with hrow | ⟨k₁, hj⟩ | ⟨k₁, haborted⟩
      · exact .inl hrow
      · exact .inr (.inl ⟨k₁, .inr hj⟩)
      · have hxu : x.2 ≠ u := by
          rintro rfl
          rw [hnone] at haborted
          cases haborted
        exact .inr (.inr ⟨k₁, by rwa [Function.update_of_ne hxu]⟩)
    · obtain rfl := List.mem_singleton.mp hx
      exact .inr (.inl ⟨k, .inl ⟨rfl, rfl, rfl⟩⟩)

include h hi hcalls hasked in
/-- It inserts its row, and the upload it held is the row's. -/
theorem Intents.inserts {row : FileRow} (hpending : row.fixed = row)
    (hnew : ¬ row.Duplicate s.files) (howner : row.ownerId = user.id)
    (hkey : row.idempotencyKey = key)
    (hupload : ∀ v, row.uploadId = some v ↔ ∃ k, pc.held user = some (v, k))
    (hfiles : e.files = s.files ++ [row]) (hs3 : e.s3 = s.s3) (hheld : intentHeld user p = none)
    (hserved : intentServed p = some (row.id, row.key)) :
    Intents opened (inserted ++ [(i, row)]) (e.setCall i (.intent user body key p)) := by
  have hrows : (e.setCall i (.intent user body key p)).rows = s.rows ++ [row] := by
    change e.files.map FileRow.fixed = _
    rw [hfiles, List.map_append, List.map_singleton, hpending]
    rfl
  have hstate : (e.setCall i (.intent user body key p)).s3.state = s.s3.state := by
    change e.s3.state = _
    rw [hs3]
  have hfresh : ∀ r ∈ s.rows, r.id ≠ row.id ∧
      ¬ (row.idempotencyKey ≠ none ∧ r.ownerId = row.ownerId ∧
        r.idempotencyKey = row.idempotencyKey) := by
    intro r hr
    obtain ⟨r₀, hr₀, rfl⟩ := List.mem_map.mp hr
    exact ⟨fun hid => hnew ⟨r₀, hr₀, .inl hid⟩, fun hsame => hnew ⟨r₀, hr₀, .inr (.inr hsame)⟩⟩
  have hholds : ∀ j v k', (e.setCall i (.intent user body key p)).Holds j v k' ↔
      j ≠ i ∧ s.Holds j v k' := by
    intro j v k'
    rw [holds_setCall hcalls, hheld]
    simp
  refine ⟨?_, asked_setCall h hcalls hasked, ?_, alone_setCall h hcalls ?_, ?_, ?_, ?_, ?_⟩
  · rw [hrows]
    intro r hr r' hr' hown hsame hsome
    rcases List.mem_append.mp hr with hold | hr
    · rcases List.mem_append.mp hr' with hold' | hr'
      · exact h.keys r hold r' hold' hown hsame hsome
      · obtain rfl := List.mem_singleton.mp hr'
        exact absurd ⟨hsame ▸ hsome, hown, hsame⟩ (hfresh r hold).2
    · obtain rfl := List.mem_singleton.mp hr
      rcases List.mem_append.mp hr' with hold' | hr'
      · exact absurd ⟨hsome, hown.symm, hsame.symm⟩ (hfresh r' hold').2
      · exact (List.mem_singleton.mp hr').symm
  · rw [hrows]
    intro j user' key' p' x hj hx
    rcases (intends_setCall hcalls).mp hj with ⟨rfl, rfl, rfl, rfl⟩ | ⟨-, hj⟩
    · refine ⟨row, List.mem_append_right _ (List.mem_singleton_self _), ?_, howner, hkey⟩
      exact Option.some.inj (hx.symm.trans hserved)
    · obtain ⟨r, hr, hrest⟩ := h.served j user' key' p' x hj hx
      exact ⟨r, List.mem_append_left _ hr, hrest⟩
  · -- the row is new, so nobody else serves it
    intro _ x hx j user' p' _ hj hx'
    obtain ⟨r, hr, hrx, -⟩ := h.served j user' none p' x hj hx'
    rw [hserved, hrx] at hx
    exact (hfresh r hr).1 (Prod.mk.inj (Option.some.inj hx)).1.symm
  · intro j v k' hj
    obtain ⟨hne, hj⟩ := (hholds ..).mp hj
    obtain ⟨hv, hfree⟩ := h.held j v k' hj
    rw [hstate, hrows]
    refine ⟨hv, fun r hr hrv => ?_⟩
    rcases List.mem_append.mp hr with hr | hr
    · exact hfree r hr hrv
    · obtain rfl := List.mem_singleton.mp hr
      obtain ⟨k₁, hk₁⟩ := (hupload v).mp hrv
      exact hne (h.holders j i v k' k₁ hj ((Holds.of_intends hi).mpr hk₁))
  · exact fun j j' v k₁ k₂ hj hj' =>
      h.holders j j' v k₁ k₂ ((hholds ..).mp hj).2 ((hholds ..).mp hj').2
  · intro v k' hv
    simp only [hrows, hholds]
    rw [hstate] at hv
    rcases h.active v k' hv with ⟨r, hr, hrv⟩ | ⟨j, k₁, hj⟩
    · exact .inl ⟨r, List.mem_append_left _ hr, hrv⟩
    · by_cases hji : j = i
      · subst hji
        have hrow := (hupload v).mpr ⟨k₁, (Holds.of_intends hi).mp hj⟩
        exact .inl ⟨row, List.mem_append_right _ (List.mem_singleton_self _), hrow⟩
      · exact .inr ⟨j, k₁, hji, hj⟩
  · intro x hx
    simp only [hrows, hholds, hstate]
    rcases h.opened x hx with ⟨r, hr, hxr, hrv⟩ | ⟨k₁, hj⟩ | haborted
    · exact .inl ⟨r, List.mem_append_left _ hr, List.mem_append_left _ hxr, hrv⟩
    · by_cases hxi : x.1 = i
      · rw [hxi, Holds.of_intends hi] at hj
        have hrow := (hupload x.2).mpr ⟨k₁, hj⟩
        refine .inl ⟨row, List.mem_append_right _ (List.mem_singleton_self _), ?_, hrow⟩
        exact List.mem_append_right _ (List.mem_singleton.mpr (Prod.ext hxi rfl))
      · exact .inr (.inl ⟨k₁, hxi, hj⟩)
    · exact .inr (.inr haborted)

include h hi hcalls hasked in
/-- It aborts the upload it held. -/
theorem Intents.aborts (hfiles : e.files = s.files) (hholds : pc.held user = some (u, k))
    (hs3 : s.s3.abortMultipartUpload k u = .ok e.s3) (hheld : intentHeld user p = none)
    (hserved : intentServed p = none) :
    Intents opened inserted (e.setCall i (.intent user body key p)) := by
  obtain ⟨hactive, hstate⟩ := state_abortMultipartUpload hs3
  have hown : s.Holds i u k := (Holds.of_intends hi).mpr hholds
  have hrows : (e.setCall i (.intent user body key p)).rows = s.rows := by
    change e.files.map FileRow.fixed = _
    rw [hfiles]
    rfl
  have hstate' : (e.setCall i (.intent user body key p)).s3.state =
      Function.update s.s3.state u (some (k, .aborted)) := hstate
  have hholds' : ∀ j v k', (e.setCall i (.intent user body key p)).Holds j v k' ↔
      j ≠ i ∧ s.Holds j v k' := by
    intro j v k'
    rw [holds_setCall hcalls, hheld]
    simp
  refine ⟨?_, asked_setCall h hcalls hasked, ?_, alone_setCall h hcalls ?_, ?_, ?_, ?_, ?_⟩
  · rw [hrows]
    exact h.keys
  · rw [hrows]
    intro j user' key' p' x hj hx
    rcases (intends_setCall hcalls).mp hj with ⟨rfl, rfl, rfl, rfl⟩ | ⟨-, hj⟩
    · rw [hserved] at hx
      cases hx
    · exact h.served j user' key' p' x hj hx
  · intro _ x hx
    rw [hserved] at hx
    cases hx
  · intro j v k' hj
    obtain ⟨hne, hj⟩ := (hholds' ..).mp hj
    rw [hstate', hrows]
    -- nobody else holds the upload that is aborted
    have hvu : v ≠ u := by
      rintro rfl
      exact hne (h.holders j i _ _ _ hj hown)
    rw [Function.update_of_ne hvu]
    exact h.held j v k' hj
  · exact fun j j' v k₁ k₂ hj hj' =>
      h.holders j j' v k₁ k₂ ((hholds' ..).mp hj).2 ((hholds' ..).mp hj').2
  · intro v k' hv
    simp only [hrows, hholds']
    rw [hstate'] at hv
    have hvu : v ≠ u := by
      rintro rfl
      rw [Function.update_self] at hv
      cases hv
    rw [Function.update_of_ne hvu] at hv
    rcases h.active v k' hv with hrow | ⟨j, k₁, hj⟩
    · exact .inl hrow
    · refine .inr ⟨j, k₁, ?_, hj⟩
      rintro rfl
      rw [Holds.of_intends hi] at hj
      exact hvu (Prod.mk.inj (Option.some.inj (hj.symm.trans hholds))).1
  · intro x hx
    simp only [hrows, hholds', hstate']
    by_cases hxu : x.2 = u
    · rw [hxu]
      exact .inr (.inr ⟨k, Function.update_self ..⟩)
    · rw [Function.update_of_ne hxu]
      rcases h.opened x hx with hrow | ⟨k₁, hj⟩ | haborted
      · exact .inl hrow
      · refine .inr (.inl ⟨k₁, fun hxi => ?_, hj⟩)
        rw [hxi, Holds.of_intends hi] at hj
        exact hxu (Prod.mk.inj (Option.some.inj (hj.symm.trans hholds))).1
      · exact .inr (.inr haborted)

end Own

/-! ## Every event -/

/-- A call begins with nothing. -/
theorem Intents.begins (h : Intents opened inserted s) (hnone : s.calls i = none) :
    Intents opened inserted (s.setCall i (.intent user body key (.running .begin))) := by
  have hnot : ∀ user' key' p', ¬ s.Intends i user' key' p' := by
    rintro user' key' p' ⟨body', hc⟩
    rw [hnone] at hc
    cases hc
  have hidle : ∀ v k', ¬ s.Holds i v k' := by
    rintro v k' ⟨user', key', p', hi, -⟩
    exact hnot user' key' p' hi
  have hholds : ∀ j v k', (s.setCall i (.intent user body key (.running .begin))).Holds j v k' ↔
      s.Holds j v k' := by
    intro j v k'
    rw [holds_setCall rfl]
    constructor
    · rintro (⟨rfl, hheld⟩ | ⟨-, hj⟩)
      · cases hheld
      · exact hj
    · exact fun hj => .inr ⟨fun heq => hidle v k' (heq ▸ hj), hj⟩
  refine ⟨h.keys, asked_setCall h rfl trivial, ?_, alone_setCall h rfl (fun _ x hx => by cases hx),
    ?_, ?_, ?_, ?_⟩
  · intro j user' key' p' x hj hx
    rcases (intends_setCall rfl).mp hj with ⟨rfl, rfl, rfl, rfl⟩ | ⟨-, hj⟩
    · cases hx
    · exact h.served j user' key' p' x hj hx
  · exact fun j v k' hj => h.held j v k' ((hholds ..).mp hj)
  · exact fun j j' v k₁ k₂ hj hj' => h.holders j j' v k₁ k₂ ((hholds ..).mp hj) ((hholds ..).mp hj')
  · intro v k' hv
    simp only [hholds]
    exact h.active v k' hv
  · intro x hx
    simp only [hholds]
    exact h.opened x hx

/-- A call that is no intent goes on, or begins. -/
theorem Intents.others {c : FileCall} (h : Intents opened inserted s) (hmove : StoresMove s e)
    (hcalls : e.calls = s.calls) (hold : ∀ user key p, ¬ s.Intends i user key p)
    (hnew : ∀ user body key p, c ≠ .intent user body key p) :
    Intents opened inserted (e.setCall i c) := by
  have hmove' : StoresMove s (e.setCall i c) := by
    cases hmove with
    | stay hfiles hs3 => exact .stay hfiles hs3
    | receives hfiles hs3 => exact .receives hfiles hs3
    | replaces hfiles huploads => exact .replaces hfiles huploads
    | completes hfiles hrow hs3 => exact .completes hfiles hrow hs3
    | updates hfiles hs3 => exact .updates hfiles hs3
  refine h.other hmove' fun j user' key' p' => ?_
  by_cases hj : j = i
  · subst hj
    refine ⟨?_, fun hi => absurd hi (hold user' key' p')⟩
    rintro ⟨body', hc⟩
    rw [FileService.setCall_self] at hc
    exact absurd (Option.some.inj hc) (hnew user' body' key' p')
  · simp only [FileService.Intends, FileService.setCall_ne hcalls hj]

/-- **The request of an intent** keeps what the intents keep. -/
theorem Intents.exec (h : Intents opened inserted s) (hstores : s.StoreInv)
    (hi : s.Intends i user key (.running pc)) (hcalls : e.calls = s.calls)
    (hasked : IntentAsked key p) (hmoves : IntentMoves s e user key u pc p) :
    Intents (opened ++ if pc.opening then [(i, u)] else [])
      (inserted ++ ((pc.inserting s.files user key).map fun row => (i, row)).toList)
      (e.setCall i (.intent user body key p)) := by
  cases hmoves with
  | goes hpc hrow hfiles hs3 hheld hserved =>
    rw [hpc, hrow]
    simpa using h.goes hi hcalls hasked hfiles hs3 hheld hserved
  | creates hpc hrow hfiles hs3 hheld hserved =>
    have huploads : ∀ r ∈ s.rows, ∀ v, r.uploadId = some v → s.s3.state v ≠ none := by
      intro r hr v hv hnone
      obtain ⟨r₀, hr₀, rfl⟩ := List.mem_map.mp hr
      obtain ⟨x, hx, -⟩ := hstores.uploads r₀ hr₀ v hv
      rw [S3.state, hx] at hnone
      cases hnone
    rw [hpc, hrow]
    simpa using h.creates hi hcalls hasked huploads hpc hfiles hs3 hheld hserved
  | inserts hpc hrow hpending hnew howner hkey hupload hfiles hs3 hheld hserved =>
    rw [hpc, hrow]
    simpa using h.inserts hi hcalls hasked hpending hnew howner hkey hupload hfiles hs3 hheld
      hserved
  | aborts hpc hrow hfiles hholds hs3 hheld hserved =>
    rw [hpc, hrow]
    simpa using h.aborts hi hcalls hasked hfiles hholds hs3 hheld hserved
  | abortFails hholds hs3 =>
    -- the upload it holds is active, so S3 knows it
    have hactive := (h.held i _ _ ((Holds.of_intends hi).mpr hholds)).1
    exact absurd hs3 (abortMultipartUpload_of_state hactive)

end Moves

section Events

variable {rt : FileRuntime} {opened : List (ℕ × UploadId)} {inserted : List (ℕ × FileRow)}
  {s s' : FileService} {i : ℕ} {d : FileDraw} {a : FileEvent}

/-- A body that a client puts. -/
theorem receive_moves (s : FileService) (length : ℕ) (etag : String) (target : UrlTarget) :
    StoresMove s (s.receive length etag target) ∧
      (s.receive length etag target).calls = s.calls := by
  cases target with
  | put k contentType => exact ⟨.replaces rfl rfl, rfl⟩
  | part k u n =>
    simp only [FileService.receive]
    split
    · rename_i s3 hs3
      exact ⟨.receives rfl hs3, rfl⟩
    · exact ⟨.stay rfl rfl, rfl⟩

/-- No uploads are opened, and no rows inserted. -/
theorem Intents.quiet (h : Intents opened inserted s') (hopens : s.opens a = [])
    (hinserts : s.inserts a = []) : Intents (opened ++ s.opens a) (inserted ++ s.inserts a) s' := by
  rwa [hopens, hinserts, List.append_nil, List.append_nil]

/-- **Every event that is answered** keeps what the intents keep. -/
theorem Intents.step (h : Intents opened inserted s) (hinv : s.Inv) (hok : Answered s a)
    (hs : s.step rt a = some s') : Intents (opened ++ s.opens a) (inserted ++ s.inserts a) s' := by
  have hfresh : ∀ {i}, s.calls i = none → ∀ user key p, ¬ s.Intends i user key p := by
    rintro i hnone user key p ⟨body, hc⟩
    rw [hnone] at hc
    cases hc
  cases a with
  | intent i user body key =>
    obtain ⟨hnone, rfl⟩ := FileService.begin_eq_some hs
    exact (h.begins hnone).quiet rfl rfl
  | parts i user id =>
    obtain ⟨hnone, rfl⟩ := FileService.begin_eq_some hs
    exact (h.others (.stay rfl rfl) rfl (hfresh hnone) (fun _ _ _ _ => by rintro ⟨⟩)).quiet rfl rfl
  | commit i user id =>
    obtain ⟨hnone, rfl⟩ := FileService.begin_eq_some hs
    exact (h.others (.stay rfl rfl) rfl (hfresh hnone) (fun _ _ _ _ => by rintro ⟨⟩)).quiet rfl rfl
  | exec i d =>
    obtain ⟨c, hc, hexec⟩ := Option.bind_eq_some_iff.mp hs
    have hknows := hinv.calls i
    rw [hc] at hknows
    rcases c with ⟨user, body, key, pc | o⟩ | ⟨user, id, pc | o⟩ | ⟨user, id, pc | o⟩
    · have hi : s.Intends i user key (.running pc) := ⟨body, hc⟩
      obtain ⟨e, p, rfl, hcalls, hasked, hmoves⟩ :=
        intentExec_moves (h.asked i user key _ hi) hexec
      have hopens : s.opens (.exec i d) = if pc.opening then [(i, d.uploadId)] else [] := by
        simp only [FileService.opens, hc]
      have hinserts : s.inserts (.exec i d) =
          ((pc.inserting s.files user key).map fun row => (i, row)).toList := by
        simp only [FileService.inserts, hc]
      rw [hopens, hinserts]
      exact h.exec hinv.stores hi hcalls hasked hmoves
    · cases hexec
    · obtain ⟨e, p, rfl, hcalls, hmove⟩ := partsExec_stay hexec
      refine (h.others hmove hcalls ?_ (fun _ _ _ _ => by rintro ⟨⟩)).quiet ?_ ?_
      · rintro user' key' p' ⟨body', hc'⟩
        cases hc.symm.trans hc'
      · simp only [FileService.opens, hc]
      · simp only [FileService.inserts, hc]
    · cases hexec
    · obtain ⟨e, p, rfl, hcalls, hmove⟩ := commitExec_moves hknows hexec
      refine (h.others hmove hcalls ?_ (fun _ _ _ _ => by rintro ⟨⟩)).quiet ?_ ?_
      · rintro user' key' p' ⟨body', hc'⟩
        cases hc.symm.trans hc'
      · simp only [FileService.opens, hc]
      · simp only [FileService.inserts, hc]
    · cases hexec
  | fail i => exact hok.elim
  | loseAnswer i d => exact hok.elim
  | crash i => exact hok.elim
  | put url length etag =>
    simp only [FileService.step] at hs
    split_ifs at hs
    obtain rfl := Option.some.inj hs
    obtain ⟨hmove, hcalls⟩ := receive_moves s length etag url.target
    refine (h.other hmove fun j user key p => ?_).quiet rfl rfl
    simp only [FileService.Intends, hcalls]
  | tick seconds =>
    obtain rfl := Option.some.inj hs
    exact (h.other (e := { s with now := s.now + seconds }) (.stay rfl rfl)
      fun j user key p => Iff.rfl).quiet rfl rfl

theorem Intents.start (h : s.Start) : Intents [] [] s := by
  have hrows : s.rows = [] := by rw [FileService.rows, h.files]; rfl
  have hnot : ∀ i user key p, ¬ s.Intends i user key p := by
    rintro i user key p ⟨body, hc⟩
    rw [h.calls] at hc
    cases hc
  have hidle : ∀ i u k, ¬ s.Holds i u k := by
    rintro i u k ⟨user, key, p, hi, -⟩
    exact hnot i user key p hi
  refine ⟨?_, fun i user key p hi => absurd hi (hnot i user key p),
    fun i user key p x hi => absurd hi (hnot i user key p),
    fun i j user user' p p' x hi => absurd hi (hnot i user none p),
    fun i u k hi => absurd hi (hidle i u k), fun i j u k k' hi => absurd hi (hidle i u k), ?_,
    fun x hx => absurd hx List.not_mem_nil⟩
  · rw [hrows]
    exact fun r hr => absurd hr List.not_mem_nil
  · intro u k hu
    rw [S3.state, h.uploads] at hu
    cases hu

/-- **What is kept in every run whose requests are answered.** -/
theorem intents_run {s₀ : FileService} {as : List FileEvent} (hstart : s₀.Start)
    (hrun : (fileServices rt).run s₀ as = some s) (hok : (fileServices rt).Meets Answered s₀ as) :
    s.Inv ∧ Intents ((fileServices rt).trace FileService.opens s₀ as)
      ((fileServices rt).trace FileService.inserts s₀ as) s := by
  refine System.run_induction (M := fileServices rt) (J := fun as s =>
    (fileServices rt).Meets Answered s₀ as → s.Inv ∧
      Intents ((fileServices rt).trace FileService.opens s₀ as)
        ((fileServices rt).trace FileService.inserts s₀ as) s) (fun _ => ?_)
    (fun as s a s' hrun ih hs hok => ?_) hrun hok
  · exact ⟨hstart.inv, .start hstart⟩
  · obtain ⟨hok, ha⟩ := System.Meets.snoc hok
    obtain ⟨hinv, h⟩ := ih hok
    rw [System.trace_snoc hrun, System.trace_snoc hrun]
    exact ⟨fileServices_invariant s a s' hinv hs, h.step hinv (ha s hrun) hs⟩

end Events

/-! ## One file for one key -/

/-- **Intents with the same key denote one file**, in every run whose requests are answered:
there is one row at most for an owner and a key; calls of one owner with one key that succeed
answer with one file, the row's; two calls with one file have one owner and one key; an upload
that a call has opened is, when the call has ended, that of the row it has inserted, or aborted;
and an upload that is active belongs to a row or to a call that goes on. -/
theorem intents_same_key {rt : FileRuntime} {s₀ s : FileService} {as : List FileEvent}
    (hstart : s₀.Start) (hrun : (fileServices rt).run s₀ as = some s)
    (hok : (fileServices rt).Meets Answered s₀ as) :
    (∀ r ∈ s.files, ∀ r' ∈ s.files, r.ownerId = r'.ownerId →
      r.idempotencyKey = r'.idempotencyKey → r.idempotencyKey ≠ none → r = r') ∧
    (∀ i user body key d, s.calls i = some (.intent user body key (.ended (.described d))) →
      ∃ r ∈ s.files, r.ownerId = user.id ∧ r.idempotencyKey = key ∧ d.id = r.id ∧ d.key = r.key) ∧
    (∀ i j user user' body body' k d d',
      s.calls i = some (.intent user body (some k) (.ended (.described d))) →
      s.calls j = some (.intent user' body' (some k) (.ended (.described d'))) →
      user.id = user'.id → d.id = d'.id ∧ d.key = d'.key) ∧
    (∀ i j user user' body body' key key' d d', i ≠ j →
      s.calls i = some (.intent user body key (.ended (.described d))) →
      s.calls j = some (.intent user' body' key' (.ended (.described d'))) →
      d.id = d'.id → user.id = user'.id ∧ key = key' ∧ key ≠ none) ∧
    (∀ i u, (i, u) ∈ (fileServices rt).trace FileService.opens s₀ as →
      (∃ user body key o, s.calls i = some (.intent user body key (.ended o))) →
      (∃ r ∈ s.rows, (i, r) ∈ (fileServices rt).trace FileService.inserts s₀ as ∧
        r.uploadId = some u) ∨ ∃ k, s.s3.state u = some (k, .aborted)) ∧
    ∀ u k, s.s3.state u = some (k, .active) → (∃ r ∈ s.files, r.uploadId = some u) ∨
      ∃ i user body key pc, s.calls i = some (.intent user body key (.running pc)) := by
  obtain ⟨hinv, h⟩ := intents_run hstart hrun hok
  have hids : ∀ r ∈ s.files, ∀ r' ∈ s.files, r.id = r'.id → r = r' := fun r hr r' hr' hid =>
    List.inj_on_of_nodup_map hinv.stores.ids hr hr' hid
  have hrows : ∀ r ∈ s.files, ∀ r' ∈ s.files, r.ownerId = r'.ownerId →
      r.idempotencyKey = r'.idempotencyKey → r.idempotencyKey ≠ none → r = r' := by
    intro r hr r' hr' howner hkey hsome
    have hsame := h.keys r.fixed (List.mem_map_of_mem hr) r'.fixed (List.mem_map_of_mem hr') howner
      hkey hsome
    exact hids r hr r' hr' (congrArg FileRow.id hsame : r.fixed.id = r'.fixed.id)
  have hserved : ∀ i user body key d,
      s.calls i = some (.intent user body key (.ended (.described d))) →
      ∃ r ∈ s.files, r.ownerId = user.id ∧ r.idempotencyKey = key ∧ d.id = r.id ∧
        d.key = r.key := by
    intro i user body key d hc
    obtain ⟨r, hr, hx, howner, hkey⟩ := h.served i user key _ _ ⟨body, hc⟩ rfl
    obtain ⟨r₀, hr₀, rfl⟩ := List.mem_map.mp hr
    exact ⟨r₀, hr₀, howner, hkey, Prod.mk.inj hx⟩
  refine ⟨hrows, hserved, ?_, ?_, ?_, ?_⟩
  · intro i j user user' body body' k d d' hi hj huser
    obtain ⟨r, hr, howner, hkey, hid, hk⟩ := hserved i user body _ d hi
    obtain ⟨r', hr', howner', hkey', hid', hk'⟩ := hserved j user' body' _ d' hj
    have hsame : r = r' := hrows r hr r' hr' ((howner.trans huser).trans howner'.symm)
      (hkey.trans hkey'.symm) (hkey ▸ Option.some_ne_none k)
    rw [hid, hid', hk, hk', hsame]
    exact ⟨rfl, rfl⟩
  · intro i j user user' body body' key key' d d' hne hi hj hid
    obtain ⟨r, hr, howner, hkey, hrid, hrk⟩ := hserved i user body _ d hi
    obtain ⟨r', hr', howner', hkey', hrid', hrk'⟩ := hserved j user' body' _ d' hj
    obtain rfl := hids r hr r' hr' (hrid.symm.trans (hid.trans hrid'))
    obtain rfl := hkey.symm.trans hkey'
    refine ⟨howner.symm.trans howner', rfl, fun hnone => hne ?_⟩
    -- without a key, the row is one call's own
    subst hnone
    have hdk : d.key = d'.key := hrk.trans hrk'.symm
    refine h.alone i j user user' _ _ (d.id, d.key) ⟨body, hi⟩ ⟨body', hj⟩ rfl ?_
    rw [hid, hdk]
    rfl
  · rintro i u hopened ⟨user, body, key, o, hc⟩
    rcases h.opened (i, u) hopened with hrow | ⟨k, hheld⟩ | haborted
    · exact .inl hrow
    · rw [Holds.of_intends ⟨body, hc⟩] at hheld
      cases hheld
    · exact .inr haborted
  · intro u k hu
    rcases h.active u k hu with ⟨r, hr, hru⟩ | ⟨i, k', user, key, p, ⟨body, hc⟩, hheld⟩
    · obtain ⟨r₀, hr₀, rfl⟩ := List.mem_map.mp hr
      exact .inl ⟨r₀, hr₀, hru⟩
    · cases p with
      | running pc => exact .inr ⟨i, user, body, key, pc, hc⟩
      | ended o => cases hheld

/-- A double tap: both calls find nothing and open an upload, and the second one loses the race
for the row. -/
def demoDoubleIntent : List FileEvent :=
  let loses : FileDraw := ⟨"00000000-0000-4000-8000-000000000002", 8, "whole", 1000⟩
  [.intent 0 demoCustomer ⟨"big.bin", "application/octet-stream", 11534336⟩ (some "tap"),
    .intent 1 demoCustomer ⟨"big.bin", "application/octet-stream", 11534336⟩ (some "tap")] ++
    demoRequests 0 3 ++ List.replicate 3 (.exec 1 loses) ++ demoRequests 0 6 ++
    List.replicate 8 (.exec 1 loses)

/-- The user, the key and the answer of call `i`. -/
def FileService.answer (s : FileService) (i : ℕ) :
    Option (AuthUser × Option String × UploadDescriptor) :=
  match s.calls i with
  | some (.intent user _ key (.ended (.described d))) => some (user, key, d)
  | _ => none

theorem answer_eq_some {s : FileService} {i : ℕ} {user : AuthUser} {key : Option String}
    {d : UploadDescriptor} (h : s.answer i = some (user, key, d)) :
    ∃ body, s.calls i = some (.intent user body key (.ended (.described d))) := by
  unfold FileService.answer at h
  split at h
  · rename_i user' body key' d' hc
    cases h
    exact ⟨body, hc⟩
  · cases h

theorem demoDoubleIntent_same_key :
    ∃ s d d', (fileServices demoFileRuntime).run demoFiles demoDoubleIntent = some s ∧
      s.answer 0 = some (demoCustomer, some "tap", d) ∧
      s.answer 1 = some (demoCustomer, some "tap", d') ∧ (d.id = d'.id ∧ d.key = d'.key) ∧
      ∃ k, s.s3.state 8 = some (k, .aborted) := by
  have hsome : ((fileServices demoFileRuntime).run demoFiles demoDoubleIntent).any (fun s =>
      (fileServices demoFileRuntime).checks (fun s a => decide (Answered s a)) demoFiles
        demoDoubleIntent &&
      decide ((1, 8) ∈ (fileServices demoFileRuntime).trace FileService.opens demoFiles
        demoDoubleIntent) &&
      (s.rows.all fun r => decide (r.uploadId ≠ some 8)) &&
      (s.answer 0).any (fun x => decide (x.1 = demoCustomer ∧ x.2.1 = some "tap")) &&
      (s.answer 1).any fun x => decide (x.1 = demoCustomer ∧ x.2.1 = some "tap")) = true := by
    decide +kernel
  obtain ⟨s, hrun, h⟩ := (Option.any_eq_true _ _).mp hsome
  simp only [Bool.and_eq_true, decide_eq_true_eq] at h
  obtain ⟨⟨⟨⟨hchecks, hopened⟩, hfree⟩, hfirst⟩, hsecond⟩ := h
  obtain ⟨⟨user, key, d⟩, hd, hx⟩ := (Option.any_eq_true _ _).mp hfirst
  obtain ⟨rfl, rfl⟩ := of_decide_eq_true hx
  obtain ⟨⟨user', key', d'⟩, hd', hx'⟩ := (Option.any_eq_true _ _).mp hsecond
  obtain ⟨rfl, rfl⟩ := of_decide_eq_true hx'
  obtain ⟨body, hc⟩ := answer_eq_some hd
  obtain ⟨body', hc'⟩ := answer_eq_some hd'
  have hok : (fileServices demoFileRuntime).Meets Answered demoFiles demoDoubleIntent :=
    .of_checks (fun _ _ h => of_decide_eq_true h) hchecks
  obtain ⟨-, -, hsame, -, habort, -⟩ := intents_same_key demoFiles_start hrun hok
  refine ⟨s, d, d', hrun, hd, hd', hsame 0 1 _ _ body body' _ d d' hc hc' rfl, ?_⟩
  rcases habort 1 8 hopened ⟨_, body', _, _, hc'⟩ with ⟨r, hr, -, hru⟩ | haborted
  · exact absurd hru (of_decide_eq_true (List.all_eq_true.mp hfree r hr))
  · exact haborted

end Marketplace
