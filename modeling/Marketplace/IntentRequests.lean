import Marketplace.PartPlan
import Marketplace.SameFile

/-!
# What an intent knows

The requests of an intent, one by one, with what the call knows between them: the id it has drawn
is no row's id, the row it describes is one of its user and its key. This holds whatever happens to
the requests. If all of them are answered, the only way to fail that is left is a unique violation
without a key to look for (`IntentFares`).
-/

namespace Marketplace

/-! ## The key of an object -/

/-- What comes before the first of a separator, and what comes after it. -/
theorem append_cons_inj {c : Char} {l l' r r' : List Char} (h : c ∉ l) (h' : c ∉ l')
    (heq : l ++ c :: r = l' ++ c :: r') : l = l' ∧ r = r' := by
  induction l generalizing l' with
  | nil =>
    cases l' with
    | nil => exact ⟨rfl, (List.cons.inj heq).2⟩
    | cons a l' => exact absurd (List.mem_cons.mpr (.inl (List.cons.inj heq).1)) h'
  | cons a l ih =>
    cases l' with
    | nil => exact absurd (List.mem_cons.mpr (.inl (List.cons.inj heq).1.symm)) h
    | cons b l' =>
      obtain ⟨rfl, hrest⟩ := List.cons.inj heq
      obtain ⟨rfl, rfl⟩ := ih (fun hc => h (.tail _ hc)) (fun hc => h' (.tail _ hc)) hrest
      exact ⟨rfl, rfl⟩

theorem mem_intersperse {c sep : List Char} {l : List (List Char)} (h : c ∈ l.intersperse sep) :
    c = sep ∨ c ∈ l := by
  induction l with
  | nil => cases h
  | cons a l ih =>
    cases l with
    | nil => exact .inr h
    | cons b l =>
      rw [List.intersperse_cons_cons] at h
      rcases List.mem_cons.mp h with rfl | h
      · exact .inr (List.mem_cons_self ..)
      · rcases List.mem_cons.mp h with rfl | h
        · exact .inl rfl
        · exact (ih h).imp_right (List.mem_cons_of_mem _)

/-- A UUID has no slash and no dot. -/
theorem notMem_of_isUuid {id : String} (h : isUuid id = true) {c : Char} (hc : c = '/' ∨ c = '.') :
    c ∉ id.toList := by
  intro hmem
  have hjoined : ['-'].intercalate (id.toList.splitOn '-') = id.toList :=
    List.intercalate_splitOn '-'
  rw [← hjoined, List.intercalate, List.mem_flatten] at hmem
  obtain ⟨g, hg, hcg⟩ := hmem
  rcases mem_intersperse hg with rfl | hg
  · obtain rfl := List.mem_singleton.mp hcg
    rcases hc with hc | hc <;> cases hc
  · simp only [isUuid, Bool.and_eq_true, List.all_eq_true] at h
    have hhex := h.2 g hg c hcg
    rcases hc with rfl | rfl <;> revert hhex <;> decide

theorem notMem_extension (t : ContentType) : '.' ∉ t.extension.toList := by
  cases t <;> decide

/-- The id can be read off the key: it is what stands between the last slash and the last dot. -/
theorem objectKey_id {user user' id id' : String} {t t' : ContentType} (hid : isUuid id = true)
    (hid' : isUuid id' = true) (h : objectKey user id t = objectKey user' id' t') : id = id' := by
  have hlist := congrArg (fun k : String => k.toList.reverse) h
  simp only [objectKey, String.toList_append, List.reverse_append, List.append_assoc] at hlist
  change t.extension.toList.reverse ++ '.' :: (id.toList.reverse ++ '/' :: _) =
    t'.extension.toList.reverse ++ '.' :: (id'.toList.reverse ++ '/' :: _) at hlist
  obtain ⟨-, hrest⟩ := append_cons_inj (by simpa using notMem_extension t)
    (by simpa using notMem_extension t') hlist
  obtain ⟨hids, -⟩ := append_cons_inj (by simpa using notMem_of_isUuid hid (.inl rfl))
    (by simpa using notMem_of_isUuid hid' (.inl rfl)) hrest
  exact String.toList_injective (List.reverse_injective hids)

/-! ## What an intent does next -/

/-- The ids that are drawn. -/
def IntentPc.draws (files : List FileRow) (user : AuthUser) (body : IntentBody)
    (key : Option String) : IntentPc → Bool
  | .begin => body.parse.isSome && (truthy key).isNone
  | .selectKey _ k => (findByKey files user.id k).isNone
  | _ => false

/-- The id that the call has drawn and not used yet. -/
def intentAwaits : Progress IntentPc → Option String
  | .running (.createMultipart _ id) | .running (.insert _ id _) => some id
  | _ => none

/-- The row is found for this user and this key. -/
def Mine (rows : List FileRow) (user : AuthUser) (key : Option String) (x : String × String) :
    Prop :=
  ∃ r ∈ rows, x = (r.id, r.key) ∧ r.ownerId = user.id ∧ r.idempotencyKey = key

/-- What the row of an intent is made of. -/
def FileRow.Made (r : FileRow) : Prop :=
  isUuid r.id = true ∧ r.key = objectKey r.ownerId r.id r.contentType ∧ r.size ≤ maxObject

/-- What an intent knows at each of its points, whatever happened to its requests. -/
def IntentKnows (rows : List FileRow) (user : AuthUser) (body : IntentBody) (key : Option String) :
    Progress IntentPc → Prop
  | .running (.selectKey x k) => body.parse = some x ∧ truthy key = some k
  | .running (.createMultipart x id) | .running (.insert x id _) =>
    body.parse = some x ∧ isUuid id = true ∧ ∀ r ∈ rows, r.id ≠ id
  | .running (.reselect k _) => truthy key = some k
  | .running (.describe row) | .running (.sign row _ _ _ _) =>
    Mine rows user key (row.id, row.key) ∧ row.size ≤ maxObject
  | .ended (.described d) => Mine rows user key (d.id, d.key)
  | _ => True

/-- How an intent whose requests are all answered is doing; `clash` says that the unique index has
refused its row although it has no key to look for. -/
def IntentFares (rows : List FileRow) (user : AuthUser) (body : IntentBody) (key : Option String)
    (clash : Prop) : Progress IntentPc → Prop
  | .running (.abort _ _ _ f) => f = .uniqueViolation ∧ (clash ↔ truthy key = none) ∧
      ∀ k, truthy key = some k → ∃ x, Mine rows user (some k) x
  | .running (.reselect k _) => ¬ clash ∧ ∃ x, Mine rows user (some k) x
  | .running _ => ¬ clash
  | .ended (.described _) => ¬ clash
  | .ended (.refused _) => body.parse = none
  | .ended (.thrown _) => clash
  | .ended _ => False

/-- The index refuses the row of an intent with the empty key. -/
def Clashes (rows : List FileRow) (user : AuthUser) (key : Option String) : IntentPc → Prop
  | .insert _ _ _ => key = some "" ∧ ∃ x, Mine rows user (some "") x
  | _ => False

section Rows

variable {s : FileService} {user : AuthUser} {key : Option String} {k : String} {row : FileRow}
  {body : IntentBody} {x : Intent} {id : String}

theorem mine_of_find (h : findByKey s.files user.id k = some row) :
    Mine s.rows user (some k) (row.id, row.key) := by
  obtain ⟨hmem, howner, hkey⟩ := findByKey_eq_some h
  exact ⟨row.fixed, List.mem_map_of_mem hmem, rfl, howner, hkey⟩

/-- A row that is there is found. -/
theorem find_of_mine {y : String × String} (h : Mine s.rows user (some k) y) :
    ∃ row, findByKey s.files user.id k = some row := by
  obtain ⟨r, hr, -, howner, hkey⟩ := h
  obtain ⟨r₀, hr₀, rfl⟩ := List.mem_map.mp hr
  refine Option.isSome_iff_exists.mp (List.find?_isSome.mpr ⟨r₀, hr₀, ?_⟩)
  exact decide_eq_true ⟨howner, hkey⟩

theorem truthy_none (h : truthy key = none) : key = none ∨ key = some "" := by
  rcases key with _ | k
  · exact .inl rfl
  · by_cases hk : k = ""
    · exact .inr (congrArg some hk)
    · rw [truthy, Option.filter_some, if_pos (by simpa using hk)] at h
      cases h

/-- A new id is a new key, so only the index of the keys of its owner can refuse the row. -/
theorem duplicate_iff {uploadId : Option UploadId} (hmade : ∀ r ∈ s.rows, r.Made)
    (hid : isUuid id = true) (hnew : ∀ r ∈ s.rows, r.id ≠ id) :
    (x.row user.id id uploadId key).Duplicate s.files ↔
      key ≠ none ∧ ∃ y, Mine s.rows user key y := by
  constructor
  · rintro ⟨r, hr, hsame | hsame | ⟨hkey, howner, hidem⟩⟩
    · exact absurd hsame (hnew r.fixed (List.mem_map_of_mem hr))
    · obtain ⟨huuid, hobject, -⟩ := hmade r.fixed (List.mem_map_of_mem hr)
      refine absurd (objectKey_id huuid hid (hobject.symm.trans hsame)) ?_
      exact hnew r.fixed (List.mem_map_of_mem hr)
    · exact ⟨hkey, _, r.fixed, List.mem_map_of_mem hr, rfl, howner, hidem⟩
  · rintro ⟨hkey, y, r, hr, -, howner, hidem⟩
    obtain ⟨r₀, hr₀, rfl⟩ := List.mem_map.mp hr
    exact ⟨r₀, hr₀, .inr (.inr ⟨hkey, howner, hidem⟩)⟩

end Rows

/-- How one request moves an intent on. -/
structure Progresses (s e : FileService) (user : AuthUser) (body : IntentBody)
    (key : Option String) (id : String) (pc : IntentPc) (p : Progress IntentPc) : Prop where
  rows : e.rows = s.rows ∨ ∃ row : FileRow, e.rows = s.rows ++ [row] ∧ row.Made ∧
    row.ownerId = user.id ∧ row.idempotencyKey = key ∧
    (key ≠ none → ∀ y, ¬ Mine s.rows user key y) ∧
    intentAwaits (.running pc) = some row.id ∧ intentAwaits p = none
  awaits : ∀ id', intentAwaits p = some id' → intentAwaits (.running pc) = some id' ∨
    (pc.draws s.files user body key = true ∧ id' = id)
  knows : IntentKnows e.rows user body key p
  fares : ∀ clash, IntentFares s.rows user body key clash (.running pc) →
    IntentFares e.rows user body key (clash ∨ Clashes s.rows user key pc) p

section Requests

variable {rt : FileRuntime} {s s' : FileService} {i : ℕ} {user : AuthUser} {body : IntentBody}
  {key : Option String} {d : FileDraw} {pc : IntentPc} {x : Intent} {id k : String}
  {uploadId : Option UploadId} {f : Failure} {rows : List FileRow} {clash : Prop}

/-- The end of the `catch` block, of an intent whose requests may have failed. -/
theorem catchEnd_knows : IntentKnows rows user body key (catchEnd key f) ∧
    intentAwaits (catchEnd key f) = none := by
  unfold catchEnd
  split
  · rename_i k hk
    split_ifs
    · exact ⟨hk, rfl⟩
    · exact ⟨trivial, rfl⟩
  · exact ⟨trivial, rfl⟩

theorem catchInsert_knows : IntentKnows rows user body key (catchInsert key x id uploadId f) ∧
    intentAwaits (catchInsert key x id uploadId f) = none := by
  rcases uploadId with _ | u
  · exact catchEnd_knows
  · exact ⟨trivial, rfl⟩

/-- The end of the `catch` block after a unique violation: with a key to look for, the row is
there; without one, the intent fails. -/
theorem catchEnd_fares (hclash : clash ↔ truthy key = none)
    (hfound : ∀ k, truthy key = some k → ∃ x, Mine rows user (some k) x) :
    IntentFares rows user body key clash (catchEnd key .uniqueViolation) := by
  unfold catchEnd
  split
  · rename_i k hk
    rw [if_pos rfl]
    refine ⟨fun h => ?_, hfound k hk⟩
    rw [hclash, hk] at h
    cases h
  · rename_i hk
    exact hclash.mpr hk

theorem catchInsert_fares (hclash : clash ↔ truthy key = none)
    (hfound : ∀ k, truthy key = some k → ∃ x, Mine rows user (some k) x) :
    IntentFares rows user body key clash (catchInsert key x id uploadId .uniqueViolation) := by
  rcases uploadId with _ | u
  · exact catchEnd_fares hclash hfound
  · exact ⟨rfl, hclash, hfound⟩

/-- The `INSERT`. -/
theorem insert_progresses {e : FileService} {p : Progress IntentPc}
    (hmade : ∀ r ∈ s.rows, r.Made)
    (hknows : IntentKnows s.rows user body key (.running (.insert x id uploadId)))
    (hdup : (x.row user.id id uploadId key).Duplicate s.files → e.rows = s.rows ∧
      p = catchInsert key x id uploadId .uniqueViolation)
    (hins : ¬ (x.row user.id id uploadId key).Duplicate s.files →
      e.rows = s.rows ++ [x.row user.id id uploadId key] ∧
        p = .running (.describe (x.row user.id id uploadId key))) {id' : String} :
    Progresses s e user body key id' (.insert x id uploadId) p := by
  obtain ⟨hx, hid, hnew⟩ := hknows
  have hiff : (x.row user.id id uploadId key).Duplicate s.files ↔
      key ≠ none ∧ ∃ y, Mine s.rows user key y := duplicate_iff hmade hid hnew
  by_cases hrefused : (x.row user.id id uploadId key).Duplicate s.files
  · obtain ⟨hrows, rfl⟩ := hdup hrefused
    obtain ⟨hkey, hmine⟩ := hiff.mp hrefused
    have hcatch :
        IntentKnows s.rows user body key (catchInsert key x id uploadId .uniqueViolation) ∧
        intentAwaits (catchInsert key x id uploadId .uniqueViolation) = none := catchInsert_knows
    obtain ⟨hknows, hawaits⟩ := hcatch
    refine ⟨.inl hrows, fun id' hid' => ?_, hrows ▸ hknows, fun clash hfares => ?_⟩
    · cases hawaits.symm.trans hid'
    · rw [hrows]
      refine catchInsert_fares ?_ fun k hk => ?_
      · constructor
        · rintro (hclash | ⟨rfl, -⟩)
          · exact absurd hclash hfares
          · rfl
        · intro hnone
          -- an empty key is none for the lookup, and a key for the index
          have hempty : key = some "" := (truthy_none hnone).resolve_left hkey
          exact .inr ⟨hempty, hempty ▸ hmine⟩
      · rw [← truthy_eq_some hk]
        exact hmine
  · obtain ⟨hrows, rfl⟩ := hins hrefused
    have hsize := (parse_size hx).2
    have hself : Mine e.rows user key (id, objectKey user.id id x.contentType) :=
      ⟨x.row user.id id uploadId key, hrows ▸ List.mem_append_right _ (List.mem_singleton_self _),
        rfl, rfl, rfl⟩
    refine ⟨.inr ⟨_, hrows, ⟨hid, rfl, hsize⟩, rfl, rfl, fun hkey y hy => ?_, rfl, rfl⟩,
      ?_, ⟨hself, hsize⟩, fun clash hfares => ?_⟩
    · exact hrefused (hiff.mpr ⟨hkey, y, hy⟩)
    · rintro id' ⟨⟩
    · rintro (hclash | ⟨rfl, hmine⟩)
      · exact hfares hclash
      · exact hrefused (hiff.mpr ⟨Option.some_ne_none _, hmine⟩)

/-- A request that changes no rows, and draws no id. -/
theorem Progresses.quiet {e : FileService} {p : Progress IntentPc} (hrows : e.rows = s.rows)
    (hpc : ¬ Clashes s.rows user key pc) (hawaits : intentAwaits p = none)
    (hknows : IntentKnows s.rows user body key p)
    (hfares : ∀ clash, IntentFares s.rows user body key clash (.running pc) →
      IntentFares s.rows user body key clash p) :
    Progresses s e user body key id pc p where
  rows := .inl hrows
  awaits := fun id' hid' => by cases hawaits.symm.trans hid'
  knows := hrows ▸ hknows
  fares := fun clash h => by
    rw [hrows, or_iff_left hpc]
    exact hfares clash h

/-- An id is drawn. -/
theorem draws_progresses (hpc : ¬ Clashes s.rows user key pc)
    (hdraws : pc.draws s.files user body key = true) (hx : body.parse = some x)
    (hid : isUuid id = true) (hnew : ∀ r ∈ s.rows, r.id ≠ id)
    (hfares : ∀ clash, IntentFares s.rows user body key clash (.running pc) → ¬ clash) :
    Progresses s s user body key id pc (.running (x.create rt id)) := by
  have hcreate : intentAwaits (.running (x.create rt id)) = some id ∧
      IntentKnows s.rows user body key (.running (x.create rt id)) ∧
      ∀ clash, ¬ clash → IntentFares s.rows user body key clash (.running (x.create rt id)) := by
    unfold Intent.create
    split_ifs
    · exact ⟨rfl, ⟨hx, hid, hnew⟩, fun _ h => h⟩
    · exact ⟨rfl, ⟨hx, hid, hnew⟩, fun _ h => h⟩
  refine ⟨.inl rfl, fun id' hid' => .inr ⟨hdraws, ?_⟩, hcreate.2.1, fun clash h => ?_⟩
  · exact Option.some.inj (hid'.symm.trans hcreate.1)
  · rw [or_iff_left hpc]
    exact hcreate.2.2 clash (hfares clash h)

/-- A row is found by the key. -/
theorem found_progresses {row : FileRow} (hmade : ∀ r ∈ s.rows, r.Made)
    (hpc : ¬ Clashes s.rows user key pc) (hk : truthy key = some k)
    (hrow : findByKey s.files user.id k = some row)
    (hfares : ∀ clash, IntentFares s.rows user body key clash (.running pc) → ¬ clash) :
    Progresses s s user body key id pc (.running (.describe row)) := by
  have hmine := mine_of_find hrow
  rw [← truthy_eq_some hk] at hmine
  have hsize : row.fixed.size ≤ maxObject :=
    (hmade row.fixed (List.mem_map_of_mem (findByKey_eq_some hrow).1)).2.2
  exact .quiet rfl hpc rfl ⟨hmine, hsize⟩ hfares

/-- **The request of an intent**, and the code up to the next one. -/
theorem intentExec_progresses (hmade : ∀ r ∈ s.rows, r.Made)
    (hknows : IntentKnows s.rows user body key (.running pc))
    (hfresh : pc.draws s.files user body key = true → ∀ r ∈ s.rows, r.id ≠ d.id)
    (hs : s.intentExec rt i user body key d pc = some s') :
    ∃ e p, s' = e.setCall i (.intent user body key p) ∧ e.calls = s.calls ∧
      Progresses s e user body key d.id pc p := by
  cases pc with
  | begin =>
    simp only [FileService.intentExec] at hs
    split at hs
    · rename_i hinvalid
      obtain rfl := Option.some.inj hs
      exact ⟨s, _, rfl, rfl, .quiet rfl id rfl trivial fun _ _ => hinvalid⟩
    · rename_i x hx
      split at hs
      · rename_i k hk
        obtain rfl := Option.some.inj hs
        exact ⟨s, _, rfl, rfl, .quiet rfl id rfl ⟨hx, hk⟩ fun _ h => h⟩
      · rename_i hk
        split_ifs at hs with hid
        obtain rfl := Option.some.inj hs
        have hdraws : IntentPc.draws s.files user body key .begin = true := by
          simp [IntentPc.draws, hx, hk]
        exact ⟨s, _, rfl, rfl,
          draws_progresses not_false hdraws hx hid (hfresh hdraws) fun _ h => h⟩
  | selectKey x k =>
    obtain ⟨hx, hk⟩ := hknows
    simp only [FileService.intentExec] at hs
    split at hs
    · rename_i row hrow
      obtain rfl := Option.some.inj hs
      exact ⟨s, _, rfl, rfl, found_progresses hmade not_false hk hrow fun _ h => h⟩
    · rename_i hnone
      split_ifs at hs with hid
      obtain rfl := Option.some.inj hs
      have hdraws : IntentPc.draws s.files user body key (.selectKey x k) = true := by
        simp [IntentPc.draws, hnone]
      exact ⟨s, _, rfl, rfl,
        draws_progresses not_false hdraws hx hid (hfresh hdraws) fun _ h => h⟩
  | createMultipart x id =>
    simp only [FileService.intentExec] at hs
    split at hs
    · cases hs
    · rename_i s3 hs3
      obtain rfl := Option.some.inj hs
      refine ⟨{ s with s3 }, _, rfl, rfl, .inl rfl, fun id' hid' => .inl hid', hknows,
        fun clash h => ?_⟩
      rw [or_iff_left (show ¬ Clashes s.rows user key (.createMultipart x id) from not_false)]
      exact h
  | insert x id uploadId =>
    simp only [FileService.intentExec] at hs
    split_ifs at hs with hdup
    · obtain rfl := Option.some.inj hs
      exact ⟨s, _, rfl, rfl, insert_progresses hmade hknows (fun _ => ⟨rfl, rfl⟩)
        fun hnot => absurd hdup hnot⟩
    · obtain rfl := Option.some.inj hs
      refine ⟨{ s with files := s.files ++ [x.row user.id id uploadId key] }, _, rfl, rfl,
        insert_progresses hmade hknows (fun h => absurd h hdup) fun _ => ⟨?_, rfl⟩⟩
      exact List.map_append
  | abort x id u f =>
    have hfares : ∀ clash, IntentFares s.rows user body key clash (.running (.abort x id u f)) →
        IntentFares s.rows user body key clash (catchEnd key f) := by
      rintro clash ⟨rfl, hclash, hfound⟩
      exact catchEnd_fares hclash hfound
    have hcatch : IntentKnows s.rows user body key (catchEnd key f) ∧
        intentAwaits (catchEnd key f) = none := catchEnd_knows
    simp only [FileService.intentExec] at hs
    split at hs
    · obtain rfl := Option.some.inj hs
      exact ⟨s, _, rfl, rfl, .quiet rfl not_false hcatch.2 hcatch.1 hfares⟩
    · rename_i s3 hs3
      obtain rfl := Option.some.inj hs
      exact ⟨{ s with s3 }, _, rfl, rfl, .quiet rfl not_false hcatch.2 hcatch.1 hfares⟩
  | reselect k f =>
    simp only [FileService.intentExec] at hs
    split at hs
    · rename_i row hrow
      obtain rfl := Option.some.inj hs
      exact ⟨s, _, rfl, rfl, found_progresses hmade not_false hknows hrow fun _ h => h.1⟩
    · rename_i hnone
      obtain rfl := Option.some.inj hs
      refine ⟨s, _, rfl, rfl, .quiet rfl not_false rfl trivial fun clash h => ?_⟩
      -- the row that refused this one is still there
      obtain ⟨-, y, hmine⟩ := h
      obtain ⟨row, hrow⟩ := find_of_mine hmine
      cases hnone.symm.trans hrow
  | describe row =>
    obtain ⟨hmine, hsize⟩ := hknows
    simp only [FileService.intentExec] at hs
    split at hs
    · obtain rfl := Option.some.inj hs
      exact ⟨s.signUrl _, _, rfl, rfl, .quiet rfl not_false rfl hmine fun _ h => h⟩
    · split at hs
      · rename_i hnone
        -- a size that was accepted has a plan
        obtain ⟨partSize, hsome, -⟩ := computePartSize_spec hsize
        cases hnone.symm.trans hsome
      · obtain rfl := Option.some.inj hs
        exact ⟨s, _, rfl, rfl, .quiet rfl not_false rfl ⟨hmine, hsize⟩ fun _ h => h⟩
  | sign row u partSize todo parts =>
    cases todo with
    | nil =>
      obtain rfl := Option.some.inj hs
      exact ⟨s, _, rfl, rfl, .quiet rfl not_false rfl hknows.1 fun _ h => h⟩
    | cons n todo =>
      obtain rfl := Option.some.inj hs
      exact ⟨s.signUrl _, _, rfl, rfl, .quiet rfl not_false rfl hknows fun _ h => h⟩

end Requests

end Marketplace
