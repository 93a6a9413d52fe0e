import Marketplace.CommitCourse
import Marketplace.IntentRequests

/-!
# The empty Idempotency-Key

Whether there is a key is asked three times: `intent` looks a row up if the key is truthy, inserts
`idempotencyKey ?? null`, and after a unique violation looks the row up again if the key is truthy.
The empty string is not truthy, but it is not null either. So a second intent of an owner with an
empty key does not look for the first, is refused by the unique index, and does not recover.

All other intents whose requests are answered succeed, also in a race, and whatever happens to the
requests of the others (`intent_succeeds_iff`). Of `randomUUID` it is assumed that it draws no id
twice in a run. And they do end: each request of an intent leaves it with fewer to come.
-/

namespace Marketplace

/-! ## Every event -/

/-- The ids that `randomUUID` draws in the event. -/
def FileService.drawn (s : FileService) : FileEvent → List String
  | .exec i d | .loseAnswer i d =>
    match s.calls i with
    | some (.intent user body key (.running pc)) =>
      if pc.draws s.files user body key then [d.id] else []
    | _ => []
  | _ => []

/-- The call whose row is refused because of the empty key: it inserts the empty key, and its owner
has a row with the empty key. -/
def FileService.clashes (s : FileService) : FileEvent → List ℕ
  | .exec i _ =>
    match s.calls i with
    | some (.intent user _ (some "") (.running (.insert _ _ _))) =>
      if ∃ r ∈ s.files, r.ownerId = user.id ∧ r.idempotencyKey = some "" then [i] else []
    | _ => []
  | _ => []

/-- The requests of call `i` are answered. -/
def AnsweredTo (i : ℕ) (_ : FileService) : FileEvent → Prop
  | .fail j | .loseAnswer j _ | .crash j => j ≠ i
  | _ => True

/-- What an event means for the intents. -/
inductive Turn (rt : FileRuntime) (s : FileService) : FileEvent → FileService → Prop
  /-- nothing -/
  | others {a : FileEvent} {e : FileService} (hrows : e.rows = s.rows)
    (hcalls : ∀ j user body key p, e.calls j = some (.intent user body key p) ↔
      s.calls j = some (.intent user body key p))
    (hdrawn : s.drawn a = []) (hclashes : s.clashes a = []) : Turn rt s a e
  | begins {i : ℕ} {user : AuthUser} {body : IntentBody} {key : Option String}
    (hnone : s.calls i = none) :
    Turn rt s (.intent i user body key) (s.setCall i (.intent user body key (.running .begin)))
  | requests {i : ℕ} {user : AuthUser} {body : IntentBody} {key : Option String} {pc : IntentPc}
    {d : FileDraw} {s' : FileService} (hc : s.calls i = some (.intent user body key (.running pc)))
    (hs : s.intentExec rt i user body key d pc = some s') : Turn rt s (.exec i d) s'
  | loses {i : ℕ} {user : AuthUser} {body : IntentBody} {key : Option String} {pc : IntentPc}
    {d : FileDraw} {s' : FileService} (hc : s.calls i = some (.intent user body key (.running pc)))
    (hs : s.intentExec rt i user body key d pc = some s') :
    Turn rt s (.loseAnswer i d) (s'.intentFails i user body key pc)
  | fails {i : ℕ} {user : AuthUser} {body : IntentBody} {key : Option String} {pc : IntentPc}
    (hc : s.calls i = some (.intent user body key (.running pc))) :
    Turn rt s (.fail i) (s.intentFails i user body key pc)
  | crashes {i : ℕ} {user : AuthUser} {body : IntentBody} {key : Option String} {pc : IntentPc}
    (hc : s.calls i = some (.intent user body key (.running pc))) :
    Turn rt s (.crash i) (s.setCall i (.intent user body key (.ended .crashed)))

section Turns

variable {rt : FileRuntime} {s s' e : FileService} {i j : ℕ} {user : AuthUser} {body : IntentBody}
  {key : Option String} {pc : IntentPc} {p : Progress IntentPc} {a : FileEvent}

/-- A call that is no intent goes on, or begins. -/
theorem turn_of_setCall {c : FileCall} (hcalls : e.calls = s.calls) (hrows : e.rows = s.rows)
    (hold : ∀ user body key p, s.calls i ≠ some (.intent user body key p))
    (hnew : ∀ user body key p, c ≠ .intent user body key p)
    (hdrawn : s.drawn a = []) (hclashes : s.clashes a = []) : Turn rt s a (e.setCall i c) := by
  refine .others hrows (fun j user body key p => ?_) hdrawn hclashes
  by_cases hj : j = i
  · subst hj
    rw [FileService.setCall_self]
    constructor
    · exact fun h => absurd (Option.some.inj h) (hnew user body key p)
    · exact fun h => absurd h (hold user body key p)
  · rw [FileService.setCall_ne hcalls hj]

/-- The call is no intent. -/
def FileCall.Other (c : FileCall) : Prop := ∀ user body key p, c ≠ .intent user body key p

theorem FileCall.intent_of_not_other {c : FileCall} (h : ¬ c.Other) :
    ∃ user body key p, c = .intent user body key p := by
  unfold FileCall.Other at h
  push Not at h
  exact h

/-- The request of another call. -/
theorem other_exec {c : FileCall} {d : FileDraw} (h : s.Inv) (hc : s.calls i = some c)
    (hother : c.Other) (hs : s.exec rt i d c = some s') :
    ∃ (e : FileService) (c' : FileCall), s' = e.setCall i c' ∧ e.calls = s.calls ∧
      e.rows = s.rows ∧ c'.Other := by
  have hknows := h.calls i
  rw [hc] at hknows
  rcases c with ⟨user, body, key, p⟩ | ⟨user, id, pc | o⟩ | ⟨user, id, pc | o⟩
  · exact absurd rfl (hother user body key p)
  · obtain ⟨e, p, rfl, hcalls, hmove⟩ := partsExec_stay hs
    exact ⟨e, _, rfl, hcalls, hmove.stores.1, fun _ _ _ _ => by rintro ⟨⟩⟩
  · cases hs
  · obtain ⟨e, p, rfl, hcalls, hmove⟩ := commitExec_moves hknows hs
    exact ⟨e, _, rfl, hcalls, hmove.stores.1, fun _ _ _ _ => by rintro ⟨⟩⟩
  · cases hs

/-- Its request fails, or the process dies. -/
theorem other_stops {c : FileCall} (hother : c.Other)
    (hs : s.fails i c = some s' ∨ s.crashes i c = some s') :
    ∃ c' : FileCall, s' = s.setCall i c' ∧ c'.Other := by
  rcases c with ⟨user, body, key, p⟩ | ⟨user, id, pc | o⟩ | ⟨user, id, pc | o⟩
  · exact absurd rfl (hother user body key p)
  · rcases hs with hs | hs
    · exact ⟨_, (Option.some.inj hs).symm, fun _ _ _ _ => by rintro ⟨⟩⟩
    · exact ⟨_, (Option.some.inj hs).symm, fun _ _ _ _ => by rintro ⟨⟩⟩
  · rcases hs with hs | hs <;> cases hs
  · rcases hs with hs | hs
    · exact ⟨_, (Option.some.inj hs).symm, fun _ _ _ _ => by rintro ⟨⟩⟩
    · exact ⟨_, (Option.some.inj hs).symm, fun _ _ _ _ => by rintro ⟨⟩⟩
  · rcases hs with hs | hs <;> cases hs

/-- What another call does draws no id, and clashes with nothing. -/
theorem other_quiet {c : FileCall} (hc : s.calls i = some c) (hother : c.Other) (d : FileDraw) :
    (∀ user body key p, s.calls i ≠ some (.intent user body key p)) ∧
      s.drawn (.exec i d) = [] ∧ s.drawn (.loseAnswer i d) = [] ∧ s.clashes (.exec i d) = [] := by
  refine ⟨fun user body key p hc' => ?_, ?_, ?_, ?_⟩
  · exact hother user body key p (Option.some.inj (hc.symm.trans hc'))
  all_goals
    rcases c with ⟨user, body, key, p⟩ | ⟨user, id, p⟩ | ⟨user, id, p⟩
    · exact absurd rfl (hother user body key p)
    · simp only [FileService.drawn, FileService.clashes, hc]
    · simp only [FileService.drawn, FileService.clashes, hc]

/-- **Every event** is one of these. -/
theorem turn_of_step (h : s.Inv) (hs : s.step rt a = some s') : Turn rt s a s' := by
  cases a with
  | intent i user body key =>
    obtain ⟨hnone, rfl⟩ := FileService.begin_eq_some hs
    exact .begins hnone
  | parts i user id =>
    obtain ⟨hnone, rfl⟩ := FileService.begin_eq_some hs
    refine turn_of_setCall rfl rfl ?_ (fun _ _ _ _ => by rintro ⟨⟩) rfl rfl
    rintro user body key p hc
    cases hnone.symm.trans hc
  | commit i user id =>
    obtain ⟨hnone, rfl⟩ := FileService.begin_eq_some hs
    refine turn_of_setCall rfl rfl ?_ (fun _ _ _ _ => by rintro ⟨⟩) rfl rfl
    rintro user body key p hc
    cases hnone.symm.trans hc
  | exec i d =>
    obtain ⟨c, hc, hexec⟩ := Option.bind_eq_some_iff.mp hs
    by_cases hother : c.Other
    · obtain ⟨hold, hdrawn, -, hclashes⟩ := other_quiet hc hother d
      obtain ⟨e, c', rfl, hcalls, hrows, hother'⟩ := other_exec h hc hother hexec
      exact turn_of_setCall hcalls hrows hold hother' hdrawn hclashes
    · obtain ⟨user, body, key, pc | o, rfl⟩ := FileCall.intent_of_not_other hother
      · exact .requests hc hexec
      · cases hexec
  | fail i =>
    obtain ⟨c, hc, hfails⟩ := Option.bind_eq_some_iff.mp hs
    by_cases hother : c.Other
    · obtain ⟨hold, -⟩ := other_quiet hc hother ⟨"", 0, "", 0⟩
      obtain ⟨c', rfl, hother'⟩ := other_stops hother (.inl hfails)
      exact turn_of_setCall rfl rfl hold hother' rfl rfl
    · obtain ⟨user, body, key, pc | o, rfl⟩ := FileCall.intent_of_not_other hother
      · obtain rfl := Option.some.inj hfails
        exact .fails hc
      · cases hfails
  | loseAnswer i d =>
    obtain ⟨c, hc, hlost⟩ := Option.bind_eq_some_iff.mp hs
    obtain ⟨s₁, hexec, hfails⟩ := Option.bind_eq_some_iff.mp hlost
    by_cases hother : c.Other
    · obtain ⟨hold, -, hdrawn, -⟩ := other_quiet hc hother d
      obtain ⟨e, c₁, rfl, hcalls, hrows, -⟩ := other_exec h hc hother hexec
      obtain ⟨c', rfl, hother'⟩ := other_stops hother (.inl hfails)
      rw [FileService.setCall_setCall]
      exact turn_of_setCall hcalls hrows hold hother' hdrawn rfl
    · obtain ⟨user, body, key, pc | o, rfl⟩ := FileCall.intent_of_not_other hother
      · obtain rfl := Option.some.inj hfails
        exact .loses hc hexec
      · cases hexec
  | crash i =>
    obtain ⟨c, hc, hcrashes⟩ := Option.bind_eq_some_iff.mp hs
    by_cases hother : c.Other
    · obtain ⟨hold, -⟩ := other_quiet hc hother ⟨"", 0, "", 0⟩
      obtain ⟨c', rfl, hother'⟩ := other_stops hother (.inr hcrashes)
      exact turn_of_setCall rfl rfl hold hother' rfl rfl
    · obtain ⟨user, body, key, pc | o, rfl⟩ := FileCall.intent_of_not_other hother
      · obtain rfl := Option.some.inj hcrashes
        exact .crashes hc
      · cases hcrashes
  | put url length etag =>
    simp only [FileService.step] at hs
    split_ifs at hs
    obtain rfl := Option.some.inj hs
    obtain ⟨hmove, hcalls⟩ := receive_moves s length etag url.target
    exact .others hmove.stores.1 (fun j user body key p => by rw [hcalls]) rfl rfl
  | tick seconds =>
    obtain rfl := Option.some.inj hs
    exact .others rfl (fun _ _ _ _ _ => Iff.rfl) rfl rfl

end Turns

/-! ## Runs -/

/-- Call `j` has drawn the id and not used it yet. -/
def FileService.Awaits (s : FileService) (j : ℕ) (id : String) : Prop :=
  ∃ user body key p, s.calls j = some (.intent user body key p) ∧ intentAwaits p = some id

/-- What the intents keep, whatever happens to their requests, after these ids have been drawn. -/
structure IntentsKept (ids : List String) (s : FileService) : Prop where
  made : ∀ r ∈ s.rows, r.Made
  keys : ∀ r ∈ s.rows, ∀ r' ∈ s.rows, r.ownerId = r'.ownerId →
    r.idempotencyKey = r'.idempotencyKey → r.idempotencyKey ≠ none → r = r'
  used : ∀ r ∈ s.rows, r.id ∈ ids
  knows : ∀ j user body key p, s.calls j = some (.intent user body key p) →
    IntentKnows s.rows user body key p
  awaits : ∀ j id, s.Awaits j id → id ∈ ids ∧ ∀ j', s.Awaits j' id → j' = j

section Runs

variable {rt : FileRuntime} {s s' e : FileService} {i j : ℕ} {user : AuthUser} {body : IntentBody}
  {key : Option String} {pc : IntentPc} {p : Progress IntentPc} {a : FileEvent}
  {ids new : List String} {rows : List FileRow} {row : FileRow} {clash : Prop}

theorem Mine.snoc {x : String × String} (h : Mine rows user key x) :
    Mine (rows ++ [row]) user key x := by
  obtain ⟨r, hr, hx⟩ := h
  exact ⟨r, List.mem_append_left _ hr, hx⟩

/-- A row that is inserted with another id than the call's leaves true what the call knows. -/
theorem IntentKnows.snoc (h : IntentKnows rows user body key p)
    (hrow : ∀ id, intentAwaits p = some id → row.id ≠ id) :
    IntentKnows (rows ++ [row]) user body key p := by
  have hnew : ∀ id, intentAwaits p = some id → (∀ r ∈ rows, r.id ≠ id) →
      ∀ r ∈ rows ++ [row], r.id ≠ id := by
    intro id hid hold r hr
    rcases List.mem_append.mp hr with hr | hr
    · exact hold r hr
    · exact List.mem_singleton.mp hr ▸ hrow id hid
  rcases p with pc | o
  · cases pc with
    | createMultipart x id => exact ⟨h.1, h.2.1, hnew id rfl h.2.2⟩
    | insert x id uploadId => exact ⟨h.1, h.2.1, hnew id rfl h.2.2⟩
    | describe row => exact ⟨h.1.snoc, h.2⟩
    | sign row u partSize todo parts => exact ⟨h.1.snoc, h.2⟩
    | begin | selectKey | abort | reselect => exact h
  · cases o with
    | described d => exact Mine.snoc h
    | listed | committed | refused | thrown | crashed => trivial

theorem IntentFares.snoc (h : IntentFares rows user body key clash p) :
    IntentFares (rows ++ [row]) user body key clash p := by
  rcases p with pc | o
  · cases pc with
    | abort x id u f =>
      refine ⟨h.1, h.2.1, fun k hk => ?_⟩
      obtain ⟨x, hx⟩ := h.2.2 k hk
      exact ⟨x, hx.snoc⟩
    | reselect k f =>
      obtain ⟨hclash, x, hx⟩ := h
      exact ⟨hclash, x, hx.snoc⟩
    | begin | selectKey | createMultipart | insert | describe | sign => exact h
  · cases o with
    | described | listed | committed | refused | thrown | crashed => exact h

/-- Who has drawn an id and not used it, after call `i` has gone on. -/
theorem awaits_setCall {id : String} (hcalls : e.calls = s.calls) :
    (e.setCall i (.intent user body key p)).Awaits j id ↔
      (j = i ∧ intentAwaits p = some id) ∨ (j ≠ i ∧ s.Awaits j id) := by
  unfold FileService.Awaits
  by_cases hj : j = i
  · subst hj
    simp only [FileService.setCall_self, Option.some.injEq, FileCall.intent.injEq, true_and,
      ne_eq, not_true_eq_false, false_and, or_false]
    constructor
    · rintro ⟨_, _, _, _, ⟨rfl, rfl, rfl, rfl⟩, hid⟩
      exact hid
    · exact fun hid => ⟨_, _, _, _, ⟨rfl, rfl, rfl, rfl⟩, hid⟩
  · simp only [FileService.setCall_ne hcalls hj, hj, false_and, ne_eq, not_false_eq_true,
      true_and, false_or]

/-- **An intent goes on**, to where it knows what it should, and inserts its row perhaps. -/
theorem IntentsKept.moves (h : IntentsKept ids s) (hcalls : e.calls = s.calls)
    (hawaits : ∀ id, intentAwaits p = some id → s.Awaits i id ∨ id ∈ new)
    (hnew : ∀ id ∈ new, id ∉ ids) (hknows : IntentKnows e.rows user body key p)
    (hrows : e.rows = s.rows ∨ ∃ row : FileRow, e.rows = s.rows ++ [row] ∧ row.Made ∧
      row.ownerId = user.id ∧ row.idempotencyKey = key ∧
      (key ≠ none → ∀ y, ¬ Mine s.rows user key y) ∧ s.Awaits i row.id ∧ intentAwaits p = none) :
    IntentsKept (ids ++ new) (e.setCall i (.intent user body key p)) := by
  have hrows' : (e.setCall i (.intent user body key p)).rows = e.rows := rfl
  have hother : ∀ j user' body' key' p', j ≠ i →
      (e.setCall i (.intent user body key p)).calls j = some (.intent user' body' key' p') →
      IntentKnows s.rows user' body' key' p' ∧ ∀ id, intentAwaits p' = some id → s.Awaits j id := by
    intro j user' body' key' p' hj hc
    rw [FileService.setCall_ne hcalls hj] at hc
    exact ⟨h.knows j _ _ _ _ hc, fun id hid => ⟨_, _, _, _, hc, hid⟩⟩
  have hself : ∀ user' body' key' p',
      (e.setCall i (.intent user body key p)).calls i = some (.intent user' body' key' p') →
      IntentKnows e.rows user' body' key' p' := by
    intro user' body' key' p' hc
    rw [FileService.setCall_self] at hc
    obtain ⟨rfl, rfl, rfl, rfl⟩ := FileCall.intent.inj (Option.some.inj hc)
    exact hknows
  have hids : ∀ j id, (e.setCall i (.intent user body key p)).Awaits j id →
      id ∈ ids ++ new ∧ ∀ j', (e.setCall i (.intent user body key p)).Awaits j' id → j' = j := by
    intro j id hj
    rw [awaits_setCall hcalls] at hj
    simp only [awaits_setCall hcalls]
    rcases hj with ⟨rfl, hp⟩ | ⟨hji, hj⟩
    · rcases hawaits id hp with hold | hnewid
      · obtain ⟨hmem, hunique⟩ := h.awaits j id hold
        refine ⟨List.mem_append_left _ hmem, ?_⟩
        rintro j' (⟨hj', -⟩ | ⟨-, hj'⟩)
        · exact hj'
        · exact hunique j' hj'
      · refine ⟨List.mem_append_right _ hnewid, ?_⟩
        rintro j' (⟨hj', -⟩ | ⟨-, hj'⟩)
        · exact hj'
        · exact absurd (h.awaits j' id hj').1 (hnew id hnewid)
    · obtain ⟨hmem, hunique⟩ := h.awaits j id hj
      refine ⟨List.mem_append_left _ hmem, ?_⟩
      rintro j' (⟨rfl, hp⟩ | ⟨-, hj'⟩)
      · rcases hawaits id hp with hold | hnewid
        · exact hunique j' hold
        · exact absurd hmem (hnew id hnewid)
      · exact hunique j' hj'
  rcases hrows with hsame | ⟨row, hrow, hmade, howner, hkey, hfree, hawait, hnone⟩
  · refine ⟨?_, ?_, ?_, fun j user' body' key' p' hc => ?_, hids⟩
    · rw [hrows', hsame]
      exact h.made
    · rw [hrows', hsame]
      exact h.keys
    · rw [hrows', hsame]
      exact fun r hr => List.mem_append_left _ (h.used r hr)
    · by_cases hj : j = i
      · subst hj
        exact hself _ _ _ _ hc
      · rw [hrows', hsame]
        exact (hother j _ _ _ _ hj hc).1
  · obtain ⟨hmem, hunique⟩ := h.awaits i row.id hawait
    -- nobody else has a row with this owner and this key
    have halone : ∀ r ∈ s.rows, r.ownerId = row.ownerId → r.idempotencyKey = row.idempotencyKey →
        row.idempotencyKey = none := by
      intro r hr hro hrk
      by_contra hsome
      exact hfree (hkey ▸ hsome) _ ⟨r, hr, rfl, hro.trans howner, hrk.trans hkey⟩
    refine ⟨?_, ?_, ?_, fun j user' body' key' p' hc => ?_, hids⟩
    · rw [hrows', hrow]
      intro r hr
      rcases List.mem_append.mp hr with hr | hr
      · exact h.made r hr
      · exact List.mem_singleton.mp hr ▸ hmade
    · rw [hrows', hrow]
      intro r hr r' hr' hro hrk hsome
      rcases List.mem_append.mp hr with hold | hlast
      · rcases List.mem_append.mp hr' with hold' | hlast'
        · exact h.keys r hold r' hold' hro hrk hsome
        · obtain rfl := List.mem_singleton.mp hlast'
          exact absurd (hrk.trans (halone r hold hro hrk)) hsome
      · obtain rfl := List.mem_singleton.mp hlast
        rcases List.mem_append.mp hr' with hold' | hlast'
        · exact absurd (halone r' hold' hro.symm hrk.symm) hsome
        · exact (List.mem_singleton.mp hlast').symm
    · rw [hrows', hrow]
      intro r hr
      rcases List.mem_append.mp hr with hr | hr
      · exact List.mem_append_left _ (h.used r hr)
      · exact List.mem_append_left _ (List.mem_singleton.mp hr ▸ hmem)
    · by_cases hj : j = i
      · subst hj
        exact hself _ _ _ _ hc
      · obtain ⟨hknows', hawaits'⟩ := hother j _ _ _ _ hj hc
        rw [hrows', hrow]
        refine hknows'.snoc fun id hid heq => hj ?_
        exact hunique j (heq ▸ hawaits' id hid)

/-- A request that fails leaves the intent with nothing to know. -/
theorem intentFails_knows (s : FileService) (i : ℕ) (user : AuthUser) (body : IntentBody)
    (key : Option String) (pc : IntentPc) :
    ∃ p, s.intentFails i user body key pc = s.setCall i (.intent user body key p) ∧
      intentAwaits p = none ∧ ∀ rows, IntentKnows rows user body key p := by
  cases pc with
  | insert x id uploadId =>
    exact ⟨_, rfl, (@catchInsert_knows user body key x id uploadId _ []).2,
      fun _ => catchInsert_knows.1⟩
  | abort x id u f =>
    exact ⟨_, rfl, (@catchEnd_knows user body key f []).2, fun _ => catchEnd_knows.1⟩
  | _ => exact ⟨_, rfl, rfl, fun _ => trivial⟩

theorem drawn_of_calls {d : FileDraw}
    (hc : s.calls i = some (.intent user body key (.running pc))) :
    s.drawn (.exec i d) = (if pc.draws s.files user body key then [d.id] else []) ∧
      s.drawn (.loseAnswer i d) = if pc.draws s.files user body key then [d.id] else [] := by
  simp only [FileService.drawn, hc, and_self]

/-- An id that is drawn is new. -/
theorem IntentsKept.new_of_draws {d : FileDraw} (h : IntentsKept ids s)
    (hnew : ∀ id ∈ (if pc.draws s.files user body key then [d.id] else []), id ∉ ids)
    (hdraws : pc.draws s.files user body key = true) : ∀ r ∈ s.rows, r.id ≠ d.id := by
  intro r hr heq
  rw [if_pos hdraws] at hnew
  exact hnew d.id (List.mem_singleton_self _) (heq ▸ h.used r hr)

/-- **Every event** keeps what the intents keep. -/
theorem IntentsKept.turn (h : IntentsKept ids s) (ht : Turn rt s a s')
    (hfresh : ∀ id ∈ s.drawn a, id ∉ ids) : IntentsKept (ids ++ s.drawn a) s' := by
  cases ht with
  | others hrows hcalls hdrawn hclashes =>
    rw [hdrawn, List.append_nil]
    have hawaits : ∀ j id, s'.Awaits j id ↔ s.Awaits j id := by
      intro j id
      simp only [FileService.Awaits, hcalls]
    refine ⟨hrows ▸ h.made, hrows ▸ h.keys, hrows ▸ h.used, fun j user body key p hc => ?_,
      fun j id hj => ?_⟩
    · rw [hrows]
      exact h.knows j user body key p ((hcalls ..).mp hc)
    · simp only [hawaits] at hj ⊢
      exact h.awaits j id hj
  | begins hnone =>
    refine h.moves rfl (fun id hid => ?_) hfresh trivial (.inl rfl)
    cases hid
  | @requests i user body key pc d s' hc hs =>
    rw [(drawn_of_calls hc).1] at hfresh ⊢
    obtain ⟨e, p, rfl, hcalls, hprog⟩ :=
      intentExec_progresses h.made (h.knows _ _ _ _ _ hc) (h.new_of_draws hfresh) hs
    refine h.moves hcalls (fun id hid => ?_) hfresh hprog.knows ?_
    · rcases hprog.awaits id hid with hold | ⟨hnew, rfl⟩
      · exact .inl ⟨_, _, _, _, hc, hold⟩
      · exact .inr (by rw [if_pos hnew]; exact List.mem_singleton_self _)
    · refine hprog.rows.imp_right ?_
      rintro ⟨row, hrow, hmade, howner, hkey, hfree, hold, hnone⟩
      exact ⟨row, hrow, hmade, howner, hkey, hfree, ⟨_, _, _, _, hc, hold⟩, hnone⟩
  | @loses i user body key pc d s₁ hc hs =>
    rw [(drawn_of_calls hc).2] at hfresh ⊢
    obtain ⟨e, p, rfl, hcalls, hprog⟩ :=
      intentExec_progresses h.made (h.knows _ _ _ _ _ hc) (h.new_of_draws hfresh) hs
    obtain ⟨p', hp', hnone, hknows⟩ :=
      intentFails_knows (e.setCall i (.intent user body key p)) i user body key pc
    rw [hp', FileService.setCall_setCall]
    refine h.moves hcalls (fun id hid => ?_) hfresh (hknows _) ?_
    · cases hnone.symm.trans hid
    · refine hprog.rows.imp_right ?_
      rintro ⟨row, hrow, hmade, howner, hkey, hfree, hold, -⟩
      exact ⟨row, hrow, hmade, howner, hkey, hfree, ⟨_, _, _, _, hc, hold⟩, hnone⟩
  | @fails i user body key pc hc =>
    obtain ⟨p', hp', hnone, hknows⟩ := intentFails_knows s i user body key pc
    rw [hp']
    refine h.moves rfl (fun id hid => ?_) hfresh (hknows _) (.inl rfl)
    cases hnone.symm.trans hid
  | crashes hc =>
    refine h.moves rfl (fun id hid => ?_) hfresh trivial (.inl rfl)
    cases hid

/-- How call `i` is doing, if its requests have all been answered; these calls have clashed. -/
structure Fares (i : ℕ) (clashed : List ℕ) (s : FileService) : Prop where
  before : (∀ user body key p, s.calls i ≠ some (.intent user body key p)) → i ∉ clashed
  fares : ∀ user body key p, s.calls i = some (.intent user body key p) →
    IntentFares s.rows user body key (i ∈ clashed) p

/-- Who clashes, at its `INSERT`. -/
theorem mem_clashes {d : FileDraw} (hc : s.calls j = some (.intent user body key (.running pc))) :
    i ∈ s.clashes (.exec j d) ↔ i = j ∧ Clashes s.rows user key pc := by
  have hmine : (∃ r ∈ s.files, r.ownerId = user.id ∧ r.idempotencyKey = some "") ↔
      ∃ x, Mine s.rows user (some "") x := by
    constructor
    · rintro ⟨r, hr, howner, hkey⟩
      exact ⟨_, r.fixed, List.mem_map_of_mem hr, rfl, howner, hkey⟩
    · rintro ⟨x, r, hr, -, howner, hkey⟩
      obtain ⟨r₀, hr₀, rfl⟩ := List.mem_map.mp hr
      exact ⟨r₀, hr₀, howner, hkey⟩
  by_cases hkey : key = some ""
  · subst hkey
    cases pc with
    | insert x id uploadId =>
      simp only [FileService.clashes, hc, Clashes, true_and, ← hmine]
      split_ifs with hrow
      · simp [hrow]
      · simp [hrow]
    | _ => simp [FileService.clashes, hc, Clashes]
  · have hnone : ¬ Clashes s.rows user key pc := by
      intro hclash
      cases pc with
      | insert x id uploadId => exact hkey hclash.1
      | _ => exact hclash
    refine iff_of_false (fun hmem => ?_) (fun h => hnone h.2)
    simp only [FileService.clashes, hc] at hmem
    split at hmem
    · rename_i heq
      cases heq
      exact hkey rfl
    · cases hmem

/-- The turn of another call. -/
theorem Fares.other {clashed : List ℕ} {c : FileCall} (h : Fares i clashed s)
    (hcalls : e.calls = s.calls) (hj : i ≠ j)
    (hrows : e.rows = s.rows ∨ ∃ row : FileRow, e.rows = s.rows ++ [row]) :
    Fares i clashed (e.setCall j c) := by
  refine ⟨fun hnot => h.before fun user body key p hc => ?_, fun user body key p hc => ?_⟩
  · exact hnot user body key p ((FileService.setCall_ne hcalls hj).trans hc)
  · have hold := h.fares user body key p ((FileService.setCall_ne hcalls hj).symm.trans hc)
    change IntentFares e.rows user body key _ p
    rcases hrows with hrows | ⟨row, hrows⟩ <;> rw [hrows]
    · exact hold
    · exact hold.snoc

/-- **Every event** in which the requests of call `i` are answered. -/
theorem Fares.turn {clashed : List ℕ} (h : Fares i clashed s) (hsettled : IntentsKept ids s)
    (ht : Turn rt s a s') (hanswered : AnsweredTo i s a) (hfresh : ∀ id ∈ s.drawn a, id ∉ ids) :
    Fares i (clashed ++ s.clashes a) s' := by
  cases ht with
  | others hrows hcalls hdrawn hclashes =>
    rw [hclashes, List.append_nil]
    refine ⟨fun hnot => h.before fun user body key p hc => ?_, fun user body key p hc => ?_⟩
    · exact hnot user body key p ((hcalls ..).mpr hc)
    · rw [hrows]
      exact h.fares user body key p ((hcalls ..).mp hc)
  | @begins j user body key hnone =>
    have hsame : clashed ++ s.clashes (.intent j user body key) = clashed := List.append_nil _
    rw [hsame]
    by_cases hj : i = j
    · subst hj
      have hbefore : i ∉ clashed := by
        refine h.before fun user body key p hc => ?_
        cases hnone.symm.trans hc
      refine ⟨fun hnot => absurd (FileService.setCall_self _) (hnot _ _ _ _), ?_⟩
      intro user' body' key' p hc
      rw [FileService.setCall_self] at hc
      obtain ⟨rfl, rfl, rfl, rfl⟩ := FileCall.intent.inj (Option.some.inj hc)
      exact hbefore
    · exact h.other rfl hj (.inl rfl)
  | @requests j user body key pc d s' hc hs =>
    rw [(drawn_of_calls hc).1] at hfresh
    obtain ⟨e, p, rfl, hcalls, hprog⟩ :=
      intentExec_progresses hsettled.made (hsettled.knows _ _ _ _ _ hc)
        (hsettled.new_of_draws hfresh) hs
    by_cases hj : i = j
    · subst hj
      have hclash : (i ∈ clashed ++ s.clashes (.exec i d)) =
          (i ∈ clashed ∨ Clashes s.rows user key pc) := by
        rw [List.mem_append, mem_clashes hc]
        simp only [true_and]
      refine ⟨fun hnot => absurd (FileService.setCall_self _) (hnot _ _ _ _), ?_⟩
      intro user' body' key' p' hc'
      rw [FileService.setCall_self] at hc'
      obtain ⟨rfl, rfl, rfl, rfl⟩ := FileCall.intent.inj (Option.some.inj hc')
      rw [hclash]
      exact hprog.fares _ (h.fares _ _ _ _ hc)
    · have hclash : i ∉ s.clashes (.exec j d) := fun hmem => hj ((mem_clashes hc).mp hmem).1
      have hgrown : e.rows = s.rows ∨ ∃ row : FileRow, e.rows = s.rows ++ [row] := by
        refine hprog.rows.imp_right ?_
        rintro ⟨row, hrow, -⟩
        exact ⟨row, hrow⟩
      have hstays : Fares i clashed (e.setCall j (.intent user body key p)) :=
        h.other hcalls hj hgrown
      have hiff : (i ∈ clashed ++ s.clashes (.exec j d)) = (i ∈ clashed) := by
        rw [List.mem_append, or_iff_left hclash]
      refine ⟨fun hnot hmem => hstays.before hnot (hiff ▸ hmem), fun _ _ _ _ hc' => ?_⟩
      rw [hiff]
      exact hstays.fares _ _ _ _ hc'
  | @loses j user body key pc d s₁ hc hs =>
    have hj : i ≠ j := Ne.symm hanswered
    rw [(drawn_of_calls hc).2] at hfresh
    obtain ⟨e, p, rfl, hcalls, hprog⟩ :=
      intentExec_progresses hsettled.made (hsettled.knows _ _ _ _ _ hc)
        (hsettled.new_of_draws hfresh) hs
    obtain ⟨p', hp', -⟩ :=
      intentFails_knows (e.setCall j (.intent user body key p)) j user body key pc
    have hsame : clashed ++ s.clashes (.loseAnswer j d) = clashed := List.append_nil _
    rw [hp', FileService.setCall_setCall, hsame]
    refine h.other hcalls hj (hprog.rows.imp_right ?_)
    rintro ⟨row, hrow, -⟩
    exact ⟨row, hrow⟩
  | @fails j user body key pc hc =>
    obtain ⟨p', hp', -⟩ := intentFails_knows s j user body key pc
    have hsame : clashed ++ s.clashes (.fail j) = clashed := List.append_nil _
    rw [hp', hsame]
    exact h.other rfl (Ne.symm hanswered) (.inl rfl)
  | @crashes j user body key pc hc =>
    have hsame : clashed ++ s.clashes (.crash j) = clashed := List.append_nil _
    rw [hsame]
    exact h.other rfl (Ne.symm hanswered) (.inl rfl)

end Runs

/-- **What is kept in every run**, of all intents and of one whose requests are answered. -/
theorem intent_run {rt : FileRuntime} {s₀ s : FileService} {as : List FileEvent} {i : ℕ}
    (hstart : s₀.Start) (hrun : (fileServices rt).run s₀ as = some s)
    (hfresh : ((fileServices rt).trace FileService.drawn s₀ as).Nodup)
    (hanswered : (fileServices rt).Meets (AnsweredTo i) s₀ as) :
    IntentsKept ((fileServices rt).trace FileService.drawn s₀ as) s ∧
      Fares i ((fileServices rt).trace FileService.clashes s₀ as) s := by
  have hkept : s.Inv ∧ IntentsKept ((fileServices rt).trace FileService.drawn s₀ as) s ∧
      Fares i ((fileServices rt).trace FileService.clashes s₀ as) s := by
    refine System.run_induction (M := fileServices rt) (J := fun as s =>
      ((fileServices rt).trace FileService.drawn s₀ as).Nodup →
      (fileServices rt).Meets (AnsweredTo i) s₀ as →
      s.Inv ∧ IntentsKept ((fileServices rt).trace FileService.drawn s₀ as) s ∧
        Fares i ((fileServices rt).trace FileService.clashes s₀ as) s) (fun _ _ => ?_)
      (fun as s a s' hrun ih hs hfresh hanswered => ?_) hrun hfresh hanswered
    · have hrows : s₀.rows = [] := by rw [FileService.rows, hstart.files]; rfl
      have hnot : ∀ j user body key p, s₀.calls j ≠ some (.intent user body key p) := by
        intro j user body key p hc
        cases (hstart.calls j).symm.trans hc
      refine ⟨hstart.inv, ⟨?_, ?_, ?_, fun j user body key p hc => absurd hc (hnot _ _ _ _ _), ?_⟩,
        ⟨fun _ => List.not_mem_nil, fun user body key p hc => absurd hc (hnot _ _ _ _ _)⟩⟩
      · rw [hrows]
        exact fun r hr => absurd hr List.not_mem_nil
      · rw [hrows]
        exact fun r hr => absurd hr List.not_mem_nil
      · rw [hrows]
        exact fun r hr => absurd hr List.not_mem_nil
      · rintro j id ⟨user, body, key, p, hc, -⟩
        exact absurd hc (hnot _ _ _ _ _)
    · rw [System.trace_snoc hrun] at hfresh
      obtain ⟨hsofar, hlast⟩ := hanswered.snoc
      obtain ⟨hinv, hsettled, hfares⟩ := ih (List.nodup_append.mp hfresh).1 hsofar
      have hnew : ∀ id ∈ s.drawn a, id ∉ (fileServices rt).trace FileService.drawn s₀ as :=
        fun id hid hold => (List.nodup_append.mp hfresh).2.2 id hold id hid rfl
      have hturn := turn_of_step hinv hs
      rw [System.trace_snoc hrun, System.trace_snoc hrun]
      exact ⟨fileServices_invariant s a s' hinv hs, hsettled.turn hturn hnew,
        hfares.turn hsettled hturn (hlast s hrun) hnew⟩
  exact hkept.2

/-! ## Intents end -/

/-- How many requests an intent has left, at most. -/
def intentLeft : Progress IntentPc → ℕ
  | .running .begin => maxParts + 8
  | .running (.selectKey ..) => maxParts + 7
  | .running (.createMultipart ..) => maxParts + 6
  | .running (.insert ..) => maxParts + 5
  | .running (.abort ..) => maxParts + 4
  | .running (.reselect ..) => maxParts + 3
  | .running (.describe _) => maxParts + 2
  | .running (.sign _ _ _ todo _) => todo.length + 1
  | .ended _ => 0

section Left

variable {rt : FileRuntime} {s₀ s s' : FileService} {as : List FileEvent} {i : ℕ}
  {user : AuthUser} {body : IntentBody} {key : Option String} {pc : IntentPc}
  {p : Progress IntentPc} {d : FileDraw} {rows : List FileRow} {f : Failure}

theorem left_catchEnd : intentLeft (catchEnd key f) ≤ maxParts + 3 := by
  unfold catchEnd
  split
  · split_ifs
    · exact le_rfl
    · exact Nat.zero_le _
  · exact Nat.zero_le _

theorem left_catchInsert {x : Intent} {id : String} {uploadId : Option UploadId} :
    intentLeft (catchInsert key x id uploadId f) ≤ maxParts + 4 := by
  rcases uploadId with _ | u
  · exact left_catchEnd.trans (Nat.le_succ _)
  · exact le_rfl

theorem left_create {x : Intent} {id : String} :
    intentLeft (.running (x.create rt id)) ≤ maxParts + 6 := by
  unfold Intent.create
  split_ifs
  · exact le_rfl
  · exact Nat.le_succ _

/-- **A request leaves fewer.** -/
theorem intentExec_left (hknows : IntentKnows rows user body key (.running pc))
    (hs : s.intentExec rt i user body key d pc = some s') :
    ∃ p, s'.calls i = some (.intent user body key p) ∧
      intentLeft p < intentLeft (.running pc) := by
  cases pc with
  | begin =>
    simp only [FileService.intentExec] at hs
    split at hs
    · obtain rfl := Option.some.inj hs
      exact ⟨_, FileService.setCall_self _, Nat.succ_pos _⟩
    · split at hs
      · obtain rfl := Option.some.inj hs
        exact ⟨_, FileService.setCall_self _, Nat.lt_succ_self _⟩
      · split_ifs at hs
        obtain rfl := Option.some.inj hs
        exact ⟨_, FileService.setCall_self _, left_create.trans_lt (by decide)⟩
  | selectKey x k =>
    simp only [FileService.intentExec] at hs
    split at hs
    · obtain rfl := Option.some.inj hs
      exact ⟨_, FileService.setCall_self _, Nat.add_lt_add_left (by decide) _⟩
    · split_ifs at hs
      obtain rfl := Option.some.inj hs
      exact ⟨_, FileService.setCall_self _, left_create.trans_lt (Nat.lt_succ_self _)⟩
  | createMultipart x id =>
    simp only [FileService.intentExec] at hs
    split at hs
    · cases hs
    · obtain rfl := Option.some.inj hs
      exact ⟨_, FileService.setCall_self _, Nat.lt_succ_self _⟩
  | insert x id uploadId =>
    simp only [FileService.intentExec] at hs
    split_ifs at hs
    · obtain rfl := Option.some.inj hs
      exact ⟨_, FileService.setCall_self _, left_catchInsert.trans_lt (Nat.lt_succ_self _)⟩
    · obtain rfl := Option.some.inj hs
      exact ⟨_, FileService.setCall_self _, Nat.add_lt_add_left (by decide) _⟩
  | abort x id u f =>
    simp only [FileService.intentExec] at hs
    split at hs
    · obtain rfl := Option.some.inj hs
      exact ⟨_, FileService.setCall_self _, left_catchEnd.trans_lt (Nat.lt_succ_self _)⟩
    · obtain rfl := Option.some.inj hs
      exact ⟨_, FileService.setCall_self _, left_catchEnd.trans_lt (Nat.lt_succ_self _)⟩
  | reselect k f =>
    simp only [FileService.intentExec] at hs
    split at hs
    · obtain rfl := Option.some.inj hs
      exact ⟨_, FileService.setCall_self _, Nat.lt_succ_self _⟩
    · obtain rfl := Option.some.inj hs
      exact ⟨_, FileService.setCall_self _, Nat.succ_pos _⟩
  | describe row =>
    simp only [FileService.intentExec] at hs
    split at hs
    · obtain rfl := Option.some.inj hs
      exact ⟨_, FileService.setCall_self _, Nat.succ_pos _⟩
    · split at hs
      · obtain rfl := Option.some.inj hs
        exact ⟨_, FileService.setCall_self _, Nat.succ_pos _⟩
      · rename_i partSize hsize
        obtain rfl := Option.some.inj hs
        refine ⟨_, FileService.setCall_self _, ?_⟩
        obtain ⟨partSize', hsize', -, -, -, hcount, -⟩ := computePartSize_spec hknows.2
        obtain rfl := Option.some.inj (hsize.symm.trans hsize')
        have hlength : (partNumbers row.size partSize).length ≤ maxParts := by
          rw [partNumbers, List.length_range']
          exact hcount
        exact Nat.succ_lt_succ (Nat.lt_succ_of_le hlength)
  | sign row u partSize todo parts =>
    cases todo with
    | nil =>
      obtain rfl := Option.some.inj hs
      exact ⟨_, FileService.setCall_self _, Nat.succ_pos _⟩
    | cons n todo =>
      obtain rfl := Option.some.inj hs
      exact ⟨_, FileService.setCall_self _, Nat.lt_succ_self _⟩

/-- **The pending request of an intent can run**, with a new upload id and any UUID. -/
theorem intentExec_enabled (hid : isUuid d.id = true) (hupload : s.s3.uploads d.uploadId = none) :
    ∃ s', s.intentExec rt i user body key d pc = some s' := by
  cases pc with
  | begin =>
    simp only [FileService.intentExec, hid, if_true]
    split
    · exact ⟨_, rfl⟩
    · split
      · exact ⟨_, rfl⟩
      · exact ⟨_, rfl⟩
  | selectKey x k =>
    simp only [FileService.intentExec, hid, if_true]
    split
    · exact ⟨_, rfl⟩
    · exact ⟨_, rfl⟩
  | createMultipart x id =>
    simp only [FileService.intentExec, S3.createMultipartUpload, hupload]
    exact ⟨_, rfl⟩
  | insert x id uploadId =>
    simp only [FileService.intentExec]
    split_ifs
    · exact ⟨_, rfl⟩
    · exact ⟨_, rfl⟩
  | abort x id u f =>
    simp only [FileService.intentExec]
    split
    · exact ⟨_, rfl⟩
    · exact ⟨_, rfl⟩
  | reselect k f =>
    simp only [FileService.intentExec]
    split
    · exact ⟨_, rfl⟩
    · exact ⟨_, rfl⟩
  | describe row =>
    simp only [FileService.intentExec]
    split
    · exact ⟨_, rfl⟩
    · split
      · exact ⟨_, rfl⟩
      · exact ⟨_, rfl⟩
  | sign row u partSize todo parts =>
    cases todo with
    | nil => exact ⟨_, rfl⟩
    | cons n todo => exact ⟨_, rfl⟩

theorem AnsweredTo.not_breaks {a : FileEvent} (h : AnsweredTo i s a) : ¬ a.Breaks i := by
  cases a with
  | fail j | loseAnswer j d | crash j => exact h
  | _ => exact fun hbreaks => hbreaks

/-- **An intent whose requests are answered has boundedly many.** -/
theorem left_run (hstart : s₀.Start) (hrun : (fileServices rt).run s₀ as = some s)
    (hfresh : ((fileServices rt).trace FileService.drawn s₀ as).Nodup)
    (hanswered : (fileServices rt).Meets (AnsweredTo i) s₀ as)
    (hc : s.calls i = some (.intent user body key p)) :
    as.countP (FileEvent.runs i) + intentLeft p ≤ maxParts + 8 := by
  refine (System.run_induction (M := fileServices rt) (J := fun as s =>
    ((fileServices rt).trace FileService.drawn s₀ as).Nodup →
    (fileServices rt).Meets (AnsweredTo i) s₀ as →
    (s.calls i = none → as.countP (FileEvent.runs i) = 0) ∧
    ∀ user body key p, s.calls i = some (.intent user body key p) →
      as.countP (FileEvent.runs i) + intentLeft p ≤ maxParts + 8) (fun _ _ => ?_)
    (fun as s a s' hrun ih hs hfresh hanswered => ?_) hrun hfresh hanswered).2 user body key p hc
  · refine ⟨fun _ => rfl, fun user body key p hc => ?_⟩
    cases (hstart.calls i).symm.trans hc
  · rw [System.trace_snoc hrun] at hfresh
    obtain ⟨hsofar, hlast⟩ := hanswered.snoc
    have hfresh' := (List.nodup_append.mp hfresh).1
    obtain ⟨hzero, hleft⟩ := ih hfresh' hsofar
    have hinv : s.Inv := fileServices_invariant.run hstart.inv hrun
    rw [List.countP_append, List.countP_singleton]
    by_cases hexec : ∃ d, a = .exec i d
    · obtain ⟨d, rfl⟩ := hexec
      obtain ⟨c, hc, hexec⟩ := Option.bind_eq_some_iff.mp hs
      have hruns : FileEvent.runs i (.exec i d) = true := decide_eq_true rfl
      rw [if_pos hruns]
      refine ⟨fun hnone => ?_, fun user' body' key' p' hc' => ?_⟩
      · obtain ⟨e, c', -, rfl, -⟩ := FileService.exec_effect hinv hc hexec
        rw [FileService.setCall_self] at hnone
        cases hnone
      · rcases exec_kind hinv hc hexec hc' with ⟨user, body, key, pc, _, rfl, hkind, hintent⟩ |
          ⟨_, _, _, _, -, hkind, -⟩ | ⟨_, _, _, _, -, hkind, -⟩ <;> cases hkind
        obtain ⟨hkept, -⟩ := intent_run hstart hrun hfresh' hsofar
        obtain ⟨p, hp, hless⟩ := intentExec_left (hkept.knows i _ _ _ _ hc) hintent
        cases hc'.symm.trans hp
        have hbefore := hleft _ _ _ _ hc
        omega
    · have hother : ∀ d, a ≠ .exec i d := fun d ha => hexec ⟨d, ha⟩
      rw [if_neg (Bool.eq_false_iff.mp (runs_eq_false hother)), Nat.add_zero]
      rcases hc : s.calls i with _ | c
      · rw [hzero hc]
        refine ⟨fun _ => rfl, fun user body key p hc' => ?_⟩
        obtain rfl : p = .running .begin := call_begins hinv hs hc hc'
        exact (Nat.zero_add _).le
      · have hsame : s'.calls i = some c :=
          hinv.waits hs hother (hlast s hrun).not_breaks hc
        rw [hsame]
        refine ⟨fun hnone => absurd hnone (Option.some_ne_none c), fun user body key p hc' => ?_⟩
        exact hleft user body key p (hc.trans hc')

end Left

/-! ## Which intents succeed -/

/-- The intent `i` of the user has succeeded with `d`, and the other intents of the user with the
same key that have succeeded answer with the same file. -/
def Succeeds (s : FileService) (i : ℕ) (user : AuthUser) (body : IntentBody) (key : Option String)
    (d : UploadDescriptor) : Prop :=
  s.calls i = some (.intent user body key (.ended (.described d))) ∧
    ∀ j user' body' k d', key = some k → user'.id = user.id →
      s.calls j = some (.intent user' body' (some k) (.ended (.described d'))) →
      d.id = d'.id ∧ d.key = d'.key

/-- **Exactly the intents that repeat the empty key fail.** A valid intent whose requests have all
been answered has succeeded, with the file of its key if there is a key, if and only if it has not
inserted an empty key for an owner who had a row with the empty key. And it does end: it can
always go on, and has at most `maxParts + 8` requests. -/
theorem intent_succeeds_iff {rt : FileRuntime} {s₀ s : FileService} {as : List FileEvent} {i : ℕ}
    {user : AuthUser} {body : IntentBody} {key : Option String} {p : Progress IntentPc}
    (hstart : s₀.Start) (hrun : (fileServices rt).run s₀ as = some s)
    (hfresh : ((fileServices rt).trace FileService.drawn s₀ as).Nodup)
    (hanswered : (fileServices rt).Meets (AnsweredTo i) s₀ as) (hvalid : body.parse ≠ none)
    (hcall : s.calls i = some (.intent user body key p)) :
    (∀ o, p = .ended o → ((∃ d, Succeeds s i user body key d) ↔
      i ∉ (fileServices rt).trace FileService.clashes s₀ as)) ∧
    (∀ pc d, p = .running pc → isUuid d.id = true → s.s3.uploads d.uploadId = none →
      ∃ s', (fileServices rt).step s (.exec i d) = some s') ∧
    as.countP (FileEvent.runs i) ≤ maxParts + 8 := by
  obtain ⟨hsettled, hfares⟩ := intent_run hstart hrun hfresh hanswered
  have hfare := hfares.fares user body key _ hcall
  have hleft := left_run hstart hrun hfresh hanswered hcall
  refine ⟨?_, ?_, Nat.le_of_add_right_le hleft⟩
  · rintro o rfl
    constructor
    · rintro ⟨d, hd, -⟩
      obtain ⟨-, -, -, hp⟩ := FileCall.intent.inj (Option.some.inj (hcall.symm.trans hd))
      obtain rfl := Progress.ended.inj hp
      exact hfare
    · intro hclash
      cases o with
      | described d =>
        refine ⟨d, hcall, fun j user' body' k d' hk huser hj => ?_⟩
        obtain ⟨r, hr, hx, howner, hkey⟩ := hsettled.knows _ _ _ _ _ hcall
        obtain ⟨r', hr', hx', howner', hkey'⟩ := hsettled.knows _ _ _ _ _ hj
        obtain ⟨hid, hdk⟩ := Prod.mk.inj hx
        obtain ⟨hid', hdk'⟩ := Prod.mk.inj hx'
        have hsame : r = r' := hsettled.keys r hr r' hr'
          ((howner.trans huser.symm).trans howner'.symm)
          ((hkey.trans hk).trans hkey'.symm) (by rw [hkey, hk]; exact Option.some_ne_none k)
        rw [hid, hid', hdk, hdk', hsame]
        exact ⟨rfl, rfl⟩
      | refused e => exact absurd hfare hvalid
      | thrown f => exact absurd hfare hclash
      | listed v => exact hfare.elim
      | committed v => exact hfare.elim
      | crashed => exact hfare.elim
  · rintro pc d rfl hid hupload
    obtain ⟨s', hexec⟩ : ∃ s', s.intentExec rt i user body key d pc = some s' :=
      intentExec_enabled hid hupload
    exact ⟨s', Option.bind_eq_some_iff.mpr ⟨_, hcall, hexec⟩⟩

/-- A picture. -/
def demoPicture : IntentBody := ⟨"cat.png", "image/png", 1000⟩

/-- Two intents of a customer for a picture, one after the other, with one key. -/
def demoRepeat (key : String) (first second : ℕ) : List FileEvent :=
  let other : FileDraw := ⟨"00000000-0000-4000-8000-000000000002", 8, "whole", 1000⟩
  .intent 0 demoCustomer demoPicture (some key) :: demoRequests 0 first ++
    .intent 1 demoCustomer demoPicture (some key) :: List.replicate second (.exec 1 other)

theorem Answered.answeredTo {s : FileService} {a : FileEvent} {i : ℕ} (h : Answered s a) :
    AnsweredTo i s a := by
  cases a with
  | fail | loseAnswer | crash => exact h.elim
  | _ => trivial

/-- An intent of the customer for the picture that has ended. -/
def demoEnded (key : String) : FileCall → Bool
  | .intent user body key' (.ended _) =>
    decide (user = demoCustomer ∧ body = demoPicture ∧ key' = some key)
  | _ => false

/-- With a key, the second answers with the file of the first. -/
theorem demoRepeat_succeeds :
    ∃ s d d', (fileServices demoFileRuntime).run demoFiles (demoRepeat "tap" 4 3) = some s ∧
      s.answer 0 = some (demoCustomer, some "tap", d) ∧
      Succeeds s 1 demoCustomer demoPicture (some "tap") d' ∧ d'.id = d.id := by
  have hsome : ((fileServices demoFileRuntime).run demoFiles (demoRepeat "tap" 4 3)).any (fun s =>
      (fileServices demoFileRuntime).checks (fun s a => decide (Answered s a)) demoFiles
        (demoRepeat "tap" 4 3) &&
      decide ((fileServices demoFileRuntime).trace FileService.drawn demoFiles
        (demoRepeat "tap" 4 3)).Nodup &&
      decide (1 ∉ (fileServices demoFileRuntime).trace FileService.clashes demoFiles
        (demoRepeat "tap" 4 3)) &&
      (s.answer 0).any (fun x => decide (x.1 = demoCustomer ∧ x.2.1 = some "tap")) &&
      (s.calls 1).any (demoEnded "tap")) = true := by
    decide +kernel
  obtain ⟨s, hrun, h⟩ := (Option.any_eq_true _ _).mp hsome
  simp only [Bool.and_eq_true, decide_eq_true_eq] at h
  obtain ⟨⟨⟨⟨hchecks, hnodup⟩, hclash⟩, hfirst⟩, hsecond⟩ := h
  obtain ⟨⟨user, key, d⟩, hd, hx⟩ := (Option.any_eq_true _ _).mp hfirst
  obtain ⟨rfl, rfl⟩ := of_decide_eq_true hx
  obtain ⟨body, hc⟩ := answer_eq_some hd
  obtain ⟨call, hended, hcall⟩ := (Option.any_eq_true _ _).mp hsecond
  unfold demoEnded at hcall
  split at hcall
  · obtain ⟨rfl, rfl, rfl⟩ := of_decide_eq_true hcall
    obtain ⟨hiff, -, -⟩ := intent_succeeds_iff demoFiles_start hrun hnodup
      (.of_checks (fun _ _ h => (of_decide_eq_true h : Answered _ _).answeredTo) hchecks)
      (by decide +kernel) hended
    obtain ⟨d', hsucceeds⟩ := (hiff _ rfl).mpr hclash
    exact ⟨s, d, d', hrun, hd, hsucceeds, (hsucceeds.2 0 _ body _ d rfl rfl hc).1⟩
  · cases hcall

/-- **A second intent with the empty key fails**, although both are valid, all requests are answered
and no id is drawn twice. -/
theorem empty_key_fails :
    ∃ s, (fileServices demoFileRuntime).run demoFiles (demoRepeat "" 3 2) = some s ∧
      (fileServices demoFileRuntime).Meets Answered demoFiles (demoRepeat "" 3 2) ∧
      ((fileServices demoFileRuntime).trace FileService.drawn demoFiles (demoRepeat "" 3 2)).Nodup ∧
      (∃ d, s.answer 0 = some (demoCustomer, some "", d)) ∧ demoPicture.parse ≠ none ∧
      s.calls 1 = some (.intent demoCustomer demoPicture (some "")
        (.ended (.thrown .uniqueViolation))) := by
  have hsome : ((fileServices demoFileRuntime).run demoFiles (demoRepeat "" 3 2)).any (fun s =>
      (fileServices demoFileRuntime).checks (fun s a => decide (Answered s a)) demoFiles
        (demoRepeat "" 3 2) &&
      decide ((fileServices demoFileRuntime).trace FileService.drawn demoFiles
        (demoRepeat "" 3 2)).Nodup &&
      (s.answer 0).any (fun x => decide (x.1 = demoCustomer ∧ x.2.1 = some "")) &&
      decide (demoPicture.parse ≠ none) &&
      decide (s.calls 1 = some (.intent demoCustomer demoPicture (some "")
        (.ended (.thrown .uniqueViolation))))) = true := by
    decide +kernel
  obtain ⟨s, hrun, h⟩ := (Option.any_eq_true _ _).mp hsome
  simp only [Bool.and_eq_true, decide_eq_true_eq] at h
  obtain ⟨⟨⟨⟨hchecks, hnodup⟩, hfirst⟩, hvalid⟩, hthrown⟩ := h
  obtain ⟨⟨user, key, d⟩, hd, hx⟩ := (Option.any_eq_true _ _).mp hfirst
  obtain ⟨rfl, rfl⟩ := of_decide_eq_true hx
  exact ⟨s, hrun, .of_checks (fun _ _ h => of_decide_eq_true h) hchecks, hnodup, ⟨d, hd⟩, hvalid,
    hthrown⟩

end Marketplace
