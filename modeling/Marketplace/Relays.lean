import Marketplace.Receipts

/-!
# Parallel relays

Any number of passes and checkouts over one outbox, whatever is in it. What a run
*publishes* and what it *marks* are observed step by step: a pair `(k, id)` when the
broker confirms row `id` to pass `k`, and when a COMMIT of pass `k` carries
`published_at` of row `id`.

A row a pass has claimed is locked by it, and was unpublished when it was locked; so no
two passes work on a row at once, and none works on a row that another has marked. What
a pass has published it marks, if it commits. So beyond one, every publication of a row
is by a pass that failed after it.
-/

namespace Marketplace

/-! ## The outbox and its relays -/

/-- The events of checkouts and passes. -/
def PipelineEvent.ofOutbox : PipelineEvent → Bool
  | .checkout _ => true
  | a => a.pass.isSome

/-- Concurrent checkouts and passes, over any outbox. -/
def outboxes (rt : PipelineRuntime) : System Pipeline PipelineEvent where
  start s := s.shop.Start ∧ ∀ k, s.relays k = none
  step s a := if a.ofOutbox then s.step rt a else none

/-- The row that a pass is publishing, once the broker has confirmed it. -/
def Pipeline.published (s : Pipeline) : PipelineEvent → List (ℕ × ℕ)
  | .relayExec k _ =>
    match s.relays k with
    | some ⟨_, .running (.publish b)⟩ => (b.todo.take 1).map fun r => (k, r.id)
    | _ => []
  | _ => []

/-- The rows whose `published_at` these changes set. -/
def markedIds (log : List Change) : List ℕ :=
  log.filterMap fun
    | .setPublished id _ => some id
    | _ => none

/-- The rows whose `published_at` a COMMIT sets. -/
def Pipeline.marked (s : Pipeline) : PipelineEvent → List (ℕ × ℕ)
  | .relayExec k _ | .relayLosesAnswer k =>
    match s.relays k with
    | some ⟨_, .running (.commit _)⟩ => (markedIds (s.db.log (.relay k))).map fun id => (k, id)
    | _ => []
  | _ => []

/-- The pass has ended without a COMMIT. -/
def Pipeline.failed (s : Pipeline) (k : ℕ) : Bool :=
  match s.relays k with
  | some ⟨_, .ended .thrown⟩ | some ⟨_, .ended .crashed⟩ => true
  | _ => false

/-! ## A pass by itself -/

/-- The rows of the batch are distinct, and were unpublished when they were locked. -/
def Batch.Fresh (b : Batch) : Prop :=
  (b.done ++ b.todo.map OutboxRow.id).Nodup ∧ ∀ r ∈ b.rows, r.publishedAt = none

/-- The rows of a pass are distinct and unpublished. -/
def RelayPc.Fresh : RelayPc → Prop
  | .scan => True
  | .lockRows left rows =>
    (rows.map OutboxRow.id ++ left).Nodup ∧ ∀ r ∈ rows, r.publishedAt = none
  | .publish b | .afterPublish b | .markPublished b | .addAttempt b | .commit b => b.Fresh

/-- The rows it has published. -/
def RelayPc.done : RelayPc → List ℕ
  | .scan | .lockRows _ _ => []
  | .publish b | .afterPublish b | .markPublished b | .addAttempt b | .commit b => b.done

theorem Batch.next_cases (b : Batch) :
    b.next = .publish b ∨ b.next = .markPublished b ∨ b.next = .addAttempt b ∨
      b.next = .commit b := by
  unfold Batch.next Batch.afterUpdate
  split_ifs
  · exact .inl rfl
  · exact .inr (.inl rfl)
  · rcases b.failed with _ | id
    · exact .inr (.inr (.inr rfl))
    · exact .inr (.inr (.inl rfl))

theorem Batch.afterUpdate_cases (b : Batch) :
    b.afterUpdate = .addAttempt b ∨ b.afterUpdate = .commit b := by
  unfold Batch.afterUpdate
  rcases b.failed with _ | id
  · exact .inr rfl
  · exact .inl rfl

theorem Batch.Fresh.next {b : Batch} (h : b.Fresh) : b.next.Fresh := by
  rcases b.next_cases with hn | hn | hn | hn <;> rw [hn] <;> exact h

theorem Batch.next_done (b : Batch) : b.next.done = b.done := by
  rcases b.next_cases with hn | hn | hn | hn <;> rw [hn] <;> rfl

theorem Batch.Fresh.afterUpdate {b : Batch} (h : b.Fresh) : b.afterUpdate.Fresh := by
  rcases b.afterUpdate_cases with hn | hn <;> rw [hn] <;> exact h

theorem Batch.afterUpdate_done (b : Batch) : b.afterUpdate.done = b.done := by
  rcases b.afterUpdate_cases with hn | hn <;> rw [hn] <;> rfl

/-- What a step of a pass publishes. -/
def RelayPc.publishes : RelayPc → RelayStatus → List ℕ
  | .publish b, .running (.afterPublish _) => (b.todo.take 1).map OutboxRow.id
  | _, _ => []

/-- What a step of a pass marks. -/
def RelayPc.marks : RelayPc → RelayStatus → List ℕ
  | .commit b, .ended (.returned _) | .commit b, .ended .lost => b.done
  | _, _ => []

theorem markedIds_marks (now : ℕ) (ids : List ℕ) (failed : Option ℕ) :
    markedIds (marks now ids ++ failed.toList.map Change.addAttempt) = ids := by
  have hmarks : markedIds (marks now ids) = ids := by
    simp [markedIds, marks, List.filterMap_map]
  have hattempt : markedIds (failed.toList.map Change.addAttempt) = [] := by
    rcases failed with _ | id <;> rfl
  rw [markedIds, List.filterMap_append]
  exact (congrArg₂ _ hmarks hattempt).trans (List.append_nil _)

section Observed

variable {rt : PipelineRuntime} {s s' : Pipeline} {a : PipelineEvent} {k n n' : ℕ} {pc : RelayPc}
  {st : RelayStatus}

theorem Batch.publishes_next {b b' : Batch} :
    RelayPc.publishes (.publish b) (.running b'.next) = [] := by
  rcases b'.next_cases with hn | hn | hn | hn <;> rw [hn] <;> rfl

/-- Nothing is observed of a pass that has not begun. -/
theorem Pipeline.unobserved (ha : a.pass = some k) (hnone : s.relays k = none) :
    s.published a = [] ∧ s.marked a = [] := by
  cases a with
  | relayExec k' _ | relayLosesAnswer k' =>
    obtain rfl := Option.some.inj ha
    simp [Pipeline.published, Pipeline.marked, hnone]
  | _ => exact ⟨rfl, rfl⟩

/-- A step that marks does not publish. -/
theorem Pipeline.published_of_marked {p : ℕ × ℕ} (hp : p ∈ s.marked a) : s.published a = [] := by
  cases a with
  | relayExec k' now =>
    simp only [Pipeline.marked] at hp
    split at hp
    · rename_i hc
      simp only [Pipeline.published, hc]
    · exact absurd hp List.not_mem_nil
  | _ => rfl

/-- A pass that ends without a COMMIT publishes and marks nothing in its last step. -/
theorem RelayPc.observes_nothing {o : RelayOutcome} (ho : o = .thrown ∨ o = .crashed) :
    pc.publishes (.ended o) = [] ∧ pc.marks (.ended o) = [] := by
  rcases ho with rfl | rfl <;> cases pc <;> exact ⟨rfl, rfl⟩

theorem status_of_setRelay {t : Pipeline} {c : RelayCall} {st' : RelayStatus}
    (h : (t.setRelay k c st').relays k = some ⟨n, st⟩) : st' = st := by
  simp only [Pipeline.setRelay, Function.update_self, Option.some.injEq, RelayCall.mk.injEq] at h
  exact h.2

theorem status_of_relayCrashes {sent : Bool}
    (h : (s.relayCrashes k ⟨n, .running pc⟩ sent pc).relays k = some ⟨n', st⟩) :
    RelayStatus.ended .crashed = st := by
  have hend : (s.relayCrashes k ⟨n, .running pc⟩ sent pc).relays k =
      some ⟨n, .ended .crashed⟩ := by
    cases pc <;> exact Function.update_self ..
  exact (RelayCall.mk.inj (Option.some.inj (hend.symm.trans h))).2

/-- At its COMMIT a pass marks what it has done. -/
theorem markedIds_log {b : Batch}
    (h : RelayInv s.db s.Safe k (some ⟨n, .running (.commit b)⟩)) :
    markedIds (s.db.log (.relay k)) = b.done := by
  obtain ⟨⟨now, hlog⟩, -⟩ := h
  rw [hlog, markedIds_marks]

/-- **What is observed of a pass** is what its step publishes and marks. -/
theorem Pipeline.observed (hself : RelayInv s.db s.Safe k (s.relays k)) (ha : a.pass = some k)
    (hs : s.step rt a = some s') (hc : s.relays k = some ⟨n, .running pc⟩)
    (hc' : s'.relays k = some ⟨n', st⟩) :
    s.published a = (pc.publishes st).map (fun id => (k, id)) ∧
      s.marked a = (pc.marks st).map fun id => (k, id) := by
  cases a with
  | relay k' batchSize =>
    obtain rfl := Option.some.inj ha
    simp only [Pipeline.step, hc] at hs
    cases hs
  | relayExec k' now =>
    obtain rfl := Option.some.inj ha
    simp only [Pipeline.step, hc] at hs
    cases pc with
    | publish b =>
      rcases htodo : b.todo with _ | ⟨row, todo⟩ <;>
        simp only [Pipeline.relayExec, htodo] at hs
      · cases hs
      · obtain rfl := Option.some.inj hs
        obtain rfl := status_of_setRelay hc'
        simp [Pipeline.published, Pipeline.marked, hc, RelayPc.publishes, RelayPc.marks, htodo]
    | commit b =>
      obtain rfl := Option.some.inj hs
      obtain rfl := status_of_setRelay hc'
      rw [hc] at hself
      simp only [Pipeline.published, Pipeline.marked, hc, RelayPc.publishes, RelayPc.marks,
        markedIds_log hself, List.map_nil, and_self]
    | _ => simp [Pipeline.published, Pipeline.marked, hc, RelayPc.publishes, RelayPc.marks]
  | publishFails k' sent =>
    obtain rfl := Option.some.inj ha
    simp only [Pipeline.step, hc] at hs
    cases pc with
    | publish b =>
      rcases htodo : b.todo with _ | ⟨row, todo⟩ <;>
        simp only [Pipeline.publishFails, htodo] at hs
      · cases hs
      · obtain rfl := Option.some.inj hs
        obtain rfl := status_of_setRelay hc'
        rw [Batch.publishes_next]
        exact ⟨rfl, rfl⟩
    | _ => cases hs
  | relayFails k' =>
    obtain rfl := Option.some.inj ha
    simp only [Pipeline.step] at hs
    split at hs
    · cases hs
    · obtain rfl := Option.some.inj hs
      obtain rfl := status_of_setRelay hc'
      obtain ⟨hpub, hmark⟩ := pc.observes_nothing (.inl rfl)
      rw [hpub, hmark]
      exact ⟨rfl, rfl⟩
    · cases hs
  | relayCrashes k' sent =>
    obtain rfl := Option.some.inj ha
    simp only [Pipeline.step, hc] at hs
    obtain rfl := Option.some.inj hs
    obtain rfl := status_of_relayCrashes hc'
    obtain ⟨hpub, hmark⟩ := pc.observes_nothing (.inr rfl)
    rw [hpub, hmark]
    exact ⟨rfl, rfl⟩
  | relayLosesAnswer k' =>
    obtain rfl := Option.some.inj ha
    simp only [Pipeline.step, hc] at hs
    cases pc with
    | commit b =>
      obtain rfl := Option.some.inj hs
      obtain rfl := status_of_setRelay hc'
      rw [hc] at hself
      simp only [Pipeline.published, Pipeline.marked, hc, RelayPc.publishes, RelayPc.marks,
        markedIds_log hself, List.map_nil, and_self]
    | _ => cases hs
  | _ => cases ha

end Observed

/-! ## What a COMMIT makes of the outbox -/

/-- A change of a pass. -/
def Change.OfPass (c : Change) : Prop :=
  (∃ id now, c = .setPublished id now) ∨ ∃ id, c = .addAttempt id

theorem ofPass_marks {now : ℕ} {ids : List ℕ} {failed : Option ℕ} {c : Change}
    (hc : c ∈ marks now ids ++ failed.toList.map Change.addAttempt) : c.OfPass := by
  rcases List.mem_append.mp hc with hc | hc
  · obtain ⟨id, -, rfl⟩ := List.mem_map.mp hc
    exact .inl ⟨id, now, rfl⟩
  · obtain ⟨id, -, rfl⟩ := List.mem_map.mp hc
    exact .inr ⟨id, rfl⟩

/-- One change of a pass rewrites the rows of the outbox in place. -/
theorem outbox_redo_of_pass {c : Change} (h : c.OfPass) (db : Database) :
    ∃ f : OutboxRow → OutboxRow, (db.redo c).outbox = db.outbox.map f ∧
      ∀ r, (f r).id = r.id ∧
        ((f r).publishedAt ≠ none ↔ r.publishedAt ≠ none ∨ r.id ∈ markedIds [c]) := by
  rcases h with ⟨id, now, rfl⟩ | ⟨id, rfl⟩
  · refine ⟨_, rfl, fun r => ?_⟩
    split_ifs with hr
    · exact ⟨rfl, by simp [hr, markedIds]⟩
    · exact ⟨rfl, by simp [hr, markedIds]⟩
  · refine ⟨_, rfl, fun r => ?_⟩
    split_ifs with hr
    · exact ⟨rfl, by simp [markedIds]⟩
    · exact ⟨rfl, by simp [markedIds]⟩

/-- The changes of a pass rewrite the rows of the outbox in place, and set `published_at` of
those they mark. -/
theorem outbox_of_pass {cs : List Change} (h : ∀ c ∈ cs, c.OfPass) (db : Database) :
    ∃ f : OutboxRow → OutboxRow, (cs.foldl Database.redo db).outbox = db.outbox.map f ∧
      ∀ r, (f r).id = r.id ∧
        ((f r).publishedAt ≠ none ↔ r.publishedAt ≠ none ∨ r.id ∈ markedIds cs) := by
  induction cs generalizing db with
  | nil => exact ⟨id, (List.map_id _).symm, fun r => ⟨rfl, by simp [markedIds]⟩⟩
  | cons c cs ih =>
    obtain ⟨g, hg, hrow⟩ := outbox_redo_of_pass (h c (List.mem_cons_self ..)) db
    obtain ⟨f, hf, hrow'⟩ := ih (fun c' hc' => h c' (List.mem_cons_of_mem _ hc')) (db.redo c)
    refine ⟨f ∘ g, by rw [List.foldl_cons, hf, hg, List.map_map], fun r => ?_⟩
    obtain ⟨hid, hpub⟩ := hrow r
    obtain ⟨hid', hpub'⟩ := hrow' (g r)
    refine ⟨hid'.trans hid, ?_⟩
    have hids : markedIds (c :: cs) = markedIds [c] ++ markedIds cs := by
      rw [← List.singleton_append, markedIds, List.filterMap_append]
      rfl
    rw [Function.comp_apply, hpub', hpub, hid, hids, List.mem_append, or_assoc]

/-! ## The accounts -/

/-- What the observations say of pass `k`. -/
def PassAccount (pubs sets : List (ℕ × ℕ)) (k : ℕ) : Option RelayCall → Prop
  | none => ∀ id, (k, id) ∉ pubs
  | some ⟨_, .running pc⟩ =>
    pc.Fresh ∧ (∀ id, (k, id) ∈ pubs ↔ id ∈ pc.done) ∧ ∀ id, (k, id) ∉ sets
  | some ⟨_, .ended .thrown⟩ | some ⟨_, .ended .crashed⟩ => ∀ id, (k, id) ∉ sets
  | some ⟨_, .ended _⟩ => ∀ id, (k, id) ∈ pubs → (k, id) ∈ sets

/-- The observations of a run agree with the outbox and with every pass. -/
structure Accounts (rt : PipelineRuntime) (db₀ : Database) (pubs sets : List (ℕ × ℕ))
    (s : Pipeline) : Prop where
  shop : s.shop.Inv rt.toRuntime
  relays : ∀ k, RelayInv s.db s.Safe k (s.relays k)
  passes : ∀ k, PassAccount pubs sets k (s.relays k)
  publishes : pubs.Nodup
  once : (sets.map Prod.snd).Nodup
  before : ∀ p ∈ sets, p ∈ pubs
  marked : ∀ p ∈ sets, ∃ r ∈ s.db.committed.outbox, r.id = p.2 ∧ r.publishedAt ≠ none
  origin : ∀ r ∈ s.db.committed.outbox, r.publishedAt ≠ none →
    (∃ r₀ ∈ db₀.outbox, r₀.id = r.id ∧ r₀.publishedAt ≠ none) ∨ ∃ k, (k, r.id) ∈ sets

section Passes

variable {rt : PipelineRuntime} {db₀ db db' : Database} {pubs sets : List (ℕ × ℕ)} {s s' : Pipeline}
  {k k' n : ℕ} {pc : RelayPc} {st : RelayStatus} {c : Option RelayCall}

theorem mem_append_pairs {ids : List ℕ} {l : List (ℕ × ℕ)} {id : ℕ} :
    (k, id) ∈ l ++ ids.map (fun id => (k, id)) ↔ (k, id) ∈ l ∨ id ∈ ids := by
  simp

theorem mem_append_pairs_ne {ids : List ℕ} {l : List (ℕ × ℕ)} {id : ℕ} (h : k' ≠ k) :
    (k', id) ∈ l ++ ids.map (fun id => (k, id)) ↔ (k', id) ∈ l := by
  simp [h.symm]

/-- What another pass publishes and marks is nothing to pass `k'`. -/
theorem PassAccount.other (h : PassAccount pubs sets k' c) (hk : k' ≠ k) (pub mark : List ℕ) :
    PassAccount (pubs ++ pub.map fun id => (k, id)) (sets ++ mark.map fun id => (k, id)) k' c := by
  rcases c with _ | ⟨n, pc | o⟩
  · exact fun id hid => h id ((mem_append_pairs_ne hk).mp hid)
  · refine ⟨h.1, fun id => (mem_append_pairs_ne hk).trans (h.2.1 id), fun id hid => ?_⟩
    exact h.2.2 id ((mem_append_pairs_ne hk).mp hid)
  · cases o with
    | thrown | crashed => exact fun id hid => h id ((mem_append_pairs_ne hk).mp hid)
    | returned _ | lost =>
      exact fun id hid => (mem_append_pairs_ne hk).mpr (h id ((mem_append_pairs_ne hk).mp hid))

theorem nodup_claimable (h : (db.outbox.map OutboxRow.id).Nodup) :
    ((claimable db).map OutboxRow.id).Nodup := by
  have hperm := (List.perm_insertionSort OutboxRow.before
    (db.outbox.filter fun r => r.publishedAt = none)).map OutboxRow.id
  exact hperm.nodup_iff.mpr ((List.filter_sublist.map _).nodup h)

/-- A pass stays fresh as long as it runs. -/
theorem RelayMoves.fresh {pc' : RelayPc} (hm : RelayMoves db pc (.running pc') db')
    (hids : (db.outbox.map OutboxRow.id).Nodup) (h : pc.Fresh) : pc'.Fresh := by
  cases hm with
  | scan => exact ⟨nodup_claimable hids, fun _ hr => absurd hr List.not_mem_nil⟩
  | skip =>
    refine ⟨h.1.sublist ?_, h.2⟩
    exact (List.Sublist.refl _).append (List.sublist_cons_self ..)
  | @claim row left rows hrow hnew =>
    refine ⟨by simpa using h.1, fun r hr => ?_⟩
    rcases List.mem_append.mp hr with hr | hr
    · exact h.2 r hr
    · obtain rfl := List.mem_singleton.mp hr
      exact hnew
  | claimed => exact Batch.Fresh.next ⟨(List.nodup_append.mp h.1).1, h.2⟩
  | @confirm b row todo htodo =>
    obtain ⟨hnodup, hnew⟩ := h
    rw [htodo] at hnodup
    exact ⟨by simpa [Batch.confirm] using hnodup, hnew⟩
  | @fail b row todo htodo =>
    obtain ⟨hnodup, hnew⟩ := h
    rw [htodo] at hnodup
    refine Batch.Fresh.next ⟨hnodup.sublist ?_, hnew⟩
    exact (List.Sublist.refl _).append (List.sublist_cons_self ..)
  | next => exact Batch.Fresh.next h
  | mark => exact Batch.Fresh.afterUpdate h
  | count => exact h

/-- What it has published then, is what it had published and what the step publishes; and
it marks nothing as long as it runs. -/
theorem RelayMoves.done {pc' : RelayPc} (hm : RelayMoves db pc (.running pc') db') :
    pc'.done = pc.done ++ pc.publishes (.running pc') ∧ pc.marks (.running pc') = [] := by
  cases hm with
  | scan | skip | claim => exact ⟨rfl, rfl⟩
  | count => exact ⟨(List.append_nil _).symm, rfl⟩
  | claimed => exact ⟨Batch.next_done _, rfl⟩
  | @confirm b row todo htodo =>
    refine ⟨?_, rfl⟩
    simp only [RelayPc.done, Batch.confirm, RelayPc.publishes, htodo]
    rfl
  | fail htodo =>
    rw [Batch.publishes_next, Batch.next_done]
    exact ⟨(List.append_nil _).symm, rfl⟩
  | next =>
    rw [Batch.next_done]
    exact ⟨(List.append_nil _).symm, rfl⟩
  | mark =>
    rw [Batch.afterUpdate_done]
    exact ⟨(List.append_nil _).symm, rfl⟩

/-- A step publishes one row at most, and none the pass has published before. -/
theorem RelayPc.Fresh.publishes (h : pc.Fresh) (st : RelayStatus) :
    (pc.publishes st).Nodup ∧ ∀ id ∈ pc.publishes st, id ∉ pc.done := by
  unfold RelayPc.publishes
  split
  · rename_i b b'
    obtain ⟨hnodup, -⟩ := h
    obtain ⟨-, htodo, hdisjoint⟩ := List.nodup_append.mp hnodup
    refine ⟨((List.take_sublist _ _).map _).nodup htodo, fun id hid hdone => ?_⟩
    obtain ⟨r, hr, rfl⟩ := List.mem_map.mp hid
    exact hdisjoint _ hdone _ (List.mem_map_of_mem (List.mem_of_mem_take hr)) rfl
  · exact ⟨List.nodup_nil, fun id hid => absurd hid List.not_mem_nil⟩

/-- What a COMMIT marks has been published. -/
theorem RelayPc.Fresh.marks (h : pc.Fresh) (st : RelayStatus) :
    (pc.marks st).Nodup ∧ ∀ id ∈ pc.marks st, id ∈ pc.done := by
  unfold RelayPc.marks
  split
  · exact ⟨(List.nodup_append.mp h.1).1, fun _ hid => hid⟩
  · exact ⟨(List.nodup_append.mp h.1).1, fun _ hid => hid⟩
  · exact ⟨List.nodup_nil, fun id hid => absurd hid List.not_mem_nil⟩

/-- A step rewrites the rows of the outbox in place, and sets `published_at` of those it
marks. -/
theorem RelayMoves.outbox (hm : RelayMoves db pc st db') :
    ∃ f : OutboxRow → OutboxRow, db'.outbox = db.outbox.map f ∧
      ∀ r, (f r).id = r.id ∧
        ((f r).publishedAt ≠ none ↔ r.publishedAt ≠ none ∨ r.id ∈ pc.marks st) := by
  have hsame : pc.marks st = [] → db' = db → ∃ f : OutboxRow → OutboxRow,
      db'.outbox = db.outbox.map f ∧ ∀ r, (f r).id = r.id ∧
        ((f r).publishedAt ≠ none ↔ r.publishedAt ≠ none ∨ r.id ∈ pc.marks st) := by
    rintro hnone rfl
    exact ⟨id, (List.map_id _).symm, fun r => ⟨rfl, by simp [hnone]⟩⟩
  rcases st with pc' | o
  · refine hsame hm.done.2 ?_
    cases hm <;> rfl
  · cases hm with
    | @commit b o now ho =>
      obtain ⟨f, hf, hrow⟩ := outbox_of_pass (fun c => ofPass_marks (c := c)) db
      refine ⟨f, hf, fun r => ?_⟩
      obtain ⟨hid, hpub⟩ := hrow r
      refine ⟨hid, hpub.trans ?_⟩
      rw [markedIds_marks]
      rcases ho with rfl | rfl <;> exact Iff.rfl
    | abort ho => exact hsame (pc.observes_nothing ho).2 rfl

/-- **The account of the pass that takes a step.** -/
theorem PassAccount.moved (h : PassAccount pubs sets k (some ⟨n, .running pc⟩))
    (hm : RelayMoves db pc st db') (hids : (db.outbox.map OutboxRow.id).Nodup) :
    PassAccount (pubs ++ (pc.publishes st).map fun id => (k, id))
      (sets ++ (pc.marks st).map fun id => (k, id)) k (some ⟨n, st⟩) := by
  obtain ⟨hfresh, hpubs, hsets⟩ := h
  rcases st with pc' | o
  · obtain ⟨hdone, hmarks⟩ := hm.done
    refine ⟨hm.fresh hids hfresh, fun id => ?_, fun id => ?_⟩
    · rw [mem_append_pairs, hdone, List.mem_append, hpubs]
    · rw [hmarks, mem_append_pairs]
      exact fun hid => hid.elim (hsets id) List.not_mem_nil
  · cases hm with
    | @commit b o now ho =>
      have hall : ∀ id, (k, id) ∈ pubs ++ [].map (fun id => (k, id)) →
          (k, id) ∈ sets ++ b.done.map fun id => (k, id) := by
        intro id hid
        rw [List.map_nil, List.append_nil] at hid
        exact mem_append_pairs.mpr (.inr ((hpubs id).mp hid))
      rcases ho with rfl | rfl
      · exact hall
      · exact hall
    | abort ho =>
      obtain ⟨hpub, hmark⟩ := pc.observes_nothing ho
      rw [hpub, hmark, List.map_nil, List.append_nil, List.append_nil]
      rcases ho with rfl | rfl
      · exact hsets
      · exact hsets

end Passes

/-! ## Every step keeps the accounts -/

namespace Accounts

variable {rt : PipelineRuntime} {db₀ : Database} {pubs sets : List (ℕ × ℕ)} {s s' : Pipeline}
  {k k' n : ℕ} {pc : RelayPc} {st : RelayStatus}

theorem of_start (h : (outboxes rt).start s) : Accounts rt s.db.committed [] [] s := by
  obtain ⟨hshop, hrelays⟩ := h
  refine ⟨hshop.inv, fun k => ?_, fun k => ?_, List.nodup_nil, List.nodup_nil,
    fun _ hp => hp, fun _ hp => absurd hp List.not_mem_nil,
    fun r hr hpub => .inl ⟨r, hr, rfl, hpub⟩⟩
  · have hidle : s.db = Engine.idle s.db.committed := hshop.idle
    rw [hrelays k, hidle]
    exact Engine.quiet_idle _ _
  · rw [hrelays k]
    exact fun _ hid => absurd hid List.not_mem_nil

/-- A running pass knows its batch, and nobody has marked a row of it. -/
theorem unmarked (h : Accounts rt db₀ pubs sets s) {r : OutboxRow}
    (hrow : Table.lookup OutboxRow.id r.id s.db.committed.outbox = some r)
    (hnew : r.publishedAt = none) : (k, r.id) ∉ sets := by
  intro hp
  obtain ⟨r', hr', hid, hpub⟩ := h.marked _ hp
  have hr := Table.mem_of_lookup hrow
  obtain rfl := List.inj_on_of_nodup_map h.shop.wellFormed.outbox hr' hr hid
  exact hpub hnew

/-- The rows done by a running pass: locked by it, and unpublished. -/
theorem row_done (h : Accounts rt db₀ pubs sets s)
    (hc : s.relays k = some ⟨n, .running pc⟩) {id : ℕ} (hid : id ∈ pc.done) :
    ∃ r, r.id = id ∧ s.db.holder (.outbox id) = some (.relay k) ∧
      Table.lookup OutboxRow.id r.id s.db.committed.outbox = some r ∧ r.publishedAt = none := by
  have hself := h.relays k
  have hpass := h.passes k
  rw [hc] at hself hpass
  have hbatch : ∀ b, Batched s.db s.Safe k b → b.Fresh → id ∈ b.done → ∃ r, r.id = id ∧
      s.db.holder (.outbox id) = some (.relay k) ∧
      Table.lookup OutboxRow.id r.id s.db.committed.outbox = some r ∧ r.publishedAt = none := by
    intro b hb hfresh hdone
    obtain ⟨r, hr, rfl, -⟩ := hb.done id hdone
    exact ⟨r, rfl, (hb.claims r hr).1, (hb.claims r hr).2, hfresh.2 r hr⟩
  cases pc with
  | scan | lockRows _ _ => exact absurd hid List.not_mem_nil
  | publish b | afterPublish b | markPublished b | addAttempt b | commit b =>
    exact hbatch b hself.2 hpass.1 hid

/-- **The step of a checkout**: a new row is unpublished. -/
theorem checkout (h : Accounts rt db₀ pubs sets s) {a : CheckoutEvent} {shop : Shop}
    (hs : s.shop.step rt.toRuntime a = some shop) :
    Accounts rt db₀ pubs sets ({ s with shop } : Pipeline) := by
  have hothers : ∀ t, (∀ i, t ≠ .checkout i) → s.db.Undisturbed shop.db t :=
    fun t ht => h.shop.others_step hs (ht a.id)
  obtain ⟨hgrows, hkept, hpublished⟩ := Pipeline.outbox_checkout h.shop hs
  have hsafe : ∀ e, s.Safe e → ({ s with shop } : Pipeline).Safe e :=
    fun e he => he.mono .inl hgrows
  refine ⟨checkouts_invariant _ _ _ h.shop hs, ?_, h.passes, h.publishes, h.once, h.before, ?_, ?_⟩
  · exact fun k => (h.relays k).stable (hothers _ fun i hi => by cases hi) hsafe
  · intro p hp
    obtain ⟨r, hr, hrest⟩ := h.marked p hp
    exact ⟨r, hkept r hr, hrest⟩
  · exact fun r hr hpub => h.origin r (hpublished r hr hpub) hpub

/-- A pass that begins. -/
theorem began (h : Accounts rt db₀ pubs sets s) (hnone : s.relays k = none) :
    Accounts rt db₀ pubs sets (s.setRelay k ⟨n, .running .scan⟩ (.running .scan)) := by
  have hself := h.relays k
  have hpass := h.passes k
  rw [hnone] at hself hpass
  refine ⟨h.shop, ?_, ?_, h.publishes, h.once, h.before, h.marked, h.origin⟩
  · exact (Function.forall_update_iff s.relays fun k c => RelayInv s.db s.Safe k c).mpr
      ⟨hself, fun k' _ => h.relays k'⟩
  · refine (Function.forall_update_iff s.relays fun k c => PassAccount pubs sets k c).mpr
      ⟨⟨trivial, fun id => ?_, fun id hid => hpass id (h.before _ hid)⟩, fun k' _ => h.passes k'⟩
    exact iff_of_false (hpass id) List.not_mem_nil

/-- **The step of a pass.** -/
theorem moved (h : Accounts rt db₀ pubs sets s) (hc : s.relays k = some ⟨n, .running pc⟩)
    (took : s.RelayTook s' k n pc st) :
    Accounts rt db₀ (pubs ++ (pc.publishes st).map fun id => (k, id))
      (sets ++ (pc.marks st).map fun id => (k, id)) s' := by
  have hpass := h.passes k
  rw [hc] at hpass
  obtain ⟨hfresh, hpubs, hsets⟩ := hpass
  obtain ⟨hnodup, hnew⟩ := hfresh.publishes st
  obtain ⟨hmnodup, hdone⟩ := hfresh.marks st
  obtain ⟨f, hf, hrow⟩ := took.moves.outbox
  refine ⟨took.shopInv h.shop, took.relaysInv h.relays, ?_, ?_, ?_, ?_, ?_, ?_⟩
  · rw [took.relays]
    exact (Function.forall_update_iff s.relays fun k c => PassAccount _ _ k c).mpr
      ⟨PassAccount.moved ⟨hfresh, hpubs, hsets⟩ took.moves h.shop.wellFormed.outbox,
        fun k' hk => (h.passes k').other hk _ _⟩
  · refine List.nodup_append.mpr ⟨h.publishes, hnodup.map fun _ _ heq => (Prod.mk.inj heq).2, ?_⟩
    rintro ⟨k', id⟩ hp _ hp' rfl
    obtain ⟨id', hid', heq⟩ := List.mem_map.mp hp'
    obtain ⟨rfl, rfl⟩ := Prod.mk.inj heq
    exact hnew _ hid' ((hpubs _).mp hp)
  · rw [List.map_append, List.map_map]
    refine List.nodup_append.mpr ⟨h.once, by simpa [Function.comp_def] using hmnodup, ?_⟩
    rintro _ hid _ hid' rfl
    obtain ⟨⟨k', id⟩, hp, rfl⟩ := List.mem_map.mp hid
    simp only [Function.comp_def, List.map_id'] at hid'
    -- a row the pass has done is not marked by anybody
    obtain ⟨r, rfl, -, hrow, hunpublished⟩ := h.row_done hc (hdone _ hid')
    exact h.unmarked hrow hunpublished hp
  · rintro ⟨k', id⟩ hp
    rcases List.mem_append.mp hp with hp | hp
    · exact List.mem_append_left _ (h.before _ hp)
    · obtain ⟨id', hid', heq⟩ := List.mem_map.mp hp
      obtain ⟨rfl, rfl⟩ := Prod.mk.inj heq
      exact List.mem_append_left _ ((hpubs _).mpr (hdone _ hid'))
  · rintro ⟨k', id⟩ hp
    rcases List.mem_append.mp hp with hp | hp
    · obtain ⟨r, hr, hid, hpub⟩ := h.marked _ hp
      refine ⟨f r, hf ▸ List.mem_map_of_mem hr, (hrow r).1.trans hid, (hrow r).2.mpr (.inl hpub)⟩
    · obtain ⟨id', hid', heq⟩ := List.mem_map.mp hp
      obtain ⟨rfl, rfl⟩ := Prod.mk.inj heq
      obtain ⟨r, rfl, -, hlookup, -⟩ := h.row_done hc (hdone _ hid')
      exact ⟨f r, hf ▸ List.mem_map_of_mem (Table.mem_of_lookup hlookup), (hrow r).1,
        (hrow r).2.mpr (.inr hid')⟩
  · intro r' hr' hpub
    rw [hf] at hr'
    obtain ⟨r, hr, rfl⟩ := List.mem_map.mp hr'
    rw [(hrow r).1]
    rcases (hrow r).2.mp hpub with hpub | hmark
    · rcases h.origin r hr hpub with hold | ⟨k', hp⟩
      · exact .inl hold
      · exact .inr ⟨k', List.mem_append_left _ hp⟩
    · exact .inr ⟨k, mem_append_pairs.mpr (.inr hmark)⟩

/-- The events are those of the checkouts and those of the passes. -/
theorem step_cases (h : Accounts rt db₀ pubs sets s) {a : PipelineEvent}
    (hs : (outboxes rt).step s a = some s') :
    (∃ b shop, a = .checkout b ∧ s.shop.step rt.toRuntime b = some shop ∧ s' = { s with shop }) ∨
      ∃ k, a.pass = some k ∧ s.step rt a = some s' ∧ s.RelayStepped k s' := by
  simp only [outboxes] at hs
  split_ifs at hs with ha
  rcases hpass : a.pass with _ | k
  · cases a with
    | checkout b =>
      obtain ⟨shop, hshop, rfl⟩ := Option.map_eq_some_iff.mp hs
      exact .inl ⟨b, shop, rfl, hshop, rfl⟩
    | _ => simp [PipelineEvent.ofOutbox, hpass] at ha
  · exact .inr ⟨k, rfl, hs,
      Pipeline.relay_stepped h.shop.locked h.shop.wellFormed (h.relays k) hpass hs⟩

/-- **Every event keeps the accounts.** -/
theorem step (h : Accounts rt db₀ pubs sets s) {a : PipelineEvent}
    (hs : (outboxes rt).step s a = some s') :
    Accounts rt db₀ (pubs ++ s.published a) (sets ++ s.marked a) s' := by
  rcases h.step_cases hs with ⟨b, shop, rfl, hshop, rfl⟩ | ⟨k, hpass, hs, hstepped⟩
  · simp only [Pipeline.published, Pipeline.marked, List.append_nil]
    exact h.checkout hshop
  · cases hstepped with
    | began n hnone heq =>
      obtain ⟨hpub, hmark⟩ := Pipeline.unobserved hpass hnone
      rw [hpub, hmark, List.append_nil, List.append_nil, heq]
      exact h.began hnone
    | moved n pc st hc took =>
      have hc' : s'.relays k = some ⟨n, st⟩ := by
        rw [took.relays, Function.update_self]
      obtain ⟨hpub, hmark⟩ := Pipeline.observed (h.relays k) hpass hs hc hc'
      rw [hpub, hmark]
      exact h.moved hc took

/-- A publication by a pass that has not failed: the row is marked by the pass, or it is
locked by it and unmarked. -/
theorem standing (h : Accounts rt db₀ pubs sets s) {id : ℕ} (hp : (k, id) ∈ pubs)
    (hk : s.failed k = false) :
    (k, id) ∈ sets ∨ s.db.holder (.outbox id) = some (.relay k) ∧ ∀ k', (k', id) ∉ sets := by
  have hpass := h.passes k
  unfold Pipeline.failed at hk
  rcases hc : s.relays k with _ | ⟨n, pc | o⟩ <;> rw [hc] at hpass hk
  · exact absurd hp (hpass id)
  · obtain ⟨r, rfl, hheld, hrow, hnew⟩ := h.row_done hc ((hpass.2.1 id).mp hp)
    exact .inr ⟨hheld, fun k' => h.unmarked hrow hnew⟩
  · cases o with
    | thrown | crashed => cases hk
    | returned _ | lost => exact .inl (hpass id hp)

/-- Only one pass that has not failed has published a row. -/
theorem standing_unique (h : Accounts rt db₀ pubs sets s) {id : ℕ} (hp : (k, id) ∈ pubs)
    (hp' : (k', id) ∈ pubs) (hk : s.failed k = false) (hk' : s.failed k' = false) : k = k' := by
  rcases h.standing hp hk with hset | ⟨hheld, hnone⟩
  · rcases h.standing hp' hk' with hset' | ⟨-, hnone'⟩
    · exact (Prod.mk.inj (List.inj_on_of_nodup_map h.once hset hset' rfl)).1
    · exact absurd hset (hnone' k)
  · rcases h.standing hp' hk' with hset' | ⟨hheld', -⟩
    · exact absurd hset' (hnone k')
    · exact Client.relay.inj (Option.some.inj (hheld.symm.trans hheld'))

/-- A list without repetitions whose members are all the same. -/
theorem length_le_one {α : Type} {l : List α} (h : l.Nodup) (hall : ∀ a ∈ l, ∀ b ∈ l, a = b) :
    l.length ≤ 1 := by
  rcases l with _ | ⟨a, _ | ⟨b, l⟩⟩
  · exact Nat.zero_le _
  · exact Nat.le_refl _
  · obtain rfl : a = b := hall a (by simp) b (by simp)
    simp at h

/-- **One publication for each row, and one more for each pass that failed after it.** -/
theorem count_le (h : Accounts rt db₀ pubs sets s) (id : ℕ) :
    (pubs.filter fun p => decide (p.2 = id)).length ≤
      1 + (pubs.filter fun p => decide (p.2 = id) && s.failed p.1).length := by
  have hsplit := List.length_eq_length_filter_add (l := pubs.filter fun p => decide (p.2 = id))
    fun p => s.failed p.1
  rw [List.filter_filter, List.filter_filter] at hsplit
  have hone : (pubs.filter fun p => !s.failed p.1 && decide (p.2 = id)).length ≤ 1 := by
    have hall : ∀ p ∈ pubs.filter (fun p => !s.failed p.1 && decide (p.2 = id)),
        ∀ q ∈ pubs.filter (fun p => !s.failed p.1 && decide (p.2 = id)), p = q := by
      rintro ⟨k, i⟩ hp ⟨k', i'⟩ hq
      simp only [List.mem_filter, Bool.and_eq_true, Bool.not_eq_true', decide_eq_true_eq] at hp hq
      obtain ⟨hp, hk, rfl⟩ := hp
      obtain ⟨hq, hk', rfl⟩ := hq
      rw [h.standing_unique hp hq hk hk']
    exact length_le_one (h.publishes.filter _) hall
  have hcomm : (pubs.filter fun p => s.failed p.1 && decide (p.2 = id)) =
      pubs.filter fun p => decide (p.2 = id) && s.failed p.1 :=
    List.filter_congr fun p _ => Bool.and_comm ..
  rw [hcomm] at hsplit
  omega

end Accounts

/-- The accounts of a run. -/
theorem outboxes_accounts {rt : PipelineRuntime} {s₀ s : Pipeline} {as : List PipelineEvent}
    (hstart : (outboxes rt).start s₀) (hrun : (outboxes rt).run s₀ as = some s) :
    Accounts rt s₀.db.committed ((outboxes rt).trace Pipeline.published s₀ as)
      ((outboxes rt).trace Pipeline.marked s₀ as) s := by
  refine System.run_induction (M := outboxes rt) (J := fun as s => Accounts rt s₀.db.committed
    ((outboxes rt).trace Pipeline.published s₀ as) ((outboxes rt).trace Pipeline.marked s₀ as) s)
    (Accounts.of_start hstart) (fun as s a s' hrun h hs => ?_) hrun
  rw [System.trace_snoc hrun, System.trace_snoc hrun]
  exact h.step hs

/-- **Parallel relays publish a row once, but for failures.** In every run of passes and
checkouts over any outbox: `published_at` of a row is set by one committed pass at most; no
pass publishes a row twice, and a row is published at most once more than there are passes
that published it and failed; a row that is published at the end was so at the start or has
been marked; and what a COMMIT marks was published, by that pass, before. -/
theorem relays_publish_once {rt : PipelineRuntime} {s₀ s : Pipeline} {as : List PipelineEvent}
    (hstart : (outboxes rt).start s₀) (hrun : (outboxes rt).run s₀ as = some s) :
    (((outboxes rt).trace Pipeline.marked s₀ as).map Prod.snd).Nodup ∧
      ((outboxes rt).trace Pipeline.published s₀ as).Nodup ∧
      (∀ id, (((outboxes rt).trace Pipeline.published s₀ as).filter
          fun p => decide (p.2 = id)).length ≤
        1 + (((outboxes rt).trace Pipeline.published s₀ as).filter
          fun p => decide (p.2 = id) && s.failed p.1).length) ∧
      (∀ id, (∀ k, (k, id) ∈ (outboxes rt).trace Pipeline.published s₀ as → s.failed k = false) →
        (((outboxes rt).trace Pipeline.published s₀ as).filter
          fun p => decide (p.2 = id)).length ≤ 1) ∧
      (∀ r ∈ s.db.committed.outbox, r.publishedAt ≠ none →
        (∃ r₀ ∈ s₀.db.committed.outbox, r₀.id = r.id ∧ r₀.publishedAt ≠ none) ∨
          ∃ k, (k, r.id) ∈ (outboxes rt).trace Pipeline.marked s₀ as) ∧
      ∀ as₁ a as₂ s₁, as = as₁ ++ a :: as₂ → (outboxes rt).run s₀ as₁ = some s₁ →
        ∀ p ∈ s₁.marked a, p ∈ (outboxes rt).trace Pipeline.published s₀ as₁ := by
  have h := outboxes_accounts hstart hrun
  refine ⟨h.once, h.publishes, h.count_le, fun id hstanding => ?_, h.origin, ?_⟩
  · have hcount := h.count_le id
    have hnone : (((outboxes rt).trace Pipeline.published s₀ as).filter
        fun p => decide (p.2 = id) && s.failed p.1) = [] := by
      refine List.filter_eq_nil_iff.mpr ?_
      rintro ⟨k, i⟩ hp hi
      obtain ⟨hid, hfailed⟩ := Bool.and_eq_true_iff.mp hi
      obtain rfl := of_decide_eq_true hid
      exact absurd ((hstanding k hp).symm.trans hfailed) Bool.false_ne_true
    rwa [hnone, List.length_nil, Nat.add_zero] at hcount
  · rintro as₁ a as₂ s₁ rfl hrun₁ p hp
    obtain ⟨s₁', hrun₁', hrest⟩ := System.run_append_eq_some hrun
    obtain rfl := Option.some.inj (hrun₁.symm.trans hrun₁')
    obtain ⟨s₂, hstep, -⟩ := System.run_cons_eq_some hrest
    have hbefore := ((outboxes_accounts hstart hrun₁).step hstep).before p
      (List.mem_append_right _ hp)
    rwa [Pipeline.published_of_marked hp, List.append_nil] at hbefore

/-- Three passes over the row of one checkout: the second reads it as unpublished and skips
it, the first publishes it and dies, the third publishes and marks it. -/
def demoThreeRelays : List PipelineEvent :=
  (demoCall 0 ⟨"1", "1", 1, none⟩ 1 11).map .checkout ++
    [.relay 0 10, .relay 1 10, .relayExec 1 0] ++ List.replicate 4 (.relayExec 0 0) ++
    List.replicate 3 (.relayExec 1 0) ++ [.relayCrashes 0 false, .relay 2 10] ++
    List.replicate 7 (.relayExec 2 0)

theorem demoThreeRelays_publish_once :
    (outboxes demoPipelineRuntime).trace Pipeline.published demoPipeline demoThreeRelays =
        [(0, 1), (2, 1)] ∧
      (outboxes demoPipelineRuntime).trace Pipeline.marked demoPipeline demoThreeRelays =
        [(2, 1)] ∧
      ∃ s, (outboxes demoPipelineRuntime).run demoPipeline demoThreeRelays = some s ∧
        (((outboxes demoPipelineRuntime).trace Pipeline.published demoPipeline
          demoThreeRelays).filter fun p => decide (p.2 = 1)).length ≤
        1 + (((outboxes demoPipelineRuntime).trace Pipeline.published demoPipeline
          demoThreeRelays).filter fun p => decide (p.2 = 1) && s.failed p.1).length := by
  refine ⟨by decide +kernel, by decide +kernel, ?_⟩
  have hsome : ((outboxes demoPipelineRuntime).run demoPipeline demoThreeRelays).isSome = true := by
    decide +kernel
  obtain ⟨s, hrun⟩ := Option.isSome_iff_exists.mp hsome
  have hstart : (outboxes demoPipelineRuntime).start demoPipeline :=
    ⟨demoShop_start, fun _ => rfl⟩
  exact ⟨s, hrun, (relays_publish_once hstart hrun).2.2.1 1⟩

end Marketplace
