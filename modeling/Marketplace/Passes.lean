import Marketplace.PipelineTables

/-!
# What a step of a pass does

Every step of `relayOnce`, whatever comes of it, is one of the moves of `RelayMoves`;
and it leaves the other transactions alone, hands messages to the broker only, and marks
no row whose event is not safe. What the pipeline keeps, and what the passes do among
themselves, is derived from this.
-/

namespace Marketplace

/-- How one step moves a pass on, and what it makes of the committed tables. -/
inductive RelayMoves (db : Database) : RelayPc → RelayStatus → Database → Prop
  | scan : RelayMoves db .scan (.running (.lockRows ((claimable db).map OutboxRow.id) [])) db
  /-- the row is held by somebody, or published meanwhile -/
  | skip {id : ℕ} {left : List ℕ} {rows : List OutboxRow} :
    RelayMoves db (.lockRows (id :: left) rows) (.running (.lockRows left rows)) db
  | claim {row : OutboxRow} {left : List ℕ} {rows : List OutboxRow}
    (hrow : Table.lookup OutboxRow.id row.id db.outbox = some row)
    (hnew : row.publishedAt = none) :
    RelayMoves db (.lockRows (row.id :: left) rows) (.running (.lockRows left (rows ++ [row]))) db
  | claimed {left : List ℕ} {rows : List OutboxRow} :
    RelayMoves db (.lockRows left rows) (.running (Batch.start rows).next) db
  | confirm {b : Batch} {row : OutboxRow} {todo : List OutboxRow} (htodo : b.todo = row :: todo) :
    RelayMoves db (.publish b) (.running (.afterPublish (b.confirm row todo))) db
  | fail {b : Batch} {row : OutboxRow} {todo : List OutboxRow} (htodo : b.todo = row :: todo) :
    RelayMoves db (.publish b) (.running (b.fail row todo).next) db
  | next {b : Batch} : RelayMoves db (.afterPublish b) (.running b.next) db
  | mark {b : Batch} : RelayMoves db (.markPublished b) (.running b.afterUpdate) db
  | count {b : Batch} : RelayMoves db (.addAttempt b) (.running (.commit b)) db
  /-- COMMIT takes effect, whether its answer arrives or not -/
  | commit {b : Batch} {o : RelayOutcome} {now : ℕ} (ho : o = .returned b.pass ∨ o = .lost) :
    RelayMoves db (.commit b) (.ended o)
      ((marks now b.done ++ b.failed.toList.map Change.addAttempt).foldl Database.redo db)
  /-- ROLLBACK -/
  | abort {pc : RelayPc} {o : RelayOutcome} (ho : o = .thrown ∨ o = .crashed) :
    RelayMoves db pc (.ended o) db

namespace Pipeline

variable {rt : PipelineRuntime} {s s' : Pipeline} {k n now : ℕ} {pc : RelayPc} {st : RelayStatus}
  {c : RelayCall} {b : Batch} {sent : Bool}

/-- What is kept is safe after a step that moves no message out. -/
theorem safe_of_subset (hqueue : ∀ e ∈ s.queue, e ∈ s'.queue) (hdlq : ∀ e ∈ s.dlq, e ∈ s'.dlq)
    (hdeliveries : s'.deliveries = s.deliveries) {e : OrderPlacedEvent} (h : s.Kept e) :
    s'.Kept e := by
  rcases h with h | h | h
  · exact .inl (hqueue e h)
  · exact .inr (.inl (hdlq e h))
  · rw [← hdeliveries] at h
    exact .inr (.inr h)

/-- **The step of a pass**: it marks safe rows or none, and hands messages to the
broker only. -/
structure RelayTook (s s' : Pipeline) (k n : ℕ) (pc : RelayPc) (st : RelayStatus) : Prop where
  shop : s'.shop = { s.shop with db := s'.db }
  relays : s'.relays = Function.update s.relays k (some ⟨n, st⟩)
  deliveries : s'.deliveries = s.deliveries
  queue : ∀ e ∈ s.queue, e ∈ s'.queue
  dlq : s'.dlq = s.dlq
  has : ∀ e, s'.Has e → s.Has e ∨ Genuine s.db.committed e
  locked : s'.db.WellLocked
  others : ∀ t, t ≠ .relay k → Engine.Undisturbed s.db s'.db t
  marked : Marked s.Safe s.db.committed s'.db.committed
  self : RelayInv s'.db s'.Safe k (some ⟨n, st⟩)
  moves : RelayMoves s.db.committed pc st s'.db.committed

section Steps

variable (hlocked : s.db.WellLocked)

include hlocked

/-- A step that leaves the database and the queues alone. -/
theorem relayTook_goto (hself : RelayInv s.db s.Safe k (some ⟨n, st⟩))
    (hmoves : RelayMoves s.db.committed pc st s.db.committed) :
    RelayTook s (s.setRelay k ⟨n, .running pc⟩ st) k n pc st :=
  ⟨rfl, rfl, rfl, fun _ he => he, rfl, fun _ he => .inl he, hlocked, fun _ _ => .refl _ _,
    .refl _, hself, hmoves⟩

/-- What COMMIT of a pass does. -/
theorem relayTook_commit (hwf : s.db.committed.WellFormed) {o : RelayOutcome}
    (ho : o = .returned b.pass ∨ o = .lost) (hself : RelayPcInv s.db s.Safe k (.commit b)) :
    RelayTook s ((s.setDb (s.db.commit (.relay k))).setRelay k ⟨n, .running (.commit b)⟩
      (.ended o)) k n (.commit b) (.ended o) := by
  obtain ⟨⟨now, hlog⟩, hb⟩ := hself
  have hview : s.db.view (.relay k) =
      (marks now b.done ++ b.failed.toList.map Change.addAttempt).foldl Database.redo
        s.db.committed := by
    rw [Engine.view, hlog]
    rfl
  have hmarked : Marked s.Safe s.db.committed (s.db.view (.relay k)) := by
    rw [hview]
    exact Marked.foldl (Batched.markable hb hwf rfl)
  have hmoves : RelayMoves s.db.committed (.commit b) (.ended o) (s.db.view (.relay k)) := by
    rw [hview]
    exact .commit ho
  exact ⟨rfl, rfl, rfl, fun _ he => he, rfl, fun _ he => .inl he, hlocked.commit _,
    fun _ hne => Engine.undisturbed_commit hlocked hne, hmarked, Engine.quiet_commit _ _, hmoves⟩

/-- Ending a pass with ROLLBACK. -/
theorem relayTook_end {o : RelayOutcome} (ho : o = .thrown ∨ o = .crashed) :
    RelayTook s (s.endRelay k ⟨n, .running pc⟩ o) k n pc (.ended o) :=
  ⟨rfl, rfl, rfl, fun _ he => he, rfl, fun _ he => .inl he, hlocked.abort _,
    fun _ hne => Engine.undisturbed_abort _ hne, .refl _, Engine.quiet_abort _ _, .abort ho⟩

/-- The rows of the batch are claimed one by one. -/
theorem relayExec_lockRows (left : List ℕ) (rows : List OutboxRow)
    (hself : RelayPcInv s.db s.Safe k (.lockRows left rows))
    (hs : s.relayExec k ⟨n, .running (.lockRows left rows)⟩ now (.lockRows left rows) = some s') :
    ∃ st, RelayTook s s' k n (.lockRows left rows) st := by
  obtain ⟨hlog, hclaims⟩ := hself
  cases left with
  | nil =>
    obtain rfl := Option.some.inj hs
    exact ⟨_, relayTook_goto hlocked (relayPcInv_next hlog (batched_start hclaims)) .claimed⟩
  | cons id left =>
    simp only [Pipeline.relayExec] at hs
    split_ifs at hs with hfull hfree
    · obtain rfl := Option.some.inj hs
      exact ⟨_, relayTook_goto hlocked (relayPcInv_next hlog (batched_start hclaims)) .claimed⟩
    · split at hs
      · obtain rfl := Option.some.inj hs
        exact ⟨_, relayTook_goto hlocked ⟨hlog, hclaims⟩ .skip⟩
      · rename_i row hrow
        obtain rfl := Option.some.inj hs
        -- the row is read again under its lock, and is still there unpublished
        obtain ⟨hlookup, hnew⟩ := Option.filter_eq_some_iff.mp hrow
        have hview : s.db.view (.relay k) = s.db.committed := by
          rw [Engine.view, hlog]
          rfl
        rw [hview] at hlookup
        have hid : row.id = id := Table.key_of_lookup hlookup
        subst hid
        refine ⟨_, rfl, rfl, rfl, fun _ he => he, rfl, fun _ he => .inl he,
          hlocked.acquire hfree, fun _ hne => Engine.undisturbed_acquire hfree hne, .refl _,
          ⟨hlog, ?_⟩, .claim hlookup (of_decide_eq_true hnew)⟩
        intro r hr
        rcases List.mem_append.mp hr with hr | hr
        · exact hclaims.stable (Engine.keeps_acquire hfree) r hr
        · obtain rfl := List.mem_singleton.mp hr
          exact ⟨Engine.acquire_holder_self .., hlookup⟩
    · obtain rfl := Option.some.inj hs
      exact ⟨_, relayTook_goto hlocked ⟨hlog, hclaims⟩ .skip⟩

/-- A publication that is confirmed is in the queue. -/
theorem relayExec_publish (hself : RelayPcInv s.db s.Safe k (.publish b))
    (hs : s.relayExec k ⟨n, .running (.publish b)⟩ now (.publish b) = some s') :
    ∃ st, RelayTook s s' k n (.publish b) st := by
  obtain ⟨hlog, hb⟩ := hself
  rcases htodo : b.todo with _ | ⟨row, todo⟩
  · simp only [Pipeline.relayExec, htodo] at hs
    cases hs
  · simp only [Pipeline.relayExec, htodo] at hs
    obtain rfl := Option.some.inj hs
    have hrow : row ∈ b.todo := by
      rw [htodo]
      exact List.mem_cons_self ..
    refine ⟨_, rfl, rfl, rfl, fun _ he => List.mem_append_left _ he, rfl, ?_, hlocked,
      fun _ _ => .refl _ _, .refl _, ⟨hlog, hb.claims, ?_, ?_, hb.failed⟩, .confirm htodo⟩
    · rintro e (hw | hq | hd)
      · exact .inl (.inl hw)
      · rcases List.mem_append.mp hq with hq | hq
        · exact .inl (.inr (.inl hq))
        · obtain rfl := List.mem_singleton.mp hq
          exact .inr (hb.genuine hrow)
      · exact .inl (.inr (.inr hd))
    · intro r hr
      refine hb.todo r ?_
      rw [htodo]
      exact List.mem_cons_of_mem _ hr
    · intro id hid
      rcases List.mem_append.mp hid with hid | hid
      · obtain ⟨r, hr, hrid, hs⟩ := hb.done id hid
        refine ⟨r, hr, hrid, ?_⟩
        rcases hs with hk | heffected
        · refine .inl ?_
          -- the queue has grown at its end
          refine safe_of_subset (s := s) ?_ ?_ ?_ hk
          · exact fun _ he => List.mem_append_left _ he
          · exact fun _ he => he
          · rfl
        · exact .inr heffected
      · obtain rfl := List.mem_singleton.mp hid
        exact ⟨row, hb.todo row hrow, rfl,
          .inl (.inl (List.mem_append_right _ (List.mem_singleton_self _)))⟩

/-- The `UPDATE` of what is done writes rows the pass has locked. -/
theorem relayExec_markPublished (hself : RelayPcInv s.db s.Safe k (.markPublished b))
    (hs : s.relayExec k ⟨n, .running (.markPublished b)⟩ now (.markPublished b) = some s') :
    ∃ st, RelayTook s s' k n (.markPublished b) st := by
  obtain ⟨hlog, hb⟩ := hself
  obtain rfl := Option.some.inj hs
  obtain ⟨hcommitted, hholder, hlog'⟩ :=
    write_foldl (e := s.db) (t := .relay k) (marks now b.done)
  rw [hlog, List.nil_append] at hlog'
  have hmarked : Marked s.Safe s.db.committed _ := .of_eq hcommitted
  have hmoves : RelayMoves s.db.committed (.markPublished b) (.running b.afterUpdate)
      (((marks now b.done).foldl (fun e ch => e.write (.relay k) ch) s.db).committed) := by
    rw [hcommitted]
    exact .mark
  refine ⟨_, rfl, rfl, rfl, fun _ he => he, rfl, fun _ he => .inl he, ?_,
    fun _ hne => undisturbed_write_foldl _ hne, hmarked,
    relayPcInv_afterUpdate hlog' (hb.of_eq hcommitted hholder ?_), hmoves⟩
  · refine wellLocked_write_foldl hlocked _ ?_
    -- the pass holds the rows that it marks
    intro ch hch l hl
    obtain ⟨id, hid, rfl⟩ := List.mem_map.mp hch
    obtain ⟨r, hr, rfl, _⟩ := hb.done id hid
    obtain rfl := hl
    exact (hb.claims r hr).1
  · exact fun e he => he.mono .inl hmarked.grows

/-- The `UPDATE` of the row that failed, which the pass has locked too. -/
theorem relayExec_addAttempt (hself : RelayPcInv s.db s.Safe k (.addAttempt b))
    (hs : s.relayExec k ⟨n, .running (.addAttempt b)⟩ now (.addAttempt b) = some s') :
    ∃ st, RelayTook s s' k n (.addAttempt b) st := by
  obtain ⟨⟨now', hlog⟩, hb⟩ := hself
  rcases hfailed : b.failed with _ | id
  · simp only [Pipeline.relayExec, hfailed] at hs
    cases hs
  · simp only [Pipeline.relayExec, hfailed] at hs
    obtain rfl := Option.some.inj hs
    refine ⟨_, rfl, rfl, rfl, fun _ he => he, rfl, fun _ he => .inl he, hlocked.write ?_,
      fun _ hne => Engine.undisturbed_write _ _ hne, .refl _,
      ⟨⟨now', ?_⟩, hb.of_eq rfl rfl fun _ he => he⟩, .count⟩
    · rintro l rfl
      obtain ⟨r, hr, rfl⟩ := hb.failed id hfailed
      exact (hb.claims r hr).1
    · refine (Engine.write_log_self ..).trans ?_
      rw [hlog, hfailed]
      rfl

/-- **Every step of a pass.** -/
theorem relayExec_took (hwf : s.db.committed.WellFormed) (hself : RelayPcInv s.db s.Safe k pc)
    (hs : s.relayExec k ⟨n, .running pc⟩ now pc = some s') : ∃ st, RelayTook s s' k n pc st := by
  cases pc with
  | scan =>
    have hview : s.db.view (.relay k) = s.db.committed := hself.view
    obtain rfl := Option.some.inj hs
    rw [hview]
    exact ⟨_, relayTook_goto hlocked ⟨hself.1, fun _ hr => absurd hr List.not_mem_nil⟩ .scan⟩
  | lockRows left rows => exact relayExec_lockRows hlocked left rows hself hs
  | publish b => exact relayExec_publish hlocked hself hs
  | afterPublish b =>
    obtain rfl := Option.some.inj hs
    exact ⟨_, relayTook_goto hlocked (relayPcInv_next hself.1 hself.2) .next⟩
  | markPublished b => exact relayExec_markPublished hlocked hself hs
  | addAttempt b => exact relayExec_addAttempt hlocked hself hs
  | commit b =>
    obtain rfl := Option.some.inj hs
    exact ⟨_, relayTook_commit hlocked hwf (.inl rfl) hself⟩

/-- A publication that fails leaves its row to be counted, and perhaps a message on
the wire. -/
theorem publishFails_took (hself : RelayPcInv s.db s.Safe k pc)
    (hs : s.publishFails k ⟨n, .running pc⟩ sent pc = some s') :
    ∃ st, RelayTook s s' k n pc st := by
  cases pc with
  | publish b =>
    obtain ⟨hlog, hb⟩ := hself
    rcases htodo : b.todo with _ | ⟨row, todo⟩
    · simp only [Pipeline.publishFails, htodo] at hs
      cases hs
    · simp only [Pipeline.publishFails, htodo] at hs
      obtain rfl := Option.some.inj hs
      have hrow : row ∈ b.todo := by
        rw [htodo]
        exact List.mem_cons_self ..
      refine ⟨_, rfl, rfl, rfl, fun _ he => he, rfl, ?_, hlocked, fun _ _ => .refl _ _, .refl _,
        relayPcInv_next hlog ⟨hb.claims, ?_, hb.done, ?_⟩, .fail htodo⟩
      · rintro e (hw | hrest)
        · cases sent with
          | false => exact .inl (.inl hw)
          | true =>
            rcases List.mem_append.mp hw with hw | hw
            · exact .inl (.inl hw)
            · obtain rfl := List.mem_singleton.mp hw
              exact .inr (hb.genuine hrow)
        · exact .inl (.inr hrest)
      · intro r hr
        refine hb.todo r ?_
        rw [htodo]
        exact List.mem_cons_of_mem _ hr
      · intro id hid
        obtain rfl := Option.some.inj hid
        exact ⟨row, hb.todo row hrow, rfl⟩
  | _ => cases hs

/-- A pass that dies may leave a message on the wire. -/
theorem relayCrashes_took (hself : RelayPcInv s.db s.Safe k pc) :
    RelayTook s (s.relayCrashes k ⟨n, .running pc⟩ sent pc) k n pc (.ended .crashed) := by
  cases pc with
  | publish b =>
    obtain ⟨_, hb⟩ := hself
    refine ⟨rfl, rfl, rfl, fun _ he => he, rfl, ?_, hlocked.abort _,
      fun _ hne => Engine.undisturbed_abort _ hne, .refl _, Engine.quiet_abort _ _,
      .abort (.inr rfl)⟩
    rintro e (hw | hrest)
    · cases sent with
      | false => exact .inl (.inl hw)
      | true =>
        rcases List.mem_append.mp hw with hw | hw
        · exact .inl (.inl hw)
        · obtain ⟨row, hrow, rfl⟩ := List.mem_map.mp hw
          exact .inr (hb.genuine (List.mem_of_mem_take hrow))
    · exact .inl (.inr hrest)
  | _ => exact relayTook_end hlocked (.inr rfl)

end Steps

/-- The steps of a running pass, or the beginning of one. -/
inductive RelayStepped (s : Pipeline) (k : ℕ) (s' : Pipeline) : Prop
  | began (n : ℕ) (hnone : s.relays k = none)
    (hs : s' = s.setRelay k ⟨n, .running .scan⟩ (.running .scan))
  | moved (n : ℕ) (pc : RelayPc) (st : RelayStatus) (hc : s.relays k = some ⟨n, .running pc⟩)
    (took : RelayTook s s' k n pc st)

end Pipeline

/-- The pass an event is about. -/
def PipelineEvent.pass : PipelineEvent → Option ℕ
  | .relay k _ | .relayExec k _ | .publishFails k _ | .relayFails k | .relayCrashes k _
  | .relayLosesAnswer k => some k
  | _ => none

/-- **The events of a pass** begin it or take it one step on. -/
theorem Pipeline.relay_stepped {rt : PipelineRuntime} {s s' : Pipeline} {a : PipelineEvent} {k : ℕ}
    (hlocked : s.db.WellLocked) (hwf : s.db.committed.WellFormed)
    (hself : RelayInv s.db s.Safe k (s.relays k)) (ha : a.pass = some k)
    (hs : s.step rt a = some s') : s.RelayStepped k s' := by
  have hrunning : ∀ n pc, s.relays k = some ⟨n, .running pc⟩ → RelayPcInv s.db s.Safe k pc := by
    intro n pc hc
    rwa [hc] at hself
  cases a with
  | relay k' n =>
    obtain rfl := Option.some.inj ha
    simp only [Pipeline.step] at hs
    split at hs
    · rename_i hnone
      exact .began n hnone (Option.some.inj hs).symm
    · cases hs
  | relayExec k' now =>
    obtain rfl := Option.some.inj ha
    simp only [Pipeline.step] at hs
    split at hs
    · rename_i n pc hc
      obtain ⟨st, took⟩ := relayExec_took hlocked hwf (hrunning n pc hc) hs
      exact .moved n pc st hc took
    · cases hs
  | publishFails k' sent =>
    obtain rfl := Option.some.inj ha
    simp only [Pipeline.step] at hs
    split at hs
    · rename_i n pc hc
      obtain ⟨st, took⟩ := publishFails_took hlocked (hrunning n pc hc) hs
      exact .moved n pc st hc took
    · cases hs
  | relayFails k' =>
    obtain rfl := Option.some.inj ha
    simp only [Pipeline.step] at hs
    split at hs
    · cases hs
    · rename_i n pc _ hc
      obtain rfl := Option.some.inj hs
      exact .moved n pc _ hc (relayTook_end hlocked (.inl rfl))
    · cases hs
  | relayCrashes k' sent =>
    obtain rfl := Option.some.inj ha
    simp only [Pipeline.step] at hs
    split at hs
    · rename_i n pc hc
      obtain rfl := Option.some.inj hs
      exact .moved n pc _ hc (relayCrashes_took hlocked (hrunning n pc hc))
    · cases hs
  | relayLosesAnswer k' =>
    obtain rfl := Option.some.inj ha
    simp only [Pipeline.step] at hs
    split at hs
    · rename_i n b hc
      obtain rfl := Option.some.inj hs
      exact .moved n _ _ hc (relayTook_commit hlocked hwf (.inr rfl) (hrunning n _ hc))
    · cases hs
  | _ => cases ha

end Marketplace
