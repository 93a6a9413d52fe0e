import Mathlib.Data.List.TakeWhile
import Marketplace.Relays

/-!
# A pass by itself

What one call of `relayOnce` does when nobody interferes, for every outbox, every set of
rows that others hold, and every assignment of success or failure to the publications.

It claims the first `batchSize` rows that are unpublished and free, in order
(`Pipeline.claim`), and calls `publishRaw` for them one by one up to the first that fails
(`confirmed` and `failing`). When it has committed, exactly the confirmed rows are marked,
and the failing one has one attempt more (`OutboxRow.after`). When the UPDATE or the COMMIT
throws, nothing has changed.
-/

namespace Marketplace

/-! ## What is expected of it -/

/-- The first `n` rows that are unpublished and not held by anybody else. -/
def Pipeline.claim (s : Pipeline) (k n : ℕ) : List OutboxRow :=
  ((claimable s.db.committed).filter fun r => s.db.free (.relay k) (.outbox r.id)).take n

/-- The rows before the first whose publication fails. -/
def confirmed (fails : ℕ → Bool) (rows : List OutboxRow) : List OutboxRow :=
  rows.takeWhile fun r => !fails r.id

/-- The first row whose publication fails. -/
def failing (fails : ℕ → Bool) (rows : List OutboxRow) : Option OutboxRow :=
  rows.find? fun r => fails r.id

/-- A row of the outbox after the COMMIT. -/
def OutboxRow.after (now : ℕ) (confirmed : List OutboxRow) (failing : Option OutboxRow)
    (r : OutboxRow) : OutboxRow :=
  if r.id ∈ confirmed.map OutboxRow.id then
    { r with publishedAt := some now, attempts := r.attempts + 1 }
  else if r.id ∈ failing.toList.map OutboxRow.id then { r with attempts := r.attempts + 1 }
  else r

/-- The pass is about to publish. -/
def RelayPc.atPublish : RelayPc → Bool
  | .publish _ => true
  | _ => false

/-- The row whose publication is next. -/
def Pipeline.publishing (s : Pipeline) (k : ℕ) : Option OutboxRow :=
  match s.relays k with
  | some ⟨_, .running (.publish b)⟩ => b.todo.head?
  | _ => none

/-- The calls of `publishRaw`. -/
def Pipeline.calls (s : Pipeline) : PipelineEvent → List OutboxRow
  | .relayExec k _ | .publishFails k _ => (s.publishing k).toList
  | _ => []

/-- The pass is at an UPDATE or at the COMMIT. -/
def Pipeline.writing (s : Pipeline) (k : ℕ) : Bool :=
  match s.relays k with
  | some ⟨_, .running (.markPublished _)⟩ | some ⟨_, .running (.addAttempt _)⟩
  | some ⟨_, .running (.commit _)⟩ => true
  | _ => false

/-- The pass goes on: `publishRaw` throws for the rows it is to fail for and for no others, and
no statement throws but the UPDATEs and the COMMIT. -/
def Alone (k : ℕ) (fails : ℕ → Bool) (s : Pipeline) : PipelineEvent → Prop
  | .relayExec k' _ => k' = k ∧ ∀ row ∈ s.publishing k, fails row.id = false
  | .publishFails k' _ => k' = k ∧ ∀ row ∈ s.publishing k, fails row.id = true
  | .relayFails k' => k' = k ∧ s.writing k = true
  | _ => False

instance {k : ℕ} {fails : ℕ → Bool} {s : Pipeline} : DecidablePred (Alone k fails s)
  | .relayExec k' _ =>
    inferInstanceAs (Decidable (k' = k ∧ ∀ row ∈ s.publishing k, fails row.id = false))
  | .publishFails k' _ =>
    inferInstanceAs (Decidable (k' = k ∧ ∀ row ∈ s.publishing k, fails row.id = true))
  | .relayFails k' => inferInstanceAs (Decidable (k' = k ∧ s.writing k = true))
  | .checkout _ | .relay _ _ | .relayCrashes _ _ | .relayLosesAnswer _ | .arrive _ | .drop _
  | .deliver _ _ | .takeBack _ _ | .consumerExec _ _ | .consumerFails _ | .consumerCrashes _ _
  | .consumerLosesAnswer _ | .prune _ _ => inferInstanceAs (Decidable False)

/-! ## The lists of a batch -/

section Lists

variable {fails : ℕ → Bool} {rows rows' todo : List OutboxRow} {row : OutboxRow}

theorem confirmed_eq_self (h : ∀ r ∈ rows, fails r.id = false) : confirmed fails rows = rows := by
  refine List.takeWhile_eq_self_iff.mpr fun r hr => ?_
  rw [h r hr]
  rfl

theorem failing_eq_none (h : ∀ r ∈ rows, fails r.id = false) : failing fails rows = none := by
  refine List.find?_eq_none.mpr fun r hr => ?_
  rw [h r hr]
  exact Bool.false_ne_true

theorem confirmed_append (h : ∀ r ∈ rows, fails r.id = false) (hrow : fails row.id = true) :
    confirmed fails (rows ++ row :: todo) = rows := by
  rw [confirmed, List.takeWhile_append_of_pos, List.takeWhile_cons_of_neg, List.append_nil]
  · rw [hrow]
    exact Bool.false_ne_true
  · intro r hr
    rw [h r hr]
    rfl

theorem failing_append (h : ∀ r ∈ rows, fails r.id = false) (hrow : fails row.id = true) :
    failing fails (rows ++ row :: todo) = some row := by
  have hnone : rows.find? (fun r => fails r.id) = none := failing_eq_none h
  rw [failing, List.find?_append, hnone, Option.none_or]
  exact List.find?_cons_of_pos hrow

/-- The confirmed rows come first, and the failing one is the next. -/
theorem confirmed_length_lt :
    (confirmed fails rows).length < rows.length ↔ (failing fails rows).isSome = true := by
  induction rows with
  | nil => simp [confirmed, failing]
  | cons r rows ih =>
    rcases hr : fails r.id with _ | _
    · have hconfirmed : confirmed fails (r :: rows) = r :: confirmed fails rows :=
        List.takeWhile_cons_of_pos (by simp [hr])
      have hfailing : failing fails (r :: rows) = failing fails rows :=
        List.find?_cons_of_neg (by simp [hr])
      rw [hconfirmed, hfailing, List.length_cons, List.length_cons, Nat.succ_lt_succ_iff]
      exact ih
    · have hconfirmed : confirmed fails (r :: rows) = [] :=
        List.takeWhile_cons_of_neg (by simp [hr])
      have hfailing : failing fails (r :: rows) = some r := List.find?_cons_of_pos hr
      rw [hconfirmed, hfailing]
      simp

theorem fails_of_confirmed (h : row ∈ confirmed fails rows) : fails row.id = false := by
  have hnot := List.mem_takeWhile_imp h
  simpa using hnot

theorem fails_of_failing (h : failing fails rows = some row) : fails row.id = true :=
  List.find?_some (p := fun r : OutboxRow => fails r.id) h

end Lists

/-! ## What the COMMIT writes -/

section Writes

variable {db : Database} {now : ℕ} {ids : List ℕ} {fails : ℕ → Bool} {rows : List OutboxRow}

/-- The UPDATE of the rows that are done. -/
theorem redo_marks (hids : ids.Nodup) :
    (marks now ids).foldl Database.redo db =
      { db with outbox := db.outbox.map fun r =>
          if r.id ∈ ids then { r with publishedAt := some now, attempts := r.attempts + 1 }
          else r } := by
  induction ids generalizing db with
  | nil => simp [marks]
  | cons id ids ih =>
    obtain ⟨hid, hids⟩ := List.nodup_cons.mp hids
    have hstep : (marks now (id :: ids)).foldl Database.redo db =
        (marks now ids).foldl Database.redo (db.redo (.setPublished id now)) := rfl
    rw [hstep, ih hids]
    simp only [Database.redo, Database.mapOutbox, Table.modify, List.map_map]
    congr 1
    refine List.map_congr_left fun r _ => ?_
    by_cases hr : r.id = id
    · simp [hr, hid]
    · simp [hr]

/-- Both UPDATEs. -/
theorem redo_after (hids : (rows.map OutboxRow.id).Nodup) :
    (marks now ((confirmed fails rows).map OutboxRow.id) ++
        ((failing fails rows).map OutboxRow.id).toList.map Change.addAttempt).foldl
          Database.redo db =
      { db with outbox :=
          db.outbox.map (OutboxRow.after now (confirmed fails rows) (failing fails rows)) } := by
  have hconfirmed : ((confirmed fails rows).map OutboxRow.id).Nodup :=
    hids.sublist ((List.takeWhile_sublist _).map _)
  rw [List.foldl_append, redo_marks hconfirmed]
  rcases hfailing : failing fails rows with _ | row
  · simp [OutboxRow.after]
  · have hrow := fails_of_failing hfailing
    simp only [Option.map_some, Option.toList_some, List.map_cons, List.map_nil, List.foldl_cons,
      List.foldl_nil, Database.redo, Database.mapOutbox, Table.modify, List.map_map]
    congr 1
    refine List.map_congr_left fun r _ => ?_
    by_cases hr : r.id ∈ (confirmed fails rows).map OutboxRow.id
    · -- a confirmed row is not the one that failed
      have hne : r.id ≠ row.id := by
        intro heq
        obtain ⟨r', hr', hid⟩ := List.mem_map.mp hr
        have hgood := fails_of_confirmed hr'
        rw [hid, heq, hrow] at hgood
        cases hgood
      simp only [Function.comp_apply, OutboxRow.after, if_pos hr, if_neg hne]
    · simp only [Function.comp_apply, OutboxRow.after, if_neg hr, Option.toList_some, List.map_cons,
        List.map_nil, List.mem_singleton]

end Writes

/-! ## Where the pass is -/

/-- In the loop: these calls were made, all successful. -/
structure Halfway (fails : ℕ → Bool) (rows calls : List OutboxRow) (b : Batch) : Prop where
  claimed : b.rows = rows
  split : rows = calls ++ b.todo
  done : b.done = calls.map OutboxRow.id
  failed : b.failed = none
  good : ∀ r ∈ calls, fails r.id = false

/-- After the loop. -/
structure Through (fails : ℕ → Bool) (rows calls : List OutboxRow) (b : Batch) : Prop where
  claimed : b.rows = rows
  done : b.done = (confirmed fails rows).map OutboxRow.id
  failed : b.failed = (failing fails rows).map OutboxRow.id
  called : calls = confirmed fails rows ++ (failing fails rows).toList

/-- What the pass has done at each of its points, from the state `s₀`. -/
def Reached (s₀ s : Pipeline) (k n : ℕ) (fails : ℕ → Bool) (calls : List OutboxRow) : RelayPc → Prop
  | .scan => s.db.log (.relay k) = [] ∧ calls = []
  | .lockRows left rows => s.db.log (.relay k) = [] ∧ calls = [] ∧
      ∃ seen rest, claimable s₀.db.committed = seen ++ rest ∧ left = rest.map OutboxRow.id ∧
        rows = (seen.filter fun r => s₀.db.free (.relay k) (.outbox r.id)) ∧ rows.length ≤ n
  | .publish b =>
    s.db.log (.relay k) = [] ∧ Halfway fails (s₀.claim k n) calls b ∧ b.todo ≠ []
  | .afterPublish b => s.db.log (.relay k) = [] ∧ Halfway fails (s₀.claim k n) calls b
  | .markPublished b => s.db.log (.relay k) = [] ∧ Through fails (s₀.claim k n) calls b
  | .addAttempt b =>
    (∃ now, s.db.log (.relay k) = marks now b.done) ∧ Through fails (s₀.claim k n) calls b ∧
      b.failed ≠ none
  | .commit b =>
    (∃ now, s.db.log (.relay k) = marks now b.done ++ b.failed.toList.map .addAttempt) ∧
      Through fails (s₀.claim k n) calls b

/-- How the pass ends. -/
def Finished (s₀ s : Pipeline) (k n : ℕ) (fails : ℕ → Bool) (calls : List OutboxRow) :
    RelayOutcome → Prop
  | .returned pass =>
    calls = confirmed fails (s₀.claim k n) ++ (failing fails (s₀.claim k n)).toList ∧
      pass = ⟨(s₀.claim k n).length, (confirmed fails (s₀.claim k n)).length,
        (failing fails (s₀.claim k n)).isSome⟩ ∧
      ∃ now, s.db.committed = { s₀.db.committed with
        outbox := s₀.db.committed.outbox.map (OutboxRow.after now (confirmed fails (s₀.claim k n))
          (failing fails (s₀.claim k n))) }
  | .thrown =>
    calls = confirmed fails (s₀.claim k n) ++ (failing fails (s₀.claim k n)).toList ∧
      s.db.committed = s₀.db.committed
  | .crashed | .lost => False

/-- While the pass is running, nothing is committed, and nobody else locks or unlocks a row. -/
structure Frame (s₀ s : Pipeline) (k : ℕ) : Prop where
  committed : s.db.committed = s₀.db.committed
  free : ∀ id, s.db.free (.relay k) (.outbox id) = s₀.db.free (.relay k) (.outbox id)

/-- The pass, running or ended. -/
def Passing (s₀ : Pipeline) (k n : ℕ) (fails : ℕ → Bool) (calls : List OutboxRow) (s : Pipeline) :
    RelayStatus → Prop
  | .running pc => Frame s₀ s k ∧ Reached s₀ s k n fails calls pc
  | .ended o => Finished s₀ s k n fails calls o

/-- The most steps it can have left, when `c` rows are unpublished. -/
def RelayPc.remaining (c : ℕ) : RelayPc → ℕ
  | .scan => 3 * c + 6
  | .lockRows left rows => 3 * left.length + 2 * rows.length + 5
  | .publish b => 2 * b.todo.length + 3
  | .afterPublish b => 2 * b.todo.length + 4
  | .markPublished _ => 3
  | .addAttempt _ => 2
  | .commit _ => 1

/-- None when it has ended. -/
def RelayStatus.remaining (c : ℕ) : RelayStatus → ℕ
  | .running pc => pc.remaining c
  | .ended _ => 0

theorem Batch.remaining_afterUpdate (b : Batch) (c : ℕ) : b.afterUpdate.remaining c ≤ 2 := by
  unfold Batch.afterUpdate
  rcases b.failed with _ | id
  · exact Nat.le_succ 1
  · exact Nat.le_refl 2

theorem Batch.remaining_next (b : Batch) (c : ℕ) : b.next.remaining c ≤ 2 * b.todo.length + 3 := by
  have hafter := b.remaining_afterUpdate c
  unfold Batch.next
  split_ifs
  · exact Nat.le_refl _
  · exact Nat.le_add_left ..
  · omega

section Steps

variable {rt : PipelineRuntime} {s₀ s s' : Pipeline} {k n now : ℕ} {fails : ℕ → Bool}
  {calls : List OutboxRow} {b : Batch} {pc : RelayPc} {a : PipelineEvent} {c : ℕ}

theorem point_afterUpdate (hlog : s.db.log (.relay k) = marks now b.done)
    (h : Through fails (s₀.claim k n) calls b) : Reached s₀ s k n fails calls b.afterUpdate := by
  unfold Batch.afterUpdate
  rcases hfailed : b.failed with _ | id
  · exact ⟨⟨now, by rw [hlog, hfailed, Option.toList_none, List.map_nil, List.append_nil]⟩, h⟩
  · exact ⟨⟨now, hlog⟩, h, by rw [hfailed]; exact Option.some_ne_none id⟩

/-- The loop has ended. -/
theorem point_through (hlog : s.db.log (.relay k) = []) (h : Through fails (s₀.claim k n) calls b)
    (hend : ¬ (b.todo ≠ [] ∧ b.failed = none)) : Reached s₀ s k n fails calls b.next := by
  unfold Batch.next
  rw [if_neg hend]
  split_ifs with hdone
  · exact ⟨hlog, h⟩
  · rw [not_not] at hdone
    have hmarks : s.db.log (.relay k) = marks 0 b.done := by
      rw [hlog, hdone]
      rfl
    exact point_afterUpdate hmarks h

/-- The head of the loop. -/
theorem point_next (hlog : s.db.log (.relay k) = []) (h : Halfway fails (s₀.claim k n) calls b) :
    Reached s₀ s k n fails calls b.next := by
  by_cases hend : b.todo ≠ [] ∧ b.failed = none
  · unfold Batch.next
    rw [if_pos hend]
    exact ⟨hlog, h, hend.1⟩
  · have htodo : b.todo = [] := by
      by_contra hne
      exact hend ⟨hne, h.failed⟩
    have hcalls : s₀.claim k n = calls := by rw [h.split, htodo, List.append_nil]
    have hgood : ∀ r ∈ s₀.claim k n, fails r.id = false := hcalls ▸ h.good
    refine point_through hlog ⟨h.claimed, ?_, ?_, ?_⟩ hend
    · rw [confirmed_eq_self hgood, hcalls, h.done]
    · rw [failing_eq_none hgood, h.failed]
      rfl
    · rw [confirmed_eq_self hgood, failing_eq_none hgood, hcalls]
      exact (List.append_nil _).symm

/-- A row the snapshot has is found as it was, if it is there still. -/
theorem find_claimable (hids : (s₀.db.committed.outbox.map OutboxRow.id).Nodup) {row : OutboxRow}
    (hrow : row ∈ claimable s₀.db.committed) :
    (Table.lookup OutboxRow.id row.id s₀.db.committed.outbox).filter (·.publishedAt = none) =
      some row := by
  obtain ⟨hmem, hnew⟩ := mem_claimable.mp hrow
  rw [Table.lookup_of_mem hids hmem, Option.filter_some, if_pos (decide_eq_true hnew)]

/-- The scan has come to the rows `rest`, or to its limit. -/
theorem claim_eq {seen rest : List OutboxRow} (hsplit : claimable s₀.db.committed = seen ++ rest)
    (hend : rest = [] ∧
        (seen.filter fun r => s₀.db.free (.relay k) (.outbox r.id)).length ≤ n ∨
      (seen.filter fun r => s₀.db.free (.relay k) (.outbox r.id)).length = n) :
    s₀.claim k n = seen.filter fun r => s₀.db.free (.relay k) (.outbox r.id) := by
  rw [Pipeline.claim, hsplit, List.filter_append]
  rcases hend with ⟨rfl, hle⟩ | heq
  · rw [List.filter_nil, List.append_nil, List.take_of_length_le hle]
  · rw [← heq, List.take_left]

theorem point_start {rows : List OutboxRow} (hlog : s.db.log (.relay k) = [])
    (hrows : s₀.claim k n = rows) : Reached s₀ s k n fails [] (Batch.start rows).next :=
  point_next hlog ⟨hrows.symm, hrows, rfl, rfl, fun _ hr => absurd hr List.not_mem_nil⟩

/-- The claiming of the rows, one by one. -/
theorem passing_lockRows (hids : (s₀.db.committed.outbox.map OutboxRow.id).Nodup)
    (hframe : Frame s₀ s k) {left : List ℕ} {rows : List OutboxRow}
    (hpoint : Reached s₀ s k n fails calls (.lockRows left rows))
    (hs : s.relayExec k ⟨n, .running (.lockRows left rows)⟩ now (.lockRows left rows) = some s') :
    ∃ st, s'.relays k = some ⟨n, st⟩ ∧ Passing s₀ k n fails calls s' st ∧
      st.remaining c < (RelayPc.lockRows left rows).remaining c := by
  have hstart : (Batch.start rows).next.remaining c <
      (RelayPc.lockRows left rows).remaining c := by
    refine Nat.lt_of_le_of_lt ((Batch.start rows).remaining_next c) ?_
    simp only [RelayPc.remaining, Batch.start]
    omega
  obtain ⟨hlog, rfl, seen, rest, hsplit, hleft, hrows, hle⟩ := hpoint
  rcases rest with _ | ⟨row, rest⟩
  · subst hleft
    obtain rfl := Option.some.inj hs
    refine ⟨_, Function.update_self .., ⟨⟨hframe.committed, hframe.free⟩, point_start hlog ?_⟩,
      hstart⟩
    rw [hrows]
    exact claim_eq hsplit (.inl ⟨rfl, hrows ▸ hle⟩)
  · subst hleft
    simp only [List.map_cons, Pipeline.relayExec] at hs
    have hview : s.db.view (.relay k) = s₀.db.committed := by
      rw [Engine.view, hlog, ← hframe.committed]
      rfl
    have hseen : claimable s₀.db.committed = (seen ++ [row]) ++ rest := by
      rw [hsplit, List.append_assoc]
      rfl
    have hrow : row ∈ claimable s₀.db.committed := by
      rw [hsplit]
      exact List.mem_append_right _ (List.mem_cons_self ..)
    split_ifs at hs with hfull hfree
    · obtain rfl := Option.some.inj hs
      refine ⟨_, Function.update_self .., ⟨⟨hframe.committed, hframe.free⟩, point_start hlog ?_⟩,
      hstart⟩
      rw [hrows]
      exact claim_eq hsplit (.inr (hrows ▸ hfull))
    · rw [hview, find_claimable hids hrow] at hs
      obtain rfl := Option.some.inj hs
      have hfree₀ := hframe.free row.id ▸ hfree
      refine ⟨_, Function.update_self .., ⟨⟨hframe.committed, fun id => ?_⟩, hlog, rfl,
        seen ++ [row], rest, hseen, rfl, ?_, ?_⟩, ?_⟩
      · exact (Engine.free_acquire hfree).trans (hframe.free id)
      · rw [List.filter_append, hrows, List.filter_singleton, hfree₀, cond_true]
      · rw [List.length_append, List.length_singleton]
        omega
      · simp only [RelayStatus.remaining, RelayPc.remaining, List.map_cons, List.length_append,
          List.length_cons, List.length_nil]
        omega
    · obtain rfl := Option.some.inj hs
      have hheld₀ := hframe.free row.id ▸ hfree
      refine ⟨_, Function.update_self .., ⟨⟨hframe.committed, hframe.free⟩, hlog, rfl,
        seen ++ [row], rest, hseen, rfl, ?_, hle⟩, ?_⟩
      swap
      · simp only [RelayStatus.remaining, RelayPc.remaining, List.map_cons, List.length_cons]
        omega
      rw [List.filter_append, hrows, List.filter_singleton,
        Bool.eq_false_iff.mpr hheld₀, cond_false, List.append_nil]

theorem publishing_eq_none (hc : s.relays k = some ⟨n, .running pc⟩) (hpc : pc.atPublish = false) :
    s.publishing k = none := by
  rw [Pipeline.publishing, hc]
  cases pc with
  | publish b => cases hpc
  | _ => rfl

theorem publishing_eq (hc : s.relays k = some ⟨n, .running (.publish b)⟩) :
    s.publishing k = b.todo.head? := by
  rw [Pipeline.publishing, hc]

/-- A publication that succeeds. -/
theorem passing_publish (hframe : Frame s₀ s k) (hc : s.relays k = some ⟨n, .running (.publish b)⟩)
    (hpoint : Reached s₀ s k n fails calls (.publish b)) (hok : Alone k fails s (.relayExec k now))
    (hs : s.relayExec k ⟨n, .running (.publish b)⟩ now (.publish b) = some s') :
    ∃ st, s'.relays k = some ⟨n, st⟩ ∧
      Passing s₀ k n fails (calls ++ (s.publishing k).toList) s' st ∧
      st.remaining c < (RelayPc.publish b).remaining c := by
  obtain ⟨hlog, h, hne⟩ := hpoint
  rcases htodo : b.todo with _ | ⟨row, todo⟩
  · exact absurd htodo hne
  · have hnext : s.publishing k = some row := by
      rw [publishing_eq hc, htodo]
      rfl
    simp only [Pipeline.relayExec, htodo] at hs
    obtain rfl := Option.some.inj hs
    rw [hnext]
    refine ⟨_, Function.update_self .., ⟨⟨hframe.committed, hframe.free⟩, hlog, h.claimed, ?_, ?_,
      h.failed, ?_⟩, ?_⟩
    · rw [h.split, htodo, List.append_assoc]
      rfl
    · simp only [Batch.confirm, h.done, Option.toList_some, List.map_append, List.map_cons,
        List.map_nil]
    · intro r hr
      rcases List.mem_append.mp hr with hr | hr
      · exact h.good r hr
      · obtain rfl := List.mem_singleton.mp hr
        exact hok.2 r hnext
    · simp only [RelayStatus.remaining, RelayPc.remaining, Batch.confirm, htodo, List.length_cons]
      omega

/-- A publication that fails ends the loop. -/
theorem passing_publishFails (hframe : Frame s₀ s k) {sent : Bool}
    (hc : s.relays k = some ⟨n, .running pc⟩) (hpoint : Reached s₀ s k n fails calls pc)
    (hok : Alone k fails s (.publishFails k sent))
    (hs : s.publishFails k ⟨n, .running pc⟩ sent pc = some s') :
    ∃ st, s'.relays k = some ⟨n, st⟩ ∧
      Passing s₀ k n fails (calls ++ (s.publishing k).toList) s' st ∧
      st.remaining c < pc.remaining c := by
  cases pc with
  | publish b =>
    obtain ⟨hlog, h, hne⟩ := hpoint
    rcases htodo : b.todo with _ | ⟨row, todo⟩
    · exact absurd htodo hne
    · have hnext : s.publishing k = some row := by
        rw [publishing_eq hc, htodo]
        rfl
      simp only [Pipeline.publishFails, htodo] at hs
      obtain rfl := Option.some.inj hs
      have hrow := hok.2 row hnext
      have hsplit : s₀.claim k n = calls ++ row :: todo := by rw [h.split, htodo]
      have hthrough : Through fails (s₀.claim k n) (calls ++ [row]) (b.fail row todo) := by
        refine ⟨h.claimed, ?_, ?_, ?_⟩
        · rw [hsplit, confirmed_append h.good hrow]
          exact h.done
        · rw [hsplit, failing_append h.good hrow]
          rfl
        · rw [hsplit, confirmed_append h.good hrow, failing_append h.good hrow]
          rfl
      refine ⟨_, Function.update_self .., ⟨⟨hframe.committed, hframe.free⟩, ?_⟩, ?_⟩
      · rw [hnext]
        exact point_through hlog hthrough fun hgoes => absurd hgoes.2 (Option.some_ne_none _)
      · refine Nat.lt_of_le_of_lt ((b.fail row todo).remaining_next c) ?_
        simp only [RelayPc.remaining, Batch.fail, htodo, List.length_cons]
        omega
  | _ => cases hs

/-- The UPDATE of the rows that are done. -/
theorem passing_markPublished (hframe : Frame s₀ s k)
    (hpoint : Reached s₀ s k n fails calls (.markPublished b))
    (hs : s.relayExec k ⟨n, .running (.markPublished b)⟩ now (.markPublished b) = some s') :
    ∃ st, s'.relays k = some ⟨n, st⟩ ∧ Passing s₀ k n fails calls s' st ∧
      st.remaining c < (RelayPc.markPublished b).remaining c := by
  obtain ⟨hlog, h⟩ := hpoint
  obtain rfl := Option.some.inj hs
  obtain ⟨hcommitted, hholder, hlog'⟩ :=
    write_foldl (e := s.db) (t := .relay k) (marks now b.done)
  rw [hlog, List.nil_append] at hlog'
  refine ⟨_, Function.update_self .., ⟨⟨hcommitted.trans hframe.committed, fun id => ?_⟩,
    point_afterUpdate hlog' h⟩, ?_⟩
  · exact (Engine.free_congr hholder _ _).trans (hframe.free id)
  · exact Nat.lt_succ_of_le (b.remaining_afterUpdate c)

/-- The UPDATE of the row that failed. -/
theorem passing_addAttempt (hframe : Frame s₀ s k)
    (hpoint : Reached s₀ s k n fails calls (.addAttempt b))
    (hs : s.relayExec k ⟨n, .running (.addAttempt b)⟩ now (.addAttempt b) = some s') :
    ∃ st, s'.relays k = some ⟨n, st⟩ ∧ Passing s₀ k n fails calls s' st ∧
      st.remaining c < (RelayPc.addAttempt b).remaining c := by
  obtain ⟨⟨now', hlog⟩, h, hne⟩ := hpoint
  rcases hfailed : b.failed with _ | id
  · exact absurd hfailed hne
  · simp only [Pipeline.relayExec, hfailed] at hs
    obtain rfl := Option.some.inj hs
    refine ⟨_, Function.update_self .., ⟨⟨hframe.committed, hframe.free⟩, ⟨now', ?_⟩, h⟩,
      Nat.lt_succ_self 1⟩
    refine (Engine.write_log_self ..).trans ?_
    rw [hlog, hfailed]
    rfl

/-- The COMMIT. -/
theorem passing_commit (hids : (s₀.db.committed.outbox.map OutboxRow.id).Nodup)
    (hframe : Frame s₀ s k) (hpoint : Reached s₀ s k n fails calls (.commit b))
    (hs : s.relayExec k ⟨n, .running (.commit b)⟩ now (.commit b) = some s') :
    ∃ st, s'.relays k = some ⟨n, st⟩ ∧ Passing s₀ k n fails calls s' st ∧
      st.remaining c < (RelayPc.commit b).remaining c := by
  obtain ⟨⟨now', hlog⟩, h⟩ := hpoint
  obtain rfl := Option.some.inj hs
  refine ⟨_, Function.update_self .., ⟨h.called, ?_, now', ?_⟩, Nat.zero_lt_one⟩
  · rw [Batch.pass, h.claimed, h.done, h.failed, List.length_map, Option.isSome_map]
  · -- the ids of the rows it has claimed are distinct, so each is marked once
    have hclaim : ((s₀.claim k n).map OutboxRow.id).Nodup :=
      (nodup_claimable hids).sublist (((List.take_sublist _ _).trans List.filter_sublist).map _)
    refine Eq.trans ?_ (redo_after hclaim)
    change (s.db.log (.relay k)).foldl Database.redo s.db.committed = _
    rw [hlog, hframe.committed, h.done, h.failed]

/-- **The steps of the pass.** -/
theorem passing_exec (hids : (s₀.db.committed.outbox.map OutboxRow.id).Nodup)
    (hc : s.relays k = some ⟨n, .running pc⟩) (h : Passing s₀ k n fails calls s (.running pc))
    (hok : Alone k fails s (.relayExec k now))
    (hs : s.relayExec k ⟨n, .running pc⟩ now pc = some s') :
    ∃ st, s'.relays k = some ⟨n, st⟩ ∧
      Passing s₀ k n fails (calls ++ s.calls (.relayExec k now)) s' st ∧
      st.remaining (claimable s₀.db.committed).length <
        pc.remaining (claimable s₀.db.committed).length := by
  obtain ⟨hframe, hpoint⟩ := h
  have hnone : pc.atPublish = false → calls ++ s.calls (.relayExec k now) = calls := by
    intro hpc
    rw [Pipeline.calls, publishing_eq_none hc hpc]
    exact List.append_nil _
  cases pc with
  | scan =>
    rw [hnone rfl]
    obtain ⟨hlog, hcalls⟩ := hpoint
    have hview : s.db.view (.relay k) = s₀.db.committed := by
      rw [Engine.view, hlog, ← hframe.committed]
      rfl
    obtain rfl := Option.some.inj hs
    rw [hview]
    refine ⟨_, Function.update_self .., ⟨⟨hframe.committed, hframe.free⟩, hlog, ?_, [],
      claimable s₀.db.committed, rfl, rfl, rfl, Nat.zero_le _⟩, ?_⟩
    · exact hcalls
    · simp only [RelayStatus.remaining, RelayPc.remaining, List.length_map, List.length_nil]
      omega
  | publish b => exact passing_publish hframe hc hpoint hok hs
  | afterPublish b =>
    obtain ⟨hlog, h⟩ := hpoint
    obtain rfl := Option.some.inj hs
    rw [hnone rfl]
    exact ⟨_, Function.update_self .., ⟨⟨hframe.committed, hframe.free⟩, point_next hlog h⟩,
      Nat.lt_succ_of_le (b.remaining_next _)⟩
  | lockRows left rows =>
    rw [hnone rfl]
    exact passing_lockRows hids hframe hpoint hs
  | markPublished b =>
    rw [hnone rfl]
    exact passing_markPublished hframe hpoint hs
  | addAttempt b =>
    rw [hnone rfl]
    exact passing_addAttempt hframe hpoint hs
  | commit b =>
    rw [hnone rfl]
    exact passing_commit hids hframe hpoint hs

/-- An UPDATE or the COMMIT that throws leaves everything as it was. -/
theorem passing_fails (hc : s.relays k = some ⟨n, .running pc⟩)
    (h : Passing s₀ k n fails calls s (.running pc)) (hok : s.writing k = true)
    (hs : s.step rt (.relayFails k) = some s') :
    s'.relays k = some ⟨n, .ended .thrown⟩ ∧ Passing s₀ k n fails calls s' (.ended .thrown) ∧
      0 < pc.remaining c := by
  obtain ⟨hframe, hpoint⟩ := h
  rw [Pipeline.writing, hc] at hok
  cases pc with
  | markPublished b =>
    simp only [Pipeline.step, hc] at hs
    obtain rfl := Option.some.inj hs
    exact ⟨Function.update_self .., ⟨hpoint.2.called, hframe.committed⟩, Nat.succ_pos 2⟩
  | addAttempt b =>
    simp only [Pipeline.step, hc] at hs
    obtain rfl := Option.some.inj hs
    exact ⟨Function.update_self .., ⟨hpoint.2.1.called, hframe.committed⟩, Nat.succ_pos 1⟩
  | commit b =>
    simp only [Pipeline.step, hc] at hs
    obtain rfl := Option.some.inj hs
    exact ⟨Function.update_self .., ⟨hpoint.2.called, hframe.committed⟩, Nat.succ_pos 0⟩
  | _ => cases hok

/-- **Every event that goes on with the pass.** -/
theorem passing_step (hids : (s₀.db.committed.outbox.map OutboxRow.id).Nodup)
    {st : RelayStatus} (hc : s.relays k = some ⟨n, st⟩) (h : Passing s₀ k n fails calls s st)
    (hok : Alone k fails s a) (hs : s.step rt a = some s') :
    ∃ st', s'.relays k = some ⟨n, st'⟩ ∧ Passing s₀ k n fails (calls ++ s.calls a) s' st' ∧
      st'.remaining (claimable s₀.db.committed).length <
        st.remaining (claimable s₀.db.committed).length := by
  cases a with
  | relayExec k' now =>
    obtain ⟨rfl, -⟩ := id hok
    rcases st with pc | o <;> simp only [Pipeline.step, hc] at hs
    · exact passing_exec hids hc h hok hs
    · cases hs
  | publishFails k' sent =>
    obtain ⟨rfl, -⟩ := id hok
    rcases st with pc | o <;> simp only [Pipeline.step, hc] at hs
    · exact passing_publishFails h.1 hc h.2 hok hs
    · cases hs
  | relayFails k' =>
    obtain ⟨rfl, hwriting⟩ := hok
    rcases st with pc | o
    · obtain ⟨hc', hpassing, hpos⟩ := passing_fails hc h hwriting hs
      refine ⟨_, hc', ?_, hpos⟩
      change Passing s₀ k' n fails (calls ++ []) _ _
      rw [List.append_nil]
      exact hpassing
    · rw [Pipeline.writing, hc] at hwriting
      cases hwriting
  | _ => cases hok

/-- As long as the pass is running, some event goes on with it. -/
theorem passing_enabled (hc : s.relays k = some ⟨n, .running pc⟩)
    (h : Passing s₀ k n fails calls s (.running pc)) :
    ∃ a s', Alone k fails s a ∧ s.step rt a = some s' := by
  have hexec : pc.atPublish = false → ∀ s', s.relayExec k ⟨n, .running pc⟩ 0 pc = some s' →
      ∃ a s', Alone k fails s a ∧ s.step rt a = some s' := by
    intro hpc s' hs
    refine ⟨.relayExec k 0, s', ⟨rfl, fun row hrow => ?_⟩, ?_⟩
    · rw [publishing_eq_none hc hpc] at hrow
      cases hrow
    · simp only [Pipeline.step, hc]
      exact hs
  cases pc with
  | scan => exact hexec rfl _ rfl
  | lockRows left rows =>
    rcases left with _ | ⟨id, left⟩
    · exact hexec rfl _ rfl
    · have hsome : (s.relayExec k ⟨n, .running (.lockRows (id :: left) rows)⟩ 0
          (.lockRows (id :: left) rows)).isSome = true := by
        simp only [Pipeline.relayExec]
        split_ifs
        · rfl
        · split <;> rfl
        · rfl
      obtain ⟨s', hs⟩ := Option.isSome_iff_exists.mp hsome
      exact hexec rfl s' hs
  | publish b =>
    obtain ⟨row, todo, htodo⟩ := List.exists_cons_of_ne_nil h.2.2.2
    have hnext : s.publishing k = some row := by
      rw [publishing_eq hc, htodo]
      rfl
    rcases hfails : fails row.id with _ | _
    · have hsome : (s.step rt (.relayExec k 0)).isSome = true := by
        simp only [Pipeline.step, hc, Pipeline.relayExec, htodo, Option.isSome_some]
      obtain ⟨s', hs⟩ := Option.isSome_iff_exists.mp hsome
      refine ⟨.relayExec k 0, s', ⟨rfl, fun r hr => ?_⟩, hs⟩
      rwa [Option.some.inj (hr.symm.trans hnext)]
    · have hsome : (s.step rt (.publishFails k false)).isSome = true := by
        simp only [Pipeline.step, hc, Pipeline.publishFails, htodo, Option.isSome_some]
      obtain ⟨s', hs⟩ := Option.isSome_iff_exists.mp hsome
      refine ⟨.publishFails k false, s', ⟨rfl, fun r hr => ?_⟩, hs⟩
      rwa [Option.some.inj (hr.symm.trans hnext)]
  | afterPublish b => exact hexec rfl _ rfl
  | markPublished b => exact hexec rfl _ rfl
  | addAttempt b =>
    obtain ⟨id, hfailed⟩ := Option.ne_none_iff_exists'.mp h.2.2.2
    refine hexec rfl ((s.setDb (s.db.write (.relay k) (.addAttempt id))).setRelay k
      ⟨n, .running (.addAttempt b)⟩ (.running (.commit b))) ?_
    simp only [Pipeline.relayExec, hfailed]
  | commit b => exact hexec rfl _ rfl

end Steps

/-! ## The whole pass -/

/-- What is known of the pass after every run of it. -/
theorem passing_run {rt : PipelineRuntime} {s₀ s₁ s : Pipeline} {k n : ℕ} {fails : ℕ → Bool}
    {as : List PipelineEvent} (hids : (s₀.db.committed.outbox.map OutboxRow.id).Nodup)
    (hlog : s₀.db.log (.relay k) = []) (hbegin : (pipelines rt).step s₀ (.relay k n) = some s₁)
    (hrun : (pipelines rt).run s₁ as = some s) (hok : (pipelines rt).Meets (Alone k fails) s₁ as) :
    ∃ st, s.relays k = some ⟨n, st⟩ ∧
      Passing s₀ k n fails ((pipelines rt).trace Pipeline.calls s₁ as) s st ∧
      as.length + st.remaining (claimable s₀.db.committed).length ≤
        3 * (claimable s₀.db.committed).length + 6 := by
  refine System.run_induction (M := pipelines rt) (J := fun as s =>
    (pipelines rt).Meets (Alone k fails) s₁ as → ∃ st, s.relays k = some ⟨n, st⟩ ∧
      Passing s₀ k n fails ((pipelines rt).trace Pipeline.calls s₁ as) s st ∧
      as.length + st.remaining (claimable s₀.db.committed).length ≤
        3 * (claimable s₀.db.committed).length + 6) (fun _ => ?_)
    (fun as s a s' hrun ih hs hok => ?_) hrun hok
  · simp only [pipelines, Pipeline.step] at hbegin
    split at hbegin
    · obtain rfl := Option.some.inj hbegin
      exact ⟨_, Function.update_self .., ⟨⟨rfl, fun _ => rfl⟩, hlog, rfl⟩,
        Nat.le_of_eq (Nat.zero_add _)⟩
    · cases hbegin
  · obtain ⟨hok, ha⟩ := System.Meets.snoc hok
    obtain ⟨st, hc, hpassing, hle⟩ := ih hok
    obtain ⟨st', hc', hpassing', hless⟩ := passing_step hids hc hpassing (ha s hrun) hs
    refine ⟨st', hc', ?_, ?_⟩
    · rw [System.trace_snoc hrun]
      exact hpassing'
    · rw [List.length_append, List.length_singleton]
      omega

/-- **A pass publishes and marks exactly a prefix.** For every outbox, every set of rows that
others hold, every `batchSize` and every assignment of failures to the publications: the calls
of `publishRaw` are those for the rows claimed up to the first that fails, in order. When the
pass has returned, exactly the confirmed rows are marked, the failing one has one attempt more,
and the result counts them; the error is set iff fewer were published than claimed. When it has
thrown, nothing has changed. It ends one way or the other: as long as it is running it can go
on, and it cannot go on for ever. -/
theorem relayOnce_marks_prefix {rt : PipelineRuntime} {s₀ s₁ s : Pipeline} {k n : ℕ}
    {fails : ℕ → Bool} {as : List PipelineEvent}
    (hids : (s₀.db.committed.outbox.map OutboxRow.id).Nodup) (hlog : s₀.db.log (.relay k) = [])
    (hbegin : (pipelines rt).step s₀ (.relay k n) = some s₁)
    (hrun : (pipelines rt).run s₁ as = some s) (hok : (pipelines rt).Meets (Alone k fails) s₁ as) :
    (∀ pass, s.relays k = some ⟨n, .ended (.returned pass)⟩ →
      (pipelines rt).trace Pipeline.calls s₁ as =
          confirmed fails (s₀.claim k n) ++ (failing fails (s₀.claim k n)).toList ∧
        pass.claimed = (s₀.claim k n).length ∧
        pass.published = (confirmed fails (s₀.claim k n)).length ∧
        (pass.error = true ↔ pass.published < pass.claimed) ∧
        ∃ now, s.db.committed = { s₀.db.committed with
          outbox := s₀.db.committed.outbox.map (OutboxRow.after now (confirmed fails (s₀.claim k n))
            (failing fails (s₀.claim k n))) }) ∧
    (s.relays k = some ⟨n, .ended .thrown⟩ →
      (pipelines rt).trace Pipeline.calls s₁ as =
          confirmed fails (s₀.claim k n) ++ (failing fails (s₀.claim k n)).toList ∧
        s.db.committed = s₀.db.committed) ∧
    ((∃ pc, s.relays k = some ⟨n, .running pc⟩ ∧
          ∃ a s', Alone k fails s a ∧ (pipelines rt).step s a = some s') ∨
        (∃ pass, s.relays k = some ⟨n, .ended (.returned pass)⟩) ∨
        s.relays k = some ⟨n, .ended .thrown⟩) ∧
    as.length ≤ 3 * (claimable s₀.db.committed).length + 6 := by
  obtain ⟨st, hc, hpassing, hle⟩ := passing_run hids hlog hbegin hrun hok
  refine ⟨fun pass hpass => ?_, fun hthrown => ?_, ?_, by omega⟩
  · obtain rfl := (RelayCall.mk.inj (Option.some.inj (hc.symm.trans hpass))).2
    obtain ⟨hcalls, rfl, hcommitted⟩ := hpassing
    exact ⟨hcalls, rfl, rfl, confirmed_length_lt.symm, hcommitted⟩
  · obtain rfl := (RelayCall.mk.inj (Option.some.inj (hc.symm.trans hthrown))).2
    exact hpassing
  · rcases st with pc | o
    · exact .inl ⟨pc, hc, passing_enabled hc hpassing⟩
    · cases o with
      | returned pass => exact .inr (.inl ⟨pass, hc⟩)
      | thrown => exact .inr (.inr hc)
      | crashed | lost => exact hpassing.elim

/-- Three rows, the first of which another pass has claimed. -/
def demoHeld : Option Pipeline :=
  (pipelines demoPipelineRuntime).run demoPipeline
    (([0, 1, 2].flatMap fun i => demoCall i ⟨"1", "1", 1, none⟩ (i + 1) 11).map .checkout ++
      .relay 0 1 :: List.replicate 2 (.relayExec 0 0))

/-- A pass over them: the second row is confirmed, the third fails. -/
def demoOnePass : List PipelineEvent :=
  List.replicate 7 (.relayExec 1 0) ++ .publishFails 1 true :: List.replicate 3 (.relayExec 1 5)

theorem demoOnePass_marks_prefix :
    ∃ s₀ s₁ s, demoHeld = some s₀ ∧
      (pipelines demoPipelineRuntime).step s₀ (.relay 1 10) = some s₁ ∧
      (pipelines demoPipelineRuntime).run s₁ demoOnePass = some s ∧
      s.relays 1 = some ⟨10, .ended (.returned ⟨2, 1, true⟩)⟩ ∧
      ∃ now, s.db.committed.outbox = s₀.db.committed.outbox.map
        (OutboxRow.after now (confirmed (· = 3) (s₀.claim 1 10))
          (failing (· = 3) (s₀.claim 1 10))) := by
  have hall : demoHeld.any (fun s₀ =>
      decide ((s₀.db.committed.outbox.map OutboxRow.id).Nodup) &&
      decide (s₀.db.log (.relay 1) = []) &&
      ((pipelines demoPipelineRuntime).step s₀ (.relay 1 10)).any fun s₁ =>
        (pipelines demoPipelineRuntime).checks (fun s a => decide (Alone 1 (· = 3) s a)) s₁
            demoOnePass &&
          ((pipelines demoPipelineRuntime).run s₁ demoOnePass).any fun s =>
            decide (s.relays 1 = some ⟨10, .ended (.returned ⟨2, 1, true⟩)⟩)) = true := by
    decide +kernel
  obtain ⟨s₀, hheld, hall⟩ := (Option.any_eq_true _ _).mp hall
  simp only [Bool.and_eq_true, decide_eq_true_eq] at hall
  obtain ⟨⟨hids, hlog⟩, hbegun⟩ := hall
  obtain ⟨s₁, hbegin, hrest⟩ := (Option.any_eq_true _ _).mp hbegun
  obtain ⟨hchecks, hend⟩ := Bool.and_eq_true_iff.mp hrest
  obtain ⟨s, hrun, hc⟩ := (Option.any_eq_true _ _).mp hend
  have hok : (pipelines demoPipelineRuntime).Meets (Alone 1 (· = 3)) s₁ demoOnePass :=
    System.Meets.of_checks (fun _ _ => of_decide_eq_true) hchecks
  have hpass := relayOnce_marks_prefix hids hlog hbegin hrun hok
  obtain ⟨-, -, -, -, now, hcommitted⟩ := hpass.1 _ (of_decide_eq_true hc)
  exact ⟨s₀, s₁, s, hheld, hbegin, hrun, of_decide_eq_true hc, now,
    congrArg Database.outbox hcommitted⟩

end Marketplace
