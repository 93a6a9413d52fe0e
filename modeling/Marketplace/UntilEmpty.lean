import Marketplace.OnePass

/-!
# `relayUntilEmpty`

Passes in a row, until one claims nothing. A pass that claims nothing has found nothing
unpublished *and free*: `SKIP LOCKED` passes over the rows another transaction holds, and that
transaction may yet roll back. So the call may return while rows are left, in the model as in
the code (`relayUntilEmpty_leaves_row`); `runWorker`, the same loop over the job queue, counts
again for this reason.

What does hold, among any number of passes, loops and checkouts: the call returns the number of
rows its own passes have marked; and if none of its claims misses the last row of its snapshot
with nothing claimed (`Pipeline.misses`), then nothing was unpublished at its last claim, and
everything committed before the call is published when it returns.
-/

namespace Marketplace

/-! ## The loop -/

/-- How a call stands. -/
inductive LoopStatus where
  | running
  | returned (total : ℕ)
  /-- it has thrown, or its process has died -/
  | failed
  deriving DecidableEq

/-- A call of `relayUntilEmpty`. -/
structure LoopCall where
  batchSize : ℕ
  total : ℕ
  /-- the pass it waits for -/
  pass : ℕ
  /-- the passes before -/
  earlier : List ℕ
  status : LoopStatus
  deriving DecidableEq

/-- All its passes. -/
def LoopCall.passes (c : LoopCall) : List ℕ := c.pass :: c.earlier

/-- The pipeline, and the loops over its passes. -/
structure Drain where
  pipeline : Pipeline
  loops : ℕ → Option LoopCall

/-- What can happen. -/
inductive DrainEvent where
  /-- a step of the checkouts and passes, those of the loops among them -/
  | outbox (a : PipelineEvent)
  /-- call `l` begins with pass `k` -/
  | relayUntilEmpty (l batchSize k : ℕ)
  /-- the pass of call `l` has ended; if there is another, it is `k` -/
  | goOn (l k : ℕ)

namespace Drain

/-- Call `l` is now `c`. -/
def setLoop (s : Drain) (l : ℕ) (c : LoopCall) : Drain :=
  { s with loops := Function.update s.loops l (some c) }

/-- What follows on a pass that has returned. -/
def goOn (rt : PipelineRuntime) (s : Drain) (l k : ℕ) (c : LoopCall) (pass : RelayPass) :
    Option Drain :=
  if pass.error then some (s.setLoop l { c with status := .failed })
  else
    let total := c.total + pass.published
    if pass.claimed = 0 then some (s.setLoop l { c with total, status := .returned total })
    else ((outboxes rt).step s.pipeline (.relay k c.batchSize)).map fun pipeline =>
      ({ s with pipeline } : Drain).setLoop l { c with total, pass := k, earlier := c.passes }

end Drain

/-- Concurrent checkouts, passes and loops of passes, over any outbox. -/
def drains (rt : PipelineRuntime) : System Drain DrainEvent where
  start s := (outboxes rt).start s.pipeline ∧ ∀ l, s.loops l = none
  step s
    | .outbox a => ((outboxes rt).step s.pipeline a).map fun pipeline => { s with pipeline }
    | .relayUntilEmpty l batchSize k =>
      match s.loops l with
      | none => ((outboxes rt).step s.pipeline (.relay k batchSize)).map fun pipeline =>
          ({ s with pipeline } : Drain).setLoop l ⟨batchSize, 0, k, [], .running⟩
      | some _ => none
    | .goOn l k =>
      match s.loops l with
      | some ⟨batchSize, total, pass, earlier, .running⟩ =>
        match s.pipeline.relays pass with
        | some ⟨_, .ended (.returned p)⟩ =>
          s.goOn rt l k ⟨batchSize, total, pass, earlier, .running⟩ p
        | some ⟨_, .ended _⟩ =>
          some (s.setLoop l ⟨batchSize, total, pass, earlier, .failed⟩)
        | _ => none
      | _ => none

/-- The rows whose `published_at` a COMMIT sets. -/
def Drain.marked (s : Drain) : DrainEvent → List (ℕ × ℕ)
  | .outbox a => s.pipeline.marked a
  | _ => []

/-- How many of them these passes have marked. -/
def countOf (passes : List ℕ) (marked : List (ℕ × ℕ)) : ℕ :=
  (marked.filter fun p => decide (p.1 ∈ passes)).length

/-- Pass `k` is at the last row of its snapshot with nothing claimed, and will not claim that
row either: another transaction holds it, or has published it meanwhile. -/
def Pipeline.misses (s : Pipeline) (k : ℕ) : Bool :=
  match s.relays k with
  | some ⟨_, .running (.lockRows [id] [])⟩ =>
    !(s.db.free (.relay k) (.outbox id) &&
      ((Table.lookup OutboxRow.id id (s.db.view (.relay k)).outbox).filter
        (·.publishedAt = none)).isSome)
  | _ => false

/-- No pass of call `l` misses the last row it could have claimed. -/
def Unmissed (l : ℕ) (s : Drain) : DrainEvent → Prop
  | .outbox (.relayExec k _) => ∀ c ∈ s.loops l, c.pass = k → s.pipeline.misses k = false
  | _ => True

/-- Pass `k` has scanned an outbox without unpublished rows. -/
def ScannedNothing (rt : PipelineRuntime) (s : Drain) (as : List DrainEvent) (k : ℕ) : Prop :=
  ∃ as₁ now as₂ s₁ n, as = as₁ ++ .outbox (.relayExec k now) :: as₂ ∧
    (drains rt).run s as₁ = some s₁ ∧ s₁.pipeline.relays k = some ⟨n, .running .scan⟩ ∧
    ∀ r ∈ s₁.pipeline.db.committed.outbox, r.publishedAt ≠ none

/-! ## Counting -/

section Counting

variable {k : ℕ} {ks ids : List ℕ} {marked : List (ℕ × ℕ)}

theorem countOf_append (marked' : List (ℕ × ℕ)) :
    countOf ks (marked ++ marked') = countOf ks marked + countOf ks marked' := by
  rw [countOf, List.filter_append, List.length_append]
  rfl

theorem countOf_cons (hk : k ∉ ks) :
    countOf (k :: ks) marked = countOf [k] marked + countOf ks marked := by
  induction marked with
  | nil => rfl
  | cons p marked ih =>
    simp only [countOf, List.mem_cons, List.not_mem_nil, or_false] at ih ⊢
    by_cases hp : p.1 = k
    · have hks : p.1 ∉ ks := hp ▸ hk
      simp only [List.filter_cons, hp, hk, true_or, decide_true, if_true, decide_false,
        List.length_cons, Bool.false_eq_true, if_false]
      omega
    · by_cases hks : p.1 ∈ ks
      · simp only [List.filter_cons, hp, hks, or_true, decide_true, if_true, decide_false,
          List.length_cons, Bool.false_eq_true, if_false]
        omega
      · simpa only [List.filter_cons, hp, hks, or_self, decide_false, Bool.false_eq_true,
          if_false] using ih

theorem countOf_eq_zero (h : ∀ p ∈ marked, p.1 ∉ ks) : countOf ks marked = 0 := by
  rw [countOf, List.length_eq_zero_iff, List.filter_eq_nil_iff]
  exact fun p hp => by simpa using h p hp

theorem countOf_pairs : countOf [k] (ids.map fun id => (k, id)) = ids.length := by
  rw [countOf, List.filter_eq_self.mpr, List.length_map]
  intro p hp
  obtain ⟨id, -, rfl⟩ := List.mem_map.mp hp
  simp

end Counting

/-! ## The passes -/

/-- Some observations agree with the outbox and with every pass. -/
def Accounted (rt : PipelineRuntime) (s : Pipeline) : Prop :=
  ∃ db₀ pubs sets, Accounts rt db₀ pubs sets s

/-- The pass has come to the end of its claim with nothing. -/
def RelayStatus.Nothing : RelayStatus → Prop
  | .running (.lockRows left rows) => left = [] ∧ rows = []
  | .running (.publish b) | .running (.afterPublish b) | .running (.markPublished b)
  | .running (.addAttempt b) | .running (.commit b) => b.rows = []
  | .ended (.returned pass) => pass.claimed = 0
  | _ => False

/-- The pass has marked what it says. -/
def Counted (k : ℕ) (marked : List (ℕ × ℕ)) : RelayStatus → Prop
  | .running _ => countOf [k] marked = 0
  | .ended (.returned pass) => countOf [k] marked = pass.published
  | .ended _ => True

section Passes

variable {rt : PipelineRuntime} {db db' : Database} {s s' : Pipeline} {a : PipelineEvent}
  {k n m now id : ℕ} {pc pc' : RelayPc} {st : RelayStatus} {b : Batch} {left : List ℕ}
  {rows : List OutboxRow}

theorem Accounted.of_start (h : (outboxes rt).start s) : Accounted rt s :=
  ⟨_, _, _, Accounts.of_start h⟩

theorem Accounted.step (h : Accounted rt s) (hs : (outboxes rt).step s a = some s') :
    Accounted rt s' := by
  obtain ⟨db₀, pubs, sets, h⟩ := h
  exact ⟨_, _, _, h.step hs⟩

/-- A row stays, and stays published. -/
theorem Accounted.row_kept (h : Accounted rt s) (hs : (outboxes rt).step s a = some s')
    {r : OutboxRow} (hr : r ∈ s.db.committed.outbox) :
    ∃ r' ∈ s'.db.committed.outbox, r'.id = r.id ∧
      (r.publishedAt ≠ none → r'.publishedAt ≠ none) := by
  obtain ⟨db₀, pubs, sets, h⟩ := h
  rcases h.step_cases hs with ⟨b, shop, rfl, hshop, rfl⟩ | ⟨k, -, -, hstepped⟩
  · rcases h.shop.committed_step hshop with heq | ⟨p, x, hx, heq, -⟩
    · refine ⟨r, ?_, rfl, fun hpub => hpub⟩
      change r ∈ shop.db.committed.outbox
      rw [heq]
      exact hr
    · refine ⟨r, ?_, rfl, fun hpub => hpub⟩
      change r ∈ shop.db.committed.outbox
      rw [heq]
      exact List.mem_append_left _ hr
  · cases hstepped with
    | began n hnone heq =>
      subst heq
      exact ⟨r, hr, rfl, fun hpub => hpub⟩
    | moved n pc st hc took =>
      obtain ⟨f, hf, hrow⟩ := took.moves.outbox
      exact ⟨f r, hf ▸ List.mem_map_of_mem hr, (hrow r).1, fun hpub => (hrow r).2.mpr (.inl hpub)⟩

/-- Only a running pass marks rows. -/
theorem running_of_marked (h : (k, id) ∈ s.marked a) :
    a.pass = some k ∧ ∃ n pc, s.relays k = some ⟨n, .running pc⟩ := by
  cases a with
  | relayExec k' now | relayLosesAnswer k' =>
    simp only [Pipeline.marked] at h
    split at h
    · rename_i n b hc
      obtain ⟨id', -, heq⟩ := List.mem_map.mp h
      obtain ⟨rfl, -⟩ := Prod.mk.inj heq
      exact ⟨rfl, n, _, hc⟩
    · exact absurd h List.not_mem_nil
  | _ => exact absurd h List.not_mem_nil

/-- A pass that has ended stays as it is. -/
theorem Accounted.ended (h : Accounted rt s) (hs : (outboxes rt).step s a = some s')
    {o : RelayOutcome} (hc : s.relays k = some ⟨n, .ended o⟩) :
    s'.relays k = some ⟨n, .ended o⟩ := by
  obtain ⟨db₀, pubs, sets, h⟩ := h
  rcases h.step_cases hs with ⟨b, shop, rfl, -, rfl⟩ | ⟨k', -, -, hstepped⟩
  · exact hc
  · cases hstepped with
    | began m hnone heq =>
      subst heq
      exact Slots.found_of_free hnone hc
    | moved m pc st hc' took =>
      have hne : k ≠ k' := by
        rintro rfl
        rw [hc'] at hc
        cases hc
      rw [took.relays, Function.update_of_ne hne]
      exact hc

/-- What has begun has begun. -/
theorem Accounted.begun (h : Accounted rt s) (hs : (outboxes rt).step s a = some s')
    (hc : s.relays k ≠ none) : s'.relays k ≠ none := by
  obtain ⟨db₀, pubs, sets, h⟩ := h
  have hself : ∀ k' x, s'.relays = Function.update s.relays k' (some x) → s'.relays k ≠ none := by
    intro k' x heq
    rw [heq]
    by_cases hk : k = k'
    · rw [hk, Function.update_self]
      exact Option.some_ne_none _
    · rwa [Function.update_of_ne hk]
  rcases h.step_cases hs with ⟨b, shop, rfl, -, rfl⟩ | ⟨k', -, -, hstepped⟩
  · exact hc
  · cases hstepped with
    | began m hnone heq =>
      subst heq
      exact hself k' _ rfl
    | moved m pc st hc' took => exact hself k' _ took.relays

/-- A pass is where it was when another goes on. -/
theorem Accounted.other (h : Accounted rt s) (hs : (outboxes rt).step s a = some s')
    (ha : a.pass ≠ some k) : s'.relays k = s.relays k := by
  obtain ⟨db₀, pubs, sets, h⟩ := h
  rcases h.step_cases hs with ⟨b, shop, rfl, -, rfl⟩ | ⟨k', hpass, -, hstepped⟩
  · rfl
  · have hne : k ≠ k' := fun heq => ha (heq ▸ hpass)
    cases hstepped with
    | began m hnone heq =>
      subst heq
      exact Function.update_of_ne hne ..
    | moved m pc st hc' took => rw [took.relays, Function.update_of_ne hne]

/-! ### With nothing claimed -/

theorem nothing_next : (RelayStatus.running b.next).Nothing ↔ b.rows = [] := by
  rcases b.next_cases with hn | hn | hn | hn <;> rw [hn] <;> exact Iff.rfl

theorem nothing_afterUpdate : (RelayStatus.running b.afterUpdate).Nothing ↔ b.rows = [] := by
  rcases b.afterUpdate_cases with hn | hn <;> rw [hn] <;> exact Iff.rfl

/-- A step that is not of the claim leaves the rows of the batch as they are. -/
theorem nothing_of_moves (hm : RelayMoves db pc st db')
    (hpc : ∀ left rows, pc ≠ .lockRows left rows) (h : st.Nothing) :
    (RelayStatus.running pc).Nothing ∨ pc = .scan ∧ claimable db = [] := by
  cases hm with
  | scan => exact .inr ⟨rfl, List.map_eq_nil_iff.mp h.1⟩
  | skip | claim _ _ | claimed => exact absurd rfl (hpc _ _)
  | confirm _ => exact .inl h
  | @fail b row todo _ => exact .inl (nothing_next (b := b.fail row todo).mp h)
  | next => exact .inl (nothing_next.mp h)
  | mark => exact .inl (nothing_afterUpdate.mp h)
  | count => exact .inl h
  | commit ho =>
    rcases ho with rfl | rfl
    · exact .inl (List.length_eq_zero_iff.mp h)
    · exact h.elim
  | abort ho =>
    rcases ho with rfl | rfl
    · exact h.elim
    · exact h.elim

/-- A pass that ends before its COMMIT has no result. -/
theorem RelayMoves.not_nothing {o : RelayOutcome} (hm : RelayMoves db pc (.ended o) db')
    (hpc : ∀ b, pc = .commit b → False) : ¬ (RelayStatus.ended o).Nothing := by
  cases hm with
  | commit _ => exact (hpc _ rfl).elim
  | abort ho => rcases ho with rfl | rfl <;> exact id

/-- What a pass has marked when it returns is what it says. -/
theorem RelayMoves.counted (hm : RelayMoves db pc st db') {marked : List (ℕ × ℕ)}
    (hzero : countOf [k] marked = 0) :
    Counted k (marked ++ (pc.marks st).map fun id => (k, id)) st := by
  rcases st with pc' | o
  · rw [hm.done.2, List.map_nil, List.append_nil]
    exact hzero
  · cases hm with
    | commit ho =>
      rcases ho with rfl | rfl
      · exact (countOf_append _).trans (by rw [hzero, countOf_pairs, Nat.zero_add]; rfl)
      · trivial
    | abort ho => rcases ho with rfl | rfl <;> trivial

/-- The claim ends with nothing only if it has visited every row, or has missed the last. -/
theorem nothing_of_lockRows (hn : 1 ≤ n)
    (hc : s.relays k = some ⟨n, .running (.lockRows left rows)⟩) (hmiss : s.misses k = false)
    (hs : s.relayExec k ⟨n, .running (.lockRows left rows)⟩ now (.lockRows left rows) = some s')
    (hc' : s'.relays k = some ⟨m, st⟩) (h : st.Nothing) :
    (RelayStatus.running (.lockRows left rows)).Nothing := by
  have hstart : ∀ st', (RelayStatus.running (Batch.start rows).next) = st' → st'.Nothing →
      rows = [] := by
    rintro st' rfl hnothing
    exact nothing_next.mp hnothing
  rcases left with _ | ⟨id, left⟩
  · obtain rfl := Option.some.inj hs
    exact ⟨rfl, hstart _ (status_of_setRelay hc') h⟩
  · simp only [Pipeline.relayExec] at hs
    split_ifs at hs with hfull hfree
    · obtain rfl := Option.some.inj hs
      have hrows : rows = [] := hstart _ (status_of_setRelay hc') h
      rw [hrows] at hfull
      exact absurd hfull (Nat.ne_of_lt hn)
    · split at hs
      · rename_i hrow
        obtain rfl := Option.some.inj hs
        obtain rfl := status_of_setRelay hc'
        obtain ⟨rfl, rfl⟩ := h
        rw [Pipeline.misses, hc] at hmiss
        simp only [hfree, hrow, Option.isSome_none, Bool.and_false, Bool.not_false] at hmiss
        cases hmiss
      · obtain rfl := Option.some.inj hs
        obtain rfl := status_of_setRelay hc'
        exact absurd h.2 (List.append_ne_nil_of_right_ne_nil _ (List.cons_ne_nil _ _))
    · obtain rfl := Option.some.inj hs
      obtain rfl := status_of_setRelay hc'
      obtain ⟨rfl, rfl⟩ := h
      rw [Pipeline.misses, hc] at hmiss
      simp only [Bool.eq_false_iff.mpr hfree, Bool.false_and, Bool.not_false] at hmiss
      cases hmiss

/-- A pass that goes on from its claim does so by running it. -/
theorem exec_of_claiming (ha : a.pass = some k) (hs : s.step rt a = some s')
    (hc : s.relays k = some ⟨n, .running pc⟩) (hpc : pc.atPublish = false)
    (hc' : s'.relays k = some ⟨m, .running pc'⟩) : ∃ now, a = .relayExec k now := by
  cases a with
  | relay k' _ =>
    obtain rfl := Option.some.inj ha
    simp only [Pipeline.step, hc] at hs
    cases hs
  | relayExec k' now =>
    obtain rfl := Option.some.inj ha
    exact ⟨now, rfl⟩
  | publishFails k' _ =>
    obtain rfl := Option.some.inj ha
    simp only [Pipeline.step, hc] at hs
    cases pc with
    | publish b => cases hpc
    | _ => cases hs
  | relayFails k' =>
    obtain rfl := Option.some.inj ha
    simp only [Pipeline.step] at hs
    split at hs
    · cases hs
    · obtain rfl := Option.some.inj hs
      cases status_of_setRelay hc'
    · cases hs
  | relayCrashes k' sent =>
    obtain rfl := Option.some.inj ha
    simp only [Pipeline.step, hc] at hs
    obtain rfl := Option.some.inj hs
    cases status_of_relayCrashes hc'
  | relayLosesAnswer k' =>
    obtain rfl := Option.some.inj ha
    simp only [Pipeline.step, hc] at hs
    cases pc with
    | commit b =>
      obtain rfl := Option.some.inj hs
      cases status_of_setRelay hc'
    | _ => cases hs
  | _ => cases ha

/-- **The step of a pass that is waited for.** It has marked what it says; and it comes to
the end of its claim with nothing only by a scan of an outbox without unpublished rows. -/
theorem Accounted.pass_step (h : Accounted rt s) (hs : (outboxes rt).step s a = some s')
    (ha : a.pass = some k) (hn : 1 ≤ n) (hc : s.relays k = some ⟨n, .running pc⟩)
    (hmiss : ∀ now, a = .relayExec k now → s.misses k = false) :
    ∃ st, s'.relays k = some ⟨n, st⟩ ∧
      (∀ marked, countOf [k] marked = 0 → Counted k (marked ++ s.marked a) st) ∧
      (st.Nothing → (RelayStatus.running pc).Nothing ∨
        pc = .scan ∧ (∃ now, a = .relayExec k now) ∧ claimable s.db.committed = []) := by
  obtain ⟨db₀, pubs, sets, h⟩ := h
  rcases h.step_cases hs with ⟨b, shop, rfl, -, rfl⟩ | ⟨k', hpass, hstep, hstepped⟩
  · cases ha
  · obtain rfl := Option.some.inj (ha.symm.trans hpass)
    cases hstepped with
    | began m hnone heq =>
      rw [hnone] at hc
      cases hc
    | moved m pc' st hc' took =>
      obtain ⟨rfl, hpc⟩ := RelayCall.mk.inj (Option.some.inj (hc'.symm.trans hc))
      obtain rfl := (RelayStatus.running.inj hpc).symm
      have hself : s'.relays k = some ⟨m, st⟩ := by
        rw [took.relays, Function.update_self]
      refine ⟨st, hself, fun marked hzero => ?_, fun hnothing => ?_⟩
      · rw [(Pipeline.observed (h.relays k) ha hstep hc hself).2]
        exact took.moves.counted hzero
      · by_cases hclaim : ∃ left rows, pc = .lockRows left rows
        · obtain ⟨left, rows, rfl⟩ := hclaim
          rcases st with pc' | o
          · obtain ⟨now, rfl⟩ := exec_of_claiming ha hstep hc rfl hself
            simp only [Pipeline.step, hc] at hstep
            exact .inl (nothing_of_lockRows hn hc (hmiss now rfl) hstep hself hnothing)
          · exact absurd hnothing (took.moves.not_nothing (by rintro b ⟨⟩))
        · have hpc : ∀ left rows, pc ≠ .lockRows left rows := fun left rows heq =>
            hclaim ⟨left, rows, heq⟩
          rcases nothing_of_moves took.moves hpc hnothing with hsame | ⟨rfl, hnone⟩
          · exact .inl hsame
          · rcases st with pc' | o
            · exact .inr ⟨rfl, exec_of_claiming ha hstep hc rfl hself, hnone⟩
            · exact absurd hnothing (took.moves.not_nothing (by rintro b ⟨⟩))

end Passes

/-! ## The loops -/

/-- Pass `k` has ended. -/
def Pipeline.Ended (s : Pipeline) (k : ℕ) : Prop := ∃ n o, s.relays k = some ⟨n, .ended o⟩

/-- How a call stands that began in `s₀`. -/
def LoopCall.Stands (rt : PipelineRuntime) (s₀ : Drain) (as : List DrainEvent) (s : Drain)
    (c : LoopCall) : Prop :=
  match c.status with
  | .running =>
    c.total = countOf c.earlier ((drains rt).trace Drain.marked s₀ as) ∧
      ∃ st, s.pipeline.relays c.pass = some ⟨c.batchSize, st⟩ ∧
        Counted c.pass ((drains rt).trace Drain.marked s₀ as) st ∧
        (st.Nothing → ScannedNothing rt s₀ as c.pass)
  | .returned total =>
    total = countOf c.passes ((drains rt).trace Drain.marked s₀ as) ∧
      s.pipeline.Ended c.pass ∧ ScannedNothing rt s₀ as c.pass
  | .failed => True

/-- What is known of a call that began in `s₀`. -/
structure Looping (rt : PipelineRuntime) (s₀ : Drain) (as : List DrainEvent) (s : Drain)
    (c : LoopCall) : Prop where
  fresh : c.pass ∉ c.earlier
  earlier : ∀ k ∈ c.earlier, s.pipeline.Ended k
  begun : ∀ p ∈ (drains rt).trace Drain.marked s₀ as, s.pipeline.relays p.1 ≠ none
  stands : c.Stands rt s₀ as s

section Loops

variable {rt : PipelineRuntime} {s₀ s s' : Drain} {as : List DrainEvent} {a : DrainEvent}
  {b : PipelineEvent} {c : LoopCall} {l k : ℕ} {ks : List ℕ}

theorem ScannedNothing.snoc (h : ScannedNothing rt s₀ as k) (a : DrainEvent) :
    ScannedNothing rt s₀ (as ++ [a]) k := by
  obtain ⟨as₁, now, as₂, s₁, n, rfl, hrest⟩ := h
  exact ⟨as₁, now, as₂ ++ [a], s₁, n, by rw [List.append_assoc, List.cons_append], hrest⟩

/-- Passes that have ended mark nothing. -/
theorem countOf_marked_ended (h : ∀ k ∈ ks, s.pipeline.Ended k) :
    countOf ks (s.pipeline.marked b) = 0 := by
  refine countOf_eq_zero ?_
  rintro ⟨k, id⟩ hp hk
  obtain ⟨-, n, pc, hrunning⟩ := running_of_marked hp
  obtain ⟨m, o, hended⟩ := h k hk
  rw [hrunning] at hended
  cases hended

/-- Only the pass that goes on marks rows. -/
theorem countOf_marked_other (h : b.pass ≠ some k) : countOf [k] (s.pipeline.marked b) = 0 := by
  refine countOf_eq_zero ?_
  rintro ⟨k', id⟩ hp hk
  obtain rfl := List.mem_singleton.mp hk
  exact h (running_of_marked hp).1

/-- What is marked has been marked by a pass that had begun. -/
theorem begun_step (hacc : Accounted rt s.pipeline)
    (hs : (outboxes rt).step s.pipeline b = some s'.pipeline)
    {marked : List (ℕ × ℕ)} (h : ∀ p ∈ marked, s.pipeline.relays p.1 ≠ none) :
    ∀ p ∈ marked ++ s.pipeline.marked b, s'.pipeline.relays p.1 ≠ none := by
  intro p hp
  refine hacc.begun hs ?_
  rcases List.mem_append.mp hp with hp | hp
  · exact h p hp
  · obtain ⟨-, n, pc, hrunning⟩ := running_of_marked hp
    rw [hrunning]
    exact Option.some_ne_none _

theorem Pipeline.Ended.step (h : s.pipeline.Ended k) (hacc : Accounted rt s.pipeline)
    (hs : (outboxes rt).step s.pipeline b = some s'.pipeline) : s'.pipeline.Ended k := by
  obtain ⟨n, o, hc⟩ := h
  exact ⟨n, o, hacc.ended hs hc⟩

/-- **A step of the checkouts and passes.** -/
theorem Looping.moved (h : Looping rt s₀ as s c) (hacc : Accounted rt s.pipeline)
    (hrun : (drains rt).run s₀ as = some s) (hn : 1 ≤ c.batchSize)
    (hs : (outboxes rt).step s.pipeline b = some s'.pipeline)
    (hmarked : s.marked a = s.pipeline.marked b)
    (hexec : ∀ now, b = .relayExec c.pass now →
      a = .outbox b ∧ s.pipeline.misses c.pass = false) :
    Looping rt s₀ (as ++ [a]) s' c := by
  have htrace : (drains rt).trace Drain.marked s₀ (as ++ [a]) =
      (drains rt).trace Drain.marked s₀ as ++ s.pipeline.marked b := by
    rw [System.trace_snoc hrun, hmarked]
  refine ⟨h.fresh, fun k hk => (h.earlier k hk).step hacc hs, ?_, ?_⟩
  · rw [htrace]
    exact begun_step hacc hs h.begun
  have hstands := h.stands
  unfold LoopCall.Stands at hstands ⊢
  rw [htrace]
  rcases hstatus : c.status with _ | total | _ <;> simp only [hstatus] at hstands ⊢
  · obtain ⟨htotal, st, hc, hcounted, hnothing⟩ := hstands
    refine ⟨?_, ?_⟩
    · rw [countOf_append, countOf_marked_ended h.earlier]
      exact htotal
    rcases st with pc | o
    · by_cases ha : b.pass = some c.pass
      · obtain ⟨st, hc', hcounted', hnothing'⟩ := hacc.pass_step hs ha hn hc fun now hb =>
          (hexec now hb).2
        refine ⟨st, hc', hcounted' _ hcounted, fun hst => ?_⟩
        rcases hnothing' hst with hst | ⟨rfl, ⟨now, hb⟩, hnone⟩
        · exact (hnothing hst).snoc a
        · -- this is the scan
          refine ⟨as, now, [], s, _, by rw [(hexec now hb).1, hb], hrun, hc, fun r hr hpub => ?_⟩
          have hmem : r ∈ claimable s.pipeline.db.committed := mem_claimable.mpr ⟨hr, hpub⟩
          rw [hnone] at hmem
          exact absurd hmem List.not_mem_nil
      · refine ⟨_, (hacc.other hs ha).trans hc, ?_, fun hst => (hnothing hst).snoc a⟩
        refine (countOf_append _).trans ?_
        rw [countOf_marked_other ha]
        exact hcounted
    · refine ⟨_, hacc.ended hs hc, ?_, fun hst => (hnothing hst).snoc a⟩
      have hzero : countOf [c.pass] (s.pipeline.marked b) = 0 := by
        refine countOf_marked_ended fun k hk => ?_
        obtain rfl := List.mem_singleton.mp hk
        exact ⟨_, o, hc⟩
      cases o with
      | returned p =>
        refine (countOf_append _).trans ?_
        rw [hzero]
        exact hcounted
      | _ => trivial
  · obtain ⟨htotal, hended, hscan⟩ := hstands
    refine ⟨?_, hended.step hacc hs, hscan.snoc a⟩
    have hpasses : ∀ k ∈ c.passes, s.pipeline.Ended k := by
      intro k hk
      rcases List.mem_cons.mp hk with rfl | hk
      · exact hended
      · exact h.earlier k hk
    rw [countOf_append, countOf_marked_ended hpasses]
    exact htotal

/-- A step that is nothing to the passes. -/
theorem Looping.still (h : Looping rt s₀ as s c) (hrun : (drains rt).run s₀ as = some s)
    (hs : s'.pipeline = s.pipeline) (hmarked : s.marked a = []) :
    Looping rt s₀ (as ++ [a]) s' c := by
  have htrace : (drains rt).trace Drain.marked s₀ (as ++ [a]) =
      (drains rt).trace Drain.marked s₀ as := by
    rw [System.trace_snoc hrun, hmarked, List.append_nil]
  refine ⟨h.fresh, ?_, ?_, ?_⟩
  · rw [hs]
    exact h.earlier
  · rw [hs, htrace]
    exact h.begun
  · have hstands := h.stands
    unfold LoopCall.Stands at hstands ⊢
    rw [htrace, hs]
    rcases hstatus : c.status with _ | total | _ <;> simp only [hstatus] at hstands ⊢
    · obtain ⟨htotal, st, hc, hcounted, hnothing⟩ := hstands
      exact ⟨htotal, st, hc, hcounted, fun hst => (hnothing hst).snoc a⟩
    · exact ⟨hstands.1, hstands.2.1, hstands.2.2.snoc a⟩

/-- A pass that begins. -/
theorem relays_began {n : ℕ} {t : Pipeline}
    (hs : (outboxes rt).step s.pipeline (.relay k n) = some t) :
    s.pipeline.relays k = none ∧ t.relays k = some ⟨n, .running .scan⟩ := by
  change s.pipeline.step rt (.relay k n) = some t at hs
  simp only [Pipeline.step] at hs
  split at hs
  · rename_i hnone
    obtain rfl := Option.some.inj hs
    exact ⟨hnone, Function.update_self ..⟩
  · cases hs

/-- **The call goes on**: its pass has ended, and it throws, returns, or begins another. -/
theorem Looping.goOn (h : Looping rt s₀ as s c) (hacc : Accounted rt s.pipeline)
    (hrun : (drains rt).run s₀ as = some s) (hc : s.loops l = some c)
    (hs : (drains rt).step s (.goOn l k) = some s') :
    ∃ c', s'.loops l = some c' ∧ c'.batchSize = c.batchSize ∧
      Looping rt s₀ (as ++ [.goOn l k]) s' c' := by
  have htrace : (drains rt).trace Drain.marked s₀ (as ++ [.goOn l k]) =
      (drains rt).trace Drain.marked s₀ as :=
    (System.trace_snoc hrun).trans (List.append_nil _)
  obtain ⟨n, total, pass, earlier, status⟩ := c
  simp only [drains, hc] at hs
  split at hs
  · rename_i n' total' pass' earlier' hloop
    obtain ⟨rfl, rfl, rfl, rfl, rfl⟩ := LoopCall.mk.inj (Option.some.inj hloop)
    have hstands := h.stands
    obtain ⟨htotal, st, hpass, hcounted, hnothing⟩ := hstands
    split at hs
    · rename_i m p hended
      obtain rfl : st = .ended (.returned p) :=
        (RelayCall.mk.inj (Option.some.inj (hpass.symm.trans hended))).2
      have hcount : total + p.published =
          countOf (pass :: earlier) ((drains rt).trace Drain.marked s₀ as) := by
        change total = _ at htotal
        change countOf [pass] _ = p.published at hcounted
        have hfresh : pass ∉ earlier := h.fresh
        rw [countOf_cons hfresh, hcounted, ← htotal, Nat.add_comm]
      unfold Drain.goOn at hs
      split_ifs at hs with herror hclaimed
      · obtain rfl := Option.some.inj hs
        refine ⟨_, Function.update_self .., rfl, h.fresh, h.earlier, ?_, trivial⟩
        rw [htrace]
        exact h.begun
      · obtain rfl := Option.some.inj hs
        refine ⟨_, Function.update_self .., rfl, h.fresh, h.earlier, ?_, ?_,
          ⟨_, _, hpass⟩, (hnothing hclaimed).snoc _⟩
        · rw [htrace]
          exact h.begun
        · rw [htrace]
          exact hcount
      · obtain ⟨t, hbegin, rfl⟩ := Option.map_eq_some_iff.mp hs
        obtain ⟨hnone, hscan⟩ := relays_began hbegin
        have hpassed : ∀ k' ∈ pass :: earlier, s.pipeline.Ended k' := by
          intro k' hk'
          rcases List.mem_cons.mp hk' with rfl | hk'
          · exact ⟨_, _, hpass⟩
          · exact h.earlier k' hk'
        refine ⟨_, Function.update_self .., rfl, fun hk => ?_, fun k' hk' => ?_, ?_, ?_, _, hscan,
          ?_, fun hst => hst.elim⟩
        · obtain ⟨_, _, hended⟩ := hpassed k hk
          rw [hnone] at hended
          cases hended
        · obtain ⟨m, o, hended⟩ := hpassed k' hk'
          exact ⟨m, o, hacc.ended hbegin hended⟩
        · rw [htrace]
          exact fun p hp => hacc.begun hbegin (h.begun p hp)
        · rw [htrace]
          exact hcount
        · rw [htrace]
          refine countOf_eq_zero fun p hp hk => h.begun p hp ?_
          rw [List.mem_singleton.mp hk]
          exact hnone
    · obtain rfl := Option.some.inj hs
      refine ⟨_, Function.update_self .., rfl, h.fresh, h.earlier, ?_, trivial⟩
      rw [htrace]
      exact h.begun
    · cases hs
  · cases hs

/-- A call that goes on is nothing to the others, and begins a pass at most. -/
theorem goOn_cases (hs : (drains rt).step s (.goOn l k) = some s') :
    ∃ c, s'.loops = Function.update s.loops l (some c) ∧ (s'.pipeline = s.pipeline ∨
      ∃ n, (outboxes rt).step s.pipeline (.relay k n) = some s'.pipeline) := by
  simp only [drains] at hs
  split at hs
  · split at hs
    · unfold Drain.goOn at hs
      split_ifs at hs
      · obtain rfl := Option.some.inj hs
        exact ⟨_, rfl, .inl rfl⟩
      · obtain rfl := Option.some.inj hs
        exact ⟨_, rfl, .inl rfl⟩
      · obtain ⟨t, hbegin, rfl⟩ := Option.map_eq_some_iff.mp hs
        exact ⟨_, rfl, .inr ⟨_, hbegin⟩⟩
    · obtain rfl := Option.some.inj hs
      exact ⟨_, rfl, .inl rfl⟩
    · cases hs
  · cases hs

/-- What an event is to the passes. -/
theorem pipeline_step (hs : (drains rt).step s a = some s') :
    s'.pipeline = s.pipeline ∨ ∃ b, (outboxes rt).step s.pipeline b = some s'.pipeline := by
  cases a with
  | outbox b =>
    obtain ⟨t, hb, rfl⟩ := Option.map_eq_some_iff.mp hs
    exact .inr ⟨b, hb⟩
  | relayUntilEmpty l n k =>
    simp only [drains] at hs
    split at hs
    · obtain ⟨t, hb, rfl⟩ := Option.map_eq_some_iff.mp hs
      exact .inr ⟨_, hb⟩
    · cases hs
  | goOn l k =>
    obtain ⟨-, -, hsame | ⟨n, hb⟩⟩ := goOn_cases hs
    · exact .inl hsame
    · exact .inr ⟨_, hb⟩

theorem accounted_step (hacc : Accounted rt s.pipeline) (hs : (drains rt).step s a = some s') :
    Accounted rt s'.pipeline := by
  rcases pipeline_step hs with hsame | ⟨b, hb⟩
  · rwa [hsame]
  · exact hacc.step hb

/-- A row stays, and stays published. -/
theorem row_kept (hacc : Accounted rt s.pipeline) (hrun : (drains rt).run s as = some s')
    {r : OutboxRow} (hr : r ∈ s.pipeline.db.committed.outbox) :
    ∃ r' ∈ s'.pipeline.db.committed.outbox, r'.id = r.id ∧
      (r.publishedAt ≠ none → r'.publishedAt ≠ none) := by
  refine System.Invariant.run_rel (M := drains rt) (I := fun s => Accounted rt s.pipeline)
    (R := fun s s' => ∀ r ∈ s.pipeline.db.committed.outbox,
      ∃ r' ∈ s'.pipeline.db.committed.outbox, r'.id = r.id ∧
        (r.publishedAt ≠ none → r'.publishedAt ≠ none))
    (fun s a s' => accounted_step) (fun s r hr => ⟨r, hr, rfl, id⟩) ?_ ?_ hacc hrun r hr
  · intro s t u h h' r hr
    obtain ⟨r', hr', hid, hpub⟩ := h r hr
    obtain ⟨r'', hr'', hid', hpub'⟩ := h' r' hr'
    exact ⟨r'', hr'', hid'.trans hid, fun hp => hpub' (hpub hp)⟩
  · intro s a s' hacc hs r hr
    rcases pipeline_step hs with hsame | ⟨b, hb⟩
    · exact ⟨r, by rwa [hsame], rfl, id⟩
    · exact hacc.row_kept hb hr

/-- **Every event.** -/
theorem looping_step (hacc : Accounted rt s.pipeline) (hrun : (drains rt).run s₀ as = some s)
    (hc : s.loops l = some c) (h : Looping rt s₀ as s c) (hn : 1 ≤ c.batchSize)
    (hok : Unmissed l s a) (hs : (drains rt).step s a = some s') :
    ∃ c', s'.loops l = some c' ∧ c'.batchSize = c.batchSize ∧
      Looping rt s₀ (as ++ [a]) s' c' := by
  cases a with
  | outbox b =>
    obtain ⟨t, hb, rfl⟩ := Option.map_eq_some_iff.mp hs
    refine ⟨c, hc, rfl, h.moved hacc hrun hn hb rfl ?_⟩
    rintro now rfl
    exact ⟨rfl, hok c hc rfl⟩
  | relayUntilEmpty l' n k =>
    simp only [drains] at hs
    split at hs
    · rename_i hnone
      obtain ⟨t, hb, rfl⟩ := Option.map_eq_some_iff.mp hs
      exact ⟨c, Slots.found_of_free hnone hc, rfl,
        h.moved hacc hrun hn hb rfl (by rintro now ⟨⟩)⟩
    · cases hs
  | goOn l' k =>
    by_cases hl : l = l'
    · subst hl
      exact h.goOn hacc hrun hc hs
    · obtain ⟨c', hloops, hpipeline⟩ := goOn_cases hs
      have hc' : s'.loops l = some c := by rw [hloops, Function.update_of_ne hl, hc]
      rcases hpipeline with hsame | ⟨n, hb⟩
      · exact ⟨c, hc', rfl, h.still hrun hsame rfl⟩
      · exact ⟨c, hc', rfl, h.moved hacc hrun hn hb rfl (by rintro now ⟨⟩)⟩

/-- What is known of a call in every run after its beginning. -/
theorem looping_run {n : ℕ} (hacc : Accounted rt s₀.pipeline) (hn : 1 ≤ n)
    (hc : s₀.loops l = some ⟨n, 0, k, [], .running⟩)
    (hscan : s₀.pipeline.relays k = some ⟨n, .running .scan⟩)
    (hrun : (drains rt).run s₀ as = some s) (hok : (drains rt).Meets (Unmissed l) s₀ as) :
    Accounted rt s.pipeline ∧
      ∃ c, s.loops l = some c ∧ c.batchSize = n ∧ Looping rt s₀ as s c := by
  refine System.run_induction (M := drains rt) (J := fun as s =>
    (drains rt).Meets (Unmissed l) s₀ as → Accounted rt s.pipeline ∧
      ∃ c, s.loops l = some c ∧ c.batchSize = n ∧ Looping rt s₀ as s c) (fun _ => ?_)
    (fun as s a s' hrun ih hs hok => ?_) hrun hok
  · exact ⟨hacc, _, hc, rfl, List.not_mem_nil, fun _ hk => absurd hk List.not_mem_nil,
      fun _ hp => absurd hp List.not_mem_nil, rfl, _, hscan, rfl, fun hst => hst.elim⟩
  · obtain ⟨hok, ha⟩ := System.Meets.snoc hok
    obtain ⟨hacc, c, hc, hsize, hlooping⟩ := ih hok
    obtain ⟨c', hc', hsize', hlooping'⟩ :=
      looping_step hacc hrun hc hlooping (hsize ▸ hn) (ha s hrun) hs
    exact ⟨accounted_step hacc hs, c', hc', hsize'.trans hsize, hlooping'⟩

end Loops

/-! ## What it returns -/

/-- **When `relayUntilEmpty` returns, nothing is left**, in every run in which no claim of the
call misses the last row of its snapshot: at its last claim no committed row was unpublished,
every row committed before the call is published, and the number is that of the rows its own
passes have marked. -/
theorem relayUntilEmpty_returns {rt : PipelineRuntime} {s₀ s₁ s₂ s : Drain} {l n k : ℕ}
    {bs as : List DrainEvent} (hstart : (drains rt).start s₀)
    (hbefore : (drains rt).run s₀ bs = some s₁) (hn : 1 ≤ n)
    (hcall : (drains rt).step s₁ (.relayUntilEmpty l n k) = some s₂)
    (hrun : (drains rt).run s₂ as = some s) (hok : (drains rt).Meets (Unmissed l) s₂ as)
    {c : LoopCall} {total : ℕ} (hc : s.loops l = some c) (hreturned : c.status = .returned total) :
    ScannedNothing rt s₂ as c.pass ∧
      (∀ r ∈ s₁.pipeline.db.committed.outbox, ∃ r' ∈ s.pipeline.db.committed.outbox,
        r'.id = r.id ∧ r'.publishedAt ≠ none) ∧
      total = countOf c.passes ((drains rt).trace Drain.marked s₂ as) := by
  have hinv : (drains rt).Invariant fun s => Accounted rt s.pipeline := fun s a s' => accounted_step
  have hacc : Accounted rt s₁.pipeline := hinv.run (Accounted.of_start hstart.1) hbefore
  have hacc' : Accounted rt s₂.pipeline := accounted_step hacc hcall
  have hbegan : s₂.loops l = some ⟨n, 0, k, [], .running⟩ ∧
      s₂.pipeline.relays k = some ⟨n, .running .scan⟩ := by
    simp only [drains] at hcall
    split at hcall
    · obtain ⟨t, hb, rfl⟩ := Option.map_eq_some_iff.mp hcall
      exact ⟨Function.update_self .., (relays_began hb).2⟩
    · cases hcall
  obtain ⟨-, c', hc', -, hlooping⟩ := looping_run hacc' hn hbegan.1 hbegan.2 hrun hok
  obtain rfl := Option.some.inj (hc.symm.trans hc')
  have hstands := hlooping.stands
  simp only [LoopCall.Stands, hreturned] at hstands
  obtain ⟨htotal, -, hscan⟩ := hstands
  refine ⟨hscan, fun r hr => ?_, htotal⟩
  -- the row was there at the last claim, and published then
  obtain ⟨as₁, now, as₂, t, m, rfl, hrun₁, -, hnone⟩ := hscan
  obtain ⟨t', hrun₁', hrun₂⟩ := System.run_append_eq_some hrun
  obtain rfl := Option.some.inj (hrun₁.symm.trans hrun₁')
  have hcalled : (drains rt).run s₁ (.relayUntilEmpty l n k :: as₁) = some t := by
    rw [System.run_cons, hcall]
    exact hrun₁
  obtain ⟨r₁, hr₁, hid₁, -⟩ := row_kept hacc hcalled hr
  obtain ⟨r', hr', hid', hpub'⟩ := row_kept (hinv.run hacc' hrun₁) hrun₂ hr₁
  exact ⟨r', hr', hid'.trans hid₁, hpub' (hnone r₁ hr₁)⟩

/-- No call yet. -/
def demoDrain : Drain := ⟨demoPipeline, fun _ => none⟩

theorem demoDrain_start : (drains demoPipelineRuntime).start demoDrain :=
  ⟨⟨demoShop_start, fun _ => rfl⟩, fun _ => rfl⟩

/-- One order is placed, then the call publishes its row. -/
def demoUntilEmpty : List DrainEvent :=
  List.replicate 7 (.outbox (.relayExec 0 0)) ++ .goOn 0 1 ::
    List.replicate 3 (.outbox (.relayExec 1 0)) ++ [.goOn 0 2]

/-- One order. -/
def demoPlaced : List DrainEvent :=
  (demoCall 0 ⟨"1", "1", 1, none⟩ 1 11).map fun a => .outbox (.checkout a)

theorem demoUntilEmpty_returns :
    ∃ s₁ s₂ s, (drains demoPipelineRuntime).run demoDrain demoPlaced = some s₁ ∧
      (drains demoPipelineRuntime).step s₁ (.relayUntilEmpty 0 10 0) = some s₂ ∧
      (drains demoPipelineRuntime).run s₂ demoUntilEmpty = some s ∧
      s.loops 0 = some ⟨10, 1, 1, [0], .returned 1⟩ ∧
      1 = countOf [1, 0] ((drains demoPipelineRuntime).trace Drain.marked s₂ demoUntilEmpty) := by
  have hall : ((drains demoPipelineRuntime).run demoDrain demoPlaced).any (fun s₁ =>
      ((drains demoPipelineRuntime).step s₁ (.relayUntilEmpty 0 10 0)).any fun s₂ =>
        (drains demoPipelineRuntime).checks (fun s a => match a with
          | .outbox (.relayExec k _) => !s.pipeline.misses k
          | _ => true) s₂ demoUntilEmpty &&
          ((drains demoPipelineRuntime).run s₂ demoUntilEmpty).any fun s =>
            decide (s.loops 0 = some ⟨10, 1, 1, [0], .returned 1⟩)) = true := by
    decide +kernel
  obtain ⟨s₁, hbefore, hrest⟩ := (Option.any_eq_true _ _).mp hall
  obtain ⟨s₂, hcall, hrest⟩ := (Option.any_eq_true _ _).mp hrest
  obtain ⟨hchecks, hrest⟩ := Bool.and_eq_true_iff.mp hrest
  obtain ⟨s, hrun, hc⟩ := (Option.any_eq_true _ _).mp hrest
  have hok : (drains demoPipelineRuntime).Meets (Unmissed 0) s₂ demoUntilEmpty := by
    refine System.Meets.of_checks (fun s a hcheck => ?_) hchecks
    cases a with
    | outbox b =>
      cases b with
      | relayExec k now => exact fun _ _ _ => Bool.not_eq_true' _ ▸ hcheck
      | _ => trivial
    | _ => trivial
  have hc := of_decide_eq_true hc
  exact ⟨s₁, s₂, s, hbefore, hcall, hrun, hc,
    (relayUntilEmpty_returns demoDrain_start hbefore (by decide) hcall hrun hok hc rfl).2.2⟩

/-- The call comes while another pass has claimed the only row; then that pass dies. -/
def demoHeldRow : List DrainEvent :=
  List.replicate 4 (.outbox (.relayExec 1 0)) ++ [.goOn 0 2, .outbox (.relayCrashes 0 false)]

/-- **It may return while a row is left**: a row committed before the call is unpublished at
its last claim, and unpublished at the end. -/
theorem relayUntilEmpty_leaves_row :
    ∃ s₁ s₂ s, (drains demoPipelineRuntime).run demoDrain
        (demoPlaced ++ .outbox (.relay 0 10) :: List.replicate 2 (.outbox (.relayExec 0 0))) =
          some s₁ ∧
      s₁.pipeline.db.committed.outbox.map OutboxRow.publishedAt = [none] ∧
      (drains demoPipelineRuntime).step s₁ (.relayUntilEmpty 0 10 1) = some s₂ ∧
      s₂.pipeline.relays 1 = some ⟨10, .running .scan⟩ ∧
      s₂.pipeline.db.committed.outbox.map OutboxRow.publishedAt = [none] ∧
      (drains demoPipelineRuntime).run s₂ demoHeldRow = some s ∧
      s.loops 0 = some ⟨10, 0, 1, [], .returned 0⟩ ∧
      s.pipeline.db.committed.outbox.map OutboxRow.publishedAt = [none] := by
  have hall : ((drains demoPipelineRuntime).run demoDrain
      (demoPlaced ++ .outbox (.relay 0 10) :: List.replicate 2 (.outbox (.relayExec 0 0)))).any
        (fun s₁ => decide (s₁.pipeline.db.committed.outbox.map OutboxRow.publishedAt = [none]) &&
          ((drains demoPipelineRuntime).step s₁ (.relayUntilEmpty 0 10 1)).any fun s₂ =>
            decide (s₂.pipeline.relays 1 = some ⟨10, .running .scan⟩) &&
            decide (s₂.pipeline.db.committed.outbox.map OutboxRow.publishedAt = [none]) &&
            ((drains demoPipelineRuntime).run s₂ demoHeldRow).any fun s =>
              decide (s.loops 0 = some ⟨10, 0, 1, [], .returned 0⟩) &&
              decide (s.pipeline.db.committed.outbox.map OutboxRow.publishedAt = [none])) =
          true := by
    decide +kernel
  obtain ⟨s₁, hbefore, hrest⟩ := (Option.any_eq_true _ _).mp hall
  simp only [Bool.and_eq_true, decide_eq_true_eq] at hrest
  obtain ⟨s₂, hcall, hrest'⟩ := (Option.any_eq_true _ _).mp hrest.2
  simp only [Bool.and_eq_true, decide_eq_true_eq] at hrest'
  obtain ⟨s, hrun, hend⟩ := (Option.any_eq_true _ _).mp hrest'.2
  simp only [Bool.and_eq_true, decide_eq_true_eq] at hend
  exact ⟨s₁, s₂, s, hbefore, hrest.1, hcall, hrest'.1.1, hrest'.1.2, hrun, hend.1, hend.2⟩

end Marketplace
