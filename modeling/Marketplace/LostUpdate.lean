import Marketplace.Retry

/-!
# No update is lost

The committed balances are the initial ones plus the deltas of the calls that have
committed. A call between its SELECT and its UPDATE knows the balance of its
snapshot; when it commits, that is the committed balance still
(`SnapshotEngine.Sound.row_of_written`), so what it writes is the committed balance plus
its delta.
-/

namespace Marketplace

/-- The deltas of these calls to the balance of a user. -/
def deltas (userId : ℕ) (calls : List (ℕ × Adjust)) : ℤ :=
  ((calls.filter fun c => decide (c.2.userId = userId)).map fun c => c.2.delta).sum

theorem deltas_append (userId : ℕ) (calls calls' : List (ℕ × Adjust)) :
    deltas userId (calls ++ calls') = deltas userId calls + deltas userId calls' := by
  simp [deltas]

/-- Nothing is left but to clean up. -/
def RetryPc.Over : RetryPc → Prop
  | .rollbackTransaction err => err.retryable = false
  | .release .returns | .release (.throws _) => True
  | _ => False

namespace RetryCall

variable {c c' : RetryCall} {i t : ℕ} {db db' : Balances} {err : PgError} {committed : Bool}

/-- What a call has open, by what it does next. -/
def Holds (c : RetryCall) (i : ℕ) (db : Balances) : Prop :=
  match c.status with
  | .running (.update seen) =>
      (∃ rows n, db.snapshot i = some (rows, n) ∧ rows c.request.userId = some seen) ∧
        ∀ k, db.writes i k = none
  | .running .commitTransaction =>
      ∃ rows n seen, db.snapshot i = some (rows, n) ∧ rows c.request.userId = some seen ∧
        db.writes i =
          Function.update (fun _ => none) c.request.userId (some (some (seen + c.request.delta)))
  | .running (.rollbackTransaction _) => True
  | _ => db.Quiet i

/-- The call will not run its transaction (again). -/
def Over (c : RetryCall) : Prop :=
  match c.status with
  | .running pc => pc.Over
  | _ => True

/-- The call returns, or has returned. -/
def Answers (c : RetryCall) : Prop :=
  c.status = .returned ∨ c.status = .running (.release .returns)

theorem not_answers_goes {pc : RetryPc} (h : pc ≠ .release .returns) :
    ¬ (c.goes pc).Answers := by
  rintro (h' | h')
  · cases h'
  · exact h (RetryStatus.running.inj h')

/-- What the step of a call does, to itself, to the others and to the balances. -/
structure Takes (c : RetryCall) (i : ℕ) (db db' : Balances) (c' : RetryCall) (committed : Bool) :
    Prop where
  request : c'.request = c.request
  sound : db'.Sound
  same : ∀ t, t ≠ i → db.Same db' t
  holds : c'.Holds i db'
  isOver : c.Over → c'.Over
  answers : c'.Answers → committed = true ∨ c.Answers
  /-- a COMMIT adds the delta, and is the last of the call -/
  commits : committed = true → ¬ c.Over ∧ c'.Over ∧
    db'.committed = Function.update db.committed c.request.userId
      ((db.committed c.request.userId).map (· + c.request.delta))
  silent : committed = false → db'.committed = db.committed

theorem Holds.of_same {e : Balances} (h : c.Holds i db) (hs : db.Same e i) : c.Holds i e := by
  unfold Holds at h ⊢
  split at h
  · obtain ⟨⟨rows, n, hsnap, hrow⟩, hw⟩ := h
    exact ⟨⟨rows, n, hs.snapshot.trans hsnap, hrow⟩, fun k => (congrFun hs.writes k).trans (hw k)⟩
  · obtain ⟨rows, n, seen, hsnap, hrow, hw⟩ := h
    exact ⟨rows, n, seen, hs.snapshot.trans hsnap, hrow, hs.writes.trans hw⟩
  · trivial
  · exact h.of_same hs

theorem over_iff {pc : RetryPc} (h : c.status = .running pc) : c.Over ↔ pc.Over := by
  rw [Over, h]

/-- A step that leaves the database alone. -/
theorem Takes.idle (hsound : db.Sound) (hrequest : c'.request = c.request) (hq : c'.Holds i db)
    (hover : c.Over → c'.Over) (hanswers : c'.Answers → c.Answers) :
    Takes c i db db c' false :=
  ⟨hrequest, hsound, fun _ _ => ⟨rfl, rfl, fun _ => Iff.rfl⟩, hq, hover,
    fun h => .inr (hanswers h), fun h => absurd h Bool.false_ne_true, fun _ => rfl⟩

/-- A step that rolls the transaction back. -/
theorem Takes.abort (hsound : db.Sound) (hrequest : c'.request = c.request)
    (hq : (db.abort i).Quiet i → c'.Holds i (db.abort i)) (hover : c.Over → c'.Over)
    (hanswers : ¬ c'.Answers) : Takes c i db (db.abort i) c' false :=
  ⟨hrequest, hsound.abort i, fun _ ht => SnapshotEngine.same_abort ht,
    hq (SnapshotEngine.quiet_abort db i), hover, fun h => absurd h hanswers,
    fun h => absurd h Bool.false_ne_true, fun _ => rfl⟩

/-- A statement that is refused. -/
theorem Takes.refused (hsound : db.Sound) (hover : ¬ c.Over)
    (h : c.refused i db err = some (db', c', committed)) : Takes c i db db' c' committed := by
  simp only [RetryCall.refused, Option.some.injEq, Prod.mk.injEq] at h
  obtain ⟨rfl, rfl, rfl⟩ := h
  exact .abort hsound rfl (fun _ => trivial) (fun h => absurd h hover)
    (not_answers_goes (by simp))

/-- **COMMIT writes the committed balance plus the delta.** -/
theorem Takes.commit (hsound : db.Sound) (hholds : c.Holds i db)
    (hstatus : c.status = .running .commitTransaction) (hrequest : c'.request = c.request)
    (hq : (db.commit i).Quiet i → c'.Holds i (db.commit i)) (hover : c'.Over) :
    Takes c i db (db.commit i) c' true := by
  refine ⟨hrequest, hsound.commit i, fun _ ht => SnapshotEngine.same_commit ht,
    hq (SnapshotEngine.quiet_commit db i), fun _ => hover, fun _ => .inl rfl,
    fun _ => ⟨?_, hover, ?_⟩,
    fun h => absurd h.symm Bool.false_ne_true⟩
  · exact (over_iff hstatus).mp
  · rw [Holds, hstatus] at hholds
    obtain ⟨rows, n, seen, hsnap, hrow, hw⟩ := hholds
    have hwritten : db.writes i c.request.userId = some (some (seen + c.request.delta)) := by
      rw [hw, Function.update_self]
    have hcurrent : db.committed c.request.userId = some seen :=
      (hsound.row_of_written hwritten hsnap).symm.trans hrow
    rw [SnapshotEngine.commit_committed]
    funext k
    by_cases hk : k = c.request.userId
    · subst hk
      rw [hwritten, Function.update_self, hcurrent]
      rfl
    · rw [hw, Function.update_of_ne hk, Function.update_of_ne hk]
      rfl

/-- The SELECT finds no user, and the program throws. -/
theorem Takes.thrown (hsound : db.Sound) (hover : ¬ c.Over) :
    Takes c i db (db.snap i) (c.goes (.rollbackTransaction err)) false :=
  ⟨rfl, hsound.snap i, fun _ ht => SnapshotEngine.same_snap ht, trivial,
    fun h => absurd h hover, fun h => absurd h (not_answers_goes (by simp)),
    fun h => absurd h Bool.false_ne_true, fun _ => rfl⟩

/-- The SELECT: the balance of the snapshot. -/
theorem Takes.select (hsound : db.Sound) (hquiet : db.Quiet i) {seen : ℤ}
    (hread : (db.snap i).read i c.request.userId = some (some seen)) (hover : ¬ c.Over) :
    Takes c i db (db.snap i) (c.goes (.update seen)) false := by
  refine ⟨rfl, hsound.snap i, fun _ ht => SnapshotEngine.same_snap ht, ?_,
    fun h => absurd h hover, fun h => absurd h (not_answers_goes (by simp)),
    fun h => absurd h Bool.false_ne_true, fun _ => rfl⟩
  obtain ⟨⟨rows, n⟩, hsnap, hrow⟩ := Option.map_eq_some_iff.mp hread
  have hnone : (db.snap i).writes i c.request.userId = none := hquiet.writes _
  rw [hnone] at hrow
  exact ⟨⟨rows, n, hsnap, hrow⟩, hquiet.writes⟩

/-- The UPDATE: a row that nobody has changed since the snapshot. -/
theorem Takes.update (hsound : db.Sound) {seen : ℤ} (hholds : c.Holds i db)
    (hstatus : c.status = .running (.update seen)) (hfree : db.free i c.request.userId = true)
    (hconflict : db.conflict i c.request.userId = false) :
    Takes c i db (db.update i c.request.userId (some (seen + c.request.delta)))
      (c.goes .commitTransaction) false := by
  rw [Holds, hstatus] at hholds
  obtain ⟨⟨rows, n, hsnap, hrow⟩, hw⟩ := hholds
  refine ⟨rfl, hsound.update hfree hsnap hconflict _,
    fun _ ht => SnapshotEngine.same_update hfree ht, ⟨rows, n, seen, hsnap, hrow, ?_⟩, ?_,
    fun h => absurd h (not_answers_goes (by simp)), fun h => absurd h Bool.false_ne_true,
    fun _ => rfl⟩
  · rw [SnapshotEngine.update_writes_self, show db.writes i = fun _ => none from funext hw]
    rfl
  · exact fun h => ((over_iff hstatus).mp h).elim

theorem Takes.exec (hsound : db.Sound) (hholds : c.Holds i db)
    (h : c.exec i db = some (db', c', committed)) : Takes c i db db' c' committed := by
  unfold RetryCall.exec at h
  rcases hstatus : c.status with pc | _ | err | _ <;> rw [hstatus] at h
  · have hover := over_iff hstatus
    cases pc with
    | connect | startTransaction =>
      simp only [Option.some.injEq, Prod.mk.injEq] at h
      obtain ⟨rfl, rfl, rfl⟩ := h
      rw [Holds, hstatus] at hholds
      exact .idle hsound rfl hholds (fun h => (hover.mp h).elim)
        fun h => absurd h (not_answers_goes (by simp))
    | select =>
      rw [Holds, hstatus] at hholds
      rcases hread : (db.snap i).read i c.request.userId with _ | _ | seen <;>
        simp only [hread, Option.some.injEq, Prod.mk.injEq] at h <;> obtain ⟨rfl, rfl, rfl⟩ := h
      · exact .thrown hsound hover.mp
      · exact .thrown hsound hover.mp
      · exact .select hsound hholds hread hover.mp
    | update seen =>
      simp only at h
      split at h
      · exact .refused hsound hover.mp h
      · split_ifs at h with hfree hconflict
        · exact .refused hsound hover.mp h
        · simp only [Option.some.injEq, Prod.mk.injEq] at h
          obtain ⟨rfl, rfl, rfl⟩ := h
          exact .update hsound hholds hstatus hfree (Bool.not_eq_true _ ▸ hconflict)
    | commitTransaction =>
      simp only [Option.some.injEq, Prod.mk.injEq] at h
      obtain ⟨rfl, rfl, rfl⟩ := h
      exact .commit hsound hholds hstatus rfl id trivial
    | rollbackTransaction err =>
      simp only at h
      split_ifs at h with hagain <;> simp only [Option.some.injEq, Prod.mk.injEq] at h <;>
        obtain ⟨rfl, rfl, rfl⟩ := h
      · refine .abort hsound rfl id (fun h => ?_) (not_answers_goes (by simp))
        -- a call that is over rolls back for the last time
        have hfinal : err.retryable = false := hover.mp h
        rw [hfinal] at hagain
        exact absurd hagain Bool.false_ne_true
      · exact .abort hsound rfl id (fun _ => trivial) (not_answers_goes (by simp))
    | sleep =>
      simp only [Option.some.injEq, Prod.mk.injEq] at h
      obtain ⟨rfl, rfl, rfl⟩ := h
      rw [Holds, hstatus] at hholds
      exact .idle hsound rfl hholds (fun h => (hover.mp h).elim)
        fun h => absurd h (not_answers_goes (by simp))
    | release exit =>
      rw [Holds, hstatus] at hholds
      cases exit <;> simp only [Option.some.injEq, Prod.mk.injEq] at h <;>
        obtain ⟨rfl, rfl, rfl⟩ := h
      · exact .idle hsound rfl hholds (fun _ => trivial) fun _ => .inr hstatus
      · refine .idle hsound rfl hholds (fun h => (hover.mp h).elim) ?_
        rintro (h | h) <;> cases h
      · refine .idle hsound rfl hholds (fun _ => trivial) ?_
        rintro (h | h) <;> cases h
  all_goals cases h

theorem Takes.fails (hsound : db.Sound) (hholds : c.Holds i db)
    (h : c.fails i db err = some (db', c', committed)) : Takes c i db db' c' committed := by
  unfold RetryCall.fails at h
  rcases hstatus : c.status with pc | _ | err | _ <;> rw [hstatus] at h
  · have hover := over_iff hstatus
    cases pc with
    | connect =>
      simp only [Option.some.injEq, Prod.mk.injEq] at h
      obtain ⟨rfl, rfl, rfl⟩ := h
      rw [Holds, hstatus] at hholds
      refine .idle hsound rfl hholds (fun _ => trivial) ?_
      rintro (h | h) <;> cases h
    | startTransaction | select | commitTransaction => exact .refused hsound hover.mp h
    | update seen => exact .refused hsound hover.mp h
    | rollbackTransaction err => exact .exec hsound hholds h
    | sleep => cases h
    | release exit =>
      simp only [Option.some.injEq, Prod.mk.injEq] at h
      obtain ⟨rfl, rfl, rfl⟩ := h
      rw [Holds, hstatus] at hholds
      refine .idle hsound rfl hholds (fun _ => trivial) ?_
      rintro (h | h) <;> cases h
  all_goals cases h

theorem Takes.losesAnswer (hsound : db.Sound) (hholds : c.Holds i db)
    (h : c.losesAnswer i db err = some (db', c', committed)) :
    Takes c i db db' c' committed := by
  unfold RetryCall.losesAnswer at h
  split at h
  · rename_i hstatus
    split_ifs at h with hagain
    simp only [Option.some.injEq, Prod.mk.injEq] at h
    obtain ⟨rfl, rfl, rfl⟩ := h
    -- it has committed, and the caller gets the error of the connection
    exact .commit hsound hholds hstatus rfl (fun _ => trivial) (Bool.eq_false_iff.mpr hagain)
  · cases h

theorem Takes.crashes (hsound : db.Sound) (h : c.crashes i db = some (db', c', committed)) :
    Takes c i db db' c' committed := by
  unfold RetryCall.crashes at h
  split at h
  · simp only [Option.some.injEq, Prod.mk.injEq] at h
    obtain ⟨rfl, rfl, rfl⟩ := h
    refine .abort hsound rfl id (fun _ => trivial) ?_
    rintro (h | h) <;> cases h
  · cases h

end RetryCall

/-! ## Runs -/

namespace RetryState

variable {s s' : RetryState} {ev : RetryEvent} {i : ℕ} {c c' : RetryCall} {db' : Balances}
  {committed : Bool} {rows₀ : ℕ → Option ℤ}

/-- The committed balances are the initial ones plus the deltas of the calls that have
committed, and each of these is over. -/
structure Inv (rows₀ : ℕ → Option ℤ) (s : RetryState) : Prop where
  sound : s.db.Sound
  holds : ∀ i c, s.calls i = some c → c.Holds i s.db
  unused : ∀ i, s.calls i = none → s.db.Quiet i
  balance : ∀ u, s.db.committed u = (rows₀ u).map (· + deltas u s.committed)
  once : (s.committed.map Prod.fst).Nodup
  ended : ∀ i request, (i, request) ∈ s.committed →
    ∃ c, s.calls i = some c ∧ c.request = request ∧ c.Over
  answered : ∀ i c, s.calls i = some c → c.Answers → (i, c.request) ∈ s.committed

theorem Inv.of_start (h : retries.start s) : s.Inv s.db.committed := by
  obtain ⟨⟨rows, hdb⟩, hcalls, hcommitted⟩ := h
  refine ⟨hdb ▸ SnapshotEngine.sound_idle rows, fun i c hc => ?_, fun i _ => ?_, fun u => ?_, ?_,
    fun i request hmem => ?_, fun i c hc => ?_⟩
  · rw [hcalls i] at hc
    cases hc
  · exact hdb ▸ SnapshotEngine.quiet_idle rows i
  · rw [hcommitted]
    simp [deltas]
  · rw [hcommitted]
    exact List.nodup_nil
  · rw [hcommitted] at hmem
    exact absurd hmem List.not_mem_nil
  · rw [hcalls i] at hc
    cases hc

theorem begun_calls_self {request : Adjust} : (s.begun i request).calls i =
    some { request := request, attempt := 1, status := .running .connect } :=
  Function.update_self ..

theorem begun_calls_ne {j : ℕ} {request : Adjust} (h : j ≠ i) :
    (s.begun i request).calls j = s.calls j :=
  Function.update_of_ne h ..

theorem moved_calls_self {m : Balances × RetryCall × Bool} :
    (s.moved i c m).calls i = some m.2.1 :=
  Function.update_self ..

theorem moved_calls_ne {j : ℕ} {m : Balances × RetryCall × Bool} (h : j ≠ i) :
    (s.moved i c m).calls j = s.calls j :=
  Function.update_of_ne h ..

/-- A new call. -/
theorem Inv.begun (h : s.Inv rows₀) (hi : s.calls i = none) (request : Adjust) :
    (s.begun i request).Inv rows₀ := by
  have hne : ∀ j c, s.calls j = some c → j ≠ i := by
    rintro j c hc rfl
    exact absurd (hi.symm.trans hc) (Option.some_ne_none c).symm
  refine ⟨h.sound, fun j c hc => ?_, fun j hj => ?_, h.balance, h.once, fun j request hmem => ?_,
    fun j c hc hanswers => ?_⟩
  · by_cases hij : j = i
    · subst hij
      obtain rfl := Option.some.inj (begun_calls_self.symm.trans hc)
      exact h.unused j hi
    · exact h.holds j c ((begun_calls_ne hij).symm.trans hc)
  · by_cases hij : j = i
    · subst hij
      exact h.unused j hi
    · exact h.unused j ((begun_calls_ne hij).symm.trans hj)
  · obtain ⟨c, hc, hrest⟩ := h.ended j request hmem
    exact ⟨c, (begun_calls_ne (hne j c hc)).trans hc, hrest⟩
  · by_cases hij : j = i
    · subst hij
      obtain rfl := Option.some.inj (begun_calls_self.symm.trans hc)
      rcases hanswers with hst | hst <;> cases hst
    · exact h.answered j c ((begun_calls_ne hij).symm.trans hc) hanswers

/-- **A step of a call keeps the sum**: it adds nothing, or it commits and adds its delta. -/
theorem Inv.moved (h : s.Inv rows₀) (hc : s.calls i = some c)
    (ht : c.Takes i s.db db' c' committed) : (s.moved i c (db', c', committed)).Inv rows₀ := by
  have hmono : ∀ x ∈ s.committed, x ∈ (s.moved i c (db', c', committed)).committed := by
    intro x hx
    cases committed with
    | false => exact hx
    | true => exact List.mem_append_left _ hx
  refine ⟨ht.sound, fun j cj hj => ?_, fun j hj => ?_, fun u => ?_, ?_, fun j request hmem => ?_,
    fun j cj hj hanswers => ?_⟩
  · by_cases hij : j = i
    · subst hij
      obtain rfl := Option.some.inj (moved_calls_self.symm.trans hj)
      exact ht.holds
    · exact (h.holds j cj ((moved_calls_ne hij).symm.trans hj)).of_same (ht.same j hij)
  · by_cases hij : j = i
    · subst hij
      exact absurd (moved_calls_self.symm.trans hj) (Option.some_ne_none _)
    · exact (h.unused j ((moved_calls_ne hij).symm.trans hj)).of_same (ht.same j hij)
  · cases committed with
    | false => exact (congrFun (ht.silent rfl) u).trans (h.balance u)
    | true =>
      obtain ⟨-, -, hrows⟩ := ht.commits rfl
      show db'.committed u = (rows₀ u).map (· + deltas u (s.committed ++ [(i, c.request)]))
      -- the commit writes what the call has read plus its delta, on the row as it still is
      rw [hrows, deltas_append]
      by_cases hu : u = c.request.userId
      · subst hu
        rw [Function.update_self, h.balance]
        rcases rows₀ c.request.userId with _ | b
        · rfl
        · simp [deltas, add_assoc]
      · have hzero : deltas u [(i, c.request)] = 0 := by
          simp [deltas, Ne.symm hu]
        rw [Function.update_of_ne hu, h.balance, hzero, add_zero]
  · cases committed with
    | false => exact h.once
    | true =>
      show ((s.committed ++ [(i, c.request)]).map Prod.fst).Nodup
      rw [List.map_append, List.map_singleton]
      refine List.nodup_append.mpr ⟨h.once, List.nodup_singleton _, ?_⟩
      rintro j hj _ hji rfl
      obtain rfl := List.mem_singleton.mp hji
      obtain ⟨⟨_, request⟩, hmem, rfl⟩ := List.mem_map.mp hj
      obtain ⟨c₀, hc₀, -, hover⟩ := h.ended _ request hmem
      obtain rfl := Option.some.inj (hc.symm.trans hc₀)
      -- a call that committed is over, and what is over does not commit
      exact (ht.commits rfl).1 hover
  · by_cases hij : j = i
    · subst hij
      refine ⟨c', moved_calls_self, ?_⟩
      cases committed with
      | false =>
        obtain ⟨c₀, hc₀, hrequest, hover⟩ := h.ended j request hmem
        obtain rfl := Option.some.inj (hc.symm.trans hc₀)
        exact ⟨ht.request.trans hrequest, ht.isOver hover⟩
      | true =>
        rcases List.mem_append.mp hmem with hmem | hmem
        · obtain ⟨c₀, hc₀, hrequest, hover⟩ := h.ended j request hmem
          obtain rfl := Option.some.inj (hc.symm.trans hc₀)
          exact absurd hover (ht.commits rfl).1
        · obtain ⟨-, rfl⟩ := Prod.mk.inj (List.mem_singleton.mp hmem)
          exact ⟨ht.request, (ht.commits rfl).2.1⟩
    · -- the entry that was added is of call `i`
      have hmem' : (j, request) ∈ s.committed := by
        cases committed with
        | false => exact hmem
        | true =>
          rcases List.mem_append.mp hmem with hmem | hmem
          · exact hmem
          · exact absurd (Prod.mk.inj (List.mem_singleton.mp hmem)).1 hij
      obtain ⟨cj, hcj, hrest⟩ := h.ended j request hmem'
      exact ⟨cj, (moved_calls_ne hij).trans hcj, hrest⟩
  · by_cases hij : j = i
    · subst hij
      obtain rfl := Option.some.inj (moved_calls_self.symm.trans hj)
      rw [ht.request]
      rcases ht.answers hanswers with rfl | hanswered
      · exact List.mem_append_right _ (List.mem_singleton_self _)
      · exact hmono _ (h.answered j c hc hanswered)
    · exact hmono _ (h.answered j cj ((moved_calls_ne hij).symm.trans hj) hanswers)

/-- A step of the system is a new call or a step of a call. -/
theorem step_cases (h : s.Inv rows₀) (hstep : s.step ev = some s') :
    (∃ i request, s.calls i = none ∧ s' = s.begun i request) ∨
      ∃ i c db' c' committed, s.calls i = some c ∧ c.Takes i s.db db' c' committed ∧
        s' = s.moved i c (db', c', committed) := by
  cases ev with
  | call i request =>
    simp only [step] at hstep
    split_ifs at hstep with hused
    obtain rfl := Option.some.inj hstep
    exact .inl ⟨i, request, by simpa using hused, rfl⟩
  | exec i =>
    obtain ⟨c, hc, hm⟩ := Option.bind_eq_some_iff.mp hstep
    obtain ⟨⟨db', c', committed⟩, hexec, rfl⟩ := Option.map_eq_some_iff.mp hm
    exact .inr ⟨i, c, db', c', committed, hc, .exec h.sound (h.holds i c hc) hexec, rfl⟩
  | fails i err =>
    obtain ⟨c, hc, hm⟩ := Option.bind_eq_some_iff.mp hstep
    obtain ⟨⟨db', c', committed⟩, hfails, rfl⟩ := Option.map_eq_some_iff.mp hm
    exact .inr ⟨i, c, db', c', committed, hc, .fails h.sound (h.holds i c hc) hfails, rfl⟩
  | losesAnswer i err =>
    obtain ⟨c, hc, hm⟩ := Option.bind_eq_some_iff.mp hstep
    obtain ⟨⟨db', c', committed⟩, hloses, rfl⟩ := Option.map_eq_some_iff.mp hm
    exact .inr ⟨i, c, db', c', committed, hc, .losesAnswer h.sound (h.holds i c hc) hloses, rfl⟩
  | crashes i =>
    obtain ⟨c, hc, hm⟩ := Option.bind_eq_some_iff.mp hstep
    obtain ⟨⟨db', c', committed⟩, hcrashes, rfl⟩ := Option.map_eq_some_iff.mp hm
    exact .inr ⟨i, c, db', c', committed, hc, .crashes h.sound hcrashes, rfl⟩

theorem Inv.step (h : s.Inv rows₀) (hstep : s.step ev = some s') : s'.Inv rows₀ := by
  rcases step_cases h hstep with ⟨i, request, hi, rfl⟩ | ⟨i, c, db', c', committed, hc, ht, rfl⟩
  · exact h.begun hi request
  · exact h.moved hc ht

end RetryState

/-- What holds of retried transactions in every reachable state. -/
theorem retries_invariant (rows₀ : ℕ → Option ℤ) : retries.Invariant (RetryState.Inv rows₀) :=
  fun _ _ _ h hstep => h.step hstep

/-- **No update is lost.** In every run of calls of `withRetry`, however interleaved, refused,
retried, cut off or crashed, the committed balance of a user is the initial one plus the
deltas of the calls whose transactions committed; each call commits at most once, and one
that has returned has committed. -/
theorem withRetry_loses_no_update {s₀ s : RetryState} {as : List RetryEvent}
    (hstart : retries.start s₀) (hrun : retries.run s₀ as = some s) :
    (∀ u, s.db.committed u = (s₀.db.committed u).map (· + deltas u s.committed)) ∧
      (s.committed.map Prod.fst).Nodup ∧
      (∀ i request, (i, request) ∈ s.committed →
        ∃ c, s.calls i = some c ∧ c.request = request) ∧
      ∀ i c, s.calls i = some c → c.status = .returned → (i, c.request) ∈ s.committed := by
  have hinv := (retries_invariant _).run (RetryState.Inv.of_start hstart) hrun
  refine ⟨hinv.balance, hinv.once, fun i request hmem => ?_, fun i c hc hst => ?_⟩
  · obtain ⟨c, hc, hrequest, -⟩ := hinv.ended i request hmem
    exact ⟨c, hc, hrequest⟩
  · exact hinv.answered i c hc (.inl hst)

/-- One user with 100.00, and nobody has called yet. -/
def demoBalances : RetryState :=
  { db := .idle fun u => if u = 1 then some 10000 else none, calls := fun _ => none,
    committed := [] }

/-- The run of `demo:retry`: both calls have read 100.00 when the first commits; the second is
refused, and starts again. -/
def demoAdjust : List RetryEvent :=
  [.call 1 { userId := 1, delta := 5000, maxAttempts := 8 },
    .call 2 { userId := 1, delta := -3000, maxAttempts := 8 }] ++
    List.replicate 3 (.exec 1) ++ List.replicate 3 (.exec 2) ++ List.replicate 3 (.exec 1) ++
    List.replicate 10 (.exec 2)

theorem demoAdjust_loses_no_update :
    ∃ s, retries.run demoBalances demoAdjust = some s ∧ s.db.committed 1 = some 12000 ∧
      s.committed.map Prod.fst = [1, 2] ∧
      (∀ u, s.db.committed u = (demoBalances.db.committed u).map (· + deltas u s.committed)) ∧
      (s.committed.map Prod.fst).Nodup := by
  have hrun : (retries.run demoBalances demoAdjust).any (fun s =>
      decide (s.db.committed 1 = some 12000 ∧ s.committed.map Prod.fst = [1, 2])) = true := by
    decide +kernel
  obtain ⟨s, hs, hend⟩ := (Option.any_eq_true _ _).mp hrun
  obtain ⟨hsum, honce, -⟩ := withRetry_loses_no_update ⟨⟨_, rfl⟩, fun _ => rfl, rfl⟩ hs
  exact ⟨s, hs, (of_decide_eq_true hend).1, (of_decide_eq_true hend).2, hsum, honce⟩

end Marketplace
