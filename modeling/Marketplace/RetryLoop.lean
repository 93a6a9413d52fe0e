import Marketplace.LostUpdate
import Mathlib.Data.List.Count

/-!
# The loop of `withRetry`

`withRetry` of `concurrency/lib.ts` around any `fn`: what the database and `fn` do in each round
is given (`Attempt`), and the loop says what becomes of it, and in which order it connects,
commits, rolls back and releases.

Every round is left in one of three ways, and only one of them leads to another. So the rounds
before the last all failed with one of the two codes, and whatever the last one does is how the
call ends (`withRetry_rounds`); everything else is read off the rounds.
-/

namespace Marketplace

universe u

/-! ## One round -/

/-- How the steps of one round end: `none` where a step succeeds, or its error. -/
structure Attempt (V : Type u) where
  connect : Option PgError
  startTransaction : Option PgError
  fn : Except PgError V
  commitTransaction : Option PgError
  rollbackTransaction : Option PgError

/-- What a round does to the database and to its query runner. -/
inductive RetryEffect where
  | connected
  | began
  | ranFn
  | committed
  | rolledBack
  | slept
  | released
  deriving DecidableEq, Repr

namespace Attempt

variable {V : Type u}

/-- The `try` block: what it has done, and how it ends. A COMMIT that fails commits nothing. -/
def tryBlock (a : Attempt V) : List RetryEffect × Except PgError V :=
  match a.startTransaction with
  | some err => ([], .error err)
  | none =>
    match a.fn with
    | .error err => ([.began, .ranFn], .error err)
    | .ok result =>
      match a.commitTransaction with
      | some err => ([.began, .ranFn], .error err)
      | none => ([.began, .ranFn, .committed], .ok result)

/-- One round, with its `catch` and `finally` blocks: what it does, and how it is left, `none`
being `continue`. A ROLLBACK that fails changes nothing: the connection is gone. -/
def round (a : Attempt V) (maxAttempts attempt : ℕ) :
    List RetryEffect × Option (Except PgError V) :=
  match a.connect with
  | some err => ([], some (.error err))
  | none =>
    match a.tryBlock with
    | (done, .ok result) => (.connected :: done ++ [.released], some (.ok result))
    | (done, .error err) =>
      let undone := if a.rollbackTransaction.isNone then [.rolledBack] else []
      if err.retryable && decide (attempt < maxAttempts) then
        (.connected :: done ++ undone ++ [.slept, .released], none)
      else (.connected :: done ++ undone ++ [.released], some (.error err))

/-- What the steps of a round come to: the result of `fn`, once committed, or the first error. -/
def result (a : Attempt V) : Except PgError V :=
  match a.connect with
  | some err => .error err
  | none => a.tryBlock.2

end Attempt

section Round

variable {V : Type u} {a : Attempt V} {maxAttempts attempt : ℕ}

/-- What one round does: it commits if it has a result, and releases what it has connected. -/
structure RoundLaw (a : Attempt V) (maxAttempts attempt : ℕ) (effects : List RetryEffect)
    (exit : Option (Except PgError V)) : Prop where
  ranFn : effects.count .ranFn ≤ 1
  released : RetryEffect.connected ∈ effects → effects.count .released = 1
  returns : ∀ v, exit = some (.ok v) → a.result = .ok v ∧ effects.count .committed = 1
  fails : (∀ v, exit ≠ some (.ok v)) → effects.count .committed = 0
  throws : ∀ err, exit = some (.error err) → a.result = .error err ∧
    (a.connect ≠ none ∨ err.retryable = false ∨ maxAttempts ≤ attempt)
  continues : exit = none → attempt < maxAttempts ∧
    ∃ err, a.result = .error err ∧ err.retryable = true

/-- A failed `try` block has committed nothing. -/
theorem tryBlock_cases (a : Attempt V) :
    (∃ v, a.tryBlock = ([.began, .ranFn, .committed], .ok v)) ∨
      ∃ err, a.tryBlock = ([], .error err) ∨ a.tryBlock = ([.began, .ranFn], .error err) := by
  unfold Attempt.tryBlock
  rcases a.startTransaction with _ | err
  · rcases a.fn with err | v
    · exact .inr ⟨err, .inr rfl⟩
    · rcases a.commitTransaction with _ | err
      · exact .inl ⟨v, rfl⟩
      · exact .inr ⟨err, .inr rfl⟩
  · exact .inr ⟨err, .inl rfl⟩

/-- What a round does whose `try` block has failed. -/
theorem failed_effects {done undone last : List RetryEffect}
    (hdone : done = [] ∨ done = [.began, .ranFn]) (hundone : undone = [] ∨ undone = [.rolledBack])
    (hlast : last = [.released] ∨ last = [.slept, .released]) :
    (RetryEffect.connected :: done ++ undone ++ last).count .ranFn ≤ 1 ∧
      (RetryEffect.connected :: done ++ undone ++ last).count .released = 1 ∧
      (RetryEffect.connected :: done ++ undone ++ last).count .committed = 0 := by
  rcases hdone with rfl | rfl <;> rcases hundone with rfl | rfl <;> rcases hlast with rfl | rfl <;>
    decide

/-- A round whose `try` block has failed. -/
theorem round_law_of_error {err : PgError} {done : List RetryEffect}
    (hconnect : a.connect = none) (htry : a.tryBlock = (done, .error err))
    (hdone : done = [] ∨ done = [.began, .ranFn]) (maxAttempts attempt : ℕ) :
    RoundLaw a maxAttempts attempt (a.round maxAttempts attempt).1
      (a.round maxAttempts attempt).2 := by
  have hresult : a.result = .error err := by
    rw [Attempt.result, hconnect]
    exact congrArg Prod.snd htry
  have hundone : (if a.rollbackTransaction.isNone then [RetryEffect.rolledBack] else []) = [] ∨
      (if a.rollbackTransaction.isNone then [RetryEffect.rolledBack] else [])
        = [RetryEffect.rolledBack] := by
    split_ifs
    · exact .inr rfl
    · exact .inl rfl
  simp only [Attempt.round, hconnect, htry]
  generalize (if a.rollbackTransaction.isNone then [RetryEffect.rolledBack] else []) = undone
    at hundone ⊢
  split_ifs with hagain
  · obtain ⟨hretry, hlt⟩ := Bool.and_eq_true_iff.mp hagain
    obtain ⟨hran, hreleased, hcommitted⟩ := failed_effects hdone hundone (.inr rfl)
    refine ⟨hran, fun _ => hreleased, ?_, fun _ => hcommitted, ?_, fun _ => ?_⟩
    · rintro _ ⟨⟩
    · rintro _ ⟨⟩
    · exact ⟨of_decide_eq_true hlt, err, hresult, hretry⟩
  · obtain ⟨hran, hreleased, hcommitted⟩ := failed_effects hdone hundone (.inl rfl)
    refine ⟨hran, fun _ => hreleased, ?_, fun _ => hcommitted, ?_, ?_⟩
    · rintro _ ⟨⟩
    · rintro _ ⟨⟩
      refine ⟨hresult, .inr ?_⟩
      rcases hretry : err.retryable with _ | _
      · exact .inl rfl
      · rw [hretry, Bool.true_and, decide_eq_true_eq] at hagain
        exact .inr (not_lt.mp hagain)
    · rintro ⟨⟩

/-- **One round.** -/
theorem round_law (a : Attempt V) (maxAttempts attempt : ℕ) :
    RoundLaw a maxAttempts attempt (a.round maxAttempts attempt).1
      (a.round maxAttempts attempt).2 := by
  rcases hconnect : a.connect with _ | err
  · rcases tryBlock_cases a with ⟨v, htry⟩ | ⟨err, htry | htry⟩
    · have hresult : a.result = .ok v := by
        rw [Attempt.result, hconnect]
        exact congrArg Prod.snd htry
      simp only [Attempt.round, hconnect, htry]
      refine ⟨by decide, fun _ => by decide, ?_, fun h => absurd rfl (h v), ?_, ?_⟩
      · rintro _ ⟨⟩
        exact ⟨hresult, by decide⟩
      · rintro _ ⟨⟩
      · rintro ⟨⟩
    · exact round_law_of_error hconnect htry (.inl rfl) maxAttempts attempt
    · exact round_law_of_error hconnect htry (.inr rfl) maxAttempts attempt
  · have hresult : a.result = .error err := by
      rw [Attempt.result, hconnect]
    simp only [Attempt.round, hconnect]
    refine ⟨by decide, ?_, ?_, fun _ => by decide, ?_, ?_⟩
    · rintro ⟨⟩
    · rintro _ ⟨⟩
    · rintro _ ⟨⟩
      exact ⟨hresult, .inl (hconnect.symm ▸ Option.some_ne_none err)⟩
    · rintro ⟨⟩

end Round

/-! ## All rounds -/

/-- `withRetry`, from the round `attempt` on: what it does in which round, and how it ends. -/
def withRetry {V : Type u} (attempts : ℕ → Attempt V) (maxAttempts attempt : ℕ) :
    List (ℕ × RetryEffect) × Except PgError V :=
  let effects := ((attempts attempt).round maxAttempts attempt).1.map fun e => (attempt, e)
  match _h : ((attempts attempt).round maxAttempts attempt).2 with
  | some result => (effects, result)
  | none =>
    let rest := withRetry attempts maxAttempts (attempt + 1)
    (effects ++ rest.1, rest.2)
termination_by maxAttempts - attempt
decreasing_by
  have hlt := ((round_law (attempts attempt) maxAttempts attempt).continues _h).1
  omega

section Rounds

variable {V : Type u} {attempts : ℕ → Attempt V} {maxAttempts : ℕ}

/-- What the rounds from `first` on have done, `n` of them. -/
def effectsOf (attempts : ℕ → Attempt V) (maxAttempts first n : ℕ) : List (ℕ × RetryEffect) :=
  (List.range' first n).flatMap fun k =>
    ((attempts k).round maxAttempts k).1.map fun e => (k, e)

/-- **The rounds of a call**: all but the last went on, and the last is how it ends. -/
theorem withRetry_rounds (attempts : ℕ → Attempt V) (maxAttempts first : ℕ)
    (hfirst : first ≤ maxAttempts) :
    ∃ n, first + n ≤ maxAttempts ∧
      (withRetry attempts maxAttempts first).1 = effectsOf attempts maxAttempts first (n + 1) ∧
      (∀ k, first ≤ k → k < first + n →
        ((attempts k).round maxAttempts k).2 = none) ∧
      ((attempts (first + n)).round maxAttempts (first + n)).2
        = some (withRetry attempts maxAttempts first).2 := by
  fun_induction withRetry attempts maxAttempts first with
  | case1 first effects result hround =>
    refine ⟨0, hfirst, ?_, fun k hk hlt => absurd hk (not_le.mpr hlt), hround⟩
    simp only [effectsOf, Nat.zero_add, List.range'_one, List.flatMap_singleton]
    rfl
  | case2 first effects hround rest ih =>
    have hlt := ((round_law (attempts first) maxAttempts first).continues hround).1
    obtain ⟨n, hn, heffects, hgo, hend⟩ := ih hlt
    refine ⟨n + 1, by omega, ?_, fun k hk hkn => ?_, ?_⟩
    · rw [heffects]
      rfl
    · rcases hk.eq_or_lt with rfl | hk
      · exact hround
      · exact hgo k hk (by omega)
    · rw [show first + (n + 1) = first + 1 + n by omega]
      exact hend

/-- The rounds but the last, and the last. -/
theorem effectsOf_succ (first n : ℕ) :
    effectsOf attempts maxAttempts first (n + 1) = effectsOf attempts maxAttempts first n ++
      ((attempts (first + n)).round maxAttempts (first + n)).1.map fun e => (first + n, e) := by
  rw [effectsOf, List.range'_1_concat, List.flatMap_append, List.flatMap_singleton]
  rfl

/-- What was done in round `k` was done by round `k`. -/
theorem count_effectsOf (first n k : ℕ) (e : RetryEffect) :
    (effectsOf attempts maxAttempts first n).count (k, e) =
      if first ≤ k ∧ k < first + n then ((attempts k).round maxAttempts k).1.count e else 0 := by
  induction n with
  | zero =>
    rw [if_neg (by omega)]
    rfl
  | succ n ih =>
    rw [effectsOf_succ, List.count_append, ih]
    by_cases hk : k = first + n
    · subst hk
      rw [if_neg (by omega), if_pos (by omega), Nat.zero_add,
        List.count_map_of_injective _ _ fun a b h => (Prod.mk.inj h).2]
    · have hnone : (((attempts (first + n)).round maxAttempts (first + n)).1.map
          fun e => (first + n, e)).count (k, e) = 0 := by
        rw [List.count_eq_zero]
        intro hmem
        obtain ⟨e', _, he⟩ := List.mem_map.mp hmem
        exact hk (Prod.mk.inj he).1.symm
      rw [hnone, Nat.add_zero]
      refine if_congr ?_ rfl rfl
      omega

/-- How often something was done, when every round does it at most `b` times. -/
theorem count_effects_le {e : RetryEffect} {b : ℕ} {first : ℕ} (n : ℕ)
    (h : ∀ k, first ≤ k → k < first + n → ((attempts k).round maxAttempts k).1.count e ≤ b) :
    ((effectsOf attempts maxAttempts first n).map Prod.snd).count e ≤ n * b := by
  induction n with
  | zero => exact Nat.zero_le _
  | succ n ih =>
    have hround := h (first + n) (by omega) (by omega)
    have hrest := ih fun k hk hkn => h k hk (by omega)
    rw [effectsOf_succ, List.map_append, List.count_append, List.map_map]
    have hsame : (((attempts (first + n)).round maxAttempts (first + n)).1.map
        (Prod.snd ∘ fun e => (first + n, e))) =
          ((attempts (first + n)).round maxAttempts (first + n)).1 := List.map_id _
    rw [hsame, Nat.succ_mul]
    exact Nat.add_le_add hrest hround

/-- What a call of `withRetry` promises: its rounds are those up to `last`. -/
structure RetryLaw (attempts : ℕ → Attempt V) (maxAttempts last : ℕ)
    (log : List (ℕ × RetryEffect)) (result : Except PgError V) : Prop where
  bounded : 1 ≤ last ∧ last ≤ maxAttempts
  rounds : ∀ k, (k, .connected) ∈ log ↔ 1 ≤ k ∧ k ≤ last
  ranFn : (log.map Prod.snd).count .ranFn ≤ maxAttempts
  /-- exactly one attempt was committed, and what is returned is its result -/
  returned : ∀ v, result = .ok v → (log.map Prod.snd).count .committed = 1 ∧
    (last, .committed) ∈ log ∧ (attempts last).result = .ok v
  /-- no attempt was committed, and what is thrown is the last error -/
  threw : ∀ err, result = .error err → (log.map Prod.snd).count .committed = 0 ∧
    (attempts last).result = .error err ∧
    (¬ (err.code = some "40001" ∨ err.code = some "40P01") ∨ last = maxAttempts)
  earlier : ∀ k, 1 ≤ k → k < last → ∃ err, (attempts k).result = .error err ∧
    (err.code = some "40001" ∨ err.code = some "40P01")
  released : ∀ k, (k, .connected) ∈ log → log.count (k, .released) = 1

/-- The two codes. -/
theorem retryable_iff {err : PgError} :
    err.retryable = true ↔ err.code = some "40001" ∨ err.code = some "40P01" := by
  rcases hcode : err.code with _ | code
  · simp [PgError.retryable, hcode]
  · simp [PgError.retryable, hcode, retryableCodes]

/-- A round that can connect does. -/
theorem connected_mem {k : ℕ} (h : (attempts k).connect = none) :
    RetryEffect.connected ∈ ((attempts k).round maxAttempts k).1 := by
  unfold Attempt.round
  rw [h]
  dsimp only
  split
  · exact List.mem_cons_self
  · split_ifs <;> exact List.mem_cons_self

/-- **One commit or none.** `withRetry` ends after at most `maxAttempts` rounds, commits the round
it returns from and no other, throws the error of the last round, and releases every connection. -/
theorem withRetry_law (attempts : ℕ → Attempt V) (hmax : 1 ≤ maxAttempts)
    (hconnect : ∀ k, (attempts k).connect = none) :
    ∃ last, RetryLaw attempts maxAttempts last (withRetry attempts maxAttempts 1).1
      (withRetry attempts maxAttempts 1).2 := by
  obtain ⟨n, hn, heffects, hgo, hend⟩ := withRetry_rounds attempts maxAttempts 1 hmax
  have hlaw := fun k => round_law (attempts k) maxAttempts k
  have hcount := @count_effectsOf _ attempts maxAttempts 1 (n + 1)
  have hmem : ∀ k e, (k, e) ∈ effectsOf attempts maxAttempts 1 (n + 1) ↔
      (1 ≤ k ∧ k < 1 + (n + 1)) ∧ e ∈ ((attempts k).round maxAttempts k).1 := by
    intro k e
    rw [← List.count_pos_iff, hcount]
    split_ifs with hk
    · rw [List.count_pos_iff, and_iff_right hk]
    · simp only [lt_irrefl, hk, false_and]
  -- the rounds that went on have committed nothing
  have hbefore : ∀ k, 1 ≤ k → k < 1 + n →
      ((attempts k).round maxAttempts k).1.count .committed ≤ 0 := by
    intro k hk hkn
    refine ((hlaw k).fails fun v hv => ?_).le
    rw [hgo k hk hkn] at hv
    cases hv
  have hcommitted : ((effectsOf attempts maxAttempts 1 (n + 1)).map Prod.snd).count .committed =
      ((attempts (1 + n)).round maxAttempts (1 + n)).1.count .committed := by
    rw [effectsOf_succ, List.map_append, List.count_append, List.map_map,
      Nat.le_zero.mp (count_effects_le n hbefore), Nat.zero_add]
    exact congrArg (List.count RetryEffect.committed) (List.map_id _)
  refine ⟨1 + n, ⟨by omega, hn⟩, ?_, ?_, ?_, ?_, ?_, ?_⟩
  · intro k
    rw [heffects, hmem, and_iff_left (connected_mem (hconnect k))]
    omega
  · rw [heffects]
    refine (count_effects_le (b := 1) (n + 1) fun k _ _ => (hlaw k).ranFn).trans ?_
    omega
  · intro v hv
    rw [hv] at hend
    obtain ⟨hresult, hone⟩ := (hlaw (1 + n)).returns v hend
    refine ⟨?_, ?_, hresult⟩
    · rw [heffects, hcommitted, hone]
    · rw [heffects, hmem, ← List.count_pos_iff, hone]
      omega
  · intro err herr
    rw [herr] at hend
    obtain ⟨hresult, hwhy⟩ := (hlaw (1 + n)).throws err hend
    refine ⟨?_, hresult, ?_⟩
    · rw [heffects, hcommitted]
      refine (hlaw (1 + n)).fails fun v hv => ?_
      rw [hend] at hv
      cases hv
    · rcases hwhy with hno | hno | hlast
      · exact absurd (hconnect _) hno
      · rw [← retryable_iff, hno]
        exact .inl Bool.false_ne_true
      · exact .inr (by omega)
  · intro k hk hkn
    obtain ⟨-, err, hresult, hretry⟩ := (hlaw k).continues (hgo k hk hkn)
    exact ⟨err, hresult, retryable_iff.mp hretry⟩
  · intro k hk
    rw [heffects] at hk ⊢
    obtain ⟨hk, hconnected⟩ := (hmem k _).mp hk
    rw [hcount, if_pos hk]
    exact (hlaw k).released hconnected

end Rounds

/-! ## The calls of the database model

A call of `withRetry` in `retries`, which goes statement by statement beside others, is the loop
above, with the attempts that the database and the others have made of its rounds. -/

section Calls

/-- The way through the rounds that go on, and the one that does not. -/
theorem withRetry_eq {V : Type u} {attempts : ℕ → Attempt V} {maxAttempts first last : ℕ}
    {result : Except PgError V} (hle : first ≤ last)
    (hgo : ∀ k, first ≤ k → k < last → ((attempts k).round maxAttempts k).2 = none)
    (hend : ((attempts last).round maxAttempts last).2 = some result) :
    (withRetry attempts maxAttempts first).2 = result := by
  obtain ⟨n, rfl⟩ := Nat.exists_eq_add_of_le hle
  induction n generalizing first with
  | zero =>
    rw [withRetry]
    split
    · rename_i r hr
      exact Option.some.inj (hr.symm.trans hend)
    · rename_i hnone
      cases hnone.symm.trans hend
  | succ n ih =>
    have hfirst := hgo first le_rfl (by omega)
    rw [withRetry]
    split
    · rename_i r hr
      cases hfirst.symm.trans hr
    · rw [show first + (n + 1) = first + 1 + n by omega] at hgo hend
      exact ih (by omega) (fun k hk hlt => hgo k (by omega) hlt) hend

/-- A round whose `try` block has failed. -/
theorem round_of_error {V : Type u} {a : Attempt V} {err : PgError} (hconnect : a.connect = none)
    (htry : a.tryBlock.2 = .error err) (maxAttempts attempt : ℕ) :
    (a.round maxAttempts attempt).2 =
      if err.retryable && decide (attempt < maxAttempts) then none else some (.error err) := by
  obtain ⟨done, hdone⟩ : ∃ done, a.tryBlock = (done, .error err) := ⟨_, Prod.ext rfl htry⟩
  simp only [Attempt.round, hconnect, hdone]
  split_ifs <;> rfl

/-- What a round has come to by this point, `a` being what has been made of it. -/
def RetryPc.Reached (maxAttempts attempt : ℕ) (a : Attempt Unit) : RetryPc → Prop
  | .connect => True
  | .startTransaction => a.connect = none
  | .select | .update _ => a.connect = none ∧ a.startTransaction = none
  | .commitTransaction => a.connect = none ∧ a.startTransaction = none ∧ a.fn = .ok ()
  | .rollbackTransaction err => a.connect = none ∧ a.tryBlock.2 = .error err
  | .sleep | .release .continues => (a.round maxAttempts attempt).2 = none
  | .release .returns => (a.round maxAttempts attempt).2 = some (.ok ())
  | .release (.throws err) => (a.round maxAttempts attempt).2 = some (.error err)

/-- How a call has ended, in terms of its last round. -/
def RetryStatus.Reached (maxAttempts attempt : ℕ) (a : Attempt Unit) : RetryStatus → Prop
  | .running pc => pc.Reached maxAttempts attempt a
  | .returned => (a.round maxAttempts attempt).2 = some (.ok ())
  | .threw err => (a.round maxAttempts attempt).2 = some (.error err)
  | .crashed => True

/-- The call is in the loop: its earlier rounds went on, and this is its last one. -/
def InLoop (c : RetryCall) : Prop :=
  1 ≤ c.attempt ∧ ∃ attempts : ℕ → Attempt Unit,
    (∀ k, 1 ≤ k → k < c.attempt → ((attempts k).round c.request.maxAttempts k).2 = none) ∧
    c.status.Reached c.request.maxAttempts c.attempt (attempts c.attempt)

/-- The release of the query runner of call `i` does not fail. -/
def Releases (i : ℕ) (s : RetryState) (e : RetryEvent) : Prop :=
  ∀ err c exit, e = .fails i err → s.calls i = some c → c.status ≠ .running (.release exit)

variable {c c' : RetryCall} {i : ℕ} {db db' : Balances} {err : PgError} {flag : Bool}

/-- The round goes on within itself. -/
theorem InLoop.within {status status' : RetryStatus} {request : Adjust} {attempt : ℕ}
    (h : InLoop ⟨request, attempt, status⟩)
    (hround : ∀ a, status.Reached request.maxAttempts attempt a →
      ∃ a', status'.Reached request.maxAttempts attempt a') :
    InLoop ⟨request, attempt, status'⟩ := by
  obtain ⟨hpos, attempts, hgo, hreached⟩ := h
  obtain ⟨a', ha'⟩ := hround _ hreached
  refine ⟨hpos, Function.update attempts attempt a', fun k hk hlt => ?_, ?_⟩
  · rw [Function.update_of_ne hlt.ne]
    exact hgo k hk hlt
  · rw [Function.update_self]
    exact ha'

/-- A statement is refused: the round has this error. -/
theorem InLoop.refused {pc : RetryPc} {request : Adjust} {attempt : ℕ}
    (h : InLoop ⟨request, attempt, .running pc⟩)
    (hpc : pc = .startTransaction ∨ pc = .select ∨ (∃ seen, pc = .update seen) ∨
      pc = .commitTransaction) :
    InLoop ⟨request, attempt, .running (.rollbackTransaction err)⟩ := by
  refine h.within fun a ha => ?_
  rcases hpc with rfl | rfl | ⟨seen, rfl⟩ | rfl
  · exact ⟨{ a with startTransaction := some err }, ha, rfl⟩
  · refine ⟨{ a with fn := .error err }, ha.1, ?_⟩
    simp only [Attempt.tryBlock, ha.2]
  · refine ⟨{ a with fn := .error err }, ha.1, ?_⟩
    simp only [Attempt.tryBlock, ha.2]
  · refine ⟨{ a with commitTransaction := some err }, ha.1, ?_⟩
    simp only [Attempt.tryBlock, ha.2.1, ha.2.2]

/-- **What comes next keeps a call in the loop.** -/
theorem InLoop.exec (h : InLoop c) (hs : c.exec i db = some (db', c', flag)) : InLoop c' := by
  obtain ⟨request, attempt, status⟩ := c
  rcases status with pc | _ | err | _
  · cases pc with
    | connect =>
      simp only [RetryCall.exec, Option.some.injEq, Prod.mk.injEq] at hs
      obtain ⟨-, rfl, -⟩ := hs
      exact h.within fun a _ => ⟨{ a with connect := none }, rfl⟩
    | startTransaction =>
      simp only [RetryCall.exec, Option.some.injEq, Prod.mk.injEq] at hs
      obtain ⟨-, rfl, -⟩ := hs
      exact h.within fun a ha => ⟨{ a with startTransaction := none }, ha, rfl⟩
    | select =>
      simp only [RetryCall.exec] at hs
      split at hs
      · simp only [Option.some.injEq, Prod.mk.injEq] at hs
        obtain ⟨-, rfl, -⟩ := hs
        exact h.within fun a ha => ⟨a, ha⟩
      · simp only [Option.some.injEq, Prod.mk.injEq] at hs
        obtain ⟨-, rfl, -⟩ := hs
        exact h.refused (.inr (.inl rfl))
    | update seen =>
      simp only [RetryCall.exec] at hs
      split at hs
      · simp only [RetryCall.refused, Option.some.injEq, Prod.mk.injEq] at hs
        obtain ⟨-, rfl, -⟩ := hs
        exact h.refused (.inr (.inr (.inl ⟨seen, rfl⟩)))
      · split_ifs at hs
        · simp only [RetryCall.refused, Option.some.injEq, Prod.mk.injEq] at hs
          obtain ⟨-, rfl, -⟩ := hs
          exact h.refused (.inr (.inr (.inl ⟨seen, rfl⟩)))
        · simp only [Option.some.injEq, Prod.mk.injEq] at hs
          obtain ⟨-, rfl, -⟩ := hs
          exact h.within fun a ha => ⟨{ a with fn := .ok () }, ha.1, ha.2, rfl⟩
    | commitTransaction =>
      simp only [RetryCall.exec, Option.some.injEq, Prod.mk.injEq] at hs
      obtain ⟨-, rfl, -⟩ := hs
      refine h.within fun a ha => ⟨{ a with commitTransaction := none }, ?_⟩
      obtain ⟨hconnect, hbegan, hfn⟩ := ha
      simp only [RetryStatus.Reached, RetryPc.Reached, Attempt.round, Attempt.tryBlock, hconnect,
        hbegan, hfn]
    | rollbackTransaction err =>
      simp only [RetryCall.exec] at hs
      split_ifs at hs with hagain
      · simp only [Option.some.injEq, Prod.mk.injEq] at hs
        obtain ⟨-, rfl, -⟩ := hs
        exact h.within fun a ha => ⟨a, (round_of_error ha.1 ha.2 ..).trans (if_pos hagain)⟩
      · simp only [Option.some.injEq, Prod.mk.injEq] at hs
        obtain ⟨-, rfl, -⟩ := hs
        exact h.within fun a ha => ⟨a, (round_of_error ha.1 ha.2 ..).trans (if_neg hagain)⟩
    | sleep =>
      simp only [RetryCall.exec, Option.some.injEq, Prod.mk.injEq] at hs
      obtain ⟨-, rfl, -⟩ := hs
      exact h.within fun a ha => ⟨a, ha⟩
    | release exit =>
      cases exit with
      | returns | throws err =>
        simp only [RetryCall.exec, Option.some.injEq, Prod.mk.injEq] at hs
        obtain ⟨-, rfl, -⟩ := hs
        exact h.within fun a ha => ⟨a, ha⟩
      | «continues» =>
        simp only [RetryCall.exec, Option.some.injEq, Prod.mk.injEq] at hs
        obtain ⟨-, rfl, -⟩ := hs
        obtain ⟨-, attempts, hgo, hlast⟩ := h
        refine ⟨Nat.succ_pos _, attempts, fun k hk hlt => ?_, trivial⟩
        rcases (Nat.lt_succ_iff.mp hlt).eq_or_lt with rfl | hlt
        · exact hlast
        · exact hgo k hk hlt
  · cases hs
  · cases hs
  · cases hs

/-- What fails keeps a call in the loop, unless it is the release. -/
theorem InLoop.fails (h : InLoop c) (hrelease : ∀ exit, c.status ≠ .running (.release exit))
    (hs : c.fails i db err = some (db', c', flag)) : InLoop c' := by
  obtain ⟨request, attempt, status⟩ := c
  rcases status with pc | _ | err | _
  · cases pc with
    | connect =>
      simp only [RetryCall.fails, Option.some.injEq, Prod.mk.injEq] at hs
      obtain ⟨-, rfl, -⟩ := hs
      exact h.within fun a _ => ⟨{ a with connect := some err }, rfl⟩
    | startTransaction =>
      simp only [RetryCall.fails, RetryCall.refused, Option.some.injEq, Prod.mk.injEq] at hs
      obtain ⟨-, rfl, -⟩ := hs
      exact h.refused (.inl rfl)
    | select =>
      simp only [RetryCall.fails, RetryCall.refused, Option.some.injEq, Prod.mk.injEq] at hs
      obtain ⟨-, rfl, -⟩ := hs
      exact h.refused (.inr (.inl rfl))
    | update seen =>
      simp only [RetryCall.fails, RetryCall.refused, Option.some.injEq, Prod.mk.injEq] at hs
      obtain ⟨-, rfl, -⟩ := hs
      exact h.refused (.inr (.inr (.inl ⟨seen, rfl⟩)))
    | commitTransaction =>
      simp only [RetryCall.fails, RetryCall.refused, Option.some.injEq, Prod.mk.injEq] at hs
      obtain ⟨-, rfl, -⟩ := hs
      exact h.refused (.inr (.inr (.inr rfl)))
    | rollbackTransaction err' => exact h.exec hs
    | sleep => cases hs
    | release exit => exact absurd rfl (hrelease exit)
  · cases hs
  · cases hs
  · cases hs

/-- A lost answer is an error of the COMMIT. -/
theorem InLoop.losesAnswer (h : InLoop c) (hs : c.losesAnswer i db err = some (db', c', flag)) :
    InLoop c' := by
  unfold RetryCall.losesAnswer at hs
  split at hs
  · rename_i hstatus
    split_ifs at hs
    simp only [Option.some.injEq, Prod.mk.injEq] at hs
    obtain ⟨-, rfl, -⟩ := hs
    obtain ⟨request, attempt, status⟩ := c
    obtain rfl : status = .running .commitTransaction := hstatus
    exact h.refused (.inr (.inr (.inr rfl)))
  · cases hs

theorem InLoop.crashes (h : InLoop c) (hs : c.crashes i db = some (db', c', flag)) : InLoop c' := by
  unfold RetryCall.crashes at hs
  split at hs
  · simp only [Option.some.injEq, Prod.mk.injEq] at hs
    obtain ⟨-, rfl, -⟩ := hs
    exact InLoop.within h fun a _ => ⟨a, trivial⟩
  · cases hs

/-- A call begins in its first round. -/
theorem inLoop_begun (request : Adjust) : InLoop ⟨request, 1, .running .connect⟩ :=
  ⟨le_rfl, fun _ => ⟨none, none, .ok (), none, none⟩, fun _ hk hlt =>
    (Nat.not_lt.mpr hk hlt).elim, trivial⟩

/-- **One event.** -/
theorem inLoop_step {s s' : RetryState} {e : RetryEvent}
    (h : ∀ c, s.calls i = some c → InLoop c) (hrelease : Releases i s e)
    (hs : s.step e = some s') : ∀ c, s'.calls i = some c → InLoop c := by
  -- it is enough to look at a call that has moved
  have hmoved : ∀ j c m, s.calls j = some c → s' = s.moved j c m →
      (i = j → InLoop c → InLoop m.2.1) → ∀ c, s'.calls i = some c → InLoop c := by
    rintro j c m hj rfl hkeeps c' hc'
    by_cases hij : i = j
    · subst hij
      rw [RetryState.moved_calls_self] at hc'
      obtain rfl := Option.some.inj hc'
      exact hkeeps rfl (h c hj)
    · rw [RetryState.moved_calls_ne hij] at hc'
      exact h c' hc'
  cases e with
  | call j request =>
    simp only [RetryState.step] at hs
    split_ifs at hs
    obtain rfl := Option.some.inj hs
    intro c hc
    by_cases hij : i = j
    · subst hij
      rw [RetryState.begun_calls_self] at hc
      obtain rfl := Option.some.inj hc
      exact inLoop_begun request
    · rw [RetryState.begun_calls_ne hij] at hc
      exact h c hc
  | exec j =>
    obtain ⟨c, hj, hm⟩ := Option.bind_eq_some_iff.mp hs
    obtain ⟨m, hexec, heq⟩ := Option.map_eq_some_iff.mp hm
    exact hmoved j c m hj heq.symm fun _ hin => hin.exec hexec
  | fails j err =>
    obtain ⟨c, hj, hm⟩ := Option.bind_eq_some_iff.mp hs
    obtain ⟨m, hfails, heq⟩ := Option.map_eq_some_iff.mp hm
    refine hmoved j c m hj heq.symm fun hij hin => hin.fails (fun exit => ?_) hfails
    subst hij
    exact hrelease err c exit rfl hj
  | losesAnswer j err =>
    obtain ⟨c, hj, hm⟩ := Option.bind_eq_some_iff.mp hs
    obtain ⟨m, hloses, heq⟩ := Option.map_eq_some_iff.mp hm
    exact hmoved j c m hj heq.symm fun _ hin => hin.losesAnswer hloses
  | crashes j =>
    obtain ⟨c, hj, hm⟩ := Option.bind_eq_some_iff.mp hs
    obtain ⟨m, hcrashes, heq⟩ := Option.map_eq_some_iff.mp hm
    exact hmoved j c m hj heq.symm fun _ hin => hin.crashes hcrashes

/-- **The calls of the database model are calls of the loop**: in every run, a call whose releases
do not fail has gone through its rounds as `withRetry` does, and when it has ended, it has ended
as `withRetry` does. -/
theorem calls_in_loop {s t : RetryState} {as : List RetryEvent} (hstart : retries.start s)
    (hrun : retries.run s as = some t) (hreleases : retries.Meets (Releases i) s as)
    (hc : t.calls i = some c) :
    ∃ attempts : ℕ → Attempt Unit,
      (∀ k, 1 ≤ k → k < c.attempt → ((attempts k).round c.request.maxAttempts k).2 = none) ∧
      c.status.Reached c.request.maxAttempts c.attempt (attempts c.attempt) ∧
      (c.status = .returned → (withRetry attempts c.request.maxAttempts 1).2 = .ok ()) ∧
      ∀ err, c.status = .threw err →
        (withRetry attempts c.request.maxAttempts 1).2 = .error err := by
  have hin : InLoop c := by
    refine System.run_induction (M := retries) (J := fun as t => retries.Meets (Releases i) s as →
      ∀ c, t.calls i = some c → InLoop c) (fun _ c hc => ?_)
      (fun as t e t' hrun ih hs hmeets => ?_) hrun hreleases c hc
    · cases (hstart.2.1 i).symm.trans hc
    · obtain ⟨hsofar, hlast⟩ := hmeets.snoc
      exact inLoop_step (ih hsofar) (hlast t hrun) hs
  obtain ⟨hpos, attempts, hgo, hreached⟩ := hin
  refine ⟨attempts, hgo, hreached, fun hreturned => ?_, fun err hthrew => ?_⟩
  · rw [hreturned] at hreached
    exact withRetry_eq hpos hgo hreached
  · rw [hthrew] at hreached
    exact withRetry_eq hpos hgo hreached

end Calls

/-- A transaction that is refused twice, the second time at its COMMIT, and then goes through. -/
def demoRefusedTwice (attempt : ℕ) : Attempt String where
  connect := none
  startTransaction := none
  fn := if attempt = 1 then .error ⟨some "40P01", "deadlock detected"⟩ else .ok "done"
  commitTransaction :=
    if attempt = 2 then some ⟨some "40001", "could not serialize access"⟩ else none
  rollbackTransaction := if attempt = 2 then some ⟨none, "connection lost"⟩ else none

theorem demoRefusedTwice_law :
    (withRetry demoRefusedTwice 8 1).2 = .ok "done" ∧
      ∃ last, RetryLaw demoRefusedTwice 8 last (withRetry demoRefusedTwice 8 1).1
        (withRetry demoRefusedTwice 8 1).2 := by
  refine ⟨?_, withRetry_law demoRefusedTwice (by decide) fun _ => rfl⟩
  rw [withRetry, withRetry, withRetry]
  rfl

end Marketplace
