import Mathlib.Data.List.Basic
import Mathlib.Data.List.Induction
import Mathlib.Data.List.Nodup
import Mathlib.Data.Option.Basic

/-!
# Runs of a system

A system is a set of start states and a *computed* step: from a state and an
event it gives the next state, or `none` when the event is not enabled (a
statement that waits for a lock, an event nobody can cause). A run is a list of
events, so every interleaving of every number of processes is a list, and a
property of every interleaving is a property of every list.

Three rules carry all the run proofs of the development:

* `Invariant` — what one step preserves, a run preserves;
* `Meets` — the same for the runs whose steps all meet a side condition;
* `Invariant.history` — a list of observations that explains the state reached and
  only ever grows at its end, so the order of observations is the order of time.
-/

namespace Marketplace

universe u v w

/-- A system: its start states, and its step as a partial function. -/
structure System (σ : Type u) (α : Type v) where
  /-- the states a run may start from -/
  start : σ → Prop
  /-- one event; `none` when it is not enabled -/
  step : σ → α → Option σ

namespace System

variable {σ : Type u} {α : Type v} {ε : Type w} (M : System σ α)

/-- Run a list of events, stopping at the first that is not enabled. -/
def run : σ → List α → Option σ
  | s, [] => some s
  | s, a :: as => (M.step s a).bind fun s' => run s' as

@[simp] theorem run_nil (s : σ) : M.run s [] = some s := rfl

theorem run_cons (s : σ) (a : α) (as : List α) :
    M.run s (a :: as) = (M.step s a).bind fun s' => M.run s' as := rfl

variable {M}

/-- Inversion for a run with a first event. -/
theorem run_cons_eq_some {s t : σ} {a : α} {as : List α}
    (h : M.run s (a :: as) = some t) :
    ∃ s', M.step s a = some s' ∧ M.run s' as = some t := by
  rw [run_cons] at h
  exact Option.bind_eq_some_iff.mp h

/-- Runs compose. -/
theorem run_append {s : σ} (as bs : List α) :
    M.run s (as ++ bs) = (M.run s as).bind fun t => M.run t bs := by
  induction as generalizing s with
  | nil => rfl
  | cons a as ih =>
    rw [List.cons_append, run_cons, run_cons]
    rcases h : M.step s a with _ | s'
    · rfl
    · exact ih

/-- Inversion for a run in two parts. -/
theorem run_append_eq_some {s t : σ} {as bs : List α}
    (h : M.run s (as ++ bs) = some t) :
    ∃ r, M.run s as = some r ∧ M.run r bs = some t := by
  rw [run_append] at h
  exact Option.bind_eq_some_iff.mp h

/-- A run can be continued by a step. -/
theorem run_snoc {s t t' : σ} {as : List α} {a : α} (h : M.run s as = some t)
    (hstep : M.step t a = some t') : M.run s (as ++ [a]) = some t' := by
  rw [run_append, h]
  simp only [Option.bind_some, run_cons, hstep, run_nil]

/-- What is known of a run so far, from step to step. -/
theorem run_induction {s : σ} {J : List α → σ → Prop} (h₀ : J [] s)
    (hJ : ∀ as t a t', M.run s as = some t → J as t → M.step t a = some t' → J (as ++ [a]) t')
    {as : List α} {t : σ} (h : M.run s as = some t) : J as t := by
  induction as using List.reverseRecOn generalizing t with
  | nil =>
    obtain rfl := Option.some.inj h
    exact h₀
  | append_singleton as a ih =>
    obtain ⟨r, hr, hrest⟩ := run_append_eq_some h
    obtain ⟨t', hstep, hend⟩ := run_cons_eq_some hrest
    obtain rfl := Option.some.inj hend
    exact hJ as r a t' hr (ih hr) hstep

/-! ## Observations -/

variable (M)

/-- What is observed along a run, step by step. -/
def trace (obs : σ → α → List ε) : σ → List α → List ε
  | _, [] => []
  | s, a :: as => obs s a ++ ((M.step s a).map fun s' => trace obs s' as).getD []

variable {M}

/-- The last step of a run adds its observations. -/
theorem trace_snoc {obs : σ → α → List ε} {s t : σ} {as : List α} {a : α}
    (h : M.run s as = some t) : M.trace obs s (as ++ [a]) = M.trace obs s as ++ obs t a := by
  induction as generalizing s with
  | nil =>
    obtain rfl := Option.some.inj h
    rcases hstep : M.step s a with _ | t <;> simp [trace, hstep]
  | cons b as ih =>
    obtain ⟨s', hstep, hrun⟩ := run_cons_eq_some h
    simp only [List.cons_append, trace, hstep, Option.map_some, Option.getD_some]
    rw [ih hrun, List.append_assoc]

/-- Observing a part of what is observed. -/
theorem trace_map {φ : Type w} {obs : σ → α → List ε} {f : ε → φ} {s : σ} {as : List α} :
    M.trace (fun s a => (obs s a).map f) s as = (M.trace obs s as).map f := by
  induction as generalizing s with
  | nil => rfl
  | cons a as ih =>
    simp only [trace, List.map_append]
    rcases M.step s a with _ | s'
    · rfl
    · simp only [Option.map_some, Option.getD_some, ih]

variable (M)

/-- A state some run leads to from a start state. -/
def Reachable (s : σ) : Prop :=
  ∃ s₀ as, M.start s₀ ∧ M.run s₀ as = some s

/-! ## Invariants -/

/-- A property every step preserves. -/
def Invariant (I : σ → Prop) : Prop :=
  ∀ s a s', I s → M.step s a = some s' → I s'

variable {M}

/-- What every step preserves, a run preserves. -/
theorem Invariant.run {I : σ → Prop} (hI : M.Invariant I) {as : List α} {s t : σ}
    (hs : I s) (h : M.run s as = some t) : I t := by
  induction as generalizing s with
  | nil =>
    obtain rfl := Option.some.inj h
    exact hs
  | cons a as ih =>
    obtain ⟨s', hstep, hrun⟩ := run_cons_eq_some h
    exact ih (hI s a s' hs hstep) hrun

/-- An invariant of the start states holds in every reachable state. -/
theorem Invariant.reachable {I : σ → Prop} (hI : M.Invariant I)
    (h₀ : ∀ s, M.start s → I s) {s : σ} (h : M.Reachable s) : I s := by
  obtain ⟨s₀, as, hs₀, hrun⟩ := h
  exact hI.run (h₀ s₀ hs₀) hrun

/-- A reflexive, transitive relation that every step from an invariant state
respects holds between the two ends of a run. -/
theorem Invariant.run_rel {I : σ → Prop} (hI : M.Invariant I) {R : σ → σ → Prop}
    (hrefl : ∀ s, R s s) (htrans : ∀ {a b c}, R a b → R b c → R a c)
    (hR : ∀ s a s', I s → M.step s a = some s' → R s s') {as : List α} {s t : σ}
    (hs : I s) (h : M.run s as = some t) : R s t := by
  induction as generalizing s with
  | nil =>
    obtain rfl := Option.some.inj h
    exact hrefl s
  | cons a as ih =>
    obtain ⟨s', hstep, hrun⟩ := run_cons_eq_some h
    exact htrans (hR s a s' hs hstep) (ih (hI s a s' hs hstep) hrun)

/-- Reachability is closed under runs. -/
theorem Reachable.run {s t : σ} (hs : M.Reachable s) {as : List α}
    (h : M.run s as = some t) : M.Reachable t := by
  obtain ⟨s₀, bs, hs₀, hb⟩ := hs
  refine ⟨s₀, bs ++ as, hs₀, ?_⟩
  rw [run_append, hb]
  exact h

/-- Reachability is closed under steps. -/
theorem Reachable.step {s t : σ} (hs : M.Reachable s) {a : α}
    (h : M.step s a = some t) : M.Reachable t := by
  have hrun : M.run s [a] = some t := by
    rw [run_cons, h]
    rfl
  exact hs.run hrun

/-! ## Runs under a side condition -/

variable (M)

/-- Every step of the run meets the condition `ok`, in the state it is taken
from. -/
def Meets (ok : σ → α → Prop) : σ → List α → Prop
  | _, [] => True
  | s, a :: as => ok s a ∧ ∀ s', M.step s a = some s' → Meets ok s' as

variable {M}

/-- What every step under the condition preserves, a run that meets the
condition preserves. -/
theorem Meets.run {ok : σ → α → Prop} {I : σ → Prop}
    (hI : ∀ s a s', I s → ok s a → M.step s a = some s' → I s')
    {as : List α} {s t : σ} (hok : M.Meets ok s as) (hs : I s)
    (h : M.run s as = some t) : I t := by
  induction as generalizing s with
  | nil =>
    obtain rfl := Option.some.inj h
    exact hs
  | cons a as ih =>
    obtain ⟨s', hstep, hrun⟩ := run_cons_eq_some h
    exact ih (hok.2 s' hstep) (hI s a s' hs hok.1 hstep) hrun

/-- The last step of a run that meets the condition meets it too. -/
theorem Meets.snoc {ok : σ → α → Prop} {as : List α} {a : α} {s : σ}
    (hok : M.Meets ok s (as ++ [a])) :
    M.Meets ok s as ∧ ∀ t, M.run s as = some t → ok t a := by
  induction as generalizing s with
  | nil =>
    refine ⟨trivial, fun t h => ?_⟩
    obtain rfl := Option.some.inj h
    exact hok.1
  | cons b as ih =>
    refine ⟨⟨hok.1, fun s' hstep => (ih (hok.2 s' hstep)).1⟩, fun t h => ?_⟩
    obtain ⟨s', hstep, hrun⟩ := run_cons_eq_some h
    exact (ih (hok.2 s' hstep)).2 t hrun

/-- A run meets a condition if each of its steps does. -/
theorem Meets.of_splits {ok : σ → α → Prop} {as : List α} {s : σ}
    (h : ∀ as₁ a as₂ t, as = as₁ ++ a :: as₂ → M.run s as₁ = some t → ok t a) :
    M.Meets ok s as := by
  induction as generalizing s with
  | nil => trivial
  | cons a as ih =>
    refine ⟨h [] a as s rfl rfl, fun s' hstep => ih fun as₁ b as₂ t hsplit hrun => ?_⟩
    refine h (a :: as₁) b as₂ t (congrArg _ hsplit) ?_
    rw [run_cons, hstep]
    exact hrun

/-- Each step of a run that meets a condition meets it. -/
theorem Meets.split {ok : σ → α → Prop} {as₁ as₂ : List α} {a : α} {s t : σ}
    (h : M.Meets ok s (as₁ ++ a :: as₂)) (hrun : M.run s as₁ = some t) : ok t a := by
  induction as₁ generalizing s with
  | nil =>
    obtain rfl := Option.some.inj hrun
    exact h.1
  | cons b as₁ ih =>
    obtain ⟨s', hstep, hrest⟩ := run_cons_eq_some hrun
    exact ih (h.2 s' hstep) hrest

/-- Two conditions are met together. -/
theorem Meets.and {ok ok' : σ → α → Prop} {as : List α} {s : σ} (h : M.Meets ok s as)
    (h' : M.Meets ok' s as) : M.Meets (fun s a => ok s a ∧ ok' s a) s as := by
  induction as generalizing s with
  | nil => trivial
  | cons a as ih => exact ⟨⟨h.1, h'.1⟩, fun s' hstep => ih (h.2 s' hstep) (h'.2 s' hstep)⟩

variable (M)

/-- Evaluate a condition along a run. -/
def checks (ok : σ → α → Bool) : σ → List α → Bool
  | _, [] => true
  | s, a :: as => ok s a && (M.step s a).all fun s' => checks ok s' as

variable {M}

/-- A run on which a condition evaluates to true meets the condition, if it is sufficient in the
states that the run goes through. -/
theorem Meets.of_checks_from {ok : σ → α → Prop} {check : σ → α → Bool} {I : σ → Prop}
    (hok : ∀ s a, I s → check s a = true → ok s a)
    (hI : ∀ s a s', I s → check s a = true → M.step s a = some s' → I s') {s : σ} {as : List α}
    (hs : I s) (h : M.checks check s as = true) : M.Meets ok s as := by
  induction as generalizing s with
  | nil => trivial
  | cons a as ih =>
    obtain ⟨ha, hrest⟩ := Bool.and_eq_true_iff.mp h
    refine ⟨hok s a hs ha, fun s' hstep => ih (hI s a s' hs ha hstep) ?_⟩
    rw [hstep] at hrest
    exact hrest

/-- A run on which a sufficient condition evaluates to true meets the condition. -/
theorem Meets.of_checks {ok : σ → α → Prop} {check : σ → α → Bool}
    (hok : ∀ s a, check s a = true → ok s a) {s : σ} {as : List α}
    (h : M.checks check s as = true) : M.Meets ok s as :=
  Meets.of_checks_from (fun s a _ => hok s a) (fun _ _ _ _ _ _ => trivial) trivial h

/-! ## Histories -/

/-- What a step extends, a run extends: if every step from an invariant state can
continue a history that explains the state before it, then some history explains
the end of the run, and its prefixes explain the states on the way. -/
theorem Invariant.history {I : σ → Prop} (hI : M.Invariant I) {J : List ε → σ → Prop}
    (hJ : ∀ es s a s', I s → J es s → M.step s a = some s' → ∃ new, J (es ++ new) s')
    {as : List α} {s t : σ} {es : List ε} (hs : I s) (h₀ : J es s)
    (h : M.run s as = some t) :
    ∃ hist, J hist t ∧ es <+: hist ∧ ∀ as₁ as₂ r, as = as₁ ++ as₂ → M.run s as₁ = some r →
      ∃ first, first <+: hist ∧ J first r := by
  induction as generalizing s es with
  | nil =>
    obtain rfl := Option.some.inj h
    refine ⟨es, h₀, List.prefix_rfl, ?_⟩
    intro as₁ as₂ r hsplit hr
    obtain ⟨rfl, rfl⟩ := List.nil_eq_append_iff.mp hsplit
    obtain rfl := Option.some.inj hr
    exact ⟨es, List.prefix_rfl, h₀⟩
  | cons a as ih =>
    obtain ⟨s', hstep, hrun⟩ := run_cons_eq_some h
    obtain ⟨new, hnew⟩ := hJ es s a s' hs h₀ hstep
    obtain ⟨hist, hhist, hpre, hmid⟩ := ih (hI s a s' hs hstep) hnew hrun
    -- a state before the first event is explained by what was there at the start
    have hes : es <+: hist := (List.prefix_append es new).trans hpre
    refine ⟨hist, hhist, hes, ?_⟩
    intro as₁ as₂ r hsplit hr
    cases as₁ with
    | nil =>
      obtain rfl := Option.some.inj hr
      exact ⟨es, hes, h₀⟩
    | cons b as₁ =>
      obtain ⟨rfl, rfl⟩ := List.cons.inj hsplit
      obtain ⟨s'', hstep', hr⟩ := run_cons_eq_some hr
      obtain rfl := Option.some.inj (hstep.symm.trans hstep')
      exact hmid as₁ as₂ r rfl hr

end System

end Marketplace
