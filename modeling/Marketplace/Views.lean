import Marketplace.Run

/-!
# What one party sees of a system

A party sees a system through a *view*: a part of its state. What happens shows itself to
the party as a list of signals, which depends on what happens and on the view alone. A view
is *closed* when the signals alone tell how it goes on; then everything else that happens
makes no difference to the party (`Closed.noninterference`): as long as two runs show it the
same signals, it cannot tell one from the other.
-/

namespace Marketplace

universe u v w x

/-- A party of a system: its view, how events show themselves, and how signals change the view. -/
structure Party {σ : Type u} {α : Type v} (M : System σ α) (ν : Type w) (ε : Type x) where
  view : σ → ν
  signals : ν → α → List ε
  next : ν → ε → ν

namespace Party

variable {σ : Type u} {α : Type v} {ν : Type w} {ε : Type x} {M : System σ α}

/-- What shows itself along a run. -/
def seen (P : Party M ν ε) (s : σ) (as : List α) : List ε :=
  M.trace (fun s a => P.signals (P.view s) a) s as

/-- The signals of a step tell what the party sees after it. -/
def Closed (P : Party M ν ε) (I : σ → Prop) : Prop :=
  ∀ s a s', I s → M.step s a = some s' →
    P.view s' = (P.signals (P.view s) a).foldl P.next (P.view s)

variable {P : Party M ν ε} {I : σ → Prop}

/-- The signals of a run tell what the party sees at its end. -/
theorem Closed.run (hP : P.Closed I) (hI : M.Invariant I) {s t : σ} {as : List α} (hs : I s)
    (hrun : M.run s as = some t) : P.view t = (P.seen s as).foldl P.next (P.view s) := by
  induction as generalizing s with
  | nil =>
    obtain rfl := Option.some.inj hrun
    rfl
  | cons a as ih =>
    obtain ⟨s', hstep, hrun⟩ := System.run_cons_eq_some hrun
    have hseen : P.seen s (a :: as) = P.signals (P.view s) a ++ P.seen s' as := by
      rw [seen, System.trace, hstep]
      rfl
    rw [hseen, List.foldl_append, ← hP s a s' hs hstep]
    exact ih (hI s a s' hs hstep) hrun

/-- **Noninterference**: two runs that begin with the same view and show the same signals end
with the same view. -/
theorem Closed.noninterference (hP : P.Closed I) (hI : M.Invariant I) {s₁ s₂ t₁ t₂ : σ}
    {as₁ as₂ : List α} (h₁ : I s₁) (h₂ : I s₂) (hrun₁ : M.run s₁ as₁ = some t₁)
    (hrun₂ : M.run s₂ as₂ = some t₂) (hview : P.view s₁ = P.view s₂)
    (hseen : P.seen s₁ as₁ = P.seen s₂ as₂) : P.view t₁ = P.view t₂ := by
  rw [hP.run hI h₁ hrun₁, hP.run hI h₂ hrun₂, hview, hseen]

end Party

end Marketplace
