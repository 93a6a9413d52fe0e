import Mathlib.Data.List.Basic

/-!
# Transducers

A reader of a stream: a state between two inputs, and for each input what it puts out and
the state after it. What it makes of a stream in two parts is what it makes of the first,
and then of the second from the state reached (`feed_append`); so a law about one input is
a law about every stream, by induction.

What is to be done when the stream ends is left to the one who uses it.
-/

namespace Marketplace

/-- A machine that reads `ι`, writes `ο`, and remembers `σ` in between. -/
structure Transducer (σ ι ο : Type*) where
  step : σ → ι → List ο × σ

namespace Transducer

variable {σ ι ο : Type*} (M : Transducer σ ι ο)

/-- Read a stream: everything that is put out, and the state after it. -/
def feed : σ → List ι → List ο × σ
  | s, [] => ([], s)
  | s, i :: is => ((M.step s i).1 ++ (feed (M.step s i).2 is).1, (feed (M.step s i).2 is).2)

@[simp] theorem feed_nil (s : σ) : M.feed s [] = ([], s) := rfl

theorem feed_cons (s : σ) (i : ι) (is : List ι) : M.feed s (i :: is) =
    ((M.step s i).1 ++ (M.feed (M.step s i).2 is).1, (M.feed (M.step s i).2 is).2) := rfl

/-- **Reading in two parts.** -/
theorem feed_append (s : σ) (is js : List ι) : M.feed s (is ++ js) =
    ((M.feed s is).1 ++ (M.feed (M.feed s is).2 js).1, (M.feed (M.feed s is).2 js).2) := by
  induction is generalizing s with
  | nil => rfl
  | cons i is ih =>
    rw [List.cons_append, feed_cons, ih, feed_cons]
    simp only [List.append_assoc]

/-- Inputs that leave the state alone are read one by one. -/
theorem feed_stay {s : σ} {out : ι → List ο} {is : List ι}
    (h : ∀ i ∈ is, M.step s i = (out i, s)) : M.feed s is = (is.flatMap out, s) := by
  induction is with
  | nil => rfl
  | cons i is ih =>
    rw [feed_cons, h i (List.mem_cons_self ..), ih fun j hj => h j (List.mem_cons_of_mem _ hj)]
    rfl

end Transducer

end Marketplace
