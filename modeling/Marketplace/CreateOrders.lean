import Mathlib.Data.List.Dedup
import Marketplace.CursorWalk

/-!
# Repeated orders

What `POST /orders` of the HTTP layer does with its `Idempotency-Key`. The specification
makes the header a duty of the client and promises that the same attempt, sent again,
gets the same answer; the validator checks that the header is there. The controller
does not hand it to the service, and the service keeps nothing but the orders: every
accepted request draws the next id and adds an order.

So what was promised is kept exactly as long as nobody repeats an attempt.
-/

namespace Marketplace.Api

variable {r s s' : ApiState} {a : ApiEvent} {as : List ApiEvent}

/-- The second request repeats the attempt of the first. -/
def CreateRequest.Repeats (x y : CreateRequest) : Prop :=
  y.user.id = x.user.id ∧ y.idempotencyKey = x.idempotencyKey ∧ y.body = x.body

instance (x y : CreateRequest) : Decidable (x.Repeats y) :=
  inferInstanceAs (Decidable
    (y.user.id = x.user.id ∧ y.idempotencyKey = x.idempotencyKey ∧ y.body = x.body))

/-- The `201` answers: an accepted request, and the order in the body of its answer. -/
def created (s : ApiState) : ApiEvent → List (CreateRequest × Order)
  | .createOrder r createdAt => [(r, s.newOrder r.body.items r.user.id createdAt)]
  | _ => []

/-- What the specification promises for the answers that led from one state to another. -/
structure HonoursKeys (s s' : ApiState) (answers : List (CreateRequest × Order)) : Prop where
  /-- the same attempt gets the same order -/
  repeats : answers.Pairwise fun x y => x.1.Repeats y.1 → y.2 = x.2
  /-- another key gets another order -/
  others : answers.Pairwise fun x y => x.1.idempotencyKey ≠ y.1.idempotencyKey → y.2.id ≠ x.2.id
  /-- every answered order is created, and created once -/
  once : s'.orders.map Order.id = s.orders.map Order.id ++ (answers.map fun x => x.2.id).dedup

/-- A step adds the orders it answers. -/
theorem orders_step (hs : s.step a = some s') :
    s'.orders.map Order.id = s.orders.map Order.id ++ (created s a).map fun x => x.2.id := by
  by_cases ha : a.createsOrder = false
  · have hsteady := (step_frame hs).1.steady.1 ha
    have hnone : created s a = [] := by
      cases a <;> first | rfl | cases ha
    rw [hnone, ids_eq_owners, hsteady, ← ids_eq_owners, List.map_nil, List.append_nil]
  · cases a with
    | createOrder r createdAt =>
      simp only [ApiState.step] at hs
      split_ifs at hs
      obtain rfl := Option.some.inj hs
      exact List.map_append
    | _ => exact absurd rfl ha

/-- A run adds the orders it answers, in the order of the answers. -/
theorem orders_run (hrun : apis.run r as = some s) :
    s.orders.map Order.id =
      r.orders.map Order.id ++ (apis.trace created r as).map fun x => x.2.id := by
  refine System.run_induction (J := fun as s => s.orders.map Order.id =
    r.orders.map Order.id ++ (apis.trace created r as).map fun x => x.2.id) ?_ ?_ hrun
  · exact (List.append_nil _).symm
  · intro as t a t' ht ih hs
    rw [System.trace_snoc ht, List.map_append, ← List.append_assoc, ← ih]
    exact orders_step hs

/-- **No two answers are about one order.** -/
theorem answers_distinct (hr : apis.Reachable r) (hrun : apis.run r as = some s) :
    ((apis.trace created r as).map fun x => x.2.id).Nodup := by
  have hids : s.Ids := ids_invariant.reachable (fun _ h => h.ids) (hr.run hrun)
  have hdistinct := hids.orders.distinct
  rw [orders_run hrun] at hdistinct
  exact (List.nodup_append.mp hdistinct).2.1

/-- **The contract of the key holds of a run exactly when no attempt is repeated in it.** -/
theorem keys_honoured_iff (hr : apis.Reachable r) (hrun : apis.run r as = some s) :
    HonoursKeys r s (apis.trace created r as) ↔
      ((apis.trace created r as).map Prod.fst).Pairwise fun x y => ¬ x.Repeats y := by
  have hdistinct := answers_distinct hr hrun
  have hpairs := List.pairwise_map.mp hdistinct
  rw [List.pairwise_map]
  constructor
  · intro h
    refine (hpairs.and h.repeats).imp ?_
    rintro x y ⟨hne, hsame⟩ hrepeats
    exact hne (congrArg Order.id (hsame hrepeats)).symm
  · intro h
    refine ⟨h.imp fun hno hrepeats => absurd hrepeats hno, hpairs.imp fun hne _ => hne.symm, ?_⟩
    rw [List.Nodup.dedup hdistinct]
    exact orders_run hrun

/-- The buyer orders two keyboards, and orders once more, with these keys. -/
def demoTwice (key key' : String) : List ApiEvent :=
  [key, key'].map fun key =>
    .createOrder ⟨⟨"u1", .customer, "j", 0, "f"⟩, key, ⟨[⟨"p1", 2⟩], none⟩⟩ "t"

theorem demoTwice_honoured : ∃ s, apis.run initial (demoTwice "key-1" "key-2") = some s ∧
    HonoursKeys initial s (apis.trace created initial (demoTwice "key-1" "key-2")) := by
  refine ⟨_, rfl, ?_⟩
  exact (keys_honoured_iff ⟨initial, [], initial_start, rfl⟩ rfl).mpr (by decide +kernel)

/-- The answer got lost and the client sends its request again: a second order. -/
theorem repeated_attempt_creates_twice :
    ∃ s, apis.run initial (demoTwice "key-1" "key-1") = some s ∧
      s.orders.map Order.id = ["o1", "o2", "o3", "o4"] ∧
      ¬ HonoursKeys initial s (apis.trace created initial (demoTwice "key-1" "key-1")) := by
  refine ⟨_, rfl, by decide +kernel, fun h => ?_⟩
  have hsame := h.repeats
  revert hsame
  decide +kernel

end Marketplace.Api
