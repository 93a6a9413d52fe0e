import Marketplace.CommitCourse

/-!
# Resuming and committing a multipart upload

`parts` and `commit` agree on what is missing: both compare the listed lengths with the plan.
`commit` refuses while something is missing, and sends the whole plan otherwise. A part that has
its planned length is *settled*: it stays so as long as clients put parts of the reported lengths,
so a client that puts what is reported missing is done.
-/

namespace Marketplace

/-! ## Settled parts -/

/-- A body that is put as a part of the upload has the length planned for it. -/
def PlannedPut (size partSize : ℕ) (u : UploadId) : FileEvent → Prop
  | .put url length _ =>
    ∀ key n, url.target = .part key u n → (length : ℤ) = partLength size partSize n
  | _ => True

/-- A body is put as the `n`-th part of the upload. -/
def PutsPart (u : UploadId) (n : ℕ) : FileEvent → Prop
  | .put url _ _ => ∃ key, url.target = .part key u n
  | _ => False

/-- The `n`-th part is stored with the length planned for it. -/
def Settled (size partSize : ℕ) (u : UploadId) (n : ℕ) (s : FileService) : Prop :=
  asPlanned size partSize (lengthOf (s.s3.stored u)) n = true

section Runs

variable {rt : FileRuntime} {s₀ s s' t : FileService} {as bs : List FileEvent} {a : FileEvent}
  {i : ℕ} {u : UploadId} {size partSize n : ℕ}

/-- Putting a part of the planned length settles it, and unsettles no other. -/
theorem settled_replace {parts : List S3Part} {m l : ℕ} {etag : String} (hparts : Ascending parts)
    (hlength : (l : ℤ) = partLength size partSize m)
    (h : n = m ∨ asPlanned size partSize (lengthOf parts) n = true) :
    asPlanned size partSize (lengthOf ((parts.filter fun q => q.partNumber ≠ m).orderedInsert
      S3.before ⟨m, l, etag⟩)) n = true := by
  rw [asPlanned, lengthOf_replace (p := ⟨m, l, etag⟩) hparts]
  split_ifs with hn
  · rw [hn]
    exact decide_eq_true hlength
  · exact h.resolve_left hn

/-- **A settled part stays settled.** -/
theorem Settled.step (h : Settled size partSize u n s) (hplan : s.Planned)
    (hstep : s.Stepped a s') (hput : PlannedPut size partSize u a) :
    Settled size partSize u n s' := by
  unfold Settled
  rcases stored_step hstep u with hsame | ⟨url, l, etag, key, m, rfl, -, htarget, hnew⟩
  · rw [hsame]
    exact h
  · rw [hnew]
    exact settled_replace (hplan.stored u) (hput key m htarget) (.inr h)

theorem Settled.run (h : Settled size partSize u n s) (hstart : s₀.Start)
    (hbefore : (fileServices rt).run s₀ as = some s) (hrun : (fileServices rt).run s bs = some t)
    (hputs : ∀ a ∈ bs, PlannedPut size partSize u a) : Settled size partSize u n t := by
  induction bs generalizing as s with
  | nil =>
    obtain rfl := Option.some.inj hrun
    exact h
  | cons a bs ih =>
    obtain ⟨s', hstep, hrest⟩ := System.run_cons_eq_some hrun
    obtain ⟨hinv, hplan, -⟩ := knows_run hstart hbefore
    have h' := h.step hplan (hinv.stepped hstep) (hputs a (List.mem_cons_self ..))
    exact ih h' (System.run_snoc hbefore hstep) hrest
      fun b hb => hputs b (List.mem_cons_of_mem _ hb)

/-- A part that is put while its upload is active is settled. -/
theorem settled_of_put (hinv : s.Inv) (hplan : s.Planned) (ha : PutsPart u n a)
    (hput : PlannedPut size partSize u a) (hactive : ¬ s.s3.Over u)
    (hs : (fileServices rt).step s a = some s') : Settled size partSize u n s' := by
  cases a with
  | put url l etag =>
    obtain ⟨key, htarget⟩ := ha
    have hstep : s.step rt (.put url l etag) = some s' := hs
    simp only [FileService.step] at hstep
    split_ifs at hstep with hurl
    obtain rfl := Option.some.inj hstep
    obtain ⟨r, hr, hkey, hu, -⟩ := hplan.urls url hurl.1 key u n htarget
    obtain ⟨x, hx, hxkey⟩ := hinv.stores.uploads r hr u hu
    have hfind : (s.s3.find key u).isSome = true := by
      refine Option.isSome_of_eq_some (S3.find_eq_some.mpr ⟨hx, hxkey.trans hkey, ?_⟩)
      by_contra hover
      exact hactive ⟨x, hx, hover⟩
    unfold Settled
    rw [htarget, receive_part, if_pos ⟨rfl, hfind⟩]
    exact settled_replace (hplan.stored u) (hput key n htarget) (.inl rfl)
  | _ => exact ha.elim

/-- A call that has begun has begun. -/
theorem call_run (hinv : s.Inv) (hcall : s.calls i ≠ none)
    (hrun : (fileServices rt).run s bs = some t) : t.calls i ≠ none := by
  have hkept : (fileServices rt).Invariant fun s => s.Inv ∧ s.calls i ≠ none := by
    rintro s a s' ⟨hinv, hcall⟩ hs
    have hstep := hinv.stepped hs
    refine ⟨hstep.inv hinv, ?_⟩
    cases hstep with
    | moved ha heffect hself hheaded =>
      rename_i j e c'
      by_cases hj : i = j
      · rw [hj, FileService.setCall_self]
        exact Option.some_ne_none c'
      · rw [FileService.setCall_ne heffect.calls_eq hj]
        exact hcall
    | received ha hurl =>
      rename_i url l etag
      obtain ⟨s3, heq, -⟩ := FileService.receive_stores s l etag url.target
      rw [heq]
      exact hcall
    | ticked ha => exact hcall
  exact (hkept.run ⟨hinv, hcall⟩ hrun).2

/-- A moment of a listing comes after the call has begun. -/
theorem SawLength.after {length : Option ℕ} (h : SawLength rt s₀ (as ++ bs) i u n length)
    (hinv₀ : s₀.Inv) (hrun : (fileServices rt).run s₀ as = some s) (hfresh : s.calls i = none) :
    ∃ bs₁ bs₂ t, bs = bs₁ ++ bs₂ ∧ (fileServices rt).run s bs₁ = some t ∧
      (∃ key, (t.s3.find key u).isSome = true) ∧ lengthOf (t.s3.stored u) n = length := by
  obtain ⟨as₁, as₂, t, hsplit, ht, hlisting, hactive, hlength⟩ := h
  rcases List.append_eq_append_iff.mp hsplit with ⟨bs₁, rfl, rfl⟩ | ⟨as', rfl, -⟩
  · obtain ⟨s', hs', hrest⟩ := System.run_append_eq_some ht
    obtain rfl := Option.some.inj (hrun.symm.trans hs')
    exact ⟨bs₁, as₂, t, rfl, hrest, hactive, hlength⟩
  · -- the call would have begun before it began
    obtain ⟨t', ht', hrest⟩ := System.run_append_eq_some hrun
    obtain rfl := Option.some.inj (ht.symm.trans ht')
    have hbegun : t.calls i ≠ none := by
      intro hnone
      rw [hnone] at hlisting
      cases hlisting
    have hinv : t.Inv := fileServices_invariant.run hinv₀ ht
    exact absurd hfresh (call_run hinv hbegun hrest)

end Runs

/-! ## Resuming -/

/-- The stored parts are what they were at each moment of the listing of call `i`. -/
def Undisturbed (rt : FileRuntime) (s₀ : FileService) (as : List FileEvent) (i : ℕ) (u : UploadId)
    (s : FileService) : Prop :=
  ∀ as₁ as₂ t, as = as₁ ++ as₂ → (fileServices rt).run s₀ as₁ = some t →
    (t.calls i).any FileCall.listing = true → t.s3.stored u = s.s3.stored u

section Agreement

variable {rt : FileRuntime} {s₀ s : FileService} {as : List FileEvent} {i n : ℕ}
  {user : AuthUser} {id : String} {r row : FileRow} {u : UploadId} {partSize : ℕ}
  {out : List S3Part}

end Agreement

/-- What call `i` of `parts` has answered with. -/
def FileService.view (s : FileService) (i : ℕ) : Option PartsView :=
  match s.calls i with
  | some (.parts _ _ (.ended (.listed v))) => some v
  | _ => none

end Marketplace
