import Marketplace.Mediation

/-!
# Requests after a logout

Once a logout has committed, a request that arrives later with the token it shut gets
nothing: it waits for `authenticate`, or it is answered by a problem, and it changes nothing
in the shop. The condition is the one the auth service needs: no purge deletes the entry of
the token under a call that is about to look for it.

The requests are carried through the machine of `AuthService` by what holds of a call whose
`jti` is shut (`ShutSince`).
-/

namespace Marketplace.Api

section Calls

variable {rt : AuthRuntime} {s s' : AuthState} {ev : AuthEvent} {i : ℕ} {request : AuthRequest}
  {now : ℤ} {status : AuthStatus}

/-- A call keeps its number and its request. -/
theorem request_kept (hs : s.step rt ev = some s') (h : s.Inv rt)
    (hc : s.calls i = some ⟨request, now, status⟩) :
    ∃ now' status', s'.calls i = some ⟨request, now', status'⟩ := by
  cases h.stepped hs with
  | @moved _ _ j requestj nowj pc hcaller hcj took =>
    obtain ⟨⟨request', now', status'⟩, hrequest, hcalls, -⟩ := took.moves
    by_cases hij : i = j
    · subst hij
      obtain ⟨rfl, rfl, -⟩ := AuthCall.mk.inj (Option.some.inj (hc.symm.trans hcj))
      obtain rfl : request' = request := hrequest
      exact ⟨now', status', by rw [hcalls, Function.update_self]⟩
    · exact ⟨now, status, by rw [hcalls, Function.update_of_ne hij]; exact hc⟩
  | began hcj hentry => exact ⟨now, status, Slots.found_of_free hcj hc⟩
  | ticked happ hdb hahead => exact ⟨now, status, hc⟩

/-- A number that is free was free before. -/
theorem free_before (hs : s.step rt ev = some s') (h : s.Inv rt) (hfree : s'.calls i = none) :
    s.calls i = none := by
  rcases hc : s.calls i with _ | ⟨request, now, status⟩
  · rfl
  · obtain ⟨now', status', hc'⟩ := request_kept hs h hc
    cases hfree.symm.trans hc'

end Calls

section Runs

variable {rt : HttpRuntime} {s₂ s s' : HttpState} {ev : HttpEvent} {token : String}
  {claims : VerifiedClaims} {k : ℕ} {r : HttpRequest} {auth' : AuthState} {user : AuthUser}
  {d : HttpDraw}

/-- The closed requests that arrived after `s₂` with the token: each waits for its call of
`authenticate`, which began after `s₂`, or is answered by a problem. -/
def Refused (token : String) (s₂ s : HttpState) : Prop :=
  ∀ k r status, s₂.requests k = none → s.requests k = some ⟨r, status⟩ →
    r.authorization.bind bearer = some token → r.endpoint.isPublic = false →
    (∃ i now st, status = .authenticating i ∧ s₂.auth.calls i = none ∧
      s.auth.calls i = some ⟨.authenticate token, now, st⟩) ∨
    ∃ p w, status = .answered (.problem p w)

/-- What holds after the logout. -/
structure RefusedSince (rt : HttpRuntime) (token : String) (claims : VerifiedClaims)
    (s₂ s : HttpState) : Prop where
  shut : AuthState.ShutSince rt.auth claims s₂.auth s.auth
  refused : Refused token s₂ s
  fresh : ∀ i, s.auth.calls i = none → s₂.auth.calls i = none
  arrived : ∀ k, s.requests k = none → s₂.requests k = none

/-- No purge deletes the entry of the token under a call that is about to look for it. -/
def HttpPatient (s₂ : HttpState) (jti : String) (s : HttpState) (ev : HttpEvent) : Prop :=
  ∀ authEv, ev = .auth authEv → s₂.auth.Patient jti s.auth authEv

/-- To call the service purges nothing. -/
theorem patient_call {jti : String} {i : ℕ} {request : AuthRequest} :
    s₂.auth.Patient jti s.auth (.call i request) := by
  rintro ⟨_, _, _, -, -, ⟨d, hev⟩ | hev⟩
  · cases hev
  · cases hev

/-- The auth service goes on. -/
theorem RefusedSince.auth {authEv : AuthEvent} (hjti : rt.auth.OneExpiry)
    (hclaims : rt.auth.verifyJwt token = some claims) (h : RefusedSince rt token claims s₂ s)
    (hok : s₂.auth.Patient claims.jti s.auth authEv)
    (hs : s.auth.step rt.auth authEv = some auth') :
    RefusedSince rt token claims s₂ { s with auth := auth' } where
  shut := h.shut.step hjti hclaims hok hs
  refused k r status hk hr htoken hclosed := by
    rcases h.refused k r status hk hr htoken hclosed with ⟨i, now, st, rfl, hi, hc⟩ | hproblem
    · obtain ⟨now', st', hc'⟩ := request_kept hs h.shut.inv hc
      exact .inl ⟨i, now', st', rfl, hi, hc'⟩
    · exact .inr hproblem
  fresh i hfree := h.fresh i (free_before hs h.shut.inv hfree)
  arrived := h.arrived

/-- The request is none of those that the logout shuts out. -/
def Elsewhere (token : String) (s₂ : HttpState) (k : ℕ) (r : HttpRequest) : Prop :=
  s₂.requests k = none → r.authorization.bind bearer = some token → r.endpoint.isPublic = true

/-- A request gets on. -/
theorem RefusedSince.reach {status : HttpStatus} (h : RefusedSince rt token claims s₂ s)
    (hrefused : Elsewhere token s₂ k r ∨
      (∃ i now st, status = .authenticating i ∧ s₂.auth.calls i = none ∧
        s.auth.calls i = some ⟨.authenticate token, now, st⟩) ∨
      ∃ p w, status = .answered (.problem p w)) :
    RefusedSince rt token claims s₂ (s.reach k r status) where
  shut := h.shut
  refused k' r' status' hk hr htoken hclosed := by
    rcases Slots.found_cases_some hr with ⟨rfl, heq⟩ | ⟨-, hold⟩
    · obtain ⟨rfl, rfl⟩ := HttpCall.mk.inj heq
      rcases hrefused with helse | hrefused
      · cases hclosed.symm.trans (helse hk htoken)
      · exact hrefused
    · exact h.refused k' r' status' hk hold htoken hclosed
  fresh := h.fresh
  arrived k' hfree := h.arrived k' (Slots.free_of_update hfree).2

/-- What becomes of the other requests. -/
theorem RefusedSince.outcome {user : Option AuthUser} (hjti : rt.auth.OneExpiry)
    (hclaims : rt.auth.verifyJwt token = some claims) (h : RefusedSince rt token claims s₂ s)
    (helse : Elsewhere token s₂ k r) (hout : Outcome rt s k r user d s') :
    RefusedSince rt token claims s₂ s' := by
  cases hout with
  | answered answer hshows => exact h.reach (.inl helse)
  | changed u api answer huser hdone hshows =>
    have hchanged : RefusedSince rt token claims s₂ { s with api } :=
      ⟨h.shut, h.refused, h.fresh, h.arrived⟩
    exact hchanged.reach (.inl helse)
  | called request auth hcall =>
    exact (h.auth hjti hclaims patient_call hcall).reach (.inl helse)
  | handedOver hclosed => exact h.reach (.inl helse)

/-- A request whose call has returned a user is none of those. -/
theorem RefusedSince.elsewhere {i : ℕ} {request : AuthRequest} {now : ℤ}
    (hclaims : rt.auth.verifyJwt token = some claims) (h : RefusedSince rt token claims s₂ s)
    (hk : s.requests k = some ⟨r, .authenticating i⟩)
    (hc : s.auth.calls i = some ⟨request, now, .ended (.user user)⟩) : Elsewhere token s₂ k r := by
  intro hnew htoken
  by_contra hclosed
  rcases h.refused k r _ hnew hk htoken (Bool.not_eq_true _ ▸ hclosed) with
    ⟨j, now', st, hauth, hj, hcj⟩ | ⟨p, w, hproblem⟩
  · obtain rfl := HttpStatus.authenticating.inj hauth
    rw [hc] at hcj
    obtain ⟨rfl, rfl, rfl⟩ := AuthCall.mk.inj (Option.some.inj hcj)
    exact h.shut.none i token claims now user hj hclaims rfl hc
  · cases hproblem

/-- **Every event** keeps it. -/
theorem RefusedSince.step (hjti : rt.auth.OneExpiry)
    (hclaims : rt.auth.verifyJwt token = some claims) (h : RefusedSince rt token claims s₂ s)
    (hok : HttpPatient s₂ claims.jti s ev) (hs : s.step rt ev = some s') :
    RefusedSince rt token claims s₂ s' := by
  cases httpStepped_of_step hs with
  | auth authEv auth' hauth => exact h.auth hjti hclaims (hok authEv rfl) hauth
  | opened k r d _ hpublic hout => exact h.outcome hjti hclaims (fun _ _ => hpublic) hout
  | asked k r d token' auth' hbearer hauth =>
    refine (h.auth hjti hclaims patient_call hauth).reach ?_
    by_cases htoken : token' = token
    · subst htoken
      cases h.shut.inv.stepped hauth with
      | began hfree hentry =>
        exact .inr (.inl ⟨d.call, _, _, rfl, h.fresh _ hfree, Function.update_self ..⟩)
      | moved hcaller hc took => cases hcaller
    · exact .inl fun _ h' => absurd (Option.some.inj (hbearer.symm.trans h')) htoken
  | denied k r d p w => exact h.reach (.inr (.inr ⟨p, w, rfl⟩))
  | admitted k r d i request now user _ hk hc hout =>
    exact h.outcome hjti hclaims (h.elsewhere hclaims hk hc) hout
  | refused k r d i p w hk => exact h.reach (.inr (.inr ⟨p, w, rfl⟩))
  | settled k r d i answer hk hnone =>
    -- those requests never get to a handler of `AuthController`
    refine h.reach (.inl fun hnew htoken => ?_)
    by_contra hclosed
    rcases h.refused k r _ hnew hk htoken (Bool.not_eq_true _ ▸ hclosed) with
      ⟨j, now', st, hauth, -⟩ | ⟨p, w, hproblem⟩
    · cases hauth
    · cases hproblem

/-- The auth service moves by its own steps. -/
theorem auth_of_step (hs : s.step rt ev = some s') :
    s'.auth = s.auth ∨ ∃ authEv, s.auth.step rt.auth authEv = some s'.auth := by
  have houtcome : ∀ {k r user d}, Outcome rt s k r user d s' →
      s'.auth = s.auth ∨ ∃ authEv, s.auth.step rt.auth authEv = some s'.auth := by
    intro k r user d hout
    cases hout with
    | answered answer hshows => exact .inl rfl
    | changed u api answer huser hdone hshows => exact .inl rfl
    | called request auth hcall => exact .inr ⟨_, hcall⟩
    | handedOver hclosed => exact .inl rfl
  cases httpStepped_of_step hs with
  | auth authEv auth' hauth => exact .inr ⟨authEv, hauth⟩
  | opened k r d _ hpublic hout => exact houtcome hout
  | asked k r d token auth' hbearer hauth => exact .inr ⟨_, hauth⟩
  | denied k r d p w => exact .inl rfl
  | admitted k r d i request now user _ hk hc hout => exact houtcome hout
  | refused k r d i p w hk => exact .inl rfl
  | settled k r d i answer hk hnone => exact .inl rfl

/-- What the auth service keeps, it keeps behind the application. -/
theorem auth_invariant {I : AuthState → Prop} (hI : (auths rt.auth).Invariant I) :
    (https rt).Invariant fun s => I s.auth := by
  intro s ev s' h hs
  rcases auth_of_step hs with heq | ⟨authEv, hauth⟩
  · rw [heq]
    exact h
  · exact hI _ _ _ h hauth

end Runs

/-- **A logged-out token gets nothing**: a closed request that arrives after the COMMIT of the
logout is never let to its handler, is answered by nothing but a problem, and changes nothing
in the shop. -/
theorem logged_out_requests_refused {rt : HttpRuntime} {s₀ s₁ s₂ t : HttpState}
    {as bs : List HttpEvent} {authEv : AuthEvent} {token : String} {claims : VerifiedClaims}
    {k : ℕ} {r : HttpRequest} {status : HttpStatus} (hjti : rt.auth.OneExpiry)
    (h₀ : (https rt).start s₀) (hdated : Dated rt.auth s₀.auth.db.committed.accessDenylist)
    (hclaims : rt.auth.verifyJwt token = some claims) (hrun : (https rt).run s₀ as = some s₁)
    (hout : s₁.auth.LogsOut authEv token) (hstep : (https rt).step s₁ (.auth authEv) = some s₂)
    (hok : (https rt).Meets (HttpPatient s₂ claims.jti) s₂ bs)
    (hrest : (https rt).run s₂ bs = some t) (hnew : s₂.requests k = none)
    (hr : t.requests k = some ⟨r, status⟩) (htoken : r.authorization.bind bearer = some token)
    (hclosed : r.endpoint.isPublic = false) :
    ((∃ i, status = .authenticating i) ∨ ∃ p w, status = .answered (.problem p w)) ∧
      ∀ d t', (https rt).step t (.resume k d) = some t' → t'.api = t.api := by
  have hinv : s₁.auth.Inv rt.auth ∧ Dated rt.auth s₁.auth.db.committed.accessDenylist ∧
      s₁.auth.AllShutting := by
    refine (auth_invariant (I := fun a => a.Inv rt.auth ∧
      Dated rt.auth a.db.committed.accessDenylist ∧ a.AllShutting) ?_).run
      (s := s₀) ⟨h₀.1.inv, hdated, ?_⟩ hrun
    · intro s ev s' h hs
      have hst := h.1.stepped hs
      exact ⟨hst.inv h.1, hst.dated hjti h.2.1, h.2.2.step h.1 h.2.1 hs⟩
    · intro i request now user hc
      rw [h₀.1.calls i] at hc
      cases hc
  obtain ⟨hinv₁, hdated₁, hall⟩ := hinv
  obtain ⟨auth', hauth, rfl⟩ := Option.map_eq_some_iff.mp hstep
  have hst := hinv₁.stepped hauth
  obtain ⟨claims', hclaims', hshut⟩ := hinv₁.logsOut_shut hall hauth hout
  obtain rfl := Option.some.inj (hclaims.symm.trans hclaims')
  have hstart : RefusedSince rt token claims { s₁ with auth := auth' }
      { s₁ with auth := auth' } := by
    refine ⟨⟨hst.inv hinv₁, hst.dated hjti hdated₁, hshut, ?_, ?_⟩, ?_, fun _ h => h, fun _ h => h⟩
    · rintro ⟨j, request, now, claims', hj, hi, _⟩
      rw [hj] at hi
      cases hi
    · intro j token' claims' now user hj _ _ hi
      rw [hj] at hi
      cases hi
    · intro k r status hk hr
      rw [hk] at hr
      cases hr
  have hend : RefusedSince rt token claims { s₁ with auth := auth' } t :=
    System.Meets.run (fun _ _ _ h hok hs => h.step hjti hclaims hok hs) hok hstart hrest
  refine ⟨?_, fun d t' hs => ?_⟩
  · rcases hend.refused k r status hnew hr htoken hclosed with ⟨i, _, _, hi, -⟩ | hproblem
    · exact .inl ⟨i, hi⟩
    · exact .inr hproblem
  · by_contra hchanged
    have hs : t.step rt (.resume k d) = some t' := hs
    cases httpStepped_of_step hs with
    | admitted _ r' _ i request now user _ hk hc hout =>
      obtain ⟨rfl, rfl⟩ := HttpCall.mk.inj (Option.some.inj (hr.symm.trans hk))
      cases hclosed.symm.trans (hend.elsewhere hclaims hk hc hnew htoken)
    | refused _ r' _ i p w hk => exact hchanged rfl
    | settled _ r' _ i answer hk hnone => exact hchanged rfl

/-- The user logs out, up to COMMIT. -/
def demoHttpLogout : List HttpEvent :=
  demoRequest .logout ++ [.resume 1 ⟨1, 0, "at"⟩] ++ (demoSteps 1 5 1 "r3").map .auth

/-- Then somebody orders with the token. -/
def demoAfterLogout : List HttpEvent :=
  [.request 3 ⟨demoCreate, "/orders", some "Bearer access"⟩ ⟨4, 0, "at"⟩,
    .auth (.exec 4 (demoDraw 1 "r3")), .resume 3 ⟨5, 0, "at"⟩]

theorem demoAfterLogout_refused : ∃ s₁ s₂ t r status,
    (https demoHttpRuntime).run demoHttp demoHttpLogout = some s₁ ∧
    (https demoHttpRuntime).step s₁ (.auth (.exec 1 (demoDraw 1 "r3"))) = some s₂ ∧
    (https demoHttpRuntime).run s₂ demoAfterLogout = some t ∧
    t.requests 3 = some ⟨r, status⟩ ∧
    ((∃ i, status = .authenticating i) ∨ ∃ p w, status = .answered (.problem p w)) ∧
      ∀ d t', (https demoHttpRuntime).step t (.resume 3 d) = some t' → t'.api = t.api := by
  have hsome : ((https demoHttpRuntime).run demoHttp demoHttpLogout).any (fun s₁ =>
      (s₁.auth.calls 1 = some ⟨.logout "access", 40000000,
        .running (.commitRevocation (.logout demoUser))⟩ : Bool) &&
      ((https demoHttpRuntime).step s₁ (.auth (.exec 1 (demoDraw 1 "r3")))).any fun s₂ =>
        (s₂.requests 3 = none : Bool) &&
        ((https demoHttpRuntime).checks (fun s ev => match ev with
          | .auth authEv => noPurge s.auth authEv
          | _ => true) s₂ demoAfterLogout &&
        ((https demoHttpRuntime).run s₂ demoAfterLogout).any fun t =>
          (t.requests 3).any fun c => decide (c.request =
            ⟨demoCreate, "/orders", some "Bearer access"⟩))) = true := by
    decide +kernel
  obtain ⟨s₁, hrun, h⟩ := (Option.any_eq_true _ _).mp hsome
  obtain ⟨hcall, h⟩ := Bool.and_eq_true_iff.mp h
  obtain ⟨s₂, hstep, h⟩ := (Option.any_eq_true _ _).mp h
  obtain ⟨hnew, h⟩ := Bool.and_eq_true_iff.mp h
  obtain ⟨hchecks, h⟩ := Bool.and_eq_true_iff.mp h
  obtain ⟨t, hrest, h⟩ := (Option.any_eq_true _ _).mp h
  obtain ⟨⟨r, status⟩, hr, h⟩ := (Option.any_eq_true _ _).mp h
  obtain rfl : r = _ := of_decide_eq_true h
  refine ⟨s₁, s₂, t, _, status, hrun, hstep, hrest, hr,
    logged_out_requests_refused demoAuthRuntime_oneExpiry demoHttp_start demoService_dated rfl hrun
      ⟨1, _, _, of_decide_eq_true hcall, .inl ⟨_, rfl⟩⟩ hstep
      (.of_checks (fun s ev hcheck => ?_) hchecks) hrest (of_decide_eq_true hnew) hr rfl rfl⟩
  rintro authEv rfl
  exact patient_of_noPurge hcheck

end Marketplace.Api
