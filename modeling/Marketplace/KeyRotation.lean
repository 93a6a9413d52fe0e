import Marketplace.Tokens
import Marketplace.Run

/-!
# Rotating the signing key

The procedure of the README, over many processes: a new pair becomes the configured one and
the old public key stays behind as the previous one; the processes are restarted one by
one; when none of them signs with the old key any more, its last tokens have a ttl to live,
and after that the previous key goes.

While the processes are restarted some of them still run with the old configuration. They
do not know the new key's name. Which tokens are accepted where is
`rotation_accepts`.
-/

namespace Marketplace.Tokens

variable {Priv Pub Token : Type}

/-! ## The fleet -/

/-- The configuration that a process started now gets, the processes that run, the tokens
that have been signed, and a clock in milliseconds. -/
structure Fleet (Priv Pub Token : Type) where
  config : TokenConfig
  /-- names of keys that have been configured -/
  kids : List String
  processes : List (ℕ × TokenService Priv Pub)
  issued : List (Token × VerifiedClaims)
  /-- when nobody signed with an older key any more, if that has been seen -/
  rolledOut : Option ℤ
  nowMs : ℤ

/-- What can happen. -/
inductive FleetEvent where
  | start (i : ℕ) (d : StartDraw)
  | stop (i : ℕ)
  | sign (i : ℕ) (sub : String) (role : Role) (fid jti : String)
  /-- step 1: a new pair, and the old public key as the previous one -/
  | rotate (kid privateKey publicKey : String)
  /-- every process that runs signs with the configured key -/
  | rollOut
  /-- step 3: the previous key goes -/
  | retire
  | tick (ms : ℕ)

namespace TokenConfig

/-- Step 1 of the rotation. -/
def rotated (c : TokenConfig) (kid privateKey publicKey : String) : TokenConfig :=
  { c with
    jwtKid := kid
    jwtPrivateKey := privateKey
    jwtPublicKey := publicKey
    jwtPreviousKid := some c.jwtKid
    jwtPreviousPublicKey := some c.jwtPublicKey }

/-- Step 3 of the rotation. -/
def retired (c : TokenConfig) : TokenConfig :=
  { c with jwtPreviousKid := none, jwtPreviousPublicKey := none }

end TokenConfig

namespace Fleet

/-- Process `i`, if it runs. -/
def find (s : Fleet Priv Pub Token) (i : ℕ) : Option (TokenService Priv Pub) :=
  s.processes.lookup i

/-- One event. The guards are those of the procedure: a rotation begins when the one before
has ended, with a name that is new; the previous key goes when a ttl has passed since the
roll-out. -/
def step (jwt : Jwt Priv Pub Token) (s : Fleet Priv Pub Token) :
    FleetEvent → Option (Fleet Priv Pub Token)
  | .start i d =>
    match s.find i with
    | some _ => none
    | none => (s.config.start jwt d s.nowMs).map fun t =>
      { s with processes := (i, t) :: s.processes }
  | .stop i => some { s with processes := s.processes.filter fun p => p.1 ≠ i }
  | .sign i sub role fid jti =>
    (s.find i).bind fun t => (t.sign jwt sub role fid jti s.nowMs).map fun signed =>
      { s with issued := (signed.token, ⟨sub, role, signed.jti, signed.exp, fid⟩) :: s.issued }
  | .rotate kid privateKey publicKey =>
    if s.config.jwtPreviousKid = none ∧ kid ∉ s.kids then
      some { s with
        config := s.config.rotated kid privateKey publicKey
        kids := kid :: s.kids
        rolledOut := none }
    else none
  | .rollOut =>
    if s.processes.all fun p => p.2.kid = s.config.jwtKid then
      some { s with rolledOut := some s.nowMs }
    else none
  | .retire =>
    match s.rolledOut with
    | some since =>
      if since + 1000 * s.config.accessTokenTtlSec ≤ s.nowMs then
        some { s with config := s.config.retired }
      else none
    | none => none
  | .tick ms => some { s with nowMs := s.nowMs + ms }

/-- Before the first process: no rotation is under way. -/
structure Start (s : Fleet Priv Pub Token) : Prop where
  kids : s.kids = [s.config.jwtKid]
  previous : s.config.jwtPreviousKid = none ∧ s.config.jwtPreviousPublicKey = none
  processes : s.processes = []
  issued : s.issued = []
  rolledOut : s.rolledOut = none

end Fleet

/-- The processes, and who rotates the key. -/
def fleets (jwt : Jwt Priv Pub Token) : System (Fleet Priv Pub Token) FleetEvent :=
  ⟨Fleet.Start, Fleet.step jwt⟩

namespace Fleet

variable {jwt : Jwt Priv Pub Token} {paired : Priv → Pub → Prop} {s s' : Fleet Priv Pub Token}

/-! ## The invariant -/

/-- The configuration gives the public key this name. -/
def Names (jwt : Jwt Priv Pub Token) (c : TokenConfig) (kid : String) (pub : Pub) : Prop :=
  kid ≠ "" ∧ ∃ text, text ≠ "" ∧ (kid, text) ∈ c.entries ∧ jwt.createPublicKey text = some pub

/-- The token was signed with a key of the configuration. -/
def SignedUnder (jwt : Jwt Priv Pub Token) (paired : Priv → Pub → Prop) (c : TokenConfig)
    (kid : String) (token : Token) (claims : VerifiedClaims) : Prop :=
  ∃ key pub, Signed jwt kid key token claims ∧ Names jwt c kid pub ∧ paired key pub

/-- A process that runs: it signs with the configured key, or with the one before. With the
configured key it knows every name of the configuration; with the one before it knows its
own name, and not that of the configured key. -/
structure Runs (jwt : Jwt Priv Pub Token) (paired : Priv → Pub → Prop) (c : TokenConfig)
    (kids : List String) (t : TokenService Priv Pub) : Prop where
  accessTtlSec : t.accessTtlSec = c.accessTokenTtlSec
  own : ∃ pub, Names jwt c t.kid pub ∧ t.verifyKeys t.kid = some pub ∧ paired t.privateKey pub
  current : t.kid = c.jwtKid → ∀ kid pub, Names jwt c kid pub → t.verifyKeys kid = some pub
  old : t.kid ≠ c.jwtKid → t.verifyKeys c.jwtKid = none
  known : ∀ kid pub, t.verifyKeys kid = some pub → kid ∈ kids

/-- What the procedure keeps. A token that has not expired was signed with a key of the
configuration; since the roll-out only the configured key has signed. -/
structure Inv (jwt : Jwt Priv Pub Token) (paired : Priv → Pub → Prop)
    (s : Fleet Priv Pub Token) : Prop where
  kids : ∀ kid text, (kid, text) ∈ s.config.entries → kid ∈ s.kids
  distinct : s.config.jwtPreviousKid ≠ some s.config.jwtKid
  runs : ∀ p ∈ s.processes, Runs jwt paired s.config s.kids p.2
  issued : ∀ x ∈ s.issued, x.2.exp ≤ s.nowMs / 1000 + s.config.accessTokenTtlSec ∧
    (x.2.exp ≤ s.nowMs / 1000 ∨ ∃ kid, SignedUnder jwt paired s.config kid x.1 x.2)
  rolledOut : ∀ since, s.rolledOut = some since → since ≤ s.nowMs ∧
    (∀ p ∈ s.processes, p.2.kid = s.config.jwtKid) ∧
    ∀ x ∈ s.issued, x.2.exp ≤ since / 1000 + s.config.accessTokenTtlSec ∨
      SignedUnder jwt paired s.config s.config.jwtKid x.1 x.2

theorem Start.inv (h : s.Start) : s.Inv jwt paired where
  kids := by
    intro kid text hmem
    rcases TokenConfig.mem_entries.mp hmem with ⟨rfl, -⟩ | ⟨hkid, -⟩
    · rw [h.kids]
      exact List.mem_singleton_self _
    · rw [h.previous.1] at hkid
      cases hkid
  distinct := by
    rw [h.previous.1]
    exact fun heq => by cases heq
  runs := by
    rw [h.processes]
    exact fun _ hp => absurd hp List.not_mem_nil
  issued := by
    rw [h.issued]
    exact fun _ hx => absurd hx List.not_mem_nil
  rolledOut := by
    intro since hsince
    rw [h.rolledOut] at hsince
    cases hsince

/-- With one name there is one key. -/
theorem Names.unique {c : TokenConfig} (hdistinct : c.jwtPreviousKid ≠ some c.jwtKid)
    {kid : String} {pub pub' : Pub} (h : Names jwt c kid pub) (h' : Names jwt c kid pub') :
    pub = pub' := by
  obtain ⟨-, text, -, hmem, hpub⟩ := h
  obtain ⟨-, text', -, hmem', hpub'⟩ := h'
  have htext : text = text' := by
    rcases TokenConfig.mem_entries.mp hmem with ⟨rfl, rfl⟩ | ⟨hkid, htext⟩
    · rcases TokenConfig.mem_entries.mp hmem' with ⟨-, rfl⟩ | ⟨hkid', -⟩
      · rfl
      · exact absurd hkid' hdistinct
    · rcases TokenConfig.mem_entries.mp hmem' with ⟨rfl, -⟩ | ⟨-, htext'⟩
      · exact absurd hkid hdistinct
      · exact Option.some.inj (htext.symm.trans htext')
  subst htext
  exact Option.some.inj (hpub.symm.trans hpub')

/-! ## Processes -/

/-- A process that has just started. -/
theorem runs_of_started {c : TokenConfig} {kids : List String} {t : TokenService Priv Pub}
    (hkids : ∀ kid text, (kid, text) ∈ c.entries → kid ∈ kids)
    (h : StartedFrom jwt paired c t) : Runs jwt paired c kids t where
  accessTtlSec := h.accessTtlSec
  own := by
    obtain ⟨pub, hpub, hpaired⟩ := h.own
    have hkid : t.kid ≠ "" := by
      rw [h.kid]
      exact h.named.1
    have hmem : (t.kid, c.jwtPublicKey) ∈ c.entries :=
      TokenConfig.mem_entries.mpr (.inl ⟨h.kid, rfl⟩)
    exact ⟨pub, ⟨hkid, c.jwtPublicKey, h.named.2, hmem, hpub⟩,
      (h.keys t.kid _ hkid h.named.2 hmem).trans hpub, hpaired⟩
  current := by
    rintro - kid pub ⟨hkid, text, htext, hmem, hpub⟩
    exact (h.keys kid text hkid htext hmem).trans hpub
  old := fun hne => absurd h.kid hne
  known := by
    intro kid pub hkey
    obtain ⟨text, hmem⟩ := h.known kid pub hkey
    exact hkids kid text hmem

/-! ## The configuration changes -/

/-- After step 1 the configured key is the previous one. -/
theorem Names.rotated {c : TokenConfig} (hprevious : c.jwtPreviousKid = none) {kid : String}
    {pub : Pub} (h : Names jwt c kid pub) (new privateKey publicKey : String) :
    Names jwt (c.rotated new privateKey publicKey) kid pub ∧ kid = c.jwtKid := by
  obtain ⟨hkid, text, htext, hmem, hpub⟩ := h
  rcases TokenConfig.mem_entries.mp hmem with ⟨rfl, rfl⟩ | ⟨hsome, -⟩
  · exact ⟨⟨hkid, _, htext, TokenConfig.mem_entries.mpr (.inr ⟨rfl, rfl⟩), hpub⟩, rfl⟩
  · rw [hprevious] at hsome
    cases hsome

/-- Step 3 keeps the configured key. -/
theorem Names.retired {c : TokenConfig} (hdistinct : c.jwtPreviousKid ≠ some c.jwtKid) {pub : Pub}
    (h : Names jwt c c.jwtKid pub) : Names jwt c.retired c.jwtKid pub := by
  obtain ⟨hkid, text, htext, hmem, hpub⟩ := h
  rcases TokenConfig.mem_entries.mp hmem with ⟨-, rfl⟩ | ⟨hsome, -⟩
  · exact ⟨hkid, _, htext, TokenConfig.mem_entries.mpr (.inl ⟨rfl, rfl⟩), hpub⟩
  · exact absurd hsome hdistinct

/-- And gives no other. -/
theorem Names.of_retired {c : TokenConfig} {kid : String} {pub : Pub}
    (h : Names jwt c.retired kid pub) : Names jwt c kid pub := by
  obtain ⟨hkid, text, htext, hmem, hpub⟩ := h
  rcases TokenConfig.mem_entries.mp hmem with hcurrent | ⟨hsome, -⟩
  · exact ⟨hkid, text, htext, TokenConfig.mem_entries.mpr (.inl hcurrent), hpub⟩
  · cases hsome

/-- A process that runs becomes one of the key before. -/
theorem Runs.rotated {c : TokenConfig} {kids : List String} {t : TokenService Priv Pub}
    (h : Runs jwt paired c kids t) (hprevious : c.jwtPreviousKid = none) {new : String}
    (hnew : new ∉ kids) (privateKey publicKey : String) :
    Runs jwt paired (c.rotated new privateKey publicKey) (new :: kids) t := by
  obtain ⟨pub, hnames, hkey, hpaired⟩ := h.own
  have hkid : t.kid ∈ kids := h.known t.kid pub hkey
  refine ⟨h.accessTtlSec, ⟨pub, (hnames.rotated hprevious _ _ _).1, hkey, hpaired⟩,
    fun heq => ?_, fun _ => ?_, fun kid pub hpub => List.mem_cons_of_mem _ (h.known kid pub hpub)⟩
  · have heq : t.kid = new := heq
    exact absurd (heq ▸ hkid) hnew
  · rcases hunknown : t.verifyKeys new with _ | pub'
    · exact hunknown
    · exact absurd (h.known new pub' hunknown) hnew

/-- **Every event keeps the invariant.** -/
theorem Inv.step (h : jwt.Lawful paired) (hinv : s.Inv jwt paired) {e : FleetEvent}
    (hs : s.step jwt e = some s') : s'.Inv jwt paired := by
  obtain ⟨hkids, hdistinct, hruns, hissued, hrolled⟩ := hinv
  cases e with
  | start i d =>
    simp only [Fleet.step] at hs
    split at hs
    · cases hs
    obtain ⟨t, hstart, rfl⟩ := Option.map_eq_some_iff.mp hs
    have hstarted := started h hstart
    refine ⟨hkids, hdistinct, fun p hp => ?_, hissued, fun since hsince => ?_⟩
    · rcases List.mem_cons.mp hp with rfl | hp
      · exact runs_of_started hkids hstarted
      · exact hruns p hp
    · obtain ⟨hle, hall, hold⟩ := hrolled since hsince
      refine ⟨hle, fun p hp => ?_, hold⟩
      rcases List.mem_cons.mp hp with rfl | hp
      · exact hstarted.kid
      · exact hall p hp
  | stop i =>
    obtain rfl := Option.some.inj hs
    refine ⟨hkids, hdistinct, fun p hp => hruns p (List.mem_filter.mp hp).1, hissued,
      fun since hsince => ?_⟩
    obtain ⟨hle, hall, hold⟩ := hrolled since hsince
    exact ⟨hle, fun p hp => hall p (List.mem_filter.mp hp).1, hold⟩
  | sign i sub role fid jti =>
    obtain ⟨t, hfind, hsign⟩ := Option.bind_eq_some_iff.mp hs
    obtain ⟨signed, hsigned, rfl⟩ := Option.map_eq_some_iff.mp hsign
    have hmem : (i, t) ∈ s.processes := by
      obtain ⟨_, _, heq, -⟩ := List.lookup_eq_some_iff.mp hfind
      rw [heq]
      exact List.mem_append_right _ (List.mem_cons_self ..)
    have hrun := hruns _ hmem
    obtain ⟨htells, hexp⟩ := signed_of_sign h hsigned
    obtain ⟨pub, hnames, -, hpaired⟩ := hrun.own
    have hunder : SignedUnder jwt paired s.config t.kid signed.token
        ⟨sub, role, signed.jti, signed.exp, fid⟩ := ⟨t.privateKey, pub, htells, hnames, hpaired⟩
    refine ⟨hkids, hdistinct, hruns, fun x hx => ?_, fun since hsince => ?_⟩
    · rcases List.mem_cons.mp hx with rfl | hx
      · rw [hrun.accessTtlSec] at hexp
        exact ⟨Int.le_of_eq hexp, .inr ⟨t.kid, hunder⟩⟩
      · exact hissued x hx
    · obtain ⟨hle, hall, hold⟩ := hrolled since hsince
      refine ⟨hle, hall, fun x hx => ?_⟩
      rcases List.mem_cons.mp hx with rfl | hx
      · have hkid : t.kid = s.config.jwtKid := hall _ hmem
        exact .inr (hkid ▸ hunder)
      · exact hold x hx
  | rotate kid privateKey publicKey =>
    simp only [Fleet.step] at hs
    split_ifs at hs with hguard
    obtain ⟨hprevious, hnew⟩ := hguard
    obtain rfl := Option.some.inj hs
    have hcurrent : s.config.jwtKid ∈ s.kids :=
      hkids _ _ (TokenConfig.mem_entries.mpr (.inl ⟨rfl, rfl⟩))
    refine ⟨fun kid' text hmem => ?_, fun heq => ?_,
      fun p hp => (hruns p hp).rotated hprevious hnew privateKey publicKey, fun x hx => ?_,
      fun since hsince => by cases hsince⟩
    · rcases TokenConfig.mem_entries.mp hmem with ⟨rfl, -⟩ | ⟨hsome, -⟩
      · exact List.mem_cons_self ..
      · obtain rfl := Option.some.inj hsome
        exact List.mem_cons_of_mem _ hcurrent
    · have heq : s.config.jwtKid = kid := Option.some.inj heq
      exact hnew (heq ▸ hcurrent)
    · obtain ⟨hbound, hexpired | ⟨kid', key, pub, htells, hnames, hpaired⟩⟩ := hissued x hx
      · exact ⟨hbound, .inl hexpired⟩
      · exact ⟨hbound, .inr ⟨kid', key, pub, htells, (hnames.rotated hprevious _ _ _).1, hpaired⟩⟩
  | rollOut =>
    simp only [Fleet.step] at hs
    split_ifs at hs with hall
    obtain rfl := Option.some.inj hs
    refine ⟨hkids, hdistinct, hruns, hissued, fun since hsince => ?_⟩
    obtain rfl := Option.some.inj hsince
    exact ⟨Int.le_refl _, fun p hp => of_decide_eq_true (List.all_eq_true.mp hall p hp),
      fun x hx => .inl (hissued x hx).1⟩
  | retire =>
    simp only [Fleet.step] at hs
    split at hs
    · rename_i since hsince
      split_ifs at hs with hpassed
      obtain rfl := Option.some.inj hs
      obtain ⟨hle, hall, hold⟩ := hrolled since hsince
      have hretired : ∀ {x : Token × VerifiedClaims},
          SignedUnder jwt paired s.config s.config.jwtKid x.1 x.2 →
          SignedUnder jwt paired s.config.retired s.config.jwtKid x.1 x.2 := by
        rintro x ⟨key, pub, htells, hnames, hpaired⟩
        exact ⟨key, pub, htells, hnames.retired hdistinct, hpaired⟩
      refine ⟨fun kid text hmem => ?_, (fun heq => by cases heq), fun p hp => ?_, fun x hx => ?_,
        fun since' hsince' => ?_⟩
      · rcases TokenConfig.mem_entries.mp hmem with hcurrent | ⟨hsome, -⟩
        · exact hkids kid text (TokenConfig.mem_entries.mpr (.inl hcurrent))
        · cases hsome
      · obtain ⟨httl, ⟨pub, hnames, hkey, hpaired⟩, hcurrent, hother, hknown⟩ := hruns p hp
        have hkid := hall p hp
        rw [hkid] at hnames
        have hnames' : Names jwt s.config.retired p.2.kid pub := hkid ▸ hnames.retired hdistinct
        exact ⟨httl, ⟨pub, hnames', hkey, hpaired⟩,
          fun heq kid pub hn => hcurrent heq kid pub hn.of_retired, hother, hknown⟩
      · -- what an older key has signed has expired by now
        obtain ⟨hbound, -⟩ := hissued x hx
        refine ⟨hbound, ?_⟩
        rcases hold x hx with hexp | hunder
        · left
          dsimp only
          omega
        · exact .inr ⟨_, hretired hunder⟩
      · obtain ⟨hle', hall', hold'⟩ := hrolled since' hsince'
        exact ⟨hle', hall', fun x hx => (hold' x hx).imp_right hretired⟩
    · cases hs
  | tick ms =>
    obtain rfl := Option.some.inj hs
    refine ⟨hkids, hdistinct, hruns, fun x hx => ?_, fun since hsince => ?_⟩
    · obtain ⟨hbound, hrest⟩ := hissued x hx
      refine ⟨?_, hrest.imp_left fun hexpired => ?_⟩
      · dsimp only
        omega
      · dsimp only
        omega
    · obtain ⟨hle, hall, hold⟩ := hrolled since hsince
      refine ⟨?_, hall, hold⟩
      dsimp only
      omega

end Fleet

/-- The procedure keeps its invariant. -/
theorem fleets_invariant {jwt : Jwt Priv Pub Token} {paired : Priv → Pub → Prop}
    (h : jwt.Lawful paired) : (fleets jwt).Invariant (Fleet.Inv jwt paired) := by
  intro s e s' hinv hs
  exact Fleet.Inv.step h hinv hs

/-- **Where a token is accepted while keys rotate.** Until it expires every process accepts
every token that any of them has signed, but for one kind: a process that still signs with
the key before does not know the name of the new one. -/
theorem rotation_accepts {jwt : Jwt Priv Pub Token} {paired : Priv → Pub → Prop}
    (h : jwt.Lawful paired) {s : Fleet Priv Pub Token} (hs : (fleets jwt).Reachable s) {i : ℕ}
    {t : TokenService Priv Pub} (ht : (i, t) ∈ s.processes) {token : Token}
    {claims : VerifiedClaims} (htoken : (token, claims) ∈ s.issued)
    (hexp : s.nowMs / 1000 < claims.exp) :
    t.verify jwt token s.nowMs =
      if t.kid ≠ s.config.jwtKid ∧ (jwt.decode token).bind Decoded.kid = some s.config.jwtKid then
        .error ⟨.invalidToken, "невідомий kid"⟩
      else .ok claims := by
  have hinv : s.Inv jwt paired :=
    (fleets_invariant h).reachable (fun _ (hstart : Fleet.Start _) => hstart.inv) hs
  have hrun := hinv.runs _ ht
  obtain ⟨-, hexpired | ⟨kid, key, pub, htells, hnames, hpaired⟩⟩ := hinv.issued _ htoken
  · exact absurd hexpired (Int.not_le.mpr hexp)
  have hkid := hnames.1
  have hname : (jwt.decode token).bind Decoded.kid = some kid := signed_kid h htells
  -- who knows the key accepts the token
  have haccepts : t.verifyKeys kid = some pub → t.verify jwt token s.nowMs = .ok claims := by
    intro hpub
    exact (verify_signed h htells hkid hpub hpaired).trans (if_neg (Int.not_le.mpr hexp))
  by_cases hcurrent : t.kid = s.config.jwtKid
  · rw [if_neg fun hand => hand.1 hcurrent]
    exact haccepts (hrun.current hcurrent kid pub hnames)
  · by_cases hnew : kid = s.config.jwtKid
    · rw [if_pos ⟨hcurrent, hname.trans (congrArg some hnew)⟩]
      exact verify_unknown h htells hkid (hnew ▸ hrun.old hcurrent)
    · -- both the process and the token have the previous name
      rw [if_neg fun hand => hnew (Option.some.inj (hname.symm.trans hand.2))]
      obtain ⟨pub', hnames', hkey, -⟩ := hrun.own
      obtain rfl : kid = t.kid := by
        obtain ⟨-, text, -, hmem, -⟩ := hnames
        obtain ⟨-, text', -, hmem', -⟩ := hnames'
        rcases TokenConfig.mem_entries.mp hmem with ⟨heq, -⟩ | ⟨hsome, -⟩
        · exact absurd heq hnew
        · rcases TokenConfig.mem_entries.mp hmem' with ⟨heq, -⟩ | ⟨hsome', -⟩
          · exact absurd heq hcurrent
          · exact Option.some.inj (hsome.symm.trans hsome')
      obtain rfl := hnames.unique hinv.distinct hnames'
      exact haccepts hkey

/-! ## A small rotation -/

/-- A token that keeps what it was made of. -/
structure DemoToken where
  role : Role
  fid : String
  key : ℕ
  options : SignOptions
  nowMs : ℤ
  deriving DecidableEq

/-- The keys there are. -/
def demoKey (text : String) : Option ℕ := [("1", 1), ("2", 2)].lookup text

/-- Keys are numbers, and a private key is its own public key. -/
def demoJwt : Jwt ℕ ℕ DemoToken where
  createPrivateKey := demoKey
  createPublicKey := demoKey
  isEcPrivate := fun _ => true
  isEcPublic := fun _ => true
  sign := DemoToken.mk
  decode := fun token =>
    some ⟨some token.options.keyid, token.options.payload token.role token.fid token.nowMs⟩
  verify := fun token pub options nowMs =>
    if token.key = pub ∧ token.options.algorithm ∈ options.algorithms ∧
        token.options.issuer = options.issuer ∧ token.options.audience = options.audience then
      if token.nowMs / 1000 + token.options.expiresIn ≤ nowMs / 1000 then .expired
      else .payload (token.options.payload token.role token.fid token.nowMs)
    else .error

theorem demoJwt_lawful : demoJwt.Lawful Eq where
  decode_sign := fun _ _ _ _ _ => rfl
  verify_sign := fun _ _ _ _ _ _ _ _ hkey halgorithm hissuer haudience =>
    if_pos ⟨hkey, halgorithm, hissuer, haudience⟩
  verify_other := fun _ _ _ _ _ _ _ _ hkey => if_neg fun hand => hkey hand.1

/-- No process has started yet. -/
def demoFleet : Fleet ℕ ℕ DemoToken where
  config := ⟨"2026-09", "1", "1", none, none, 600⟩
  kids := ["2026-09"]
  processes := []
  issued := []
  rolledOut := none
  nowMs := 0

/-- One process signs with the old key, the key is rotated, and another one signs with the
new key. -/
def demoRotation : List FleetEvent :=
  [.start 0 ⟨"f", "j", 0⟩, .sign 0 "1" .customer "f1" "j1", .rotate "2026-10" "2" "2",
    .tick 60000, .start 1 ⟨"f", "j", 0⟩, .sign 1 "2" .seller "f2" "j2"]

theorem demoRotation_accepts : ∃ s, (fleets demoJwt).run demoFleet demoRotation = some s ∧
    (∃ p ∈ s.processes, ∃ x ∈ s.issued, p.2.kid = "2026-10" ∧
      (demoJwt.decode x.1).bind Decoded.kid = some "2026-09" ∧
      p.2.verify demoJwt x.1 s.nowMs = .ok x.2) ∧
    ∃ p ∈ s.processes, ∃ x ∈ s.issued, p.2.kid = "2026-09" ∧
      (demoJwt.decode x.1).bind Decoded.kid = some "2026-10" ∧
      p.2.verify demoJwt x.1 s.nowMs = .error ⟨.invalidToken, "невідомий kid"⟩ := by
  have hsome : ((fleets demoJwt).run demoFleet demoRotation).any (fun s =>
      decide (s.config.jwtKid = "2026-10") &&
      s.issued.all (fun x => decide (s.nowMs / 1000 < x.2.exp)) &&
      (s.processes.any fun p => s.issued.any fun x => decide (p.2.kid = "2026-10" ∧
        (demoJwt.decode x.1).bind Decoded.kid = some "2026-09")) &&
      s.processes.any fun p => s.issued.any fun x => decide (p.2.kid = "2026-09" ∧
        (demoJwt.decode x.1).bind Decoded.kid = some "2026-10")) = true := by
    decide +kernel
  obtain ⟨s, hrun, h⟩ := (Option.any_eq_true _ _).mp hsome
  simp only [Bool.and_eq_true, decide_eq_true_eq, List.all_eq_true, List.any_eq_true] at h
  obtain ⟨⟨⟨hconfig, hlive⟩, p, hp, x, hx, hpnew, hxold⟩, q, hq, y, hy, hqold, hynew⟩ := h
  have hstart : demoFleet.Start := ⟨rfl, ⟨rfl, rfl⟩, rfl, rfl, rfl⟩
  have hreachable : (fleets demoJwt).Reachable s := ⟨demoFleet, demoRotation, hstart, hrun⟩
  refine ⟨s, hrun, ⟨p, hp, x, hx, hpnew, hxold, ?_⟩, q, hq, y, hy, hqold, hynew, ?_⟩
  · rw [rotation_accepts demoJwt_lawful hreachable hp hx (hlive x hx), hconfig, hpnew]
    rfl
  · rw [rotation_accepts demoJwt_lawful hreachable hq hy (hlive y hy), hconfig, hqold, hynew]
    rfl

end Marketplace.Tokens
