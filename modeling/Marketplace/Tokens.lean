import Marketplace.Auth
import Marketplace.Slots

/-!
# `TokenService`

Keys, and the tokens that are signed and verified with them. A token names in its header
the key it was signed with; the name only chooses among the keys that the service has, and
everything else is checked with the chosen key.

`jsonwebtoken` and `node:crypto` stand behind `Jwt`. What the service relies on of them is
`Jwt.Lawful`: a token says what it was signed with, it is accepted with the public key that
belongs to the private key until it expires, and with another key it is not.
-/

namespace Marketplace.Tokens

/-! ## The library -/

/-- The options of `jwt.sign`. -/
structure SignOptions where
  algorithm : String
  keyid : String
  subject : String
  issuer : String
  audience : String
  expiresIn : ℕ
  jwtid : String
  deriving DecidableEq

/-- The options of `jwt.verify`. -/
structure VerifyOptions where
  algorithms : List String
  issuer : String
  audience : String
  deriving DecidableEq

/-- What the service reads of a payload: each claim if it has the type that is asked for. -/
structure JwtPayload where
  sub : Option String
  role : Option Role
  jti : Option String
  exp : Option ℤ
  fid : Option String
  deriving DecidableEq

/-- `jwt.decode(token, { complete: true })` -/
structure Decoded where
  kid : Option String
  payload : JwtPayload
  deriving DecidableEq

/-- How `jwt.verify` ends. -/
inductive JwtResult where
  | payload (p : JwtPayload)
  /-- a payload that is no object -/
  | text
  /-- `TokenExpiredError` -/
  | expired
  /-- any other error -/
  | error
  deriving DecidableEq

/-- `jsonwebtoken` and `node:crypto`. Only they look inside a token. -/
structure Jwt (Priv Pub Token : Type) where
  /-- `createPrivateKey(fromB64(…))` -/
  createPrivateKey : String → Option Priv
  /-- `createPublicKey(fromB64(…))` -/
  createPublicKey : String → Option Pub
  /-- the key is an EC key on `prime256v1` -/
  isEcPrivate : Priv → Bool
  isEcPublic : Pub → Bool
  /-- `jwt.sign({ role, fid }, key, options)` at a time in milliseconds -/
  sign : Role → String → Priv → SignOptions → ℤ → Token
  decode : Token → Option Decoded
  /-- `jwt.verify(token, key, options)` at a time in milliseconds -/
  verify : Token → Pub → VerifyOptions → ℤ → JwtResult

/-- The payload that `jwt.sign` writes. -/
def SignOptions.payload (o : SignOptions) (role : Role) (fid : String) (nowMs : ℤ) : JwtPayload :=
  ⟨some o.subject, some role, some o.jwtid, some (nowMs / 1000 + o.expiresIn), some fid⟩

/-- **What the service relies on.** `paired` says which public key belongs to a private
key. -/
structure Jwt.Lawful {Priv Pub Token : Type} (jwt : Jwt Priv Pub Token)
    (paired : Priv → Pub → Prop) : Prop where
  decode_sign : ∀ role fid key o nowMs,
    jwt.decode (jwt.sign role fid key o nowMs) = some ⟨some o.keyid, o.payload role fid nowMs⟩
  verify_sign : ∀ role fid key pub (o : SignOptions) nowMs (v : VerifyOptions) laterMs,
    paired key pub → o.algorithm ∈ v.algorithms → o.issuer = v.issuer → o.audience = v.audience →
    jwt.verify (jwt.sign role fid key o nowMs) pub v laterMs =
      if nowMs / 1000 + o.expiresIn ≤ laterMs / 1000 then .expired
      else .payload (o.payload role fid nowMs)
  verify_other : ∀ role fid key pub o nowMs v laterMs, ¬ paired key pub →
    jwt.verify (jwt.sign role fid key o nowMs) pub v laterMs = .error

/-! ## The service -/

/-- `ISSUER` -/
def tokenIssuer : String := "marketplace-api"

/-- `AUDIENCE` -/
def tokenAudience : String := "marketplace-clients"

/-- `ALLOWED_ALGORITHMS` -/
def allowedAlgorithms : List String := ["ES256"]

/-- The codes of `TokenError`. -/
inductive TokenErrorCode where
  | tokenExpired
  | invalidToken
  deriving DecidableEq

/-- `TokenError` -/
structure TokenError where
  code : TokenErrorCode
  message : String
  deriving DecidableEq

/-- What the environment says of keys. -/
structure TokenConfig where
  jwtKid : String
  jwtPrivateKey : String
  jwtPublicKey : String
  jwtPreviousKid : Option String
  jwtPreviousPublicKey : Option String
  accessTokenTtlSec : ℕ
  deriving DecidableEq

/-- The fields of `TokenService`. -/
structure TokenService (Priv Pub : Type) where
  privateKey : Priv
  kid : String
  /-- the key with this name -/
  verifyKeys : String → Option Pub
  accessTtlSec : ℕ

/-- What `sign` returns. -/
structure SignedToken (Token : Type) where
  token : Token
  jti : String
  exp : ℤ
  deriving DecidableEq

variable {Priv Pub Token : Type} (jwt : Jwt Priv Pub Token)

namespace TokenService

variable (t : TokenService Priv Pub)

/-- The options that `sign` passes. -/
def signOptions (sub jti : String) : SignOptions where
  algorithm := "ES256"
  keyid := t.kid
  subject := sub
  issuer := tokenIssuer
  audience := tokenAudience
  expiresIn := t.accessTtlSec
  jwtid := jti

/-- `sign`, with the `jti` that `randomUUID()` gives; it throws if the library cannot read
its own token. -/
def sign (sub : String) (role : Role) (fid jti : String) (nowMs : ℤ) :
    Option (SignedToken Token) :=
  let token := jwt.sign role fid t.privateKey (t.signOptions sub jti) nowMs
  ((jwt.decode token).bind fun decoded => decoded.payload.exp).map fun exp => ⟨token, jti, exp⟩

/-- The key that the token's header chooses. -/
def keyOf (token : Token) : Option Pub :=
  (((jwt.decode token).bind Decoded.kid).filter (· ≠ "")).bind t.verifyKeys

/-- `verify` -/
def verify (token : Token) (nowMs : ℤ) : Except TokenError VerifiedClaims :=
  match t.keyOf jwt token with
  | none => .error ⟨.invalidToken, "невідомий kid"⟩
  | some key =>
    match jwt.verify token key ⟨allowedAlgorithms, tokenIssuer, tokenAudience⟩ nowMs with
    | .text => .error ⟨.invalidToken, "payload не обʼєкт"⟩
    | .expired => .error ⟨.tokenExpired, "токен протух"⟩
    | .error => .error ⟨.invalidToken, "підпис або клейми не пройшли перевірку"⟩
    | .payload ⟨some sub, some role, some jti, some exp, some fid⟩ => .ok ⟨sub, role, jti, exp, fid⟩
    | .payload _ => .error ⟨.invalidToken, "відсутні обовʼязкові клейми"⟩

end TokenService

/-- Why the service does not start. -/
inductive StartError where
  /-- a text is no key -/
  | noKey
  /-- `JWT_PUBLIC_KEY не відповідає JWT_PRIVATE_KEY …` -/
  | mismatch
  deriving DecidableEq

/-- `verifyKeys`, as the constructor fills it: the previous key comes last, and a key of the
same name gives way. -/
def TokenConfig.verifyKeys (c : TokenConfig) (pub : Pub) : Option (String → Option Pub) :=
  let current := Function.update (fun _ => none) c.jwtKid (some pub)
  match c.jwtPreviousKid.filter (· ≠ ""), c.jwtPreviousPublicKey.filter (· ≠ "") with
  | some kid, some text =>
    (jwt.createPublicKey text).map fun previous => Function.update current kid (some previous)
  | _, _ => some current

/-- What starting the service draws: two ids of `randomUUID()`, and how long signing took. -/
structure StartDraw where
  fid : String
  jti : String
  tookMs : ℕ
  deriving DecidableEq

/-- The constructor: the service must accept a token of its own. -/
def TokenConfig.create (c : TokenConfig) (d : StartDraw) (nowMs : ℤ) :
    Except StartError (TokenService Priv Pub) :=
  match jwt.createPrivateKey c.jwtPrivateKey, jwt.createPublicKey c.jwtPublicKey with
  | some privateKey, some pub =>
    match c.verifyKeys jwt pub with
    | none => .error .noKey
    | some verifyKeys =>
      let t : TokenService Priv Pub := ⟨privateKey, c.jwtKid, verifyKeys, c.accessTokenTtlSec⟩
      match t.sign jwt "0" .customer d.fid d.jti nowMs with
      | none => .error .mismatch
      | some signed =>
        match t.verify jwt signed.token (nowMs + d.tookMs) with
        | .ok _ => .ok t
        | .error _ => .error .mismatch
  | _, _ => .error .noKey

/-! ## The environment -/

namespace TokenConfig

variable (c : TokenConfig)

/-- `blankToUndefined` for the previous key. -/
def blankToUndefined : TokenConfig :=
  { c with
    jwtPreviousKid := c.jwtPreviousKid.filter (· ≠ "")
    jwtPreviousPublicKey := c.jwtPreviousPublicKey.filter (· ≠ "") }

/-- `isEcKey('private')` and `isEcKey('public')` -/
def isEcKeys : Bool :=
  (jwt.createPrivateKey c.jwtPrivateKey).any jwt.isEcPrivate &&
    (jwt.createPublicKey c.jwtPublicKey).any jwt.isEcPublic &&
    c.jwtPreviousPublicKey.all fun text => (jwt.createPublicKey text).any jwt.isEcPublic

/-- The checks of `envSchema` on these variables, `superRefine` last. -/
def Valid : Prop :=
  c.jwtKid ≠ "" ∧ c.jwtPrivateKey ≠ "" ∧ c.jwtPublicKey ≠ "" ∧ c.isEcKeys jwt ∧
    (30 ≤ c.accessTokenTtlSec ∧ c.accessTokenTtlSec ≤ 3600) ∧
    c.jwtPreviousKid.isSome = c.jwtPreviousPublicKey.isSome ∧ c.jwtPreviousKid ≠ some c.jwtKid

instance : Decidable (c.Valid jwt) := inferInstanceAs (Decidable (_ ∧ _))

/-- The public keys that are configured, by name. -/
def entries : List (String × String) :=
  (c.jwtKid, c.jwtPublicKey) ::
    match c.jwtPreviousKid, c.jwtPreviousPublicKey with
    | some kid, some text => [(kid, text)]
    | _, _ => []

variable {c} in
theorem mem_entries {kid text : String} :
    (kid, text) ∈ c.entries ↔ kid = c.jwtKid ∧ text = c.jwtPublicKey ∨
      c.jwtPreviousKid = some kid ∧ c.jwtPreviousPublicKey = some text := by
  unfold entries
  rw [List.mem_cons, Prod.mk.injEq]
  refine or_congr_right ?_
  split
  · rename_i kid' text' hkid htext
    rw [List.mem_singleton, Prod.mk.injEq, hkid, htext, Option.some.injEq, Option.some.injEq,
      eq_comm, eq_comm (a := text)]
  · rename_i hnone
    refine iff_of_false List.not_mem_nil ?_
    rintro ⟨hkid, htext⟩
    exact hnone kid text hkid htext

/-- `validate`, then the constructor: how a process starts. -/
def start (d : StartDraw) (nowMs : ℤ) : Option (TokenService Priv Pub) :=
  if c.blankToUndefined.Valid jwt then (c.blankToUndefined.create jwt d nowMs).toOption else none

end TokenConfig

/-! ## What is signed is accepted -/

variable {jwt} {paired : Priv → Pub → Prop} {t : TokenService Priv Pub}

/-- The token was signed with the private key of this name, and says this. -/
def Signed (jwt : Jwt Priv Pub Token) (kid : String) (key : Priv) (token : Token)
    (claims : VerifiedClaims) : Prop :=
  ∃ (s : TokenService Priv Pub) (nowMs : ℤ), s.kid = kid ∧ s.privateKey = key ∧
    token = jwt.sign claims.role claims.fid key (s.signOptions claims.sub claims.jti) nowMs ∧
    claims.exp = nowMs / 1000 + s.accessTtlSec

theorem signed_kid (h : jwt.Lawful paired) {kid : String} {key : Priv} {token : Token}
    {claims : VerifiedClaims} (hs : Signed jwt kid key token claims) :
    (jwt.decode token).bind Decoded.kid = some kid := by
  obtain ⟨s, nowMs, rfl, rfl, rfl, -⟩ := hs
  rw [h.decode_sign]
  rfl

theorem filter_nonempty {text : String} (h : text ≠ "") :
    (some text).filter (· ≠ "") = some text :=
  Option.filter_eq_some_iff.mpr ⟨rfl, decide_eq_true h⟩

theorem keyOf_signed (h : jwt.Lawful paired) {kid : String} {key : Priv} {token : Token}
    {claims : VerifiedClaims} (hs : Signed jwt kid key token claims) (hkid : kid ≠ "") :
    t.keyOf jwt token = t.verifyKeys kid := by
  rw [TokenService.keyOf, signed_kid h hs, filter_nonempty hkid]
  rfl

/-- `sign` does not throw. -/
theorem sign_eq (h : jwt.Lawful paired) {sub : String} {role : Role} {fid jti : String}
    {nowMs : ℤ} : t.sign jwt sub role fid jti nowMs =
      some ⟨jwt.sign role fid t.privateKey (t.signOptions sub jti) nowMs, jti,
        nowMs / 1000 + t.accessTtlSec⟩ := by
  rw [TokenService.sign, h.decode_sign]
  rfl

/-- What `sign` returns says what it was asked to. -/
theorem signed_of_sign (h : jwt.Lawful paired) {sub : String} {role : Role} {fid jti : String}
    {nowMs : ℤ} {signed : SignedToken Token}
    (hs : t.sign jwt sub role fid jti nowMs = some signed) :
    Signed jwt t.kid t.privateKey signed.token ⟨sub, role, signed.jti, signed.exp, fid⟩ ∧
      signed.exp = nowMs / 1000 + t.accessTtlSec := by
  rw [sign_eq h] at hs
  obtain rfl := Option.some.inj hs
  exact ⟨⟨t, nowMs, rfl, rfl, rfl, rfl⟩, rfl⟩

/-- **A token is accepted until it expires**, by whoever has the key it was signed with. -/
theorem verify_signed (h : jwt.Lawful paired) {kid : String} {key : Priv} {pub : Pub}
    {token : Token} {claims : VerifiedClaims} (hs : Signed jwt kid key token claims)
    (hkid : kid ≠ "") (hpub : t.verifyKeys kid = some pub) (hpaired : paired key pub) {nowMs : ℤ} :
    t.verify jwt token nowMs =
      if claims.exp ≤ nowMs / 1000 then .error ⟨.tokenExpired, "токен протух"⟩
      else .ok claims := by
  have hkey : t.keyOf jwt token = some pub := (keyOf_signed h hs hkid).trans hpub
  obtain ⟨s, signedMs, rfl, rfl, rfl, hexp⟩ := hs
  obtain ⟨sub, role, jti, exp, fid⟩ := claims
  obtain rfl : exp = signedMs / 1000 + s.accessTtlSec := hexp
  have hverify := h.verify_sign role fid s.privateKey pub (s.signOptions sub jti) signedMs
    ⟨allowedAlgorithms, tokenIssuer, tokenAudience⟩ nowMs hpaired (List.mem_singleton_self _)
    rfl rfl
  by_cases hexp : signedMs / 1000 + (s.accessTtlSec : ℤ) ≤ nowMs / 1000
  · have hverify := hverify.trans (if_pos hexp)
    simp only [TokenService.verify, hkey, hverify, if_pos hexp]
  · have hverify := hverify.trans (if_neg hexp)
    simp only [TokenService.verify, hkey, hverify, if_neg hexp]
    rfl

/-- Who does not know the name of the key refuses the token. -/
theorem verify_unknown (h : jwt.Lawful paired) {kid : String} {key : Priv} {token : Token}
    {claims : VerifiedClaims} (hs : Signed jwt kid key token claims) (hkid : kid ≠ "")
    (hnone : t.verifyKeys kid = none) {nowMs : ℤ} :
    t.verify jwt token nowMs = .error ⟨.invalidToken, "невідомий kid"⟩ := by
  have hkey : t.keyOf jwt token = none := (keyOf_signed h hs hkid).trans hnone
  simp only [TokenService.verify, hkey]

/-- With another key the token is refused. -/
theorem verify_other_key (h : jwt.Lawful paired) {kid : String} {key : Priv} {pub : Pub}
    {token : Token} {claims : VerifiedClaims} (hs : Signed jwt kid key token claims)
    (hkid : kid ≠ "") (hpub : t.verifyKeys kid = some pub) (hpaired : ¬ paired key pub)
    {nowMs : ℤ} :
    t.verify jwt token nowMs =
      .error ⟨.invalidToken, "підпис або клейми не пройшли перевірку"⟩ := by
  have hkey : t.keyOf jwt token = some pub := (keyOf_signed h hs hkid).trans hpub
  obtain ⟨s, signedMs, rfl, rfl, rfl, -⟩ := hs
  simp only [TokenService.verify, hkey, h.verify_other _ _ _ _ _ _ _ _ hpaired]

/-! ## What starts -/

/-- What the constructor makes, if it makes anything. -/
theorem create_eq_ok {c : TokenConfig} {d : StartDraw} {nowMs : ℤ}
    (hs : c.create jwt d nowMs = .ok t) :
    ∃ pub, jwt.createPublicKey c.jwtPublicKey = some pub ∧
      c.verifyKeys jwt pub = some t.verifyKeys ∧ t.kid = c.jwtKid ∧
      t.accessTtlSec = c.accessTokenTtlSec ∧
      ∃ signed claims, t.sign jwt "0" .customer d.fid d.jti nowMs = some signed ∧
        t.verify jwt signed.token (nowMs + d.tookMs) = .ok claims := by
  unfold TokenConfig.create at hs
  split at hs
  · rename_i privateKey pub _ hpub
    split at hs
    · cases hs
    · rename_i verifyKeys hkeys
      dsimp only at hs
      split at hs
      · cases hs
      · rename_i signed hsigned
        split at hs
        · rename_i claims hverified
          obtain rfl := Except.ok.inj hs
          exact ⟨pub, hpub, hkeys, rfl, rfl, signed, claims, hsigned, hverified⟩
        · cases hs
  · cases hs

theorem verifyKeys_blankToUndefined {c : TokenConfig} {pub : Pub} :
    c.blankToUndefined.verifyKeys jwt pub = c.verifyKeys jwt pub := by
  simp only [TokenConfig.verifyKeys, TokenConfig.blankToUndefined, Option.filter_filter,
    Bool.and_self]

/-- The keys of the constructor, by name. -/
theorem verifyKeys_eq {c : TokenConfig} {pub : Pub} {verifyKeys : String → Option Pub}
    (hpub : jwt.createPublicKey c.jwtPublicKey = some pub)
    (hkeys : c.verifyKeys jwt pub = some verifyKeys)
    (hne : c.jwtPreviousKid.filter (· ≠ "") ≠ some c.jwtKid) :
    (∀ kid text, kid ≠ "" → text ≠ "" → (kid, text) ∈ c.entries →
      verifyKeys kid = jwt.createPublicKey text) ∧
      ∀ kid key, verifyKeys kid = some key → ∃ text, (kid, text) ∈ c.entries := by
  have hcurrent : ∀ kid key,
      Function.update (fun _ => none) c.jwtKid (some pub) kid = some key →
      ∃ text, (kid, text) ∈ c.entries := by
    intro kid key hkey
    rcases Slots.found_cases_some hkey with ⟨rfl, -⟩ | ⟨-, hnone⟩
    · exact ⟨c.jwtPublicKey, TokenConfig.mem_entries.mpr (.inl ⟨rfl, rfl⟩)⟩
    · cases hnone
  unfold TokenConfig.verifyKeys at hkeys
  split at hkeys
  · rename_i kid text hkid htext
    obtain ⟨previous, hprevious, rfl⟩ := Option.map_eq_some_iff.mp hkeys
    have hkid' : c.jwtPreviousKid = some kid := (Option.filter_eq_some_iff.mp hkid).1
    have htext' : c.jwtPreviousPublicKey = some text := (Option.filter_eq_some_iff.mp htext).1
    refine ⟨fun kid₁ text₁ _ _ hmem => ?_, fun kid₁ key hkey => ?_⟩
    · rcases TokenConfig.mem_entries.mp hmem with ⟨rfl, rfl⟩ | ⟨h₁, h₂⟩
      · rw [Function.update_of_ne, Function.update_self, hpub]
        rintro heq
        exact hne (heq ▸ hkid)
      · obtain rfl := Option.some.inj (hkid'.symm.trans h₁)
        obtain rfl := Option.some.inj (htext'.symm.trans h₂)
        rw [Function.update_self, hprevious]
    · rcases Slots.found_cases_some hkey with ⟨rfl, -⟩ | ⟨-, hold⟩
      · exact ⟨text, TokenConfig.mem_entries.mpr (.inr ⟨hkid', htext'⟩)⟩
      · exact hcurrent kid₁ key hold
  · rename_i hnone
    obtain rfl := Option.some.inj hkeys
    refine ⟨fun kid text hkid htext hmem => ?_, hcurrent⟩
    rcases TokenConfig.mem_entries.mp hmem with ⟨rfl, rfl⟩ | ⟨h₁, h₂⟩
    · rw [Function.update_self, hpub]
    · rw [h₁, h₂] at hnone
      exact absurd (filter_nonempty htext) (hnone kid text (filter_nonempty hkid))

/-- A process that has started: its keys are those of the configuration, and the key it
signs with belongs to the one it verifies with. -/
structure StartedFrom (jwt : Jwt Priv Pub Token) (paired : Priv → Pub → Prop) (c : TokenConfig)
    (t : TokenService Priv Pub) : Prop where
  kid : t.kid = c.jwtKid
  named : c.jwtKid ≠ "" ∧ c.jwtPublicKey ≠ ""
  accessTtlSec : t.accessTtlSec = c.accessTokenTtlSec
  own : ∃ pub, jwt.createPublicKey c.jwtPublicKey = some pub ∧ paired t.privateKey pub
  keys : ∀ kid text, kid ≠ "" → text ≠ "" → (kid, text) ∈ c.entries →
    t.verifyKeys kid = jwt.createPublicKey text
  known : ∀ kid pub, t.verifyKeys kid = some pub → ∃ text, (kid, text) ∈ c.entries

/-- **The self-test of the constructor**: a process starts only with keys that belong
together. -/
theorem started (h : jwt.Lawful paired) {c : TokenConfig} {d : StartDraw} {nowMs : ℤ}
    (hs : c.start jwt d nowMs = some t) : StartedFrom jwt paired c t := by
  unfold TokenConfig.start at hs
  split_ifs at hs with hvalid
  obtain ⟨hkid, -, htext, -, -, -, hne⟩ := hvalid
  rcases hcreate : c.blankToUndefined.create jwt d nowMs with e | t'
  · rw [hcreate] at hs
    cases hs
  obtain rfl : t' = t := by
    rw [hcreate] at hs
    exact Option.some.inj hs
  obtain ⟨pub, hpub, hkeys, heq, httl, signed, claims, hsigned, hverified⟩ := create_eq_ok hcreate
  rw [verifyKeys_blankToUndefined] at hkeys
  have hpub : jwt.createPublicKey c.jwtPublicKey = some pub := hpub
  obtain ⟨hentries, hknown⟩ := verifyKeys_eq hpub hkeys hne
  refine ⟨heq, ⟨hkid, htext⟩, httl, ⟨pub, hpub, ?_⟩, hentries, hknown⟩
  -- a token of another key would not have passed the test
  by_contra hother
  have hname : t'.kid ≠ "" := by
    rw [heq]
    exact hkid
  have hpub' : t'.verifyKeys t'.kid = some pub :=
    (hentries t'.kid _ hname htext (TokenConfig.mem_entries.mpr (.inl ⟨heq, rfl⟩))).trans hpub
  have hrefused : t'.verify jwt signed.token (nowMs + d.tookMs) = .error _ :=
    verify_other_key h (signed_of_sign h hsigned).1 hname hpub' hother
  rw [hverified] at hrefused
  cases hrefused

/-! ## The service in the model of `AuthService` -/

/-- The answers of `verify`, as `authenticate` rethrows them. -/
def TokenError.rethrown (e : TokenError) : AuthError :=
  match e.code with
  | .tokenExpired => .tokenExpired
  | .invalidToken => .invalidToken

/-- `verifyJwt` stands for this service: on a token that was signed with a key that the
service has, both verify alike. -/
theorem verify_agrees {jwt : Jwt Priv Pub String} (h : jwt.Lawful paired) {rt : AuthRuntime}
    {kid : String} {key : Priv} {pub : Pub} {token : String} {claims : VerifiedClaims}
    (hs : Signed jwt kid key token claims) (hkid : kid ≠ "")
    (hpub : t.verifyKeys kid = some pub) (hpaired : paired key pub)
    (hjwt : rt.verifyJwt token = some claims) (appMs : ℤ) :
    rt.verify token appMs = (t.verify jwt token appMs).mapError TokenError.rethrown := by
  rw [verify_signed h hs hkid hpub hpaired]
  simp only [AuthRuntime.verify, hjwt]
  split_ifs <;> rfl

end Marketplace.Tokens
