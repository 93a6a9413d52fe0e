import Marketplace.RollingSessions

/-!
# Browsers

`readCookie` and the two headers of a session: `Set-Cookie` of the middleware, which a
browser keeps under its name, and `Cookie`, which it makes of all it has kept. What the
middleware reads back is what the browser has (`readCookie_cookieHeader`).

Over them any number of browsers, which know no session id but the ones they were told.
Whatever they do, two of them never share a session (`sessions_isolated`), and each keeps its
own for as long as it is not silent for a ttl (`visit_keeps_session`).
-/

namespace Marketplace.Browsers

open Sessions (RequestSession RequestPc)
open RollingSessions

universe u

/-! ## Cookies -/

/-- `SESSION_COOKIE` -/
def sessionCookie : String := "sid"

/-- The value in one part of a header, if it is the cookie of this name. -/
def readPart (name : String) (part : List Char) : Option String :=
  match (NumericLiteral.trim part).splitOn '=' with
  | [] => none
  | k :: v => if String.ofList k = name then some (String.ofList (['='].intercalate v)) else none

/-- `readCookie` -/
def readCookie (header : Option String) (name : String) : Option String :=
  ((header.getD "").toList.splitOn ';').findSome? (readPart name)

/-- The header of the middleware for a new session. -/
def setCookieHeader (id : String) : String :=
  sessionCookie ++ "=" ++ id ++ "; HttpOnly; Path=/; SameSite=Lax"

/-- No blank, and nothing that ends a cookie. -/
def plainText (cs : List Char) : Bool := cs.all fun c => !NumericLiteral.isBlank c && c != ';'

/-- A cookie that a browser keeps. Its text can be told from the cookies around it. -/
structure Cookie where
  name : String
  value : String
  name_plain : plainText name.toList = true
  name_ends : name.toList.contains '=' = false
  value_plain : plainText value.toList = true
  deriving DecidableEq

/-- A cookie as it stands in a header. -/
def Cookie.text (c : Cookie) : List Char := c.name.toList ++ '=' :: c.value.toList

/-- The `Cookie` header of a browser that keeps these. -/
def cookieHeader (cookies : List Cookie) : Option String :=
  if cookies = [] then none
  else some (String.ofList ([';', ' '].intercalate (cookies.map Cookie.text)))

/-- What a browser makes of a `Set-Cookie` header: up to the first semicolon, a name and a
value. -/
def Cookie.parse (header : String) : Option Cookie :=
  let pair := header.toList.takeWhile (· != ';')
  let name := String.ofList (pair.takeWhile (· != '='))
  let value := String.ofList ((pair.dropWhile (· != '=')).drop 1)
  if h : plainText name.toList = true ∧ name.toList.contains '=' = false ∧
      plainText value.toList = true then
    some ⟨name, value, h.1, h.2.1, h.2.2⟩
  else none

/-- A cookie takes the place of the one with its name. -/
def keep (cookies : List Cookie) (c : Cookie) : List Cookie :=
  if cookies.any fun c' => c'.name = c.name then
    cookies.map fun c' => if c'.name = c.name then c else c'
  else cookies ++ [c]

section Headers

variable {cs : List Char} {c : Cookie} {cookies : List Cookie} {id : String}

theorem plainText_append (cs ds : List Char) :
    plainText (cs ++ ds) = (plainText cs && plainText ds) := List.all_append

theorem notMem_of_plainText (h : plainText cs = true) : ';' ∉ cs := by
  intro hmem
  have := List.all_eq_true.mp h ';' hmem
  simp at this

theorem trim_of_plainText (h : plainText cs = true) : NumericLiteral.trim cs = cs := by
  refine NumericLiteral.trim_of_no_blank fun c hc => ?_
  have := List.all_eq_true.mp h c hc
  simp only [Bool.and_eq_true, Bool.not_eq_true'] at this
  exact this.1

theorem Cookie.text_plain (c : Cookie) : plainText c.text = true := by
  have hsep : plainText ['='] = true := by decide
  have happ : c.text = c.name.toList ++ (['='] ++ c.value.toList) := rfl
  rw [happ, plainText_append, plainText_append, c.name_plain, hsep, c.value_plain]
  rfl

/-- A blank before a cookie is passed over. -/
theorem trim_blank_text (c : Cookie) : NumericLiteral.trim (' ' :: c.text) = c.text := by
  have hskip : NumericLiteral.trim (' ' :: c.text) = NumericLiteral.trim c.text := by
    have hblank : NumericLiteral.isBlank ' ' = true := by decide
    rw [NumericLiteral.trim, NumericLiteral.trim, List.dropWhile_cons_of_pos hblank]
  exact hskip.trans (trim_of_plainText c.text_plain)

theorem splitOn_text (c : Cookie) :
    c.text.splitOn '=' = c.name.toList :: c.value.toList.splitOn '=' := by
  refine List.splitOn_append_cons_self_of_not_mem (fun hmem => ?_) _
  have := c.name_ends
  rw [List.contains_iff_mem.mpr hmem] at this
  cases this

theorem readPart_of_trim {name : String} {part : List Char}
    (h : NumericLiteral.trim part = c.text) :
    readPart name part = if c.name = name then some c.value else none := by
  simp only [readPart, h, splitOn_text, List.intercalate_splitOn, String.ofList_toList]

/-- The text between two cookies is one semicolon, and a blank before the next. -/
theorem intercalate_blank (x : List Char) (xs : List (List Char)) :
    [';', ' '].intercalate (x :: xs) = [';'].intercalate (x :: xs.map (' ' :: ·)) := by
  induction xs generalizing x with
  | nil => simp
  | cons y xs ih =>
    rw [List.intercalate_cons_cons, ih y, List.map_cons, List.intercalate_cons_cons,
      List.append_assoc, List.append_assoc]
    congr 1
    rcases xs with _ | ⟨z, zs⟩
    · simp
    · simp [List.intercalate_cons_cons]

theorem findSome_readPart (name : String) (cookies : List Cookie) :
    (cookies.map fun c => ' ' :: c.text).findSome? (readPart name) =
      (cookies.find? fun c => c.name = name).map Cookie.value := by
  induction cookies with
  | nil => rfl
  | cons c cookies ih =>
    rw [List.map_cons, List.findSome?_cons, readPart_of_trim (trim_blank_text c), ih,
      List.find?_cons]
    by_cases hname : c.name = name
    · simp [hname]
    · simp [hname]

/-- **What the middleware reads** is what the browser has: of all its cookies the first one with
the name. -/
theorem readCookie_cookieHeader (cookies : List Cookie) :
    readCookie (cookieHeader cookies) sessionCookie =
      (cookies.find? fun c => c.name = sessionCookie).map Cookie.value := by
  rcases cookies with _ | ⟨c, cookies⟩
  · rfl
  · have hparts : ([';', ' '].intercalate ((c :: cookies).map Cookie.text)).splitOn ';' =
        c.text :: cookies.map fun c => ' ' :: c.text := by
      rw [List.map_cons, intercalate_blank, List.map_map]
      refine List.splitOn_intercalate ';' (fun part hpart => ?_) (by simp)
      rcases List.mem_cons.mp hpart with rfl | hpart
      · exact notMem_of_plainText c.text_plain
      · obtain ⟨d, -, rfl⟩ := List.mem_map.mp hpart
        rintro (_ | ⟨_, hmem⟩)
        exact notMem_of_plainText d.text_plain hmem
    have hread : readCookie (cookieHeader (c :: cookies)) sessionCookie =
        (c.text :: cookies.map fun c => ' ' :: c.text).findSome? (readPart sessionCookie) := by
      simp only [readCookie, cookieHeader, reduceCtorEq, if_false, Option.getD_some,
        String.toList_ofList, hparts]
    rw [hread, List.findSome?_cons, readPart_of_trim (trim_of_plainText c.text_plain),
      findSome_readPart, List.find?_cons]
    by_cases hname : c.name = sessionCookie
    · simp [hname]
    · simp [hname]

/-- A character of base64url stands for itself in a cookie. -/
theorem digit_plain {n : ℕ} (h : n < 64) :
    (!NumericLiteral.isBlank (Base64Url.digit n) && Base64Url.digit n != ';') = true := by
  have hall : ∀ n < 64,
      (!NumericLiteral.isBlank (Base64Url.digit n) && Base64Url.digit n != ';') = true := by
    decide +kernel
  exact hall n h

/-- An id is a text that goes into a cookie. -/
theorem plainText_encode (bytes : List UInt8) :
    plainText (Base64Url.encode bytes).toList = true := by
  rw [Base64Url.encode, String.toList_ofList]
  refine List.all_eq_true.mpr fun c hc => ?_
  obtain ⟨n, hn, rfl⟩ := List.mem_map.mp hc
  exact digit_plain (Base64Url.sextets_lt bytes n hn)

/-- The cookie of a session. -/
def sidCookie (bytes : List UInt8) : Cookie :=
  ⟨sessionCookie, Base64Url.encode bytes, by decide, by decide, plainText_encode bytes⟩

/-- **What a browser makes of the header of a new session** is its cookie. -/
theorem parse_setCookieHeader (bytes : List UInt8) :
    Cookie.parse (setCookieHeader (Base64Url.encode bytes)) = some (sidCookie bytes) := by
  have hpair : (setCookieHeader (Base64Url.encode bytes)).toList.takeWhile (· != ';') =
      (sidCookie bytes).text := by
    have htext : (setCookieHeader (Base64Url.encode bytes)).toList =
        (sidCookie bytes).text ++ ';' :: " HttpOnly; Path=/; SameSite=Lax".toList := by
      simp [setCookieHeader, sidCookie, Cookie.text, sessionCookie]
    have hplain : ∀ c ∈ (sidCookie bytes).text, (c != ';') = true := by
      intro c hc
      exact (Bool.and_eq_true_iff.mp (List.all_eq_true.mp (sidCookie bytes).text_plain c hc)).2
    rw [htext, List.takeWhile_append_of_pos hplain]
    simp
  have hname : ((sidCookie bytes).text.takeWhile (· != '=')) = sessionCookie.toList := by
    simp [sidCookie, Cookie.text, sessionCookie]
  have hvalue : ((sidCookie bytes).text.dropWhile (· != '=')).drop 1 =
      (Base64Url.encode bytes).toList := by
    simp [sidCookie, Cookie.text, sessionCookie]
  have hok : plainText sessionCookie.toList = true ∧ sessionCookie.toList.contains '=' = false ∧
      plainText (Base64Url.encode bytes).toList = true :=
    ⟨by decide, by decide, plainText_encode bytes⟩
  simp only [Cookie.parse, hpair, hname, hvalue, String.ofList_toList, dif_pos hok]
  rfl

end Headers

/-! ## Browsers and the server -/

/-- The server, and what the browsers keep. -/
structure Web (D : Type u) where
  server : State D
  cookies : ℕ → List Cookie
  /-- who sent a request -/
  sender : ℕ → Option ℕ

/-- What can happen. -/
inductive WebEvent (D : Type u) where
  /-- a browser sends a request, with all its cookies -/
  | visit (b r : ℕ)
  /-- a request is answered, and its browser keeps the cookie of a new session -/
  | answer (r : ℕ)
  /-- a user, or another page, changes the cookies of a browser -/
  | edit (b : ℕ) (cookies : List Cookie)
  /-- all else, by which no request comes in -/
  | server (ev : Event D)
  deriving DecidableEq

/-- Events that bring in a request. -/
def bringsRequest {D : Type u} : Event D → Bool
  | .request .. => true
  | _ => false

section Web

variable {D : Type u} [Inhabited D] (store : SessionStore)

namespace Web

/-- One event. -/
def step (w : Web D) : WebEvent D → Option (Web D)
  | .visit b r =>
    let cookie := readCookie (cookieHeader (w.cookies b)) sessionCookie
    (w.server.step store (.request r cookie)).map fun server =>
      { w with server := server, sender := Function.update w.sender r (some b) }
  | .answer r =>
    match w.server.requests r, w.sender r with
    | some (.handle session), some b =>
      let told := if session.isNew then Cookie.parse (setCookieHeader session.id) else none
      (w.server.step store (.finish r)).map fun server =>
        { w with
          server := server
          cookies := Function.update w.cookies b (told.elim (w.cookies b) (keep (w.cookies b))) }
    | _, _ => none
  | .edit b cookies =>
    -- nobody makes up a session id
    if cookies.all fun c => decide (c.name ≠ sessionCookie) || (w.cookies b).contains c then
      some { w with cookies := Function.update w.cookies b cookies }
    else none
  | .server ev =>
    if bringsRequest ev then none
    else (w.server.step store ev).map fun server => { w with server := server }

/-- Before the first request; no browser has been told a session. -/
structure Start (w : Web D) : Prop where
  server : State.Start store w.server
  cookies : ∀ b c, c ∈ w.cookies b → c.name ≠ sessionCookie
  sender : ∀ r, w.sender r = none

end Web

/-- The server and its browsers. -/
def web (D : Type u) [Inhabited D] : System (Web D) (WebEvent D) :=
  ⟨Web.Start store, Web.step store⟩

variable {store} {w w' : Web D} {owner : String → Option ℕ} {r b : ℕ}

/-- For the server an event is one of its own, or none. -/
theorem step_server {a : WebEvent D} (hs : w.step store a = some w') :
    w'.server = w.server ∨ ∃ ev, w.server.step store ev = some w'.server := by
  cases a with
  | visit b r =>
    obtain ⟨server, hstep, rfl⟩ := Option.map_eq_some_iff.mp hs
    exact .inr ⟨_, hstep⟩
  | answer r =>
    simp only [Web.step] at hs
    split at hs
    · obtain ⟨server, hstep, rfl⟩ := Option.map_eq_some_iff.mp hs
      exact .inr ⟨_, hstep⟩
    · cases hs
  | edit b cookies =>
    simp only [Web.step] at hs
    split_ifs at hs
    obtain rfl := Option.some.inj hs
    exact .inl rfl
  | server ev =>
    simp only [Web.step] at hs
    split_ifs at hs
    obtain ⟨server, hstep, rfl⟩ := Option.map_eq_some_iff.mp hs
    exact .inr ⟨ev, hstep⟩

/-- **The server of the browsers** is the store with its requests. -/
theorem server_reachable (hw : (web store D).Reachable w) :
    (rolling store D).Reachable w.server := by
  refine System.Invariant.reachable (M := web store D)
    (I := fun w => (rolling store D).Reachable w.server) ?_ ?_ hw
  · intro w a w' h hs
    rcases step_server hs with heq | ⟨ev, hstep⟩
    · rw [heq]
      exact h
    · exact h.step hstep
  · intro w hstart
    exact ⟨w.server, [], hstart.server, rfl⟩

/-! ### Whose session it is -/

/-- Every session has one owner: only it has the cookie, and only its requests are about it. -/
structure Owned (owner : String → Option ℕ) (w : Web D) : Prop where
  cookies : ∀ b c, c ∈ w.cookies b → c.name = sessionCookie →
    owner c.value = some b ∧ c.value ≠ ""
  requests : ∀ r pc, w.server.requests r = some pc →
    ∃ b, w.sender r = some b ∧ ∀ sid, pc.about = some sid → owner sid = some b
  /-- a new session has an id that was drawn -/
  drawn : ∀ r session, w.server.requests r = some (.handle session) → session.isNew = true →
    ∃ bytes, bytes ≠ [] ∧ session.id = Base64Url.encode bytes
  log : ∀ c, c ∈ w.server.log → ∀ r, c.request = some r →
    ∃ b, w.sender r = some b ∧ owner c.sid = some b
  known : ∀ sid b, owner sid = some b → sid ∈ w.server.known
  sender : ∀ r b, w.sender r = some b → w.server.requests r ≠ none

theorem mem_keep {cookies : List Cookie} {c d : Cookie} (h : c ∈ keep cookies d) :
    c = d ∨ c ∈ cookies := by
  unfold keep at h
  split_ifs at h
  · obtain ⟨c', hc', rfl⟩ := List.mem_map.mp h
    split_ifs
    · exact .inl rfl
    · exact .inr hc'
  · rcases List.mem_append.mp h with hold | hnew
    · exact .inr hold
    · exact .inl (List.mem_singleton.mp hnew)

namespace Owned

section

omit [Inhabited D]

/-- A request goes on; what it is about is its sender's. -/
theorem goto (h : Owned owner w) {pc : RequestPc D} (hb : w.sender r = some b)
    (habout : ∀ sid, pc.about = some sid → owner sid = some b)
    (hdrawn : ∀ session, pc = .handle session → session.isNew = true →
      ∃ bytes, bytes ≠ [] ∧ session.id = Base64Url.encode bytes) :
    Owned owner { w with server := w.server.goto r pc } := by
  refine { h with requests := ?_, drawn := ?_, sender := ?_ }
  · intro r' pc' hr'
    rcases Slots.found_cases_some hr' with ⟨rfl, rfl⟩ | ⟨-, hold⟩
    · exact ⟨b, hb, habout⟩
    · exact h.requests r' pc' hold
  · intro r' session hr' hnew
    rcases Slots.found_cases_some hr' with ⟨-, heq⟩ | ⟨-, hold⟩
    · exact hdrawn session heq.symm hnew
    · exact h.drawn r' session hold hnew
  · intro r' b' hb' hnone
    exact h.sender r' b' hb' (Slots.free_of_update hnone).2

/-- A command on a session of the sender. -/
theorem command (h : Owned owner w) {c : Command D} (keys : String → Option (Entry D))
    (hc : ∀ r, c.request = some r → ∃ b, w.sender r = some b ∧ owner c.sid = some b) :
    Owned owner { w with server := { w.server with keys := keys, log := c :: w.server.log } } := by
  refine { h with log := ?_ }
  intro c' hc' r hr
  rcases List.mem_cons.mp hc' with rfl | hold
  · exact hc r hr
  · exact h.log c' hold r hr

theorem more (h : Owned owner w) (ids : List String) :
    Owned owner { w with server := { w.server with known := ids ++ w.server.known } } :=
  { h with known := fun sid b hsid => List.mem_append_right _ (h.known sid b hsid) }

/-- A session that nobody has seen gets an owner. -/
theorem give (h : Owned owner w) {sid : String} (b : ℕ) (hnew : sid ∉ w.server.known) :
    Owned (Function.update owner sid (some b))
      { w with server := { w.server with known := sid :: w.server.known } } := by
  have hkeeps : ∀ sid' b', owner sid' = some b' →
      Function.update owner sid (some b) sid' = some b' := by
    intro sid' b' hsid'
    have hne : sid' ≠ sid := by
      rintro rfl
      exact hnew (h.known _ b' hsid')
    exact (Function.update_of_ne hne ..).trans hsid'
  refine { h with cookies := ?_, requests := ?_, log := ?_, known := ?_ }
  · intro b' c hc hname
    obtain ⟨howner, hne⟩ := h.cookies b' c hc hname
    exact ⟨hkeeps _ _ howner, hne⟩
  · intro r pc hr
    obtain ⟨b', hb', habout⟩ := h.requests r pc hr
    exact ⟨b', hb', fun sid' hsid' => hkeeps _ _ (habout sid' hsid')⟩
  · intro c hc r hr
    obtain ⟨b', hb', howner⟩ := h.log c hc r hr
    exact ⟨b', hb', hkeeps _ _ howner⟩
  · intro sid' b' hsid'
    rcases Slots.found_cases_some hsid' with ⟨rfl, -⟩ | ⟨-, hold⟩
    · exact List.mem_cons_self ..
    · exact List.mem_cons_of_mem _ (h.known sid' b' hold)

/-- Cookies of a browser change: its session cookies are its own. -/
theorem tell (h : Owned owner w) {cookies : List Cookie}
    (hcookies : ∀ c ∈ cookies, c.name = sessionCookie → owner c.value = some b ∧ c.value ≠ "") :
    Owned owner { w with cookies := Function.update w.cookies b cookies } := by
  refine { h with cookies := fun b' c hc hname => ?_ }
  by_cases hb : b' = b
  · subst hb
    exact hcookies c (Function.update_self b' cookies w.cookies ▸ hc) hname
  · exact h.cookies b' c (Function.update_of_ne hb cookies w.cookies ▸ hc) hname

end

/-- A browser sends a request: its session cookie is its own. -/
theorem visit (h : Owned owner w) (hs : w.step store (.visit b r) = some w') : Owned owner w' := by
  obtain ⟨server, hstep, rfl⟩ := Option.map_eq_some_iff.mp hs
  simp only [State.step] at hstep
  split at hstep
  · rename_i hfree
    obtain rfl := Option.some.inj hstep
    have hother : ∀ r' b', w.sender r' = some b' → r' ≠ r := by
      rintro r' b' hb' rfl
      exact h.sender r' b' hb' hfree
    refine ⟨h.cookies, ?_, ?_, ?_, fun sid b' hsid => ?_, ?_⟩
    · intro r' pc hr'
      rcases Slots.found_cases_some hr' with ⟨rfl, rfl⟩ | ⟨hne, hold⟩
      · refine ⟨b, Function.update_self .., fun sid hsid => ?_⟩
        rw [readCookie_cookieHeader] at hsid
        rcases hfind : (w.cookies b).find? (fun c => c.name = sessionCookie) with _ | c
        · rw [hfind] at hsid
          cases hsid
        · have hc := List.mem_of_find?_eq_some hfind
          have hname : c.name = sessionCookie := by simpa using List.find?_some hfind
          obtain ⟨howner, hne⟩ := h.cookies b c hc hname
          rw [hfind, Option.map_some, RequestPc.ofCookie, if_neg hne] at hsid
          obtain rfl := Option.some.inj hsid
          exact howner
      · obtain ⟨b', hb', habout⟩ := h.requests r' pc hold
        exact ⟨b', (Function.update_of_ne hne ..).trans hb', habout⟩
    · intro r' session hr' hnew
      rcases Slots.found_cases_some hr' with ⟨-, heq⟩ | ⟨-, hold⟩
      · rcases hcookie : readCookie (cookieHeader (w.cookies b)) sessionCookie with _ | sid
        · rw [hcookie] at heq
          cases heq
        · rw [hcookie, RequestPc.ofCookie] at heq
          split_ifs at heq
      · exact h.drawn r' session hold hnew
    · intro c hc r' hr'
      obtain ⟨b', hb', howner⟩ := h.log c hc r' hr'
      exact ⟨b', (Function.update_of_ne (hother r' b' hb') ..).trans hb', howner⟩
    · exact List.mem_append_right _ (h.known sid b' hsid)
    · intro r' b' hb' hnone
      obtain ⟨hne, hold⟩ := Slots.free_of_update hnone
      exact h.sender r' b' ((Function.update_of_ne hne ..).symm.trans hb') hold
  · cases hstep

/-- A browser keeps the cookie it is told, which is that of its own session. -/
theorem answer (h : Owned owner w) (hs : w.step store (.answer r) = some w') :
    Owned owner w' := by
  simp only [Web.step] at hs
  split at hs
  · rename_i session b hr hb
    obtain ⟨server, hstep, rfl⟩ := Option.map_eq_some_iff.mp hs
    have hended : server = w.server.goto r .ended := by
      simp only [State.step, hr] at hstep
      exact (Option.some.inj hstep).symm
    subst hended
    have hgoto : Owned owner { w with server := w.server.goto r .ended } :=
      h.goto hb (fun sid hsid => by cases hsid) fun session heq => by cases heq
    refine hgoto.tell fun c hc hname => ?_
    rcases htold : (if session.isNew then Cookie.parse (setCookieHeader session.id) else none)
      with _ | d
    · rw [htold] at hc
      exact h.cookies b c hc hname
    · rw [htold] at hc
      split_ifs at htold with hnew
      obtain ⟨bytes, hbytes, hid⟩ := h.drawn r session hr hnew
      rw [hid, parse_setCookieHeader] at htold
      obtain rfl := Option.some.inj htold
      rcases mem_keep hc with rfl | hold
      · obtain ⟨b', hb', habout⟩ := h.requests r _ hr
        obtain rfl := Option.some.inj (hb.symm.trans hb')
        have howner := habout session.id rfl
        rw [hid] at howner
        exact ⟨howner, Base64Url.encode_ne_empty hbytes⟩
      · exact h.cookies b c hold hname
  · cases hs

/-- The server goes on: a command is on the session of the request's own sender. -/
theorem server {ev : Event D} (h : Owned owner w) (hs : w.step store (.server ev) = some w') :
    ∃ owner', Owned owner' w' := by
  simp only [Web.step] at hs
  split_ifs at hs with hrequest
  obtain ⟨server, hstep, rfl⟩ := Option.map_eq_some_iff.mp hs
  cases ev with
  | request r cookie => exact absurd rfl hrequest
  | touch r =>
    simp only [State.step] at hstep
    split at hstep
    · rename_i sid hr
      obtain rfl := Option.some.inj hstep
      obtain ⟨b, hb, habout⟩ := h.requests r _ hr
      have hcommand := h.command (c := ⟨sid, w.server.clock, .touched, some r⟩)
        (w.server.getex store (some r) sid).1.keys
        fun r' hr' => Option.some.inj hr' ▸ ⟨b, hb, habout sid rfl⟩
      refine ⟨owner, hcommand.goto hb (fun sid' hsid' => ?_) fun session heq hnew => ?_⟩
      · rw [State.touched_about hsid']
        exact habout sid rfl
      · rw [State.touched_isNew heq] at hnew
        cases hnew
    · cases hstep
  | create r bytes =>
    simp only [State.step] at hstep
    split at hstep
    · rename_i hr
      split_ifs at hstep with hnew
      obtain rfl := Option.some.inj hstep
      obtain ⟨hlength, hknown⟩ := not_or.mp hnew
      obtain ⟨b, hb, -⟩ := h.requests r _ hr
      have hfresh : Base64Url.encode bytes ∉ w.server.known :=
        fun hmem => hknown (List.contains_iff_mem.mpr hmem)
      have hgive := h.give b hfresh
      have hcommand := hgive.command
        (c := ⟨Base64Url.encode bytes, w.server.clock, .wrote default, some r⟩)
        (w.server.set store (some r) (Base64Url.encode bytes) default).keys
        fun r' hr' => Option.some.inj hr' ▸ ⟨b, hb, Function.update_self ..⟩
      refine ⟨_, hcommand.goto hb (fun sid hsid => ?_) fun session heq _ => ?_⟩
      · obtain rfl := Option.some.inj hsid
        exact Function.update_self ..
      · cases heq
        refine ⟨bytes, ?_, rfl⟩
        rintro rfl
        exact hlength (by decide)
    · cases hstep
  | save r data =>
    simp only [State.step] at hstep
    split at hstep
    · rename_i session hr
      obtain rfl := Option.some.inj hstep
      obtain ⟨b, hb, habout⟩ := h.requests r _ hr
      exact ⟨owner, h.command (c := ⟨session.id, w.server.clock, .wrote data, some r⟩)
        (w.server.set store (some r) session.id data).keys
        fun r' hr' => Option.some.inj hr' ▸ ⟨b, hb, habout session.id rfl⟩⟩
    · cases hstep
  | finish r =>
    simp only [State.step] at hstep
    split at hstep
    · cases hstep
    · cases hstep
    · rename_i pc _ hr
      obtain rfl := Option.some.inj hstep
      obtain ⟨b, hb, -⟩ := h.requests r _ hr
      exact ⟨owner, h.goto hb (fun sid hsid => by cases hsid) fun session heq => by cases heq⟩
  | destroy sid =>
    obtain rfl := Option.some.inj hstep
    have hcommand := h.command (c := ⟨sid, w.server.clock, .deleted, none⟩)
      (w.server.del store sid).keys fun r hr => by cases hr
    exact ⟨owner, hcommand.more [sid]⟩
  | tick ms =>
    obtain rfl := Option.some.inj hstep
    exact ⟨owner, { h with }⟩
  | expire sid =>
    simp only [State.step] at hstep
    split_ifs at hstep
    obtain rfl := Option.some.inj hstep
    exact ⟨owner, { h with }⟩

theorem step {a : WebEvent D} (h : Owned owner w) (hs : w.step store a = some w') :
    ∃ owner', Owned owner' w' := by
  cases a with
  | visit b r => exact ⟨owner, h.visit hs⟩
  | answer r => exact ⟨owner, h.answer hs⟩
  | server ev => exact h.server hs
  | edit b cookies =>
    simp only [Web.step] at hs
    split_ifs at hs with hedit
    obtain rfl := Option.some.inj hs
    refine ⟨owner, h.tell fun c hc hname => ?_⟩
    rcases Bool.or_eq_true_iff.mp (List.all_eq_true.mp hedit c hc) with hother | hold
    · exact absurd hname (of_decide_eq_true hother)
    · exact h.cookies b c (List.contains_iff_mem.mp hold) hname

end Owned

theorem owned_reachable (hw : (web store D).Reachable w) : ∃ owner, Owned owner w := by
  refine System.Invariant.reachable (M := web store D) (I := fun w => ∃ owner, Owned owner w)
    ?_ (fun w hstart => ⟨fun _ => none, ?_⟩) hw
  · intro w a w' h hs
    obtain ⟨owner, howned⟩ := h
    exact howned.step hs
  have hrequests := hstart.server.requests
  refine ⟨fun b c hc hname => ?_, fun r pc hr => ?_, fun r session hr => ?_, fun c hc => ?_,
    fun sid b h => ?_, fun r b hb => ?_⟩
  · exact absurd hname (hstart.cookies b c hc)
  · cases (hrequests r).symm.trans hr
  · cases (hrequests r).symm.trans hr
  · rw [hstart.server.log] at hc
    cases hc
  · cases h
  · cases (hstart.sender r).symm.trans hb

/-- **Two browsers never share a session.** Whatever requests of whatever browsers run in between:
while a request has a session in its hands, every command of a request on that session was one
of the same browser, so what the session holds is its own; no request of another browser is
about the session; and no other browser has its cookie. -/
theorem sessions_isolated {session : RequestSession D} (hw : (web store D).Reachable w)
    (hr : w.server.requests r = some (.handle session)) :
    ∃ b, w.sender r = some b ∧
      (∀ c ∈ w.server.on session.id, ∀ r', c.request = some r' → w.sender r' = some b) ∧
      (∀ r' pc, w.server.requests r' = some pc → pc.about = some session.id →
        w.sender r' = some b) ∧
      ∀ b' c, c ∈ w.cookies b' → c.name = sessionCookie → c.value = session.id → b' = b := by
  obtain ⟨owner, h⟩ := owned_reachable hw
  obtain ⟨b, hb, habout⟩ := h.requests r _ hr
  have howner := habout session.id rfl
  refine ⟨b, hb, fun c hc r' hr' => ?_, fun r' pc hr' hsid => ?_, fun b' c hc hname hvalue => ?_⟩
  · obtain ⟨hlog, hsid⟩ := List.mem_filter.mp hc
    obtain ⟨b', hb', hsame⟩ := h.log c hlog r' hr'
    rw [of_decide_eq_true hsid, howner] at hsame
    rwa [Option.some.inj hsame]
  · obtain ⟨b', hb', hothers⟩ := h.requests r' pc hr'
    have hsame := hothers session.id hsid
    rw [howner] at hsame
    rwa [Option.some.inj hsame]
  · have hsame := (h.cookies b' c hc hname).1
    rw [hvalue, howner] at hsame
    exact (Option.some.inj hsame).symm

/-! ### A browser that comes back -/

/-- Until its touch or its end a request waits. -/
theorem waits {sid : String} {s s' : State D} {ev : Event D}
    (hr : s.requests r = some (.touch sid)) (htouch : ev ≠ .touch r) (hfinish : ev ≠ .finish r)
    (hs : s.step store ev = some s') : s'.requests r = some (.touch sid) := by
  have hother : ∀ (r' : ℕ) (pc : RequestPc D), r' ≠ r →
      Function.update s.requests r' (some pc) r = some (.touch sid) :=
    fun r' pc hne => (Function.update_of_ne hne.symm ..).trans hr
  cases ev with
  | request r' cookie =>
    simp only [State.step] at hs
    split at hs
    · rename_i hfree
      obtain rfl := Option.some.inj hs
      exact hother r' _ fun heq => by cases (heq ▸ hfree).symm.trans hr
    · cases hs
  | touch r' =>
    simp only [State.step] at hs
    split at hs
    · obtain rfl := Option.some.inj hs
      exact hother r' _ fun heq => htouch (heq ▸ rfl)
    · cases hs
  | create r' bytes =>
    simp only [State.step] at hs
    split at hs
    · rename_i hr'
      split_ifs at hs
      obtain rfl := Option.some.inj hs
      exact hother r' _ fun heq => by cases (heq ▸ hr').symm.trans hr
    · cases hs
  | save r' data =>
    simp only [State.step] at hs
    split at hs
    · obtain rfl := Option.some.inj hs
      exact hr
    · cases hs
  | finish r' =>
    simp only [State.step] at hs
    split at hs
    · cases hs
    · cases hs
    · obtain rfl := Option.some.inj hs
      exact hother r' _ fun heq => hfinish (heq ▸ rfl)
  | destroy sid' | tick ms =>
    obtain rfl := Option.some.inj hs
    exact hr
  | expire sid' =>
    simp only [State.step] at hs
    split_ifs at hs
    obtain rfl := Option.some.inj hs
    exact hr

theorem web_waits {sid : String} {a : WebEvent D}
    (hr : w.server.requests r = some (.touch sid)) (htouch : a ≠ .server (.touch r))
    (hfinish : a ≠ .server (.finish r)) (hs : w.step store a = some w') :
    w'.server.requests r = some (.touch sid) := by
  cases a with
  | visit b r' =>
    obtain ⟨server, hstep, rfl⟩ := Option.map_eq_some_iff.mp hs
    exact waits hr (fun heq => by cases heq) (fun heq => by cases heq) hstep
  | answer r' =>
    simp only [Web.step] at hs
    split at hs
    · rename_i session b hr' _
      obtain ⟨server, hstep, rfl⟩ := Option.map_eq_some_iff.mp hs
      refine waits hr (fun heq => by cases heq) (fun heq => ?_) hstep
      obtain rfl := Event.finish.inj heq
      cases hr'.symm.trans hr
    · cases hs
  | edit b cookies =>
    simp only [Web.step] at hs
    split_ifs at hs
    obtain rfl := Option.some.inj hs
    exact hr
  | server ev =>
    simp only [Web.step] at hs
    split_ifs at hs
    obtain ⟨server, hstep, rfl⟩ := Option.map_eq_some_iff.mp hs
    exact waits hr (fun heq => htouch (heq ▸ rfl)) (fun heq => hfinish (heq ▸ rfl)) hstep

theorem web_waits_run {sid : String} {as : List (WebEvent D)}
    (hr : w.server.requests r = some (.touch sid))
    (hwaits : ∀ a ∈ as, a ≠ .server (.touch r) ∧ a ≠ .server (.finish r))
    (hrun : (web store D).run w as = some w') : w'.server.requests r = some (.touch sid) := by
  induction as generalizing w with
  | nil =>
    obtain rfl := Option.some.inj hrun
    exact hr
  | cons a as ih =>
    obtain ⟨w₁, hstep, hrest⟩ := System.run_cons_eq_some hrun
    obtain ⟨htouch, hfinish⟩ := hwaits a (List.mem_cons_self ..)
    exact ih (web_waits hr htouch hfinish hstep)
      (fun a' ha' => hwaits a' (List.mem_cons_of_mem _ ha')) hrest

/-- **A browser that comes back in time** finds its session. It sends the cookie it was told, and
however long the request waits among others: the session the middleware finds is that of the
cookie, with what was written last. It does find one unless some silence took a ttl or the
session was destroyed after it was last written; when it finds none it begins a new one. -/
theorem visit_keeps_session {w₁ w₂ : Web D} {c : Cookie} (as : List (WebEvent D))
    (hw : (web store D).Reachable w)
    (hcookie : (w.cookies b).find? (fun c => c.name = sessionCookie) = some c)
    (hvisit : w.step store (.visit b r) = some w₁) (hrun : (web store D).run w₁ as = some w₂)
    (hwaits : ∀ a ∈ as, a ≠ .server (.touch r) ∧ a ≠ .server (.finish r)) :
    ∃ w₃, w₂.step store (.server (.touch r)) = some w₃ ∧
      ((∃ data, w₃.server.requests r = some (.handle ⟨c.value, data, false⟩) ∧
          Held store.inTime data w₂.server.clock (w₂.server.on c.value)) ∨
        w₃.server.requests r = some .create ∧
          ∀ data, ¬ Held store.early data w₂.server.clock (w₂.server.on c.value)) := by
  have hsent : w₁.server.requests r = some (.touch c.value) := by
    obtain ⟨owner, h⟩ := owned_reachable hw
    have hname : c.name = sessionCookie := by simpa using List.find?_some hcookie
    have hne := (h.cookies b c (List.mem_of_find?_eq_some hcookie) hname).2
    obtain ⟨server, hstep, rfl⟩ := Option.map_eq_some_iff.mp hvisit
    rw [readCookie_cookieHeader, hcookie] at hstep
    simp only [State.step] at hstep
    split at hstep
    · obtain rfl := Option.some.inj hstep
      refine (Function.update_self ..).trans ?_
      rw [Option.map_some, RequestPc.ofCookie, if_neg hne]
    · cases hstep
  have hstep : (web store D).step w (.visit b r) = some w₁ := hvisit
  have hreach : (web store D).Reachable w₂ := (hw.step hstep).run hrun
  have hwaiting := web_waits_run hsent hwaits hrun
  obtain ⟨server, hstep, hfound⟩ := touch_finds_held (server_reachable hreach) hwaiting
  refine ⟨{ w₂ with server := server }, ?_, hfound⟩
  simp only [Web.step, hstep]
  rfl

end Web

/-! ## A visit and another one -/

/-- Nobody was here. The data of a session counts its visits. -/
def nobody : Web ℕ := ⟨⟨fun _ => none, 0, fun _ => none, [], []⟩, fun _ => [], fun _ => none⟩

theorem nobody_start : nobody.Start demoStore :=
  ⟨⟨fun _ => rfl, fun _ => rfl, rfl⟩, fun _ _ hc => (by cases hc), fun _ => rfl⟩

/-- The cookie of its first visit. -/
def demoCookie : Cookie := sidCookie (List.replicate 24 7)

/-- A browser visits, and some time later is back. -/
def demoVisits (ms : ℕ) : List (WebEvent ℕ) :=
  [.visit 0 0, .server (.create 0 (List.replicate 24 7)), .server (.save 0 1), .answer 0,
    .server (.tick ms)]

/-- Back within the ttl, the browser has its session and what was saved in it. -/
theorem demoVisits_kept : ∃ w w₁ w₃, (web demoStore ℕ).run nobody (demoVisits 19000) = some w ∧
    w.step demoStore (.visit 0 1) = some w₁ ∧ w₁.step demoStore (.server (.touch 1)) = some w₃ ∧
    ∃ data, w₃.server.requests 1 = some (.handle ⟨demoCookie.value, data, false⟩) ∧
      Held demoStore.inTime data w₁.server.clock (w₁.server.on demoCookie.value) := by
  have hsome : ((web demoStore ℕ).run nobody (demoVisits 19000)).any (fun w =>
      decide ((w.cookies 0).find? (fun c => c.name = sessionCookie) = some demoCookie) &&
      (w.step demoStore (.visit 0 1)).any fun w₁ =>
        (w₁.step demoStore (.server (.touch 1))).any fun w₃ =>
          !decide (w₃.server.requests 1 = some .create)) = true := by decide +kernel
  obtain ⟨w, hw, hnext⟩ := (Option.any_eq_true _ _).mp hsome
  obtain ⟨hcookie, hvisits⟩ := Bool.and_eq_true_iff.mp hnext
  obtain ⟨w₁, hvisit, htouches⟩ := (Option.any_eq_true _ _).mp hvisits
  obtain ⟨w₃, htouch, hfound⟩ := (Option.any_eq_true _ _).mp htouches
  obtain ⟨w₃', htouch', hkept | ⟨hcreate, -⟩⟩ := visit_keeps_session []
    ⟨nobody, demoVisits 19000, nobody_start, hw⟩ (of_decide_eq_true hcookie) hvisit rfl
    (fun a ha => by cases ha)
  · exact ⟨w, w₁, w₃', hw, hvisit, htouch', hkept⟩
  · obtain rfl := Option.some.inj (htouch.symm.trans htouch')
    rw [decide_eq_true hcreate] at hfound
    cases hfound

/-- And nobody else has it. -/
theorem demoVisits_isolated : ∃ w, (web demoStore ℕ).run nobody
      (demoVisits 19000 ++ [.visit 0 1, .server (.touch 1)]) = some w ∧
    ∃ b, w.sender 1 = some b ∧
      (∀ c ∈ w.server.on demoCookie.value, ∀ r', c.request = some r' → w.sender r' = some b) ∧
      (∀ r' pc, w.server.requests r' = some pc → pc.about = some demoCookie.value →
        w.sender r' = some b) ∧
      ∀ b' c, c ∈ w.cookies b' → c.name = sessionCookie → c.value = demoCookie.value →
        b' = b := by
  have hsome : ((web demoStore ℕ).run nobody
      (demoVisits 19000 ++ [.visit 0 1, .server (.touch 1)])).any (fun w =>
      decide (w.server.requests 1 = some (.handle ⟨demoCookie.value, 1, false⟩))) = true := by
    decide +kernel
  obtain ⟨w, hw, hfound⟩ := (Option.any_eq_true _ _).mp hsome
  exact ⟨w, hw, sessions_isolated ⟨nobody, _, nobody_start, hw⟩ (of_decide_eq_true hfound)⟩

end Marketplace.Browsers
