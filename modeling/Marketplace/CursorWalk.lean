import Marketplace.OrdersApi

/-!
# Walking with a cursor

The cursor is an offset into the list that a page is cut from. That is right because of
what the list does between two requests: it grows at its end, and nowhere else. The
orders of one user grow so too, whatever is filtered out between them.

What a walk has seen is, by key, the list as far as its cursor (`Seen`). A page continues
it; growth leaves it alone; a null cursor says that it is the whole list.
-/

namespace Marketplace.Api

/-! ## Cursors -/

/-- What a cursor says that the server has made. -/
theorem cursorText_encodeCursor (offset : ℕ) :
    cursorText (encodeCursor offset) = NumericLiteral.text offset := by
  rw [cursorText, encodeCursor, Base64Url.decode_encode, Utf8.decode_encode, String.ofList_toList]

/-- A cursor is read as the natural number that it says. -/
theorem decodeCursor_eq {raw : String} {offset : ℕ}
    (h : NumericLiteral.number (cursorText raw) = some (offset : ℚ)) :
    decodeCursor raw = .ok offset := by
  have hinteger : ((offset : ℚ).den = 1 ∧ 0 ≤ (offset : ℚ)) :=
    ⟨Rat.den_natCast offset, Rat.natCast_nonneg⟩
  rw [decodeCursor, h]
  simp only [if_pos hinteger, Rat.num_natCast, Int.toNat_natCast]
  rfl

/-- **A cursor is read back as the offset it was made of.** -/
theorem decodeCursor_encodeCursor {offset : ℕ} (h : Binary64.Representable offset) :
    decodeCursor (encodeCursor offset) = .ok offset :=
  decodeCursor_eq (by rw [cursorText_encodeCursor, NumericLiteral.number_text h])

theorem encodeCursor_ne_empty (offset : ℕ) : encodeCursor offset ≠ "" := by
  refine Base64Url.encode_ne_empty ?_
  intro hnil
  have hempty := Utf8.encode_eq_nil hnil
  exact NumericLiteral.text_ne_empty offset (String.toList_eq_nil_iff.mp hempty)

theorem offsetOf_encodeCursor {offset : ℕ} (h : Binary64.Representable offset) :
    offsetOf (some (encodeCursor offset)) = .ok offset := by
  rw [offsetOf, if_neg (encodeCursor_ne_empty offset), decodeCursor_encodeCursor h]

/-- A page at a known offset. -/
theorem paginate_eq {α : Type} {all : List α} {limit offset : ℕ} {cursor : Option String}
    (h : offsetOf cursor = .ok offset) :
    paginate all limit cursor = .ok ⟨(all.drop offset).take limit,
      if offset + ((all.drop offset).take limit).length < all.length then
        some (encodeCursor (offset + ((all.drop offset).take limit).length)) else none⟩ := by
  rw [paginate, h]
  rfl

/-! ## One walk through one list -/

namespace Walk

variable {α : Type} {key : α → String} {all all' : List α} {w w' : Walk α} {limit : ℕ}

/-- Everything the walk has got, page after page. -/
def seen (w : Walk α) : List α := w.pages.flatten

/-- By key, the walk has seen the list as far as its cursor, and its requests are accepted. -/
structure Seen (key : α → String) (all : List α) (w : Walk α) : Prop where
  listed : w.seen.map key <+: all.map key
  cursor : ∀ c, w.status = .going c → offsetOf c = .ok w.seen.length
  accepted : w.status ≠ .refused

/-- Growth of the list leaves alone what was seen of it. -/
theorem Seen.grow (h : Seen key all w) (hgrow : all.map key <+: all'.map key) : Seen key all' w :=
  ⟨h.listed.trans hgrow, h.cursor, h.accepted⟩

theorem Seen.length_le (h : Seen key all w) : w.seen.length ≤ all.length := by
  have hle := h.listed.length_le
  rwa [List.length_map, List.length_map] at hle

/-- What comes after the part that was seen. -/
theorem Seen.rest (h : Seen key all w) :
    all.map key = w.seen.map key ++ (all.drop w.seen.length).map key := by
  obtain ⟨rest, hrest⟩ := h.listed
  have hdrop : (all.drop w.seen.length).map key = rest := by
    rw [List.map_drop, ← hrest]
    exact (List.drop_left' (List.length_map ..))
  rw [hdrop, hrest]

/-- A walk that has seen as many as there are has seen all. -/
theorem Seen.eq_of_length (h : Seen key all w) (hlength : w.seen.length = all.length) :
    w.seen.map key = all.map key :=
  h.listed.eq_of_length (by rw [List.length_map, List.length_map, hlength])

/-- What is left of the walk, counted in requests. -/
def left (all : List α) (w : Walk α) : ℕ :=
  match w.status with
  | .going _ => max 1 (all.length - w.seen.length)
  | _ => 0

/-- What a request makes of a walk. -/
structure Paged (key : α → String) (all : List α) (limit : ℕ) (w w' : Walk α) (page : List α) :
    Prop where
  pages : w'.pages = w.pages ++ [page]
  length_le : page.length ≤ limit
  mem : ∀ x ∈ page, x ∈ all
  seen : Seen key all w'
  ended : w'.status = .ended ↔ w'.seen.map key = all.map key
  left : w'.left all < w.left all

/-- **A request for the next page.** -/
theorem Seen.request (h : Seen key all w) (hroom : all.length ≤ maxLength) (hlimit : 1 ≤ limit)
    (hw : w.request all limit = some w') : ∃ page, Paged key all limit w w' page := by
  rcases hstatus : w.status with c | - | -
  · have hcursor := h.cursor c hstatus
    have hle := h.length_le
    simp only [Walk.request, hstatus, paginate_eq hcursor] at hw
    generalize hpage : (all.drop w.seen.length).take limit = page at hw
    obtain rfl := Option.some.inj hw
    have hseen : (w.pages ++ [page]).flatten = w.seen ++ page := by
      rw [List.flatten_append, List.flatten_singleton]
      rfl
    have hlength : page.length = min limit (all.length - w.seen.length) := by
      rw [← hpage, List.length_take, List.length_drop]
    have hlisted : (w.seen ++ page).map key <+: all.map key := by
      rw [h.rest, List.map_append, ← hpage]
      exact List.prefix_append_right_inj _ |>.mpr ((List.take_prefix ..).map key)
    by_cases hmore : w.seen.length + page.length < all.length
    · simp only [if_pos hmore]
      refine ⟨page, rfl, hlength ▸ Nat.min_le_left .., ?_, ⟨?_, ?_, ?_⟩, ?_, ?_⟩
      · exact fun x hx => List.mem_of_mem_drop (List.mem_of_mem_take (hpage ▸ hx))
      · simpa only [Walk.seen, hseen] using hlisted
      · rintro c' ⟨⟩
        have hrep : Binary64.Representable (w.seen.length + page.length) :=
          Binary64.representable_of_lt (by rw [maxLength] at hroom; omega)
        rw [offsetOf_encodeCursor hrep, ← List.length_append, ← hseen]
        rfl
      · exact fun h => by cases h
      · refine ⟨fun h => by (cases h), fun hall => ?_⟩
        have hlen := congrArg List.length hall
        rw [List.length_map, List.length_map, Walk.seen, hseen, List.length_append] at hlen
        omega
      · simp only [Walk.left, hstatus, Walk.seen, hseen, List.length_append]
        change max 1 (all.length - (w.seen.length + page.length)) <
          max 1 (all.length - w.seen.length)
        omega
    · simp only [if_neg hmore]
      refine ⟨page, rfl, hlength ▸ Nat.min_le_left .., ?_, ⟨?_, ?_, ?_⟩, ?_, ?_⟩
      · exact fun x hx => List.mem_of_mem_drop (List.mem_of_mem_take (hpage ▸ hx))
      · simpa only [Walk.seen, hseen] using hlisted
      · exact fun c' h => by cases h
      · exact fun h => by cases h
      · refine ⟨fun _ => ?_, fun _ => rfl⟩
        refine List.IsPrefix.eq_of_length ?_ ?_
        · simpa only [Walk.seen, hseen] using hlisted
        · rw [List.length_map, List.length_map, Walk.seen, hseen, List.length_append]
          omega
      · simp only [Walk.left, hstatus]
        omega
  · simp only [Walk.request, hstatus] at hw
    cases hw
  · simp only [Walk.request, hstatus] at hw
    cases hw

/-- A walk that has not ended can go on. -/
theorem Seen.goes_on (h : Seen key all w) (hstatus : w.status ≠ .ended) (limit : ℕ) :
    ∃ w', w.request all limit = some w' := by
  rcases hs : w.status with c | - | -
  · simp only [Walk.request, hs, paginate_eq (h.cursor c hs)]
    exact ⟨_, rfl⟩
  · exact absurd hs hstatus
  · exact absurd hs h.accepted

end Walk

/-! ## Lists that only grow -/

/-- Somebody creates an order. -/
def ApiEvent.createsOrder : ApiEvent → Bool
  | .createOrder _ _ => true
  | _ => false

/-- Somebody creates a product. -/
def ApiEvent.createsProduct : ApiEvent → Bool
  | .createProduct _ _ => true
  | _ => false

/-- An event of a walk. -/
def ApiEvent.walks : ApiEvent → Bool
  | .walkOrders _ _ | .listOrders _ _ | .walkProducts _ | .listProducts _ _ => true
  | _ => false

/-- A list in the state that somebody walks through. -/
structure Listing (α : Type) where
  all : ApiState → List α
  key : α → String
  /-- what may be shown to the one who walks -/
  Shows : α → Prop
  walk : ApiState → Option (Walk α)
  /-- the request for a page with this limit -/
  request : ℕ → ApiEvent
  asks : ApiEvent → Bool
  /-- the events that may lengthen the list -/
  creates : ApiEvent → Bool

/-- What the steps of the API do to the list and to the walk. -/
structure Listing.Lawful {α : Type} (L : Listing α) : Prop where
  shows : ∀ s, ∀ x ∈ L.all s, L.Shows x
  asks : ∀ limit, L.asks (L.request limit) = true
  limit : ∀ limit limit', L.request limit = L.request limit' → limit = limit'
  grows : ∀ s a s', s.step a = some s' → (L.all s).map L.key <+: (L.all s').map L.key
  steady : ∀ s a s', s.step a = some s' → L.creates a = false →
    (L.all s').map L.key = (L.all s).map L.key
  room : ∀ s a s', s.step a = some s' → (L.all s).length ≤ maxLength →
    (L.all s').length ≤ maxLength
  walks : ∀ s a s' w, s.step a = some s' → L.walk s = some w →
    (L.asks a = false ∧ L.walk s' = some w) ∨
      L.asks a = true ∧ ∃ limit w', a = L.request limit ∧ 1 ≤ limit ∧
        w.request (L.all s) limit = some w' ∧ L.walk s' = some w' ∧ L.all s' = L.all s
  answers : ∀ s w w' limit, L.walk s = some w → 1 ≤ limit →
    w.request (L.all s) limit = some w' → ∃ s', s.step (L.request limit) = some s'

/-- What a walk promises that began with the list of `r`, and has come to `w` in `s` after
the events `as`. -/
structure CursorLaw {α : Type} (L : Listing α) (r s : ApiState) (as : List ApiEvent) (w : Walk α) :
    Prop where
  walk : L.walk s = some w
  /-- only what may be shown -/
  shown : ∀ x ∈ w.seen, L.Shows x
  /-- in the order of the list, from its beginning on -/
  ordered : w.seen.map L.key <+: (L.all s).map L.key
  /-- nothing twice -/
  once : (w.seen.map L.key).Nodup
  /-- at the end, all that was there at the beginning -/
  complete : w.status = .ended → (L.all r).map L.key <+: w.seen.map L.key
  accepted : w.status ≠ .refused
  /-- a page has at most as many items as were asked for, and is the last one exactly when
  nothing is left at that moment -/
  page : ∀ as₁ as₂ limit t, as = as₁ ++ L.request limit :: as₂ → apis.run r as₁ = some t →
    ∃ y page t' y', L.walk t = some y ∧ t.step (L.request limit) = some t' ∧
      L.walk t' = some y' ∧ y'.pages = y.pages ++ [page] ∧ page.length ≤ limit ∧
      (y'.status = .ended ↔ y'.seen.map L.key = (L.all t).map L.key)
  /-- it can go on until it ends -/
  goes_on : w.status ≠ .ended → ∀ limit, 1 ≤ limit → ∃ s', s.step (L.request limit) = some s'
  /-- and ends, when nothing is created any more -/
  ends : ∀ bs t, apis.run s bs = some t → (∀ a ∈ bs, L.creates a = false) →
    bs.countP L.asks ≤ w.left (L.all s)

section Laws

variable {α : Type} {L : Listing α} {r s : ApiState} {as : List ApiEvent}

/-- What the run so far has made of a walk. -/
structure Walking (L : Listing α) (r s : ApiState) (w : Walk α) : Prop where
  walk : L.walk s = some w
  room : (L.all s).length ≤ maxLength
  seen : w.Seen L.key (L.all s)
  shown : ∀ x ∈ w.seen, L.Shows x
  grown : (L.all r).map L.key <+: (L.all s).map L.key
  complete : w.status = .ended → (L.all r).map L.key <+: w.seen.map L.key

/-- A request of the walk itself. -/
theorem Walking.request (h : Walking L r s w) (hL : L.Lawful) {limit : ℕ} {w' : Walk α}
    (hlimit : 1 ≤ limit) (hw : w.request (L.all s) limit = some w') {s' : ApiState}
    (hwalk : L.walk s' = some w') (hall : L.all s' = L.all s) : Walking L r s' w' := by
  obtain ⟨page, hpage⟩ := h.seen.request h.room hlimit hw
  refine ⟨hwalk, hall ▸ h.room, hall ▸ hpage.seen, ?_, hall ▸ h.grown, ?_⟩
  · intro x hx
    rw [Walk.seen, hpage.pages, List.flatten_append, List.flatten_singleton] at hx
    rcases List.mem_append.mp hx with hx | hx
    · exact h.shown x hx
    · exact hL.shows s x (hpage.mem x hx)
  · intro hended
    rw [hpage.ended.mp hended]
    exact h.grown

/-- **Every step** keeps it. -/
theorem Walking.step (h : Walking L r s w) (hL : L.Lawful) {a : ApiEvent} {s' : ApiState}
    (hs : s.step a = some s') : ∃ w', Walking L r s' w' := by
  rcases hL.walks s a s' w hs h.walk with ⟨-, hwalk⟩ | ⟨-, limit, w', rfl, hlimit, hw, hwalk, hall⟩
  · have hgrow := hL.grows s a s' hs
    exact ⟨w, hwalk, hL.room s a s' hs h.room, h.seen.grow hgrow, h.shown, h.grown.trans hgrow,
      h.complete⟩
  · exact ⟨w', h.request hL hlimit hw hwalk hall⟩

theorem walking_run (hL : L.Lawful) {w₀ : Walk α} (h₀ : Walking L r r w₀)
    (hrun : apis.run r as = some s) : ∃ w, Walking L r s w :=
  System.run_induction (J := fun _ s => ∃ w, Walking L r s w) ⟨w₀, h₀⟩
    (fun _ _ _ _ _ h hs => h.elim fun _ h => h.step hL hs) hrun

/-- Without creation, each request brings the walk nearer to its end. -/
theorem Walking.ends (h : Walking L r s w) (hL : L.Lawful) {bs : List ApiEvent} {t : ApiState}
    (hrun : apis.run s bs = some t) (hbs : ∀ a ∈ bs, L.creates a = false) :
    bs.countP L.asks ≤ w.left (L.all s) := by
  induction bs generalizing s w with
  | nil => exact Nat.zero_le _
  | cons a bs ih =>
    obtain ⟨s', hs, hrest⟩ := System.run_cons_eq_some hrun
    have hbs' : ∀ a ∈ bs, L.creates a = false := fun b hb => hbs b (List.mem_cons_of_mem _ hb)
    rcases hL.walks s a s' w hs h.walk with
      ⟨hasks, hwalk⟩ | ⟨hasks, limit, w', rfl, hlimit, hw, hwalk, hall⟩
    · have hsame := hL.steady s a s' hs (hbs a (List.mem_cons_self ..))
      have hlength := congrArg List.length hsame
      rw [List.length_map, List.length_map] at hlength
      have hleft : w.left (L.all s') = w.left (L.all s) := by
        simp only [Walk.left, hlength]
      have hgrow := hL.grows s a s' hs
      have h' : Walking L r s' w :=
        ⟨hwalk, hL.room s a s' hs h.room, h.seen.grow hgrow, h.shown, h.grown.trans hgrow,
          h.complete⟩
      rw [List.countP_cons_of_neg (by rw [hasks]; exact Bool.false_ne_true), ← hleft]
      exact ih h' hrest hbs'
    · obtain ⟨page, hpage⟩ := h.seen.request h.room hlimit hw
      have hrec := ih (h.request hL hlimit hw hwalk hall) hrest hbs'
      rw [hall] at hrec
      have hleft := hpage.left
      rw [List.countP_cons_of_pos hasks]
      omega

/-- **A walk through a list that only grows** visits each of its items once. -/
theorem cursorLaw_run (hL : L.Lawful) {w₀ : Walk α} (h₀ : Walking L r r w₀)
    (hdistinct : ((L.all s).map L.key).Nodup) (hrun : apis.run r as = some s) :
    ∃ w, CursorLaw L r s as w := by
  obtain ⟨w, h⟩ := walking_run hL h₀ hrun
  refine ⟨w, h.walk, h.shown, h.seen.listed, hdistinct.sublist h.seen.listed.sublist, h.complete,
    h.seen.accepted, ?_, ?_, fun bs t => h.ends hL⟩
  · rintro as₁ as₂ limit t rfl ht
    obtain ⟨y, hy⟩ := walking_run hL h₀ ht
    obtain ⟨t₁, ht₁, hrest⟩ := System.run_append_eq_some hrun
    obtain rfl := Option.some.inj (ht.symm.trans ht₁)
    obtain ⟨t', hstep, -⟩ := System.run_cons_eq_some hrest
    rcases hL.walks t _ t' y hstep hy.walk with
      ⟨hasks, -⟩ | ⟨-, limit', y', heq, hlimit, hw, hwalk, -⟩
    · rw [hL.asks limit] at hasks
      cases hasks
    · obtain rfl := hL.limit _ _ heq
      obtain ⟨page, hpage⟩ := hy.seen.request hy.room hlimit hw
      exact ⟨y, page, t', y', hy.walk, hstep, hwalk, hpage.pages, hpage.length_le, hpage.ended⟩
  · intro hstatus limit hlimit
    obtain ⟨w', hw⟩ := h.seen.goes_on hstatus limit
    exact hL.answers s w w' limit h.walk hlimit hw

end Laws

/-! ## Orders and products -/

/-- The ids that a sequence has drawn, with the letter in front. -/
structure Drawn (letter : String) (next : ℕ) (ids : List String) : Prop where
  drawn : ∀ id ∈ ids, ∃ k < next, id = letter ++ toString k
  distinct : ids.Nodup

/-- The sequence draws a new id. -/
theorem Drawn.draw {letter : String} {next : ℕ} {ids : List String} (h : Drawn letter next ids) :
    Drawn letter (next + 1) (ids ++ [letter ++ toString next]) := by
  refine ⟨?_, ?_⟩
  · intro id hid
    rcases List.mem_append.mp hid with hid | hid
    · obtain ⟨k, hk, rfl⟩ := h.drawn id hid
      exact ⟨k, Nat.lt_succ_of_lt hk, rfl⟩
    · exact ⟨next, Nat.lt_succ_self _, List.mem_singleton.mp hid⟩
  · refine List.Nodup.append h.distinct (List.nodup_singleton _) ?_
    rw [List.disjoint_singleton]
    intro hmem
    obtain ⟨k, hk, heq⟩ := h.drawn _ hmem
    have := NumericLiteral.toString_injective ((String.append_right_inj letter).mp heq)
    omega

/-- Ids of orders and products are drawn once, and there is room for them. -/
structure ApiState.Ids (s : ApiState) : Prop where
  orders : Drawn "o" s.nextOrder (s.orders.map Order.id)
  products : Drawn "p" s.nextProduct (s.products.map Product.id)
  lengths : s.orders.length ≤ maxLength ∧ s.products.length ≤ maxLength

/-- Whose the orders are, by id. -/
def ApiState.owners (s : ApiState) : List (String × String) :=
  s.orders.map fun o => (o.id, o.buyerId)

section Steps

variable {s s' : ApiState} {a : ApiEvent}

/-- A change of status leaves everything else as it is. -/
theorem map_setStatus {β : Type} {f : Order → β}
    (hf : ∀ (o : Order) status, f { o with status } = f o) (s : ApiState) (id : String)
    (status : OrderStatus) : (s.setStatus id status).map f = s.orders.map f := by
  unfold ApiState.setStatus
  split
  · refine List.ext_getElem? fun j => ?_
    rw [List.getElem?_map, List.getElem?_map, List.getElem?_modify]
    rcases s.orders[j]? with _ | o
    · rfl
    · simp only [Option.map_some]
      split_ifs
      · exact congrArg some (hf o status)
      · rfl
  · rfl

/-- What a step does to the tables. -/
inductive TableStep (s s' : ApiState) : ApiEvent → Prop
  | order (r : CreateRequest) (createdAt : String) (hroom : s.orders.length < maxLength)
    (horders : s'.orders = s.orders ++ [s.newOrder r.body.items r.user.id createdAt])
    (hnext : s'.nextOrder = s.nextOrder + 1) (hproducts : s'.products = s.products)
    (hnext' : s'.nextProduct = s.nextProduct) : TableStep s s' (.createOrder r createdAt)
  | product (name : String) (priceCents : ℤ) (hroom : s.products.length < maxLength)
    (howners : s'.owners = s.owners)
    (hnext : s'.nextOrder = s.nextOrder)
    (hproducts : s'.products = s.products ++ [⟨"p" ++ toString s.nextProduct, name, priceCents⟩])
    (hnext' : s'.nextProduct = s.nextProduct + 1) : TableStep s s' (.createProduct name priceCents)
  | keeps {a : ApiEvent} (howners : s'.owners = s.owners)
    (hnext : s'.nextOrder = s.nextOrder) (hproducts : s'.products = s.products)
    (hnext' : s'.nextProduct = s.nextProduct) : TableStep s s' a

/-- **One step** changes the tables as it says, and no walk but the one it is about. -/
theorem step_frame (hs : s.step a = some s') : TableStep s s' a ∧
    (a.walks = false → s'.orderWalks = s.orderWalks ∧ s'.productWalks = s.productWalks) := by
  cases a with
  | createOrder r createdAt =>
    simp only [ApiState.step] at hs
    split_ifs at hs with hok
    obtain rfl := Option.some.inj hs
    exact ⟨.order r createdAt hok.2 rfl rfl rfl rfl, fun _ => ⟨rfl, rfl⟩⟩
  | createProduct name priceCents =>
    simp only [ApiState.step] at hs
    split_ifs at hs with hroom
    obtain rfl := Option.some.inj hs
    exact ⟨.product name priceCents hroom rfl rfl rfl rfl, fun _ => ⟨rfl, rfl⟩⟩
  | updateStatus id status ts =>
    simp only [ApiState.step, ApiState.updateStatus] at hs
    rcases hget : s.getById id with e | order
    · rw [hget] at hs
      obtain rfl := Option.some.inj hs
      exact ⟨.keeps rfl rfl rfl rfl, fun _ => ⟨rfl, rfl⟩⟩
    · rw [hget] at hs
      obtain rfl := Option.some.inj hs
      exact ⟨.keeps (map_setStatus (fun _ _ => rfl) s id status) rfl rfl rfl, fun _ => ⟨rfl, rfl⟩⟩
  | connect c n =>
    simp only [ApiState.step, ApiState.events] at hs
    split at hs
    · rename_i user orderId received hf hn
      rcases howned : s.getOwned orderId user with e | order
      · rw [howned] at hs
        obtain rfl := Option.some.inj hs
        exact ⟨.keeps rfl rfl rfl rfl, fun _ => ⟨rfl, rfl⟩⟩
      · rw [howned] at hs
        obtain rfl := Option.some.inj hs
        exact ⟨.keeps rfl rfl rfl rfl, fun _ => ⟨rfl, rfl⟩⟩
    · cases hs
  | receive c =>
    simp only [ApiState.step] at hs
    split at hs
    · split at hs
      · obtain rfl := Option.some.inj hs
        exact ⟨.keeps rfl rfl rfl rfl, fun _ => ⟨rfl, rfl⟩⟩
      · cases hs
    · cases hs
  | follow w _ _ | disconnect w | close w =>
    simp only [ApiState.step] at hs
    split at hs
    · obtain rfl := Option.some.inj hs
      exact ⟨.keeps rfl rfl rfl rfl, fun _ => ⟨rfl, rfl⟩⟩
    · cases hs
  | walkOrders w _ | walkProducts w =>
    simp only [ApiState.step] at hs
    split at hs
    · obtain rfl := Option.some.inj hs
      exact ⟨.keeps rfl rfl rfl rfl, fun h => by cases h⟩
    · cases hs
  | listOrders w limit | listProducts w limit =>
    simp only [ApiState.step] at hs
    split at hs
    · split_ifs at hs
      obtain ⟨walk, -, rfl⟩ := Option.map_eq_some_iff.mp hs
      exact ⟨.keeps rfl rfl rfl rfl, fun h => by cases h⟩
    · cases hs

/-- The tables grow at their end. -/
theorem TableStep.grows (h : TableStep s s' a) :
    s.owners <+: s'.owners ∧ s.products.map Product.id <+: s'.products.map Product.id := by
  cases h with
  | order r createdAt hroom horders hnext hproducts hnext' =>
    refine ⟨?_, hproducts ▸ List.prefix_rfl⟩
    rw [ApiState.owners, ApiState.owners, horders, List.map_append]
    exact List.prefix_append ..
  | product name priceCents hroom howners hnext hproducts hnext' =>
    refine ⟨howners ▸ List.prefix_rfl, ?_⟩
    rw [hproducts, List.map_append]
    exact List.prefix_append ..
  | keeps howners hnext hproducts hnext' =>
    exact ⟨howners ▸ List.prefix_rfl, hproducts ▸ List.prefix_rfl⟩

/-- Without creation they stay. -/
theorem TableStep.steady (h : TableStep s s' a) :
    (a.createsOrder = false → s'.owners = s.owners) ∧
      (a.createsProduct = false → s'.products = s.products) := by
  cases h with
  | order r createdAt hroom horders hnext hproducts hnext' =>
    exact ⟨fun ha => absurd ha Bool.noConfusion, fun _ => hproducts⟩
  | product name priceCents hroom howners hnext hproducts hnext' =>
    exact ⟨fun _ => howners, fun ha => absurd ha Bool.noConfusion⟩
  | keeps howners hnext hproducts hnext' => exact ⟨fun _ => howners, fun _ => hproducts⟩

/-- What is put into a table has its place there. -/
theorem TableStep.room (h : TableStep s s' a) :
    (s'.orders.length ≤ maxLength ∨ s'.owners = s.owners) ∧
      (s'.products.length ≤ maxLength ∨ s'.products = s.products) := by
  cases h with
  | order r createdAt hroom horders hnext hproducts hnext' =>
    refine ⟨.inl ?_, .inr hproducts⟩
    rw [horders, List.length_append]
    exact hroom
  | product name priceCents hroom howners hnext hproducts hnext' =>
    refine ⟨.inr howners, .inl ?_⟩
    rw [hproducts, List.length_append]
    exact hroom
  | keeps howners hnext hproducts hnext' => exact ⟨.inr howners, .inr hproducts⟩

theorem length_owners (s : ApiState) : s.owners.length = s.orders.length := List.length_map ..

/-- There is room in every table. -/
theorem TableStep.lengths (h : TableStep s s' a)
    (hs : s.orders.length ≤ maxLength ∧ s.products.length ≤ maxLength) :
    s'.orders.length ≤ maxLength ∧ s'.products.length ≤ maxLength := by
  obtain ⟨horders, hproducts⟩ := h.room
  refine ⟨horders.elim id fun heq => ?_, hproducts.elim id fun heq => heq ▸ hs.2⟩
  rw [← length_owners, heq, length_owners]
  exact hs.1

theorem ids_eq_owners (s : ApiState) : s.orders.map Order.id = s.owners.map Prod.fst := by
  rw [ApiState.owners, List.map_map]
  rfl

/-- **No id is drawn twice.** -/
theorem ids_invariant : apis.Invariant ApiState.Ids := by
  intro s a s' h hs
  have htable := (step_frame hs).1
  have hlengths := htable.lengths h.lengths
  cases htable with
  | order r createdAt hroom horders hnext hproducts hnext' =>
    refine ⟨?_, ?_, hlengths⟩
    · rw [horders, hnext, List.map_append]
      exact h.orders.draw
    · rw [hproducts, hnext']
      exact h.products
  | product name priceCents hroom howners hnext hproducts hnext' =>
    refine ⟨?_, ?_, hlengths⟩
    · rw [ids_eq_owners, howners, hnext, ← ids_eq_owners]
      exact h.orders
    · rw [hproducts, hnext', List.map_append]
      exact h.products.draw
  | keeps howners hnext hproducts hnext' =>
    refine ⟨?_, ?_, hlengths⟩
    · rw [ids_eq_owners, howners, hnext, ← ids_eq_owners]
      exact h.orders
    · rw [hproducts, hnext']
      exact h.products

theorem ApiState.Start.ids (h : s.Start) : s.Ids where
  orders := by
    refine ⟨?_, h.distinctOrders⟩
    intro id hid
    obtain ⟨o, ho, rfl⟩ := List.mem_map.mp hid
    exact h.orders o ho
  products := by
    refine ⟨?_, h.distinctProducts⟩
    intro id hid
    obtain ⟨p, hp, rfl⟩ := List.mem_map.mp hid
    exact h.products p hp
  lengths := h.lengths

/-- Whether a user sees the order of an owner. -/
def sees (user : AuthUser) (owner : String × String) : Bool :=
  user.role = .admin ∨ owner.2 = user.id

/-- What a user sees depends on the owners alone. -/
theorem visible_ids (s : ApiState) (user : AuthUser) :
    (s.visible user).map Order.id = (s.owners.filter (sees user)).map Prod.fst := by
  rw [ApiState.owners, List.filter_map, List.map_map, ApiState.visible]
  split_ifs with hadmin
  · have hall : s.orders.filter (sees user ∘ fun o => (o.id, o.buyerId)) = s.orders :=
      List.filter_eq_self.mpr fun o _ => decide_eq_true (.inl hadmin)
    rw [hall]
    rfl
  · have hsame : (sees user ∘ fun o : Order => (o.id, o.buyerId)) =
        fun o => decide (o.buyerId = user.id) := by
      funext o
      simp only [Function.comp_apply, sees, hadmin, false_or]
    rw [hsame]
    rfl

theorem length_visible_le (s : ApiState) (user : AuthUser) :
    (s.visible user).length ≤ s.orders.length := by
  rw [ApiState.visible]
  split_ifs
  · exact le_rfl
  · exact List.length_filter_le ..

end Steps

/-- The orders that a user walks through. -/
def orderListing (w : ℕ) (user : AuthUser) : Listing Order where
  all s := s.visible user
  key := Order.id
  Shows o := user.role = .admin ∨ o.buyerId = user.id
  walk s := (s.orderWalks w).bind fun x => if x.user = user then some x.walk else none
  request limit := .listOrders w limit
  asks
    | .listOrders w' _ => w' = w
    | _ => false
  creates := ApiEvent.createsOrder

/-- The products. -/
def productListing (w : ℕ) : Listing Product where
  all s := s.products
  key := Product.id
  Shows _ := True
  walk s := s.productWalks w
  request limit := .listProducts w limit
  asks
    | .listProducts w' _ => w' = w
    | _ => false
  creates := ApiEvent.createsProduct

theorem productListing_lawful (w : ℕ) : (productListing w).Lawful where
  shows := fun _ _ _ => trivial
  asks := fun _ => decide_eq_true rfl
  limit := fun _ _ h => (ApiEvent.listProducts.inj h).2
  grows := fun _ _ _ hs => (step_frame hs).1.grows.2
  steady := fun _ _ _ hs ha => congrArg (List.map Product.id) ((step_frame hs).1.steady.2 ha)
  room := fun s a s' hs hroom =>
    (step_frame hs).1.room.2.elim id fun heq => (congrArg List.length heq).trans_le hroom
  walks := by
    intro s a s' x hs hx
    change s.productWalks w = some x at hx
    have hkeep : a.walks = false →
        ((productListing w).asks a = false ∧ s'.productWalks w = some x) := by
      intro ha
      refine ⟨?_, by rw [((step_frame hs).2 ha).2, hx]⟩
      cases a with
      | listProducts w' limit => cases ha
      | _ => rfl
    cases a with
    | listProducts w' limit =>
      simp only [ApiState.step] at hs
      split at hs
      · rename_i y hy
        split_ifs at hs with hlimit
        obtain ⟨walk, hreq, rfl⟩ := Option.map_eq_some_iff.mp hs
        by_cases hw : w' = w
        · subst hw
          obtain rfl := Option.some.inj (hx.symm.trans hy)
          exact .inr
            ⟨decide_eq_true rfl, limit, walk, rfl, hlimit, hreq, Function.update_self .., rfl⟩
        · exact .inl ⟨decide_eq_false hw, (Function.update_of_ne (Ne.symm hw) ..).trans hx⟩
      · cases hs
    | walkProducts w' =>
      simp only [ApiState.step] at hs
      split at hs
      · rename_i hnone
        obtain rfl := Option.some.inj hs
        exact .inl ⟨rfl, Slots.found_of_free hnone hx⟩
      · cases hs
    | listOrders w' limit =>
      simp only [ApiState.step] at hs
      split at hs
      · split_ifs at hs
        obtain ⟨walk, -, rfl⟩ := Option.map_eq_some_iff.mp hs
        exact .inl ⟨rfl, hx⟩
      · cases hs
    | walkOrders w' user =>
      simp only [ApiState.step] at hs
      split at hs
      · obtain rfl := Option.some.inj hs
        exact .inl ⟨rfl, hx⟩
      · cases hs
    | _ => exact .inl (hkeep rfl)
  answers := by
    intro s x x' limit hx hlimit hreq
    change s.productWalks w = some x at hx
    change x.request s.products limit = some x' at hreq
    have hstep : s.step (.listProducts w limit) = some
        { s with productWalks := Function.update s.productWalks w (some x') } := by
      simp only [ApiState.step, hx, if_pos hlimit, hreq, Option.map_some]
    exact ⟨_, hstep⟩

theorem orderListing_lawful (w : ℕ) (user : AuthUser) : (orderListing w user).Lawful where
  shows := by
    intro s o ho
    change o ∈ s.visible user at ho
    rw [ApiState.visible] at ho
    split_ifs at ho with hadmin
    · exact .inl hadmin
    · exact .inr (of_decide_eq_true (List.mem_filter.mp ho).2)
  asks := fun _ => decide_eq_true rfl
  limit := fun _ _ h => (ApiEvent.listOrders.inj h).2
  grows := by
    intro s a s' hs
    change (s.visible user).map Order.id <+: (s'.visible user).map Order.id
    rw [visible_ids, visible_ids]
    exact ((step_frame hs).1.grows.1.filter _).map _
  steady := by
    intro s a s' hs ha
    change (s'.visible user).map Order.id = (s.visible user).map Order.id
    rw [visible_ids, visible_ids, (step_frame hs).1.steady.1 ha]
  room := by
    intro s a s' hs hroom
    change (s'.visible user).length ≤ maxLength
    rcases (step_frame hs).1.room.1 with hlength | heq
    · exact (length_visible_le s' user).trans hlength
    · have hids := congrArg List.length (visible_ids s' user)
      rw [heq, ← visible_ids, List.length_map, List.length_map] at hids
      exact hids.trans_le hroom
  walks := by
    intro s a s' x hs hx
    change (s.orderWalks w).bind _ = some x at hx
    obtain ⟨⟨u, y⟩, hwalk, huser⟩ := Option.bind_eq_some_iff.mp hx
    split_ifs at huser with hu
    obtain rfl : u = user := hu
    obtain rfl := Option.some.inj huser
    have hkeep : s'.orderWalks w = some ⟨u, y⟩ → (orderListing w u).walk s' = some y := by
      intro h
      simp only [orderListing, h, Option.bind_some, if_true]
    cases a with
    | listOrders w' limit =>
      simp only [ApiState.step] at hs
      split at hs
      · rename_i z hz
        split_ifs at hs with hlimit
        obtain ⟨walk, hreq, rfl⟩ := Option.map_eq_some_iff.mp hs
        by_cases hw : w' = w
        · subst hw
          obtain rfl := Option.some.inj (hwalk.symm.trans hz)
          refine .inr ⟨decide_eq_true rfl, limit, walk, rfl, hlimit, hreq, ?_, rfl⟩
          simp only [orderListing, Function.update_self, Option.bind_some, if_true]
        · exact .inl ⟨decide_eq_false hw,
            hkeep ((Function.update_of_ne (Ne.symm hw) ..).trans hwalk)⟩
      · cases hs
    | walkOrders w' user' =>
      simp only [ApiState.step] at hs
      split at hs
      · rename_i hnone
        obtain rfl := Option.some.inj hs
        exact .inl ⟨rfl, hkeep (Slots.found_of_free hnone hwalk)⟩
      · cases hs
    | listProducts w' limit =>
      simp only [ApiState.step] at hs
      split at hs
      · split_ifs at hs
        obtain ⟨walk, -, rfl⟩ := Option.map_eq_some_iff.mp hs
        exact .inl ⟨rfl, hkeep hwalk⟩
      · cases hs
    | walkProducts w' =>
      simp only [ApiState.step] at hs
      split at hs
      · obtain rfl := Option.some.inj hs
        exact .inl ⟨rfl, hkeep hwalk⟩
      · cases hs
    | _ => exact .inl ⟨rfl, hkeep (by rw [((step_frame hs).2 rfl).1, hwalk])⟩
  answers := by
    intro s x x' limit hx hlimit hreq
    change (s.orderWalks w).bind _ = some x at hx
    obtain ⟨⟨u, y⟩, hwalk, huser⟩ := Option.bind_eq_some_iff.mp hx
    split_ifs at huser with hu
    obtain rfl : u = user := hu
    obtain rfl := Option.some.inj huser
    change y.request (s.visible u) limit = some x' at hreq
    have hstep : s.step (.listOrders w limit) = some
        { s with orderWalks := Function.update s.orderWalks w (some ⟨u, x'⟩) } := by
      simp only [ApiState.step, hwalk, if_pos hlimit, hreq, Option.map_some]
    exact ⟨_, hstep⟩

/-- A walk that has made no request yet. -/
def Walk.begin {α : Type} : Walk α := ⟨[], .going none⟩

theorem walking_begin {α : Type} {L : Listing α} {r : ApiState} (hr : L.walk r = some .begin)
    (hroom : (L.all r).length ≤ maxLength) : Walking L r r .begin where
  walk := hr
  room := hroom
  seen :=
    { listed := List.nil_prefix
      cursor := by
        rintro c ⟨⟩
        rfl
      accepted := fun h => by cases h }
  shown := fun _ hx => absurd hx List.not_mem_nil
  grown := List.prefix_rfl
  complete := fun h => by cases h

/-- **A cursor walk visits everything once**: the orders that its user sees, and the
products; whatever limits it asks for, and whatever is created or changed meanwhile. -/
theorem cursor_walk_visits_once {r s : ApiState} (hr : apis.Reachable r) {as : List ApiEvent}
    (hrun : apis.run r as = some s) (w : ℕ) :
    (∀ user, r.orderWalks w = some ⟨user, .begin⟩ →
      ∃ x, CursorLaw (orderListing w user) r s as x) ∧
    (r.productWalks w = some .begin → ∃ x, CursorLaw (productListing w) r s as x) := by
  have hids : s.Ids := ids_invariant.reachable (fun _ h => h.ids) (hr.run hrun)
  obtain ⟨horders, hproducts⟩ := (ids_invariant.reachable (fun _ h => h.ids) hr).lengths
  refine ⟨fun user hw => ?_, fun hw => ?_⟩
  · refine cursorLaw_run (orderListing_lawful w user) (walking_begin ?_ ?_) ?_ hrun
    · simp only [orderListing, hw, Option.bind_some, if_true]
    · exact (length_visible_le r user).trans horders
    · change ((s.visible user).map Order.id).Nodup
      have hdistinct := hids.orders.distinct
      rw [ids_eq_owners] at hdistinct
      rw [visible_ids]
      exact hdistinct.sublist (List.filter_sublist.map _)
  · exact cursorLaw_run (productListing_lawful w) (walking_begin hw hproducts)
      hids.products.distinct hrun

/-- A seller walks through the products by two while another product is created, and an
administrator through the orders. -/
def demoWalk : List ApiEvent :=
  [.listProducts 0 2, .listProducts 0 2, .createProduct "Веб-камера" 99900, .listOrders 0 1,
    .updateStatus "o1" .packed "t", .listProducts 0 2, .listOrders 0 5]

theorem demoWalk_visits_once :
    ∃ r s, apis.run initial [.walkOrders 0 ⟨"u3", .admin, "j", 0, "f"⟩, .walkProducts 0] = some r ∧
      apis.run r demoWalk = some s ∧
      (∃ x, CursorLaw (orderListing 0 ⟨"u3", .admin, "j", 0, "f"⟩) r s demoWalk x ∧
        x.status = .ended) ∧
      ∃ x, CursorLaw (productListing 0) r s demoWalk x ∧
        x.pages.map (List.map Product.id) = [["p1", "p2"], ["p3", "p4"], ["p5", "p6"]] := by
  have hbegun : (apis.run initial
      [.walkOrders 0 ⟨"u3", .admin, "j", 0, "f"⟩, .walkProducts 0]).any (fun r =>
        decide (r.orderWalks 0 = some ⟨⟨"u3", .admin, "j", 0, "f"⟩, .begin⟩ ∧
          r.productWalks 0 = some .begin) &&
        (apis.run r demoWalk).any fun s =>
          decide ((s.orderWalks 0).map (fun x => x.walk.status) = some .ended ∧
            (s.productWalks 0).map (fun x => x.pages.map (List.map Product.id)) =
              some [["p1", "p2"], ["p3", "p4"], ["p5", "p6"]])) = true := by
    decide +kernel
  obtain ⟨r, hr, hchecks⟩ := (Option.any_eq_true _ _).mp hbegun
  obtain ⟨hbegin, hend⟩ := Bool.and_eq_true_iff.mp hchecks
  obtain ⟨s, hrun, hs⟩ := (Option.any_eq_true _ _).mp hend
  obtain ⟨horders, hproducts⟩ := of_decide_eq_true hbegin
  obtain ⟨hended, hpages⟩ := of_decide_eq_true hs
  have hlaw := cursor_walk_visits_once ⟨initial, _, initial_start, hr⟩ hrun 0
  obtain ⟨x, hx⟩ := hlaw.1 _ horders
  obtain ⟨y, hy⟩ := hlaw.2 hproducts
  refine ⟨r, s, hr, hrun, ⟨x, hx, ?_⟩, y, hy, ?_⟩
  · obtain ⟨z, hz, hstatus⟩ := Option.map_eq_some_iff.mp hended
    have hwalk := hx.walk
    simp only [orderListing, hz, Option.bind_some] at hwalk
    split_ifs at hwalk
    exact Option.some.inj hwalk ▸ hstatus
  · obtain ⟨z, hz, hids⟩ := Option.map_eq_some_iff.mp hpages
    have hwalk : s.productWalks 0 = some y := hy.walk
    obtain rfl := Option.some.inj (hwalk.symm.trans hz)
    exact hids

end Marketplace.Api
