import Marketplace.Consumer
import Marketplace.JsonTrees
import Marketplace.Utf16

/-!
# The contract of `order.placed`

The event as `JSON.stringify` gets it, and `OrderPlacedSchema` as the consumer runs it on what
`JSON.parse` has made of a message. The two agree: the schema accepts the value of an event
exactly if the event `parses`, and gives back the fields it was made of (`parse_tree`).

The id of an event is a UUID of version 5, whatever the digest is (`eventIdFor_isUuid5`).
-/

namespace Marketplace

open Json

/-- The JavaScript string of a text. -/
def jsString (s : String) : Units := Utf16.encode s.toList

theorem jsString_injective {s s' : String} (h : jsString s = jsString s') : s = s' :=
  String.toList_inj.mp (Utf16.encode_injective h)

/-- A number that is not `-0`. -/
def jsNumber (x : ℚ) : Scalar := .number (decide (x < 0)) (some |x|)

/-! ## The event as an object -/

/-- The properties of `data`. -/
def OrderPlacedData.members (d : OrderPlacedData) : List (Units × Json.Tree Units) :=
  [(jsString "orderId", .string (jsString (toString d.orderId))),
    (jsString "buyerId", .string (jsString d.buyerId)),
    (jsString "productId", .string (jsString d.productId)),
    (jsString "quantity", .scalar (jsNumber d.quantity)),
    (jsString "totalAmount", .scalar (jsNumber d.totalAmount))]

/-- The properties of the event. -/
def OrderPlacedEvent.members (e : OrderPlacedEvent) : List (Units × Json.Tree Units) :=
  [(jsString "eventId", .string (jsString e.eventId)),
    (jsString "type", .string (jsString e.type)),
    (jsString "occurredAt", .string (jsString e.occurredAt)),
    (jsString "data", .object e.data.members)]

/-- The event. -/
def OrderPlacedEvent.tree (e : OrderPlacedEvent) : Json.Tree Units := .object e.members

theorem OrderPlacedData.members_nodup (d : OrderPlacedData) : (d.members.map Prod.fst).Nodup := by
  have hnames : [jsString "orderId", jsString "buyerId", jsString "productId",
      jsString "quantity", jsString "totalAmount"].Nodup := by decide
  exact hnames

theorem OrderPlacedEvent.members_nodup (e : OrderPlacedEvent) :
    (e.members.map Prod.fst).Nodup := by
  have hnames : [jsString "eventId", jsString "type", jsString "occurredAt",
      jsString "data"].Nodup := by decide
  exact hnames

/-! ## The schema -/

/-- A property of an object. -/
def Json.Value.get? : Value → String → Option Value
  | .object get, name => get (jsString name)
  | _, _ => none

/-- `z.string()` -/
def zString : Option Value → Option Units
  | some (.string s) => some s
  | _ => none

/-- `z.number()`: the sign and the magnitude, none if infinite. -/
def zNumber : Option Value → Option (Bool × Option ℚ)
  | some (.scalar (.number negative magnitude)) => some (negative, magnitude)
  | _ => none

/-- A string with a format. -/
def zFormat (test : String → Bool) (v : Option Value) : Option Units :=
  (zString v).filter fun s => test (String.ofList (Utf16.decode s))

/-- `z.literal(…)` -/
def zLiteral (text : String) (v : Option Value) : Option Units :=
  (zString v).filter fun s => decide (s = jsString text)

/-- `z.string().min(1)` -/
def zNonempty (v : Option Value) : Option Units := (zString v).filter fun s => decide (s ≠ [])

/-- `z.number().int().positive()` -/
def zPositiveInt (v : Option Value) : Option ℤ :=
  (zNumber v).bind fun
    | (false, some x) => if x.den = 1 ∧ 0 < x then some x.num else none
    | _ => none

/-- `z.number().nonnegative()`: its magnitude. -/
def zNonnegative (v : Option Value) : Option (Option ℚ) :=
  (zNumber v).bind fun x => if x.1 = true ∧ x.2 ≠ some 0 then none else some x.2

/-- The type of `data` that the schema infers. -/
structure ParsedData where
  orderId : Units
  buyerId : Units
  productId : Units
  quantity : ℤ
  /-- none if infinite -/
  totalAmount : Option ℚ
  deriving DecidableEq

/-- `z.infer<typeof OrderPlacedSchema>` -/
structure ParsedOrderPlaced where
  eventId : Units
  type : Units
  occurredAt : Units
  data : ParsedData
  deriving DecidableEq

namespace OrderPlacedSchema

/-- The schema of `data`. -/
def parseData (v : Value) : Option ParsedData := do
  let orderId ← zNonempty (v.get? "orderId")
  let buyerId ← zNonempty (v.get? "buyerId")
  let productId ← zNonempty (v.get? "productId")
  let quantity ← zPositiveInt (v.get? "quantity")
  let totalAmount ← zNonnegative (v.get? "totalAmount")
  return { orderId, buyerId, productId, quantity, totalAmount }

/-- `OrderPlacedSchema.parse`; none where it throws. -/
def parse (fmt : Formats) (v : Value) : Option ParsedOrderPlaced := do
  let eventId ← zFormat fmt.uuid (v.get? "eventId")
  let type ← zLiteral orderPlaced (v.get? "type")
  let occurredAt ← zFormat fmt.datetime (v.get? "occurredAt")
  let data ← (v.get? "data").bind parseData
  return { eventId, type, occurredAt, data }

end OrderPlacedSchema

/-- The fields of `data`. -/
def OrderPlacedData.parsed (d : OrderPlacedData) : ParsedData where
  orderId := jsString (toString d.orderId)
  buyerId := jsString d.buyerId
  productId := jsString d.productId
  quantity := d.quantity
  totalAmount := some d.totalAmount

/-- The fields of the event. -/
def OrderPlacedEvent.parsed (e : OrderPlacedEvent) : ParsedOrderPlaced where
  eventId := jsString e.eventId
  type := jsString e.type
  occurredAt := jsString e.occurredAt
  data := e.data.parsed

/-! ## They agree -/

/-- A property that was written is found. -/
theorem get?_object {members : List (Units × Json.Tree Units)}
    (hnodup : (members.map Prod.fst).Nodup) {k : ℕ} {name : String} {t : Json.Tree Units}
    (ht : members[k]? = some (jsString name, t)) :
    (Json.Tree.object members).value.get? name = some t.value :=
  fields_memberValues hnodup (List.mem_of_getElem? ht)

theorem value_string (s : Units) : (Json.Tree.string s).value = .string s := rfl

theorem value_scalar (a : Scalar) : (Json.Tree.scalar a : Json.Tree Units).value = .scalar a := rfl

theorem zFormat_string (test : String → Bool) (s : String) :
    zFormat test (some (.string (jsString s))) = if test s then some (jsString s) else none := by
  rw [zFormat, zString, Option.filter_some, jsString, Utf16.decode_encode, String.ofList_toList]

theorem zLiteral_string (s t : String) :
    zLiteral t (some (.string (jsString s))) = if s = t then some (jsString s) else none := by
  have hiff : jsString s = jsString t ↔ s = t := ⟨jsString_injective, fun h => h ▸ rfl⟩
  rw [zLiteral, zString, Option.filter_some]
  simp only [hiff, decide_eq_true_eq]

theorem zNonempty_string (s : String) :
    zNonempty (some (.string (jsString s))) = if s ≠ "" then some (jsString s) else none := by
  have hiff : jsString s ≠ [] ↔ s ≠ "" := not_congr
    ⟨fun h => jsString_injective h, fun h => h ▸ rfl⟩
  rw [zNonempty, zString, Option.filter_some]
  simp only [hiff, decide_eq_true_eq]

theorem zPositiveInt_number (n : ℤ) :
    zPositiveInt (some (.scalar (jsNumber n))) = if 0 < n then some n else none := by
  by_cases hneg : (n : ℚ) < 0
  · have hle : ¬ 0 < n := by
      have : n < 0 := by exact_mod_cast hneg
      omega
    rw [if_neg hle, jsNumber, decide_eq_true hneg]
    rfl
  · have habs : |(n : ℚ)| = n := abs_of_nonneg (not_lt.mp hneg)
    rw [jsNumber, decide_eq_false hneg, habs]
    simp only [zPositiveInt, zNumber, Option.bind_some, Rat.den_intCast, Rat.num_intCast,
      Int.cast_pos, true_and]

theorem zNonnegative_number (x : ℚ) :
    zNonnegative (some (.scalar (jsNumber x))) = if 0 ≤ x then some (some x) else none := by
  by_cases hneg : x < 0
  · have hne : |x| ≠ 0 := abs_ne_zero.mpr hneg.ne
    rw [if_neg (not_le.mpr hneg), jsNumber, decide_eq_true hneg]
    simp only [zNonnegative, zNumber, Option.bind_some]
    -- a negative number is not `-0`
    rw [if_pos ⟨trivial, fun h => hne (Option.some.inj h)⟩]
  · have habs : |x| = x := abs_of_nonneg (not_lt.mp hneg)
    rw [if_pos (not_lt.mp hneg), jsNumber, decide_eq_false hneg, habs]
    simp only [zNonnegative, zNumber, Option.bind_some]
    rw [if_neg fun h => Bool.false_ne_true h.1]

/-- The schema of `data` accepts it if the ids are there, the quantity is positive and the total
is not negative. -/
theorem parseData_tree (d : OrderPlacedData) :
    OrderPlacedSchema.parseData (Json.Tree.object d.members).value =
      if d.buyerId ≠ "" ∧ d.productId ≠ "" ∧ 0 < d.quantity ∧ 0 ≤ d.totalAmount then some d.parsed
      else none := by
  have horderId : (Json.Tree.object d.members).value.get? "orderId" =
      some (Json.Tree.string (jsString (toString d.orderId))).value :=
    get?_object d.members_nodup (k := 0) rfl
  have hbuyerId : (Json.Tree.object d.members).value.get? "buyerId" =
      some (Json.Tree.string (jsString d.buyerId)).value := get?_object d.members_nodup (k := 1) rfl
  have hproductId : (Json.Tree.object d.members).value.get? "productId" =
      some (Json.Tree.string (jsString d.productId)).value :=
    get?_object d.members_nodup (k := 2) rfl
  have hquantity : (Json.Tree.object d.members).value.get? "quantity" =
      some (Json.Tree.scalar (jsNumber d.quantity)).value :=
    get?_object d.members_nodup (k := 3) rfl
  have htotalAmount : (Json.Tree.object d.members).value.get? "totalAmount" =
      some (Json.Tree.scalar (jsNumber d.totalAmount)).value :=
    get?_object d.members_nodup (k := 4) rfl
  -- the id of an order is a number, so its text is not empty
  have hnonempty : toString d.orderId ≠ "" := Nat.repr_ne_empty
  simp only [OrderPlacedSchema.parseData, horderId, hbuyerId, hproductId, hquantity, htotalAmount,
    value_string, value_scalar, zNonempty_string, zPositiveInt_number, zNonnegative_number,
    if_pos hnonempty]
  by_cases hb : d.buyerId = ""
  · simp [hb]
  by_cases hp : d.productId = ""
  · simp [hb, hp]
  by_cases hq : 0 < d.quantity
  · by_cases ht : 0 ≤ d.totalAmount
    · simp [hb, hp, hq, ht, OrderPlacedData.parsed]
    · simp [hb, hp, hq, ht]
  · simp [hb, hp, hq]

/-- **The schema accepts the value of an event if, and only if, the event parses**, with the
fields of the event. -/
theorem parse_tree (fmt : Formats) (e : OrderPlacedEvent) :
    OrderPlacedSchema.parse fmt e.tree.value =
      if e.parses fmt then some e.parsed else none := by
  have heventId : e.tree.value.get? "eventId" =
      some (Json.Tree.string (jsString e.eventId)).value :=
    get?_object e.members_nodup (k := 0) rfl
  have htype : e.tree.value.get? "type" = some (Json.Tree.string (jsString e.type)).value :=
    get?_object e.members_nodup (k := 1) rfl
  have hoccurredAt : e.tree.value.get? "occurredAt" =
      some (Json.Tree.string (jsString e.occurredAt)).value :=
    get?_object e.members_nodup (k := 2) rfl
  have hdata : e.tree.value.get? "data" = some (Json.Tree.object e.data.members).value :=
    get?_object e.members_nodup (k := 3) rfl
  simp only [OrderPlacedSchema.parse, heventId, htype, hoccurredAt, hdata, value_string,
    zFormat_string, zLiteral_string, Option.bind_some, parseData_tree]
  by_cases hu : fmt.uuid e.eventId = true
  · by_cases ht : e.type = orderPlaced
    · by_cases hd : fmt.datetime e.occurredAt = true
      · have hparses : e.parses fmt = true ↔ e.data.buyerId ≠ "" ∧ e.data.productId ≠ "" ∧
            0 < e.data.quantity ∧ 0 ≤ e.data.totalAmount := by
          simp [OrderPlacedEvent.parses, hu, ht, hd, and_assoc]
        simp only [hparses, if_pos hu, if_pos ht, if_pos hd]
        split_ifs
        · rfl
        · rfl
      · simp [OrderPlacedEvent.parses, hu, ht, hd]
    · simp [OrderPlacedEvent.parses, hu, ht]
  · simp [OrderPlacedEvent.parses, hu]

/-! ## The id -/

/-- So many hexadecimal digits, in lower case. -/
def HexDigits (n : ℕ) (g : List Char) : Prop :=
  g.length = n ∧ ∀ c ∈ g, c.isDigit = true ∨ 'a' ≤ c ∧ c ≤ 'f'

/-- The text of a UUID, in lower case: five groups of digits. -/
structure IsUuid (s : String) (a b c d e : List Char) : Prop where
  text : s.toList = ['-'].intercalate [a, b, c, d, e]
  first : HexDigits 8 a
  second : HexDigits 4 b
  third : HexDigits 4 c
  fourth : HexDigits 4 d
  last : HexDigits 12 e

/-- A UUID whose version nibble is 5 and whose variant bits are 10. -/
def IsUuid5 (s : String) : Prop :=
  ∃ a b c d e, IsUuid s a b c d e ∧ c.head? = some '5' ∧
    ∃ v ∈ ['8', '9', 'a', 'b'], d.head? = some v

section EventId

variable {h : Vector UInt8 20} {i j : ℕ}

theorem hexSlice_toList (h : Vector UInt8 20) (i j : ℕ) : (hexSlice h i j).toList =
    ((h.toList.take j).drop i).flatMap fun b =>
      [(b.toNat / 16).digitChar, (b.toNat % 16).digitChar] := by
  rw [hexSlice, String.toList_join, List.flatMap_map]
  simp only [hexByte, String.toList_ofList]

theorem hexDigits_hexSlice (hij : i ≤ j) (hj : j ≤ 20) :
    HexDigits (2 * (j - i)) (hexSlice h i j).toList := by
  have hdigit : ∀ n < 16, n.digitChar.isDigit = true ∨ 'a' ≤ n.digitChar ∧ n.digitChar ≤ 'f' := by
    decide
  rw [hexSlice_toList]
  constructor
  · simp only [List.length_flatMap, List.length_cons, List.length_nil, List.map_const',
      List.sum_replicate_nat, List.length_drop, List.length_take, Vector.length_toList]
    omega
  · intro c hc
    obtain ⟨b, -, hc⟩ := List.mem_flatMap.mp hc
    have hb := b.toNat_lt
    rcases List.mem_cons.mp hc with rfl | hc
    · exact hdigit _ (by omega)
    · obtain rfl := List.mem_singleton.mp hc
      exact hdigit _ (by omega)

theorem head?_hexSlice (hij : i < j) (hj : j ≤ 20) :
    (hexSlice h i j).toList.head? = some ((h[i].toNat / 16).digitChar) := by
  have hlt : i < (h.toList.take j).length := by
    rw [List.length_take, Vector.length_toList]
    omega
  rw [hexSlice_toList, List.drop_eq_getElem_cons hlt, List.flatMap_cons, List.getElem_take,
    Vector.getElem_toList]
  rfl

/-- **An event id is a UUID of version 5**, for any digest. -/
theorem eventIdFor_isUuid5 (sha1 : String → Vector UInt8 20) (type businessKey : String) :
    IsUuid5 (eventIdFor sha1 type businessKey) := by
  -- the masks leave one version and four variants, whatever the byte is
  have hversion : ∀ b : UInt8, ((b &&& 0x0f) ||| 0x50).toNat / 16 = 5 := by
    have hbits : ∀ n < 256, (n &&& 0x0f ||| 0x50) / 16 = 5 := by decide +kernel
    intro b
    rw [UInt8.toNat_or, UInt8.toNat_and]
    exact hbits _ b.toNat_lt
  have hvariant : ∀ b : UInt8,
      (((b &&& 0x3f) ||| 0x80).toNat / 16).digitChar ∈ ['8', '9', 'a', 'b'] := by
    have hbits : ∀ n < 256, ((n &&& 0x3f ||| 0x80) / 16).digitChar ∈ ['8', '9', 'a', 'b'] := by
      decide +kernel
    intro b
    rw [UInt8.toNat_or, UInt8.toNat_and]
    exact hbits _ b.toNat_lt
  generalize hdigest : sha1 (type ++ ":" ++ businessKey) = digest
  set h := (digest.set 6 ((digest[6] &&& 0x0f) ||| 0x50)).set 8 ((digest[8] &&& 0x3f) ||| 0x80)
    with hh
  have hid : eventIdFor sha1 type businessKey = hexSlice h 0 4 ++ "-" ++ hexSlice h 4 6 ++ "-" ++
      hexSlice h 6 8 ++ "-" ++ hexSlice h 8 10 ++ "-" ++ hexSlice h 10 16 := by
    simp [eventIdFor, hdigest, hh]
  -- the third group begins with byte 6, the fourth with byte 8
  have hsix : h[6] = (digest[6] &&& 0x0f) ||| 0x50 := by simp [hh]
  have height : h[8] = (digest[8] &&& 0x3f) ||| 0x80 := by simp [hh]
  refine ⟨(hexSlice h 0 4).toList, (hexSlice h 4 6).toList, (hexSlice h 6 8).toList,
    (hexSlice h 8 10).toList, (hexSlice h 10 16).toList,
    ⟨?_, hexDigits_hexSlice (by norm_num) (by norm_num),
      hexDigits_hexSlice (by norm_num) (by norm_num),
      hexDigits_hexSlice (by norm_num) (by norm_num),
      hexDigits_hexSlice (by norm_num) (by norm_num),
      hexDigits_hexSlice (by norm_num) (by norm_num)⟩, ?_, _, hvariant digest[8], ?_⟩
  · simp [hid]
  · rw [head?_hexSlice (by norm_num) (by norm_num), hsix, hversion]
    rfl
  · rw [head?_hexSlice (by norm_num) (by norm_num), height]

end EventId

end Marketplace
