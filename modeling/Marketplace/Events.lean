import Mathlib.Data.Rat.Defs

/-!
# The event contract

`order.placed` as `messaging/events.ts` builds it. The event id is *derived*
from the business key, not drawn at random: publishing the same order again
gives the same id, which is what every consumer deduplicates by. SHA-1 is a
parameter: any function from strings to twenty bytes.

An order id is a number here; its text is the decimal that Postgres returns.
Buyer and product ids are the caller's own strings, as in the source.
-/

namespace Marketplace

/-- Identity of a row of `orders`. -/
abbrev OrderId : Type := ℕ

/-- The `data` part of `order.placed`. -/
structure OrderPlacedData where
  orderId : OrderId
  buyerId : String
  productId : String
  quantity : ℤ
  totalAmount : ℚ
  deriving DecidableEq

/-- The event itself. -/
structure OrderPlacedEvent where
  eventId : String
  type : String
  occurredAt : String
  data : OrderPlacedData
  deriving DecidableEq

/-- `'order.placed'` -/
def orderPlaced : String := "order.placed"

/-- One byte as two hexadecimal digits. -/
def hexByte (b : UInt8) : String :=
  let digit (n : ℕ) : Char := (Nat.digitChar n)
  String.ofList [digit (b.toNat / 16), digit (b.toNat % 16)]

/-- Bytes `i` to `j` in hexadecimal. -/
def hexSlice (h : Vector UInt8 20) (i j : ℕ) : String :=
  String.join (((h.toList.take j).drop i).map hexByte)

/-- A stable event id: the first sixteen bytes of the digest of the business
key, with the version nibble set to 5 and the variant bits to 10. -/
def eventIdFor (sha1 : String → Vector UInt8 20) (type businessKey : String) : String :=
  let h := sha1 (type ++ ":" ++ businessKey)
  let h := h.set 6 ((h[6] &&& 0x0f) ||| 0x50)
  let h := h.set 8 ((h[8] &&& 0x3f) ||| 0x80)
  hexSlice h 0 4 ++ "-" ++ hexSlice h 4 6 ++ "-" ++ hexSlice h 6 8 ++ "-" ++
    hexSlice h 8 10 ++ "-" ++ hexSlice h 10 16

/-- The mapping from an order to its event, field by field. -/
def toOrderPlacedEvent (sha1 : String → Vector UInt8 20) (id : OrderId)
    (buyerId productId : String) (quantity : ℤ) (totalAmount : ℚ) (placedAt : String) :
    OrderPlacedEvent :=
  { eventId := eventIdFor sha1 orderPlaced (toString id)
    type := orderPlaced
    occurredAt := placedAt
    data := { orderId := id, buyerId, productId, quantity, totalAmount } }

end Marketplace
