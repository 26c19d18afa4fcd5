import LxmfLite.Parse

namespace LxmfLite.Replies

open ByteString Execution Message Reader Parse

structure ArrayItems where
  data : Bytes
  pos : Nat
  remaining : Nat

/-- The match of array_items on the marker b: position of the first item and
item count. -/
def arrayHeader (data : Bytes) (b : Nat) : Result (Nat × Nat) :=
  if 0x90 ≤ b ∧ b ≤ 0x9f then pure (1, b &&& 15)
  else if b = 0xdc then do
    let count ← slice data 1 3
    let count ← toArray 2 count
    pure (3, ofBe count.val)
  else if b = 0xdd then do
    let count ← slice data 1 5
    let count ← toArray 4 count
    pure (5, ofBe count.val)
  else fail .malformedPayload

def arrayItems (data : Bytes) : Result ArrayItems := do
  let last ← skipValue data 0 0
  rejectIf (last ≠ data.length) .malformedPayload
  let marker ← index data 0
  let (pos, remaining) ← arrayHeader data marker.toNat
  pure ⟨data, pos, remaining⟩

namespace ArrayItems

/-- An item, with the iterator behind it; where there is none the iterator
stays as it is. -/
def next (items : ArrayItems) : Maybe (Bytes × ArrayItems) := do
  rejectIf (items.remaining = 0) ()
  let last ← ok (skipValue items.data items.pos 0)
  let item ← slice items.data items.pos last
  pure (item, { items with pos := last, remaining := items.remaining - 1 })

def len (items : ArrayItems) : Nat := items.remaining

end ArrayItems

def responseData (data : Bytes) (expectedId : Block 16) : Result Bytes := do
  let items ← arrayItems data
  rejectIf (items.len ≠ 2) .malformedPayload
  let (id, items) ← okOr items.next .malformedPayload
  let found ← okOr (valueAsBytes id) .malformedPayload
  rejectIf (found ≠ expectedId.val) .malformedPayload
  let (value, _) ← okOr items.next .malformedPayload
  pure value

/-- The loop of available_at over the items that are left. -/
def availableItems (wanted : Nat) :
    Nat → Nat → ArrayItems → Option (Block 32) → Result (Option (Block 32))
  | 0, _, _, first => pure first
  | left + 1, position, items, first =>
      match items.next with
      | .error (.error ()) => pure first
      | .error .panic => panic
      | .ok (item, items) => do
          let id ← okOr (valueAsBytes item) .malformedPayload
          let id ← orFail (tryInto 32 id) .malformedPayload
          availableItems wanted left (position + 1) items
            (if position = wanted then some id else first)

def availableAt (data : Bytes) (wanted : Nat) : Result (Option (Block 32) × Nat) := do
  let items ← arrayItems data
  let count := items.len
  let first ← availableItems wanted items.remaining 0 items none
  pure (first, count)

def firstAvailable (data : Bytes) : Result (Option (Block 32) × Nat) := availableAt data 0

def fetchedMessage (data : Bytes) : Result (Option Bytes) := do
  let items ← arrayItems data
  rejectIf (items.len > 1) .malformedPayload
  match items.next with
  | .error (.error ()) => pure none
  | .error .panic => panic
  | .ok (item, _) => do
      let message ← okOr (valueAsBytes item) .malformedPayload
      pure (some message)

section Numbers

def getBe (data : Bytes) (n : Nat) : Option Nat :=
  if 1 + n ≤ data.length then some (ofBe (data.extract 1 (1 + n))) else none

/-- u64::try_from on the two's-complement number of n bytes. -/
def nonNegative (n value : Nat) : Option Nat := if value < 2 ^ (8 * n - 1) then some value else none

def unsignedWidth (b : Nat) : Option (Nat × Bool) :=
  if b = 0xcc then some (1, false)
  else if b = 0xcd then some (2, false)
  else if b = 0xce then some (4, false)
  else if b = 0xcf then some (8, false)
  else if b = 0xd0 then some (1, true)
  else if b = 0xd1 then some (2, true)
  else if b = 0xd2 then some (4, true)
  else if b = 0xd3 then some (8, true)
  else none

def unsigned (data : Bytes) : Maybe Nat := do
  let marker ← orFail data[0]? ()
  if marker.toNat ≤ 0x7f then pure marker.toNat
  else if marker.toNat = 0xca ∨ marker.toNat = 0xcb then do
    let first ← index data 0
    let number ← (if first = 0xca then orFail ((getBe data 4).map F64.ofF32Bits) ()
      else orFail ((getBe data 8).map F64.fromBits) ())
    rejectIf (¬(number.isFinite = true ∧ (F64.ofInt 0).le number ∧ number.lt (.ofInt (2 ^ 64)))) ()
    pure number.asU64
  else do
    let (width, signed) ← orFail (unsignedWidth marker.toNat) ()
    let value ← orFail (getBe data width) ()
    (if signed then orFail (nonNegative width value) () else pure value)

def toU8 (n : Nat) : Option UInt8 := if n ≤ 0xff then some (UInt8.ofNat n) else none

end Numbers

structure NodeAnnounce where
  timebase : Nat
  enabled : Bool
  transferLimitKb : Nat
  syncLimitKb : Nat
  stampCost : UInt8
  stampFlex : UInt8
  peeringCost : UInt8
  name : Option Bytes
  deriving DecidableEq

def toBool (item : Bytes) : Option Bool :=
  if item = [0xc2] then some false else if item = [0xc3] then some true else none

def toOption {α : Type} (x : Maybe α) : Maybe (Option α) :=
  match x with
  | .ok a => .ok (some a)
  | .error (.error ()) => .ok none
  | .error .panic => panic

def parseNodeAnnounce (data : Bytes) : Maybe NodeAnnounce := do
  let items ← ok (arrayItems data)
  rejectIf (items.len < 7) ()
  let (_, items) ← items.next
  let (item, items) ← items.next
  let timebase ← unsigned item
  rejectIf (timebase > 2 ^ 63 - 1) ()
  let (item, items) ← items.next
  let enabled ← orFail (toBool item) ()
  let (item, items) ← items.next
  let transferLimitKb ← unsigned item
  let (item, items) ← items.next
  let syncLimitKb ← unsigned item
  rejectIf (transferLimitKb * 1000 > 2 ^ 64 - 1) ()
  rejectIf (syncLimitKb * 1000 > 2 ^ 64 - 1) ()
  let (item, items) ← items.next
  let costs ← ok (arrayItems item)
  rejectIf (costs.len < 3) ()
  let (cost, costs) ← costs.next
  let cost ← unsigned cost
  let stampCost ← orFail (toU8 cost) ()
  let (cost, costs) ← costs.next
  let cost ← unsigned cost
  let stampFlex ← orFail (toU8 cost) ()
  let (cost, _) ← costs.next
  let cost ← unsigned cost
  let peeringCost ← orFail (toU8 cost) ()
  let (metadata, _) ← items.next
  let marker ← orFail metadata[0]? ()
  rejectIf (¬((0x80 ≤ marker.toNat ∧ marker.toNat ≤ 0x8f) ∨ marker.toNat = 0xde ∨
    marker.toNat = 0xdf)) ()
  let name ← toOption (do
    let value ← fieldValue metadata 1
    valueAsBytes value)
  pure ⟨timebase, enabled, transferLimitKb, syncLimitKb, stampCost, stampFlex, peeringCost, name⟩

/-- The inner none is a known nil cost. -/
def deliveryStampCost (data : Bytes) : Maybe (Option UInt8) := do
  let items ← ok (arrayItems data)
  let (_, items) ← items.next
  let (cost, _) ← items.next
  if cost = [0xc0] then pure none
  else do
    rejectIf (cost[0]? = some 0xca ∨ cost[0]? = some 0xcb) ()
    let cost ← unsigned cost
    let cost ← orFail (toU8 cost) ()
    pure (some cost)

end LxmfLite.Replies
