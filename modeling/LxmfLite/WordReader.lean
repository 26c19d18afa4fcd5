import LxmfLite.Replies
import LxmfLite.Word

namespace LxmfLite.WordReader

open ByteString Execution Message Reader Parse Replies Word

variable (w : Nat)

section Values

def body (data : Bytes) (start n : Nat) : Result Nat :=
  orFail ((checkedAdd w start n).filter (· ≤ data.length)) .malformedPayload

def lenAt (data : Bytes) (start nb : Nat) : Result Nat := do
  let last ← orFail ((checkedAdd w start nb).filter (· ≤ data.length)) .malformedPayload
  let bytes ← slice data start last
  orFail (shiftIn w bytes 0) .malformedPayload

def kv (n : Nat) : Result Nat := orFail (checkedMul w n 2) .malformedPayload

def skipMarker (data : Bytes) (skip : Nat → Result Nat) (b p : Nat) : Result Nat :=
  if b ≤ 0x7f ∨ 0xe0 ≤ b ∨ b = 0xc0 ∨ b = 0xc2 ∨ b = 0xc3 then .ok p
  else if b = 0xcc ∨ b = 0xd0 then body w data p 1
  else if b = 0xcd ∨ b = 0xd1 then body w data p 2
  else if b = 0xca ∨ b = 0xce ∨ b = 0xd2 then body w data p 4
  else if b = 0xcb ∨ b = 0xcf ∨ b = 0xd3 then body w data p 8
  else if b = 0xc4 ∨ b = 0xd9 then do
    let n ← lenAt w data p 1
    let start ← add w p 1
    body w data start n
  else if b = 0xc5 ∨ b = 0xda then do
    let n ← lenAt w data p 2
    let start ← add w p 2
    body w data start n
  else if b = 0xc6 ∨ b = 0xdb then do
    let n ← lenAt w data p 4
    let start ← add w p 4
    body w data start n
  else if 0xa0 ≤ b ∧ b ≤ 0xbf then body w data p (b &&& 0x1f)
  else if 0x90 ≤ b ∧ b ≤ 0x9f then skipN skip (b &&& 0x0f) p
  else if 0x80 ≤ b ∧ b ≤ 0x8f then do
    let n ← mul w 2 (b &&& 0x0f)
    skipN skip n p
  else if b = 0xdc then do
    let n ← lenAt w data p 2
    let start ← add w p 2
    skipN skip n start
  else if b = 0xdd then do
    let n ← lenAt w data p 4
    let start ← add w p 4
    skipN skip n start
  else if b = 0xde then do
    let n ← lenAt w data p 2
    let start ← add w p 2
    let n ← kv w n
    skipN skip n start
  else if b = 0xdf then do
    let n ← lenAt w data p 4
    let start ← add w p 4
    let n ← kv w n
    skipN skip n start
  else fail .malformedPayload

def skipLevels (data : Bytes) : Nat → Nat → Result Nat
  | 0, _ => fail .malformedPayload
  | levels + 1, pos => do
      rejectIf (pos ≥ data.length) .malformedPayload
      let marker ← index data pos
      let p ← add w pos 1
      skipMarker w data (skipLevels data levels) marker.toNat p

def skipValue (data : Bytes) (pos depth : Nat) : Result Nat := skipLevels w data (9 - depth) pos

/-- The n bytes behind the marker at pos, as a big-endian number; each index is
a sum, the last one the largest. -/
def numberBehind (data : Bytes) (pos n : Nat) : Result Nat := do
  let start ← add w pos 1
  let _ ← add w pos n
  let number ← fromBeBytes data start n
  pure (truncate w number)

/-- One arm of read_bin with its guard; where the guard fails no later arm
takes the marker. -/
def binArm (data : Bytes) (pos n : Nat) : Result (Nat × Nat) := do
  let last ← add w pos (n + 1)
  rejectIf (¬last ≤ data.length) .malformedPayload
  let len ← numberBehind w data pos n
  pure (n + 1, len)

def binHeader (data : Bytes) (pos b : Nat) : Result (Nat × Nat) :=
  if b = 0xc4 ∨ b = 0xd9 then binArm w data pos 1
  else if b = 0xc5 ∨ b = 0xda then binArm w data pos 2
  else if b = 0xc6 ∨ b = 0xdb then binArm w data pos 4
  else if 0xa0 ≤ b ∧ b ≤ 0xbf then pure (1, b &&& 0x1f)
  else fail .malformedPayload

def readBin (data : Bytes) (pos : Nat) : Result (Bytes × Nat) := do
  rejectIf (pos ≥ data.length) .malformedPayload
  let marker ← index data pos
  let (hdr, len) ← binHeader w data pos marker.toNat
  let start ← add w pos hdr
  let last ← orFail ((checkedAdd w start len).filter (· ≤ data.length)) .malformedPayload
  let bytes ← slice data start last
  pure (bytes, last)

def mapHeader (data : Bytes) (b : Nat) : Maybe (Nat × Nat) :=
  if 0x80 ≤ b ∧ b ≤ 0x8f then pure (1, b &&& 0x0f)
  else if b = 0xde ∧ data.length ≥ 3 then do
    let count ← fromBeBytes data 1 2
    pure (3, truncate w count)
  else if b = 0xdf ∧ data.length ≥ 5 then do
    let count ← fromBeBytes data 1 4
    pure (5, truncate w count)
  else fail ()

def readMapHeader (data : Bytes) : Maybe (Nat × Nat) := do
  let marker ← orFail data[0]? ()
  mapHeader w data marker.toNat

def readFieldId (data : Bytes) (pos : Nat) : Maybe (FieldId × Nat) := do
  let marker ← orFail data[pos]? ()
  if marker.toNat ≤ 0x7f then do
    let last ← add w pos 1
    pure (.ofU8 marker, last)
  else if 0xe0 ≤ marker.toNat then do
    let last ← add w pos 1
    pure (.ofI8 marker, last)
  else do
    let (width, signed) ← orFail (fieldIdWidth marker.toNat) ()
    let start ← orFail (checkedAdd w pos 1) ()
    let last ← orFail (checkedAdd w start width) ()
    rejectIf (last > data.length) ()
    let bytes := data.extract start last
    let seed ← signSeed bytes signed
    let value := bytes.foldl (fun v b => v * 256 + (b.toNat : Int)) seed
    match FieldId.tryFrom value with
    | .ok id => pure (id, last)
    | .error _ => fail ()

end Values

section Fields

def validateEntries (fields : Bytes) : Nat → Nat → Nat → Exec LxmfError FieldScratch Nat
  | 0, _, pos => pure pos
  | count + 1, position, pos => do
      let (key, afterKey) ← okOr (readFieldId w fields pos) .malformedPayload
      let scratch ← Exec.get
      let seen ← scratch.before position
      Exec.rejectIf (key.val ∈ seen) .duplicateField
      let scratch ← scratch.store position key.val
      Exec.set scratch
      let pos ← skipValue w fields afterKey 0
      validateEntries fields count (position + 1) pos

def validateFields (fields : Bytes) : Exec LxmfError FieldScratch Unit :=
  match readMapHeader w fields with
  | .error (.error ()) => pure ()
  | .error .panic => liftM (panic : Result Unit)
  | .ok (pos, count) => do
      Exec.rejectIf (count > 64) .tooManyFields
      Exec.rejectIf (count > (fields.length - pos) / 2) .malformedPayload
      let pos ← validateEntries w fields count 0 pos
      Exec.rejectIf (pos ≠ fields.length) .malformedPayload

def priorEntries (fields : Bytes) (key : FieldId) : Nat → Nat → Result Unit
  | 0, _ => pure ()
  | count + 1, prior => do
      let (previous, last) ← okOr (readFieldId w fields prior) .malformedPayload
      rejectIf (previous = key) .duplicateField
      let prior ← skipValue w fields last 0
      priorEntries fields key count prior

def entriesWithoutScratch (fields : Bytes) (first : Nat) : Nat → Nat → Nat → Result Nat
  | 0, _, pos => pure pos
  | count + 1, position, pos => do
      let (key, afterKey) ← okOr (readFieldId w fields pos) .malformedPayload
      priorEntries w fields key position first
      let pos ← skipValue w fields afterKey 0
      entriesWithoutScratch fields first count (position + 1) pos

def validateFieldsWithoutScratch (fields : Bytes) : Result Unit := do
  let (first, count) ← okOr (readMapHeader w fields) .malformedPayload
  rejectIf (count > 64) .tooManyFields
  let pos ← entriesWithoutScratch w fields first count 0 first
  rejectIf (pos ≠ fields.length) .malformedPayload

def lookupEntries (fields : Bytes) (key : FieldId) : Nat → Nat → Maybe Bytes
  | 0, _ => fail ()
  | count + 1, pos => do
      let (id, afterKey) ← readFieldId w fields pos
      let last ← ok (skipValue w fields afterKey 0)
      if id = key then slice fields afterKey last
      else lookupEntries fields key count last

def fieldValueId (fields : Bytes) (key : FieldId) : Maybe Bytes := do
  ok (validateFieldsWithoutScratch w fields)
  let (pos, count) ← readMapHeader w fields
  lookupEntries w fields key count pos

end Fields

section Schema

-- core::str::from_utf8 succeeds
variable (isUtf8 : Bytes → Bool)

def readSchemaKey (map : Bytes) (pos : Nat) : Maybe (SchemaKey × Nat) := do
  let marker ← orFail map[pos]? ()
  if (0xa0 ≤ marker.toNat ∧ marker.toNat ≤ 0xbf) ∨ (0xd9 ≤ marker.toNat ∧ marker.toNat ≤ 0xdb) then do
    let (bytes, last) ← ok (readBin w map pos)
    rejectIf (isUtf8 bytes = false) ()
    pure (.text bytes, last)
  else do
    let (id, last) ← readFieldId w map pos
    pure (.integer id, last)

def priorSchemaKeys (map : Bytes) (current : SchemaKey) : Nat → Nat → Maybe Unit
  | 0, _ => pure ()
  | count + 1, prior => do
      let (previous, last) ← readSchemaKey w isUtf8 map prior
      rejectIf (previous = current) ()
      let prior ← ok (skipValue w map last 0)
      priorSchemaKeys map current count prior

def schemaEntries (map wanted : Bytes) (first : Nat) :
    Nat → Nat → Nat → Option Bytes → Maybe (Option Bytes × Nat)
  | 0, _, pos, found => pure (found, pos)
  | count + 1, position, pos, found => do
      let (current, afterKey) ← readSchemaKey w isUtf8 map pos
      priorSchemaKeys w isUtf8 map current position first
      let last ← ok (skipValue w map afterKey 0)
      if current = .text wanted then do
        let value ← slice map afterKey last
        schemaEntries map wanted first count (position + 1) last (some value)
      else schemaEntries map wanted first count (position + 1) last found

def mapBytesValue (map key : Bytes) : Maybe Bytes := do
  rejectIf (isUtf8 key = false) ()
  let (first, count) ← readMapHeader w map
  rejectIf (count > 64 ∨ count > (map.length - first) / 2) ()
  let (found, pos) ← schemaEntries w isUtf8 map key first count 0 first none
  rejectIf (pos ≠ map.length) ()
  orFail found ()

end Schema

section Items

def arrayHeader (data : Bytes) (b : Nat) : Result (Nat × Nat) :=
  if 0x90 ≤ b ∧ b ≤ 0x9f then pure (1, b &&& 15)
  else if b = 0xdc then do
    let count ← slice data 1 3
    let count ← toArray 2 count
    pure (3, truncate w (ofBe count.val))
  else if b = 0xdd then do
    let count ← slice data 1 5
    let count ← toArray 4 count
    pure (5, truncate w (ofBe count.val))
  else fail .malformedPayload

def arrayItems (data : Bytes) : Result ArrayItems := do
  let last ← skipValue w data 0 0
  rejectIf (last ≠ data.length) .malformedPayload
  let marker ← index data 0
  let (pos, remaining) ← arrayHeader w data marker.toNat
  pure ⟨data, pos, remaining⟩

def next (items : ArrayItems) : Maybe (Bytes × ArrayItems) := do
  rejectIf (items.remaining = 0) ()
  let last ← ok (skipValue w items.data items.pos 0)
  let item ← slice items.data items.pos last
  pure (item, { items with pos := last, remaining := items.remaining - 1 })

end Items

end LxmfLite.WordReader
