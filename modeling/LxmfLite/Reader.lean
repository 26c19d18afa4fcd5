import LxmfLite.Message

namespace LxmfLite.Reader

open ByteString Execution Message

/-- The body closure of skip_value: start + n, inside the slice. -/
def body (data : Bytes) (start n : Nat) : Result Nat :=
  if start + n ≤ data.length then .ok (start + n) else fail .malformedPayload

/-- The len_at closure of skip_value: a big-endian number of nb bytes. -/
def lenAt (data : Bytes) (start nb : Nat) : Result Nat := do
  rejectIf (start + nb > data.length) .malformedPayload
  let bytes ← slice data start (start + nb)
  pure (ofBe bytes)

section Skip

-- skip_value in any monad that has its results, so that its calls can be observed
variable {m : Type → Type} [Monad m] [MonadLiftT Result m]

def skipN (skip : Nat → m Nat) : Nat → Nat → m Nat
  | 0, pos => pure pos
  | count + 1, pos => do
      let pos ← skip pos
      skipN skip count pos

/-- The match of skip_value on the marker b, with p the position behind it;
skip walks one nested value. -/
def skipMarker (data : Bytes) (skip : Nat → m Nat) (b p : Nat) : m Nat :=
  if b ≤ 0x7f ∨ 0xe0 ≤ b ∨ b = 0xc0 ∨ b = 0xc2 ∨ b = 0xc3 then pure p
  else if b = 0xcc ∨ b = 0xd0 then liftM (body data p 1)
  else if b = 0xcd ∨ b = 0xd1 then liftM (body data p 2)
  else if b = 0xca ∨ b = 0xce ∨ b = 0xd2 then liftM (body data p 4)
  else if b = 0xcb ∨ b = 0xcf ∨ b = 0xd3 then liftM (body data p 8)
  else if b = 0xc4 ∨ b = 0xd9 then do
    let n ← lenAt data p 1
    liftM (body data (p + 1) n)
  else if b = 0xc5 ∨ b = 0xda then do
    let n ← lenAt data p 2
    liftM (body data (p + 2) n)
  else if b = 0xc6 ∨ b = 0xdb then do
    let n ← lenAt data p 4
    liftM (body data (p + 4) n)
  else if 0xa0 ≤ b ∧ b ≤ 0xbf then liftM (body data p (b &&& 0x1f))
  else if 0x90 ≤ b ∧ b ≤ 0x9f then skipN skip (b &&& 0x0f) p
  else if 0x80 ≤ b ∧ b ≤ 0x8f then skipN skip (2 * (b &&& 0x0f)) p
  else if b = 0xdc then do
    let n ← lenAt data p 2
    skipN skip n (p + 2)
  else if b = 0xdd then do
    let n ← lenAt data p 4
    skipN skip n (p + 4)
  else if b = 0xde then do
    let n ← lenAt data p 2
    skipN skip (n * 2) (p + 2)
  else if b = 0xdf then do
    let n ← lenAt data p 4
    skipN skip (n * 2) (p + 4)
  else liftM (fail .malformedPayload : Result Nat)

/-- skip_value with as many levels left as its depth bound allows; no level
left is the branch for a depth past the bound. Each call tells where it is. -/
def skipLevelsIn (enter : Nat → Nat → m Unit) (data : Bytes) : Nat → Nat → Nat → m Nat
  | 0, depth, pos => do
      enter pos depth
      liftM (fail .malformedPayload : Result Nat)
  | levels + 1, depth, pos => do
      enter pos depth
      liftM (rejectIf (pos ≥ data.length) .malformedPayload : Result Unit)
      let marker ← (index data pos : Result UInt8)
      skipMarker data (skipLevelsIn enter data levels (depth + 1)) marker.toNat (pos + 1)

def skipValueIn (enter : Nat → Nat → m Unit) (data : Bytes) (pos depth : Nat) : m Nat :=
  skipLevelsIn enter data (9 - depth) depth pos

end Skip

def skipValue (data : Bytes) (pos depth : Nat) : Result Nat :=
  skipValueIn (fun _ _ => pure ()) data pos depth

/-- u16::from_be_bytes and u32::from_be_bytes on the bytes of an index range. -/
def fromBeBytes {ε : Type} (data : Bytes) (start nb : Nat) : Outcome ε Nat := do
  let bytes ← slice data start (start + nb)
  pure (ofBe bytes)

/-- The match of read_bin on the marker b: header length and payload length. -/
def binHeader (data : Bytes) (pos b : Nat) : Result (Nat × Nat) :=
  if (b = 0xc4 ∨ b = 0xd9) ∧ pos + 2 ≤ data.length then do
    let len ← fromBeBytes data (pos + 1) 1
    pure (2, len)
  else if (b = 0xc5 ∨ b = 0xda) ∧ pos + 3 ≤ data.length then do
    let len ← fromBeBytes data (pos + 1) 2
    pure (3, len)
  else if (b = 0xc6 ∨ b = 0xdb) ∧ pos + 5 ≤ data.length then do
    let len ← fromBeBytes data (pos + 1) 4
    pure (5, len)
  else if 0xa0 ≤ b ∧ b ≤ 0xbf then pure (1, b &&& 0x1f)
  else fail .malformedPayload

def readBin (data : Bytes) (pos : Nat) : Result (Bytes × Nat) := do
  rejectIf (pos ≥ data.length) .malformedPayload
  let marker ← index data pos
  let (hdr, len) ← binHeader data pos marker.toNat
  let start := pos + hdr
  rejectIf (start + len > data.length) .malformedPayload
  let bytes ← slice data start (start + len)
  pure (bytes, start + len)

def mapHeader (data : Bytes) (b : Nat) : Maybe (Nat × Nat) :=
  if 0x80 ≤ b ∧ b ≤ 0x8f then pure (1, b &&& 0x0f)
  else if b = 0xde ∧ data.length ≥ 3 then do
    let count ← fromBeBytes data 1 2
    pure (3, count)
  else if b = 0xdf ∧ data.length ≥ 5 then do
    let count ← fromBeBytes data 1 4
    pure (5, count)
  else fail ()

def readMapHeader (data : Bytes) : Maybe (Nat × Nat) := do
  let marker ← orFail data[0]? ()
  mapHeader data marker.toNat

def fieldIdWidth (b : Nat) : Option (Nat × Bool) :=
  if b = 0xcc then some (1, false)
  else if b = 0xcd then some (2, false)
  else if b = 0xce then some (4, false)
  else if b = 0xcf then some (8, false)
  else if b = 0xd0 then some (1, true)
  else if b = 0xd1 then some (2, true)
  else if b = 0xd2 then some (4, true)
  else if b = 0xd3 then some (8, true)
  else none

/-- What read_field_id shifts the digits into: all ones for a negative number. -/
def signSeed (bytes : Bytes) (signed : Bool) : Maybe Int :=
  if signed then do
    let first ← index bytes 0
    pure (if first.toNat &&& 0x80 ≠ 0 then -1 else 0)
  else pure 0

def readFieldId (data : Bytes) (pos : Nat) : Maybe (FieldId × Nat) := do
  let marker ← orFail data[pos]? ()
  if marker.toNat ≤ 0x7f then pure (.ofU8 marker, pos + 1)
  else if 0xe0 ≤ marker.toNat then pure (.ofI8 marker, pos + 1)
  else do
    let (width, signed) ← orFail (fieldIdWidth marker.toNat) ()
    let start := pos + 1
    let last := start + width
    rejectIf (last > data.length) ()
    let bytes := data.extract start last
    let seed ← signSeed bytes signed
    let value := bytes.foldl (fun v b => v * 256 + (b.toNat : Int)) seed
    match FieldId.tryFrom value with
    | .ok id => pure (id, last)
    | .error _ => fail ()

/-- The loop of validate_fields over the entries that are left. -/
def validateEntries (fields : Bytes) : Nat → Nat → Nat → Exec LxmfError FieldScratch Nat
  | 0, _, pos => pure pos
  | count + 1, position, pos => do
      let (key, afterKey) ← okOr (readFieldId fields pos) .malformedPayload
      let scratch ← Exec.get
      let seen ← scratch.before position
      Exec.rejectIf (key.val ∈ seen) .duplicateField
      let scratch ← scratch.store position key.val
      Exec.set scratch
      let pos ← skipValue fields afterKey 0
      validateEntries fields count (position + 1) pos

def validateFields (fields : Bytes) : Exec LxmfError FieldScratch Unit :=
  match readMapHeader fields with
  | .error (.error ()) => pure ()
  | .error .panic => liftM (panic : Result Unit)
  | .ok (pos, count) => do
      Exec.rejectIf (count > 64) .tooManyFields
      Exec.rejectIf (count > (fields.length - pos) / 2) .malformedPayload
      let pos ← validateEntries fields count 0 pos
      Exec.rejectIf (pos ≠ fields.length) .malformedPayload

def ok {α : Type} (x : Result α) : Maybe α :=
  match x with
  | .ok a => .ok a
  | .error (.error _) => fail ()
  | .error .panic => panic

section Scan

variable {m : Type → Type} [Monad m] [MonadLiftT Result m] (skip : Nat → m Nat) (compare : m Unit)
  (fields : Bytes)

/-- The inner loop of validate_fields_without_scratch: key against the entries
before it. -/
def priorEntriesIn (key : FieldId) : Nat → Nat → m Unit
  | 0, _ => pure ()
  | count + 1, prior => do
      let (previous, last) ← okOr (readFieldId fields prior) .malformedPayload
      compare
      liftM (rejectIf (previous = key) .duplicateField : Result Unit)
      let prior ← skip last
      priorEntriesIn key count prior

/-- The outer loop of validate_fields_without_scratch. -/
def entriesIn (first : Nat) : Nat → Nat → Nat → m Nat
  | 0, _, pos => pure pos
  | count + 1, position, pos => do
      let (key, afterKey) ← okOr (readFieldId fields pos) .malformedPayload
      priorEntriesIn skip compare fields key position first
      let pos ← skip afterKey
      entriesIn first count (position + 1) pos

def validateFieldsIn : m Unit := do
  let (first, count) ← okOr (readMapHeader fields) .malformedPayload
  liftM (rejectIf (count > 64) .tooManyFields : Result Unit)
  let pos ← entriesIn skip compare fields first count 0 first
  liftM (rejectIf (pos ≠ fields.length) .malformedPayload : Result Unit)

end Scan

def validateFieldsWithoutScratch (fields : Bytes) : Result Unit :=
  validateFieldsIn (skipValue fields · 0) (pure ()) fields

section Lookup

variable {m : Type → Type} [Monad m] [MonadLiftT Maybe m] (skip : Nat → m Nat) (compare : m Unit)
  (fields : Bytes) (key : FieldId)

/-- The loop of field_value_id over the entries that are left. -/
def lookupEntriesIn : Nat → Nat → m Bytes
  | 0, _ => liftM (fail () : Maybe Bytes)
  | count + 1, pos => do
      let (id, afterKey) ← readFieldId fields pos
      let last ← skip afterKey
      compare
      if id = key then liftM (slice fields afterKey last : Maybe Bytes)
      else lookupEntriesIn count last

def fieldValueIn (validate : m Unit) : m Bytes := do
  validate
  let (pos, count) ← readMapHeader fields
  lookupEntriesIn skip compare fields key count pos

end Lookup

def fieldValueId (fields : Bytes) (key : FieldId) : Maybe Bytes :=
  fieldValueIn (fun pos => ok (skipValue fields pos 0)) (pure ()) fields key
    (ok (validateFieldsWithoutScratch fields))

def fieldValue (fields : Bytes) (key : UInt8) : Maybe Bytes := fieldValueId fields (.ofU8 key)

def pairHeader (value : Bytes) : Option Nat :=
  if [0x92] <+: value then some 1
  else if [0xdc, 0, 2] <+: value then some 3
  else if [0xdd, 0, 0, 0, 2] <+: value then some 5
  else none

def audioIntegerWidth (b : Nat) : Option Nat :=
  if b = 0xcc ∨ b = 0xd0 then some 1
  else if b = 0xcd ∨ b = 0xd1 then some 2
  else if b = 0xce ∨ b = 0xd2 then some 4
  else if b = 0xcf ∨ b = 0xd3 then some 8
  else none

def readAudioInteger (value : Bytes) : Maybe (UInt8 × Nat) := do
  let marker ← orFail value[0]? ()
  if marker.toNat ≤ 0x7f then pure (marker, 1)
  else do
    let width ← orFail (audioIntegerWidth marker.toNat) ()
    rejectIf (1 + width > value.length) ()
    let number := value.extract 1 (1 + width)
    let high ← slice number 0 (width - 1)
    rejectIf (∃ b ∈ high, b ≠ 0) ()
    let first ← index number 0
    rejectIf (marker = 0xd0 ∧ first.toNat > 0x7f) ()
    let last ← index number (width - 1)
    pure (last, width + 1)

def audioField (fields : Bytes) : Result (Option AudioField) := do
  validateFieldsWithoutScratch fields
  match fieldValue fields fieldAudio with
  | .error (.error ()) => pure none
  | .error .panic => panic
  | .ok value => do
      let arrayHeader ← orFail (pairHeader value) .malformedPayload
      let tail ← slice value arrayHeader value.length
      let (mode, width) ← okOr (readAudioInteger tail) .malformedPayload
      let binStart := arrayHeader + width
      let marker ← orFail value[binStart]? .malformedPayload
      rejectIf (¬(0xc4 ≤ marker.toNat ∧ marker.toNat ≤ 0xc6)) .malformedPayload
      let (bytes, last) ← readBin value binStart
      rejectIf (last ≠ value.length) .malformedPayload
      pure (some ⟨mode, bytes⟩)

section Tickets

def numberWidth (b : Nat) : Option Nat :=
  if b = 0xcc ∨ b = 0xd0 then some 1
  else if b = 0xcd ∨ b = 0xd1 then some 2
  else if b = 0xca ∨ b = 0xce ∨ b = 0xd2 then some 4
  else if b = 0xcb ∨ b = 0xcf ∨ b = 0xd3 then some 8
  else none

/-- The match of read_number on the marker b behind the fixints. The shift up
and the arithmetic shift down extend the sign. -/
def numberValue (b width unsigned : Nat) : F64 :=
  if b = 0xca then .ofF32Bits (unsigned % 2 ^ 32)
  else if b = 0xcb then .fromBits unsigned
  else if 0xcc ≤ b ∧ b ≤ 0xcf then .ofInt unsigned
  else
    let shift := 64 - 8 * width
    .ofInt ((BitVec.ofNat 64 unsigned <<< shift).sshiftRight shift).toInt

def readNumber (data : Bytes) (pos : Nat) : Maybe (F64 × Nat) := do
  let marker ← orFail data[pos]? ()
  if marker.toNat ≤ 0x7f then pure (.ofInt marker.toNat, pos + 1)
  else if 0xe0 ≤ marker.toNat then pure (.ofInt (marker.toNat - 256), pos + 1)
  else do
    let width ← orFail (numberWidth marker.toNat) ()
    rejectIf (pos + 1 + width > data.length) ()
    let bytes := data.extract (pos + 1) (pos + 1 + width)
    let raw ← copyFromSlice (List.replicate 8 0) (8 - width) 8 bytes
    pure (numberValue marker.toNat width (ofBe raw), pos + 1 + width)

def ticketField (fields : Bytes) (now : F64) : Maybe TicketField := do
  let value ← fieldValue fields fieldTicket
  let first ← orFail (pairHeader value) ()
  let (expires, after) ← readNumber value first
  let (ticket, last) ← ok (readBin value after)
  rejectIf (last ≠ value.length ∨ expires.isFinite = false ∨ expires.le now) ()
  let ticket ← orFail (tryInto ticketLength ticket) ()
  pure ⟨expires, ticket⟩

end Tickets

def valueAsBytes (value : Bytes) : Maybe Bytes := do
  let (bytes, _) ← ok (readBin value 0)
  pure bytes

inductive SchemaKey
  | integer (id : FieldId)
  | text (text : Bytes)
  deriving DecidableEq

section Schema

-- core::str::from_utf8 succeeds
variable (isUtf8 : Bytes → Bool)

def readSchemaKey (map : Bytes) (pos : Nat) : Maybe (SchemaKey × Nat) := do
  let marker ← orFail map[pos]? ()
  if (0xa0 ≤ marker.toNat ∧ marker.toNat ≤ 0xbf) ∨ (0xd9 ≤ marker.toNat ∧ marker.toNat ≤ 0xdb) then do
    let (bytes, last) ← ok (readBin map pos)
    rejectIf (isUtf8 bytes = false) ()
    pure (.text bytes, last)
  else do
    let (id, last) ← readFieldId map pos
    pure (.integer id, last)

/-- The inner loop of map_bytes_value: the current key against the entries
before it. -/
def priorSchemaKeys (map : Bytes) (current : SchemaKey) : Nat → Nat → Maybe Unit
  | 0, _ => pure ()
  | count + 1, prior => do
      let (previous, last) ← readSchemaKey isUtf8 map prior
      rejectIf (previous = current) ()
      let prior ← ok (skipValue map last 0)
      priorSchemaKeys map current count prior

def schemaEntries (map wanted : Bytes) (first : Nat) :
    Nat → Nat → Nat → Option Bytes → Maybe (Option Bytes × Nat)
  | 0, _, pos, found => pure (found, pos)
  | count + 1, position, pos, found => do
      let (current, afterKey) ← readSchemaKey isUtf8 map pos
      priorSchemaKeys isUtf8 map current position first
      let last ← ok (skipValue map afterKey 0)
      if current = .text wanted then do
        let value ← slice map afterKey last
        schemaEntries map wanted first count (position + 1) last (some value)
      else schemaEntries map wanted first count (position + 1) last found

def mapBytesValue (map key : Bytes) : Maybe Bytes := do
  rejectIf (isUtf8 key = false) ()
  let (first, count) ← readMapHeader map
  rejectIf (count > 64 ∨ count > (map.length - first) / 2) ()
  let (found, pos) ← schemaEntries isUtf8 map key first count 0 first none
  rejectIf (pos ≠ map.length) ()
  orFail found ()

end Schema

end LxmfLite.Reader
