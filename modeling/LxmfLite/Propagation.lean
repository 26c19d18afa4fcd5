import LxmfLite.Parse

namespace LxmfLite.Propagation

open ByteString Execution Message Primitives Reader

variable {LocalIdentity VerifyingKey : Type} (P : Platform LocalIdentity VerifyingKey)

inductive GetRequest
  | list
  | fetch (transientId : Block 32) (limitBytes : UInt16)
  | purge (durableTransientId : Block 32)
  deriving DecidableEq

def getPath : Bytes := [0x2f, 0x67, 0x65, 0x74]

def storeByte (bytes : Bytes) (i : Nat) (b : UInt8) : Result Bytes :=
  if i < bytes.length then .ok (bytes.set i b) else panic

def appendRecipientStamp (packedLen : Nat) (stamp : Bytes) : Exec LxmfError Bytes Nat := do
  let packed ← Exec.get
  Exec.rejectIf (packedLen ≤ lxmfPackedPrefix ∨ packedLen > packed.length ∨
    ¬(stamp.length = 16 ∨ stamp.length = 32)) .malformedPayload
  let marker ← (index packed lxmfPackedPrefix : Result UInt8)
  Exec.rejectIf (marker ≠ 0x94) .malformedPayload
  let head ← (slice packed 0 packedLen : Result Bytes)
  let last ← skipValue head lxmfPackedPrefix 0
  Exec.rejectIf (last ≠ packedLen) .malformedPayload
  Exec.rejectIf (packedLen + (2 + stamp.length) > P.usizeMax) .tooLong
  let stampEnd := packedLen + (2 + stamp.length)
  Exec.rejectIf (stampEnd > packed.length) .outputTooSmall
  let packed ← storeByte packed packedLen 0xc4
  let packed ← storeByte packed (packedLen + 1) (UInt8.ofNat stamp.length)
  let packed ← (copyFromSlice packed (packedLen + 2) stampEnd stamp : Result Bytes)
  let packed ← storeByte packed lxmfPackedPrefix 0x95
  Exec.set packed
  pure stampEnd

def encryptMessage (packedLen : Nat) (recipientPublicKey : Block 64) (ratchet : Option (Block 32))
    (ephemeralPriv : Block 32) (iv : Block 16) : Exec LxmfError Bytes (Nat × Block 32) := do
  let buffer ← Exec.get
  Exec.rejectIf (packedLen ≤ lxmfPackedPrefix ∨ packedLen > buffer.length) .malformedPayload
  let recipientHash := P.identityHash recipientPublicKey
  let destination := P.destinationHashFromName "lxmf.delivery" (some recipientHash)
  let leading ← (slice buffer 0 16 : Result Bytes)
  Exec.rejectIf (leading ≠ destination.val) .destinationMismatch
  let plaintextLen := packedLen - 16
  let ciphertextLen ← ofCrypto (P.eciesCiphertextLen plaintextLen)
  Exec.rejectIf (16 + ciphertextLen > P.usizeMax) .tooLong
  let total := 16 + ciphertextLen
  Exec.rejectIf (total > buffer.length) .outputTooSmall
  let start := 16 + P.eciesPlaintextOffset
  let buffer ← (copyWithin buffer 16 packedLen start : Result Bytes)
  Exec.set buffer
  let target := ratchet.getD (first32 recipientPublicKey)
  let region ← (slice buffer 16 total : Result Bytes)
  let (encrypted, region) := P.eciesEncryptInPlace target recipientHash ephemeralPriv iv region
    plaintextLen
  let buffer := overwrite buffer 16 region.val
  Exec.set buffer
  ofCrypto encrypted
  let entry ← (slice buffer 0 total : Result Bytes)
  pure (total, P.sha256 entry)

/-- The loop of decrypt_message over the keys that are left; the result is
the plaintext length with the index of the key. -/
def tryKeys (me : LocalIdentity) : Nat → List (Block 32) → Exec LxmfError Bytes (Nat × Nat)
  | _, [] => liftM (fail .crypto : Result (Nat × Nat))
  | i, key :: keys => do
      let buffer ← Exec.get
      let region ← (slice buffer 16 buffer.length : Result Bytes)
      let (decrypted, region) := P.eciesDecryptInPlace key (P.localIdentityHash me) region
      let buffer := overwrite buffer 16 region.val
      Exec.set buffer
      match decrypted with
      | .ok n => do
          let start := 16 + P.eciesPlaintextOffset
          let buffer ← (copyWithin buffer start (start + n) 16 : Result Bytes)
          Exec.set buffer
          pure (n, i)
      | .error _ => tryKeys me (i + 1) keys

def decryptMessage (me : LocalIdentity) (ratchetPrivs : List (Block 32)) :
    Exec LxmfError Bytes (Nat × Block 32 × Option Nat) := do
  let buffer ← Exec.get
  Exec.rejectIf (buffer.length < 16 + P.eciesFixedOverhead + 16) .malformedPayload
  let leading ← (slice buffer 0 16 : Result Bytes)
  Exec.rejectIf (leading ≠ (P.lxmfDeliveryHash me).val) .destinationMismatch
  let transientId := P.sha256 buffer
  let base := first32 (P.privateKey me)
  let (n, i) ← tryKeys P me 0 (ratchetPrivs ++ [base])
  pure (16 + n, transientId, if i < ratchetPrivs.length then some i else none)

def GetRequest.bodyLen : GetRequest → Nat
  | .list => 3
  | .purge _ => 37
  | .fetch _ _ => 46

/-- The data of a request, behind its envelope. -/
def writeBody : GetRequest → Exec LxmfError Bytes Unit
  | .list => Exec.update (copyFromSlice · 28 31 [0x92, 0xc0, 0xc0])
  | .purge durableTransientId => do
      Exec.update (copyFromSlice · 28 33 [0x92, 0xc0, 0x91, 0xc4, 32])
      Exec.update (copyFromSlice · 33 65 durableTransientId.val)
  | .fetch transientId limitBytes => do
      Exec.update (copyFromSlice · 28 32 [0x93, 0x91, 0xc4, 32])
      Exec.update (copyFromSlice · 32 64 transientId.val)
      Exec.update (storeByte · 64 0x90)
      Exec.update (storeByte · 65 0xcb)
      Exec.update (copyFromSlice · 66 74 (F64.div (.ofInt limitBytes.toNat) (.ofInt 1000)).toBeBytes)

def GetRequest.zeroLimit : GetRequest → Bool
  | .fetch _ limitBytes => limitBytes = 0
  | _ => false

def buildGetRequest (timestamp : F64) (request : GetRequest) : Exec LxmfError Bytes Nat := do
  Exec.rejectIf (timestamp.isFinite = false ∨ timestamp.lt (.ofInt 0) ∨ request.zeroLimit)
    .malformedPayload
  let total := 28 + request.bodyLen
  let out ← Exec.get
  Exec.rejectIf (out.length < total) .outputTooSmall
  Exec.update (storeByte · 0 0x93)
  Exec.update (storeByte · 1 0xcb)
  Exec.update (copyFromSlice · 2 10 timestamp.toBeBytes)
  Exec.update (copyFromSlice · 10 12 [0xc4, 16])
  let pathHash ← (slice (P.sha256 getPath).val 0 16 : Result Bytes)
  Exec.update (copyFromSlice · 12 28 pathHash)
  writeBody request
  pure total

def writeEntryHeader (start entryLen : Nat) : Exec LxmfError Bytes Unit :=
  if start = 13 then Exec.update (copyFromSlice · 11 13 [0xc4, UInt8.ofNat entryLen])
  else do
    Exec.update (storeByte · 11 0xc5)
    Exec.update (copyFromSlice · 12 14 (toBe 2 entryLen))

def wrapUpload (encryptedLen : Nat) (stamp : Block 32) (timestamp : F64) :
    Exec LxmfError Bytes Nat := do
  let buffer ← Exec.get
  Exec.rejectIf (timestamp.isFinite = false ∨ encryptedLen < 16 + P.eciesFixedOverhead + 16 ∨
    encryptedLen > buffer.length) .malformedPayload
  Exec.rejectIf (encryptedLen + 32 > P.usizeMax) .tooLong
  let entryLen := encryptedLen + 32
  Exec.rejectIf (entryLen > 0xffff) .tooLong
  let start := if entryLen ≤ 0xff then 13 else 14
  Exec.rejectIf (entryLen + start > P.usizeMax) .tooLong
  let total := entryLen + start
  Exec.rejectIf (total > buffer.length) .outputTooSmall
  Exec.update (copyWithin · 0 encryptedLen start)
  Exec.update (copyFromSlice · (start + encryptedLen) total stamp.val)
  Exec.update (copyFromSlice · 0 2 [0x92, 0xcb])
  Exec.update (copyFromSlice · 2 10 timestamp.toBeBytes)
  Exec.update (storeByte · 10 0x91)
  writeEntryHeader start entryLen
  pure total

end LxmfLite.Propagation
