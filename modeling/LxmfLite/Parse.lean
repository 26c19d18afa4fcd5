import LxmfLite.Primitives
import LxmfLite.Reader

namespace LxmfLite.Parse

open ByteString Execution Message Primitives Reader

variable {LocalIdentity VerifyingKey : Type} (P : Platform LocalIdentity VerifyingKey)

def toArray (n : Nat) (bytes : Bytes) : Result (Block n) :=
  if h : bytes.length = n then .ok ⟨bytes, h⟩ else panic

/-- payload4 of the parsers: the marker is forced to four elements. -/
def setFirst (bytes : Bytes) (marker : UInt8) : Result Bytes :=
  copyFromSlice bytes 0 1 [marker]

/-- parse_decrypted writes to the field scratch alone. -/
def parseDecrypted (me : LocalIdentity) (sourcePublicKey : Block 64) (scratch : Bytes)
    (ptLen : Nat) : Exec LxmfError FieldScratch LxmfView := do
  let plaintext ← (slice scratch 0 ptLen : Result Bytes)
  Exec.rejectIf (plaintext.length < plaintextPrefix + 1) .malformedPayload
  let sourceBytes ← (slice plaintext 0 16 : Result Bytes)
  let sourceHash ← toArray 16 sourceBytes
  let signatureBytes ← (slice plaintext 16 80 : Result Bytes)
  let signature ← toArray 64 signatureBytes
  let payload ← (slice plaintext 80 plaintext.length : Result Bytes)
  let nh := P.nameHash P.lxmfDeliveryName
  let srcIdHash := P.identityHash sourcePublicKey
  Exec.rejectIf (P.destinationHashFromParts nh (some srcIdHash) ≠ sourceHash) .sourceHashMismatch
  Exec.rejectIf (payload.length = 0) .malformedPayload
  let marker ← (index payload 0 : Result UInt8)
  Exec.rejectIf (marker &&& 0xf0 ≠ 0x90) .malformedPayload
  let nElems := (marker &&& 0x0f).toNat
  Exec.rejectIf (nElems < 4) .malformedPayload
  Exec.rejectIf (payload.length < 10) .malformedPayload
  let second ← (index payload 1 : Result UInt8)
  Exec.rejectIf (second ≠ 0xcb) .malformedPayload
  let timestampBytes ← (slice payload 2 10 : Result Bytes)
  let timestampArray ← toArray 8 timestampBytes
  let timestamp := F64.fromBeBytes timestampArray.val
  let (title, afterTitle) ← readBin payload 10
  let (content, afterContent) ← readBin payload afterTitle
  let afterFields ← skipValue payload afterContent 0
  let fields ← (slice payload afterContent afterFields : Result Bytes)
  validateFields fields
  let payload4 := List.replicate P.maxLxmfPayload 0
  let p4Len := afterFields
  Exec.rejectIf (p4Len > P.maxLxmfPayload) .malformedPayload
  let head ← (slice payload 0 p4Len : Result Bytes)
  let payload4 ← (copyFromSlice payload4 0 p4Len head : Result Bytes)
  let payload4 ← setFirst payload4 0x94
  let myDest := P.lxmfDeliveryHash me
  let signed := List.replicate (lxmfDestLength * 2 + P.maxLxmfPayload + messageIdLength) 0
  let signed ← (copyFromSlice signed 0 16 myDest.val : Result Bytes)
  let signed ← (copyFromSlice signed 16 32 sourceHash.val : Result Bytes)
  let stripped ← (slice payload4 0 p4Len : Result Bytes)
  let signed ← (copyFromSlice signed 32 (32 + p4Len) stripped : Result Bytes)
  let hashedLen := 32 + p4Len
  let hashed ← (slice signed 0 hashedLen : Result Bytes)
  let hash := P.sha256 hashed
  let signed ← (copyFromSlice signed hashedLen (hashedLen + 32) hash.val : Result Bytes)
  let key ← (orFail (P.verifyingKey (last32 sourcePublicKey)) .signatureInvalid : Result VerifyingKey)
  let signedPart ← (slice signed 0 (hashedLen + 32) : Result Bytes)
  Exec.rejectIf (P.verify key signedPart signature = false) .signatureInvalid
  pure ⟨hash, sourceHash, timestamp, title, content, fields⟩

structure LinkScratch where
  scratch : Bytes
  fieldScratch : FieldScratch

def parseLink (me : LocalIdentity) (data : Bytes) (sourcePublicKey : Block 64) :
    Exec LxmfError LinkScratch LxmfView := do
  Exec.rejectIf (data.length < lxmfPackedPrefix + 1) .malformedPayload
  let destBytes ← (slice data 0 16 : Result Bytes)
  let destHash ← toArray 16 destBytes
  Exec.rejectIf (destHash ≠ P.lxmfDeliveryHash me) .destinationMismatch
  let sourceBytes ← (slice data 16 32 : Result Bytes)
  let sourceHash ← toArray 16 sourceBytes
  let signatureBytes ← (slice data 32 96 : Result Bytes)
  let signature ← toArray 64 signatureBytes
  let payload ← (slice data 96 data.length : Result Bytes)
  let nh := P.nameHash P.lxmfDeliveryName
  let srcIdHash := P.identityHash sourcePublicKey
  Exec.rejectIf (P.destinationHashFromParts nh (some srcIdHash) ≠ sourceHash) .sourceHashMismatch
  Exec.rejectIf (payload.length = 0) .malformedPayload
  let marker ← (index payload 0 : Result UInt8)
  Exec.rejectIf (marker &&& 0xf0 ≠ 0x90) .malformedPayload
  Exec.rejectIf (marker &&& 0x0f < 4) .malformedPayload
  Exec.rejectIf (payload.length < 10) .malformedPayload
  let second ← (index payload 1 : Result UInt8)
  Exec.rejectIf (second ≠ 0xcb) .malformedPayload
  let timestampBytes ← (slice payload 2 10 : Result Bytes)
  let timestampArray ← toArray 8 timestampBytes
  let timestamp := F64.fromBeBytes timestampArray.val
  let (title, afterTitle) ← readBin payload 10
  let (content, afterContent) ← readBin payload afterTitle
  let afterFields ← skipValue payload afterContent 0
  let fields ← (slice payload afterContent afterFields : Result Bytes)
  let buffers ← Exec.get
  let (checked, fieldScratch) := (validateFields fields).run buffers.fieldScratch
  Exec.set { buffers with fieldScratch := fieldScratch }
  checked
  let p4Len := afterFields
  let scratch := buffers.scratch
  Exec.rejectIf (scratch.length < 64 + p4Len) .outputTooSmall
  let scratch ← (copyFromSlice scratch 0 16 destHash.val : Result Bytes)
  let scratch ← (copyFromSlice scratch 16 32 sourceHash.val : Result Bytes)
  let head ← (slice payload 0 p4Len : Result Bytes)
  let scratch ← (copyFromSlice scratch 32 (32 + p4Len) head : Result Bytes)
  let scratch ← (copyFromSlice scratch 32 33 [0x94] : Result Bytes)
  let hashed ← (slice scratch 0 (32 + p4Len) : Result Bytes)
  let hash := P.sha256 hashed
  let scratch ← (copyFromSlice scratch (32 + p4Len) (64 + p4Len) hash.val : Result Bytes)
  Exec.set ⟨scratch, fieldScratch⟩
  let key ← (orFail (P.verifyingKey (last32 sourcePublicKey)) .signatureInvalid : Result VerifyingKey)
  let signedPart ← (slice scratch 0 (64 + p4Len) : Result Bytes)
  Exec.rejectIf (P.verify key signedPart signature = false) .signatureInvalid
  pure ⟨hash, sourceHash, timestamp, title, content, fields⟩

section Opportunistic

variable {LocalIdentity VerifyingKey : Type} (P : InboundPlatform LocalIdentity VerifyingKey)

def parseScratch (me : LocalIdentity) (sourcePublicKey : Block 64) (ptLen : Nat) :
    Exec LxmfError LinkScratch LxmfView := do
  let buffers ← Exec.get
  let (view, fieldScratch) := (parseDecrypted P.toPlatform me sourcePublicKey buffers.scratch
    ptLen).run buffers.fieldScratch
  Exec.set { buffers with fieldScratch := fieldScratch }
  view

def parseOpportunistic (me : LocalIdentity) (packetPayload : Bytes) (sourcePublicKey : Block 64) :
    Exec LxmfError LinkScratch LxmfView := do
  let buffers ← Exec.get
  Exec.rejectIf (buffers.scratch.length < P.maxEciesPlaintext) .outputTooSmall
  let myX25519 := first32 (P.privateKey me)
  let (decrypted, scratch) := P.eciesDecrypt packetPayload myX25519 (P.localIdentityHash me)
    buffers.scratch
  Exec.set { buffers with scratch := scratch.val }
  let ptLen ← ofCrypto decrypted
  parseScratch P me sourcePublicKey ptLen

def parseOpportunisticRatchet (me : LocalIdentity) (ratchetPrivs : List (Block 32))
    (packetPayload : Bytes) (sourcePublicKey : Block 64) :
    Exec LxmfError LinkScratch (LxmfView × Option Nat) := do
  let buffers ← Exec.get
  Exec.rejectIf (buffers.scratch.length < P.maxEciesPlaintext) .outputTooSmall
  let myX25519 := first32 (P.privateKey me)
  let (decrypted, scratch) := P.eciesDecryptWithRatchets packetPayload ratchetPrivs myX25519
    (P.localIdentityHash me) buffers.scratch
  Exec.set { buffers with scratch := scratch.val }
  let (ptLen, which) ← ofCrypto decrypted
  let view ← parseScratch P me sourcePublicKey ptLen
  pure (view, which)

def parseOpportunisticRatchetHint (me : LocalIdentity) (ratchetPrivs : List (Block 32))
    (ratchetIndex : Option Nat) (packetPayload : Bytes) (sourcePublicKey : Block 64) :
    Exec LxmfError LinkScratch LxmfView := do
  let buffers ← Exec.get
  Exec.rejectIf (buffers.scratch.length < P.maxEciesPlaintext) .outputTooSmall
  let myX25519 := first32 (P.privateKey me)
  let (decrypted, scratch) := P.eciesDecryptWithRatchetHint packetPayload ratchetPrivs myX25519
    (P.localIdentityHash me) ratchetIndex buffers.scratch
  Exec.set { buffers with scratch := scratch.val }
  let ptLen ← ofCrypto decrypted
  parseScratch P me sourcePublicKey ptLen

def peekSourceOpportunisticRatchet (me : LocalIdentity) (ratchetPrivs : List (Block 32))
    (packetPayload : Bytes) : Exec LxmfError Bytes (Block 16 × Option Nat) := do
  let scratch ← Exec.get
  Exec.rejectIf (scratch.length < P.maxEciesPlaintext) .outputTooSmall
  let myX25519 := first32 (P.privateKey me)
  let (decrypted, scratch) := P.eciesDecryptWithRatchets packetPayload ratchetPrivs myX25519
    (P.localIdentityHash me) scratch
  Exec.set scratch.val
  let (ptLen, which) ← ofCrypto decrypted
  Exec.rejectIf (ptLen < plaintextPrefix + 1) .malformedPayload
  let sourceBytes ← (slice scratch.val 0 16 : Result Bytes)
  let sourceHash ← toArray 16 sourceBytes
  pure (sourceHash, which)

def peekSourceOpportunistic (me : LocalIdentity) (packetPayload : Bytes) :
    Exec LxmfError Bytes (Block 16) := do
  let (hash, _) ← peekSourceOpportunisticRatchet P me [] packetPayload
  pure hash

end Opportunistic

end LxmfLite.Parse
