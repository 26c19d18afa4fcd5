import LxmfLite.Writer

namespace LxmfLite.Build

open ByteString Execution Message Primitives Reader Writer

variable {LocalIdentity VerifyingKey : Type} (P : Platform LocalIdentity VerifyingKey)

def mapErr {α : Type} (f : LxmfError → LxmfError) : Result α → Result α
  | .ok a => .ok a
  | .error (.error e) => fail (f e)
  | .error .panic => panic

structure PlaintextBuffers where
  outPlaintext : Bytes
  outDestHash : Block 16
  outMessageId : Block 32

def buildPlaintext (source : LocalIdentity) (recipientPublicKey : Block 64) (timestamp : F64)
    (title content : Bytes) (fields : PayloadFields Bytes) :
    Exec LxmfError PlaintextBuffers Nat := do
  let nh := P.nameHash P.lxmfDeliveryName
  let recipientIdHash := P.identityHash recipientPublicKey
  let destHash := P.destinationHashFromParts nh (some recipientIdHash)
  let sourceHash := P.lxmfDeliveryHash source
  let (packed, payload) := (packPayload P.usizeMax timestamp title content fields).run
    (List.replicate P.maxLxmfPayload 0)
  let plen ← mapErr (fun e => if e = .outputTooSmall then .tooLong else e) packed
  let packedPayload ← (slice payload 0 plen : Result Bytes)
  let signed := List.replicate (lxmfDestLength * 2 + P.maxLxmfPayload + messageIdLength) 0
  let signed ← (copyFromSlice signed 0 16 destHash.val : Result Bytes)
  let signed ← (copyFromSlice signed 16 32 sourceHash.val : Result Bytes)
  let signed ← (copyFromSlice signed 32 (32 + plen) packedPayload : Result Bytes)
  let hashedLen := 32 + plen
  let hashed ← (slice signed 0 hashedLen : Result Bytes)
  let hash := P.sha256 hashed
  let signed ← (copyFromSlice signed hashedLen (hashedLen + 32) hash.val : Result Bytes)
  let signedPart ← (slice signed 0 (hashedLen + 32) : Result Bytes)
  let signature := P.sign source signedPart
  let ptLen := plaintextPrefix + plen
  let buffers ← Exec.get
  Exec.rejectIf (ptLen > buffers.outPlaintext.length ∨ ptLen > P.plaintextMax) .tooLong
  let outPlaintext ← (copyFromSlice buffers.outPlaintext 0 16 sourceHash.val : Result Bytes)
  let outPlaintext ← (copyFromSlice outPlaintext 16 80 signature.val : Result Bytes)
  let outPlaintext ← (copyFromSlice outPlaintext 80 ptLen packedPayload : Result Bytes)
  Exec.set ⟨outPlaintext, destHash, hash⟩
  pure ptLen

def buildPlaintextForParity (source : LocalIdentity) (recipientPublicKey : Block 64) (timestamp : F64)
    (title content : Bytes) : Exec LxmfError PlaintextBuffers Nat :=
  buildPlaintext P source recipientPublicKey timestamp title content .empty

structure PacketBuffers where
  out : Bytes
  outDestHash : Block 16
  outMessageId : Block 32
  deriving DecidableEq

def buildOpportunisticInner (source : LocalIdentity) (recipientPublicKey : Block 64)
    (ratchet : Option (Block 32)) (timestamp : F64) (title content : Bytes)
    (fields : PayloadFields Bytes) (ephemeralPriv : Block 32) (iv : Block 16) :
    Exec LxmfError PacketBuffers Nat := do
  let buffers ← Exec.get
  let plaintext := List.replicate P.plaintextMax 0
  let (built, parts) := (buildPlaintext P source recipientPublicKey timestamp title content fields).run
    ⟨plaintext, buffers.outDestHash, buffers.outMessageId⟩
  Exec.set ⟨buffers.out, parts.outDestHash, parts.outMessageId⟩
  let ptLen ← built
  let recipientIdHash := P.identityHash recipientPublicKey
  let targetX25519 := match ratchet with
    | some r => r
    | none => first32 recipientPublicKey
  let plaintext ← (slice parts.outPlaintext 0 ptLen : Result Bytes)
  let (encrypted, out) := P.eciesEncrypt plaintext targetX25519 recipientIdHash ephemeralPriv iv
    buffers.out
  Exec.set ⟨out.val, parts.outDestHash, parts.outMessageId⟩
  let n ← ofCrypto encrypted
  pure n

def buildOpportunisticRatchet (source : LocalIdentity) (recipientPublicKey : Block 64)
    (ratchet : Option (Block 32)) (timestamp : F64) (title content : Bytes)
    (ephemeralPriv : Block 32) (iv : Block 16) : Exec LxmfError PacketBuffers Nat :=
  buildOpportunisticInner P source recipientPublicKey ratchet timestamp title content .empty
    ephemeralPriv iv

def buildOpportunistic (source : LocalIdentity) (recipientPublicKey : Block 64) (timestamp : F64)
    (title content : Bytes) (ephemeralPriv : Block 32) (iv : Block 16) :
    Exec LxmfError PacketBuffers Nat :=
  buildOpportunisticRatchet P source recipientPublicKey none timestamp title content ephemeralPriv iv

def buildOpportunisticRatchetWithFields (source : LocalIdentity) (recipientPublicKey : Block 64)
    (ratchet : Option (Block 32)) (timestamp : F64) (title content : Bytes)
    (fields : List EncodedField) (ephemeralPriv : Block 32) (iv : Block 16) :
    Exec LxmfError PacketBuffers Nat := do
  let present ← encodedFieldSet fields
  buildOpportunisticInner P source recipientPublicKey ratchet timestamp title content
    (.encoded fields present) ephemeralPriv iv

def buildOpportunisticWithFields (source : LocalIdentity) (recipientPublicKey : Block 64)
    (timestamp : F64) (title content : Bytes) (fields : List EncodedField)
    (ephemeralPriv : Block 32) (iv : Block 16) : Exec LxmfError PacketBuffers Nat :=
  buildOpportunisticRatchetWithFields P source recipientPublicKey none timestamp title content fields
    ephemeralPriv iv

/-- seal_opportunistic works on the buffer in place. -/
def sealOpportunistic (packedLen : Nat) (recipientPublicKey : Block 64)
    (ratchet : Option (Block 32)) (ephemeralPriv : Block 32) (iv : Block 16) :
    Exec LxmfError Bytes Nat := do
  let buffer ← Exec.get
  Exec.rejectIf (packedLen ≤ lxmfPackedPrefix ∨ packedLen > buffer.length) .malformedPayload
  let marker ← (index buffer lxmfPackedPrefix : Result UInt8)
  Exec.rejectIf (¬(marker = 0x94 ∨ marker = 0x95)) .malformedPayload
  let packed ← (slice buffer 0 packedLen : Result Bytes)
  let last ← skipValue packed lxmfPackedPrefix 0
  Exec.rejectIf (last ≠ packedLen) .malformedPayload
  let recipientIdHash := P.identityHash recipientPublicKey
  let destHash := P.destinationHashFromParts (P.nameHash P.lxmfDeliveryName) (some recipientIdHash)
  let leading ← (slice buffer 0 lxmfDestLength : Result Bytes)
  Exec.rejectIf (leading ≠ destHash.val) .destinationMismatch
  let plaintextLen := packedLen - lxmfDestLength
  Exec.rejectIf (plaintextLen > P.plaintextMax) .tooLong
  let total ← ofCrypto (P.eciesCiphertextLen plaintextLen)
  Exec.rejectIf (total > buffer.length) .outputTooSmall
  let buffer ← (copyWithin buffer lxmfDestLength packedLen P.eciesPlaintextOffset : Result Bytes)
  Exec.set buffer
  let target := ratchet.getD (first32 recipientPublicKey)
  let region ← (slice buffer 0 total : Result Bytes)
  let (encrypted, region) := P.eciesEncryptInPlace target recipientIdHash ephemeralPriv iv region
    plaintextLen
  Exec.set (overwrite buffer 0 region.val)
  ofCrypto encrypted
  pure total

structure LinkBuffers where
  out : Bytes
  scratch : Bytes
  outDestHash : Block 16
  outMessageId : Block 32
  deriving DecidableEq

def buildLinkInner (source : LocalIdentity) (recipientPublicKey : Block 64) (timestamp : F64)
    (title content : Bytes) (fields : PayloadFields Bytes) : Exec LxmfError LinkBuffers Nat := do
  let buffers ← Exec.get
  Exec.rejectIf (buffers.scratch.length < 64 + 11 ∨ buffers.out.length < lxmfPackedPrefix + 11)
    .outputTooSmall
  let nh := P.nameHash P.lxmfDeliveryName
  let recipientIdHash := P.identityHash recipientPublicKey
  let destHash := P.destinationHashFromParts nh (some recipientIdHash)
  let sourceHash := P.lxmfDeliveryHash source
  let scratchLen := buffers.scratch.length
  let room ← (slice buffers.scratch 32 (scratchLen - 32) : Result Bytes)
  let (packed, room) := (packPayload P.usizeMax timestamp title content fields).run room
  let scratch := overwrite buffers.scratch 32 room
  Exec.set { buffers with scratch := scratch }
  let plen ← mapErr (fun _ => .tooLong) packed
  Exec.rejectIf (buffers.out.length < lxmfPackedPrefix + plen) .tooLong
  let scratch ← (copyFromSlice scratch 0 16 destHash.val : Result Bytes)
  let scratch ← (copyFromSlice scratch 16 32 sourceHash.val : Result Bytes)
  let hashed ← (slice scratch 0 (32 + plen) : Result Bytes)
  let hash := P.sha256 hashed
  let scratch ← (copyFromSlice scratch (32 + plen) (64 + plen) hash.val : Result Bytes)
  let signedPart ← (slice scratch 0 (64 + plen) : Result Bytes)
  let signature := P.sign source signedPart
  let out ← (copyFromSlice buffers.out 0 16 destHash.val : Result Bytes)
  let out ← (copyFromSlice out 16 32 sourceHash.val : Result Bytes)
  let out ← (copyFromSlice out 32 96 signature.val : Result Bytes)
  let payload ← (slice scratch 32 (32 + plen) : Result Bytes)
  let out ← (copyFromSlice out lxmfPackedPrefix (lxmfPackedPrefix + plen) payload : Result Bytes)
  Exec.set ⟨out, scratch, destHash, hash⟩
  pure (lxmfPackedPrefix + plen)

def buildLink (source : LocalIdentity) (recipientPublicKey : Block 64) (timestamp : F64)
    (title content : Bytes) : Exec LxmfError LinkBuffers Nat :=
  buildLinkInner P source recipientPublicKey timestamp title content .empty

def buildLinkWithAudio (source : LocalIdentity) (recipientPublicKey : Block 64) (timestamp : F64)
    (title content : Bytes) (audio : AudioField) : Exec LxmfError LinkBuffers Nat :=
  buildLinkInner P source recipientPublicKey timestamp title content
    (.audio audio.mode audio.bytes)

def buildLinkWithFields (source : LocalIdentity) (recipientPublicKey : Block 64) (timestamp : F64)
    (title content : Bytes) (fields : List EncodedField) : Exec LxmfError LinkBuffers Nat := do
  let present ← encodedFieldSet fields
  buildLinkInner P source recipientPublicKey timestamp title content (.encoded fields present)

end LxmfLite.Build
