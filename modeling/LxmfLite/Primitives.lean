import LxmfLite.Message

namespace LxmfLite.Primitives

open ByteString Execution Message

/-- What the message code calls and does not define: the identity, hash and
cipher functions of the network stack, SHA-256 and Ed25519. -/
structure Platform (LocalIdentity VerifyingKey : Type) where
  usizeMax : Nat
  sha256 : Bytes → Block 32
  lxmfDeliveryName : String
  nameHash : String → Bytes
  identityHash : Block 64 → Block 16
  destinationHashFromParts : Bytes → Option (Block 16) → Block 16
  destinationHashFromName : String → Option (Block 16) → Block 16
  publicKey : LocalIdentity → Block 64
  privateKey : LocalIdentity → Block 64
  localIdentityHash : LocalIdentity → Block 16
  lxmfDeliveryHash : LocalIdentity → Block 16
  sign : LocalIdentity → Bytes → Block 64
  verifyingKey : Block 32 → Option VerifyingKey
  verify : VerifyingKey → Bytes → Block 64 → Bool
  maxEciesPlaintext : Nat
  eciesPlaintextOffset : Nat
  eciesFixedOverhead : Nat
  eciesCiphertextLen : Nat → Except CryptoError Nat
  eciesEncrypt : Bytes → Block 32 → Block 16 → Block 32 → Block 16 → (out : Bytes) →
    Except CryptoError Nat × Block out.length
  eciesEncryptInPlace : Block 32 → Block 16 → Block 32 → Block 16 → (buffer : Bytes) → Nat →
    Except CryptoError Unit × Block buffer.length
  eciesDecryptInPlace : Block 32 → Block 16 → (buffer : Bytes) →
    Except CryptoError Nat × Block buffer.length
  /-- The four-byte lengths of the format are read as a usize without truncation. -/
  usizeMax_ge : 0xffffffff ≤ usizeMax
  /-- The constant MAX_ECIES_PLAINTEXT - PLAINTEXT_PREFIX compiles. -/
  plaintextPrefix_le : plaintextPrefix ≤ maxEciesPlaintext

/-- The decryption into another buffer, which the parsers of an opportunistic
packet add: under one key, under the first key of a ring that succeeds, or under
the key of the ring that a hint names. -/
structure InboundPlatform (LocalIdentity VerifyingKey : Type) extends
    Platform LocalIdentity VerifyingKey where
  eciesDecrypt : Bytes → Block 32 → Block 16 → (out : Bytes) →
    Except CryptoError Nat × Block out.length
  eciesDecryptWithRatchets : Bytes → List (Block 32) → Block 32 → Block 16 → (out : Bytes) →
    Except CryptoError (Nat × Option Nat) × Block out.length
  eciesDecryptWithRatchetHint : Bytes → List (Block 32) → Block 32 → Block 16 → Option Nat →
    (out : Bytes) → Except CryptoError Nat × Block out.length

variable {LocalIdentity VerifyingKey : Type}

def ofCrypto {α : Type} : Except CryptoError α → Result α
  | .ok a => .ok a
  | .error e => fail (.ofCrypto e)

def first32 (key : Block 64) : Block 32 :=
  ⟨key.val.take 32, by rw [List.length_take, key.2]; rfl⟩

def last32 (key : Block 64) : Block 32 :=
  ⟨key.val.drop 32, by rw [List.length_drop, key.2]⟩

/-- The key that a ciphertext is for: the peer's ratchet, else its base key. -/
def targetKey (ratchet : Option (Block 32)) (recipientPublicKey : Block 64) : Block 32 :=
  ratchet.getD (first32 recipientPublicKey)

namespace Platform

variable (P : Platform LocalIdentity VerifyingKey)

def maxLxmfPayload : Nat := P.maxEciesPlaintext - plaintextPrefix

def plaintextMax : Nat := P.maxEciesPlaintext

def deliveryHash (publicKey : Block 64) : Block 16 :=
  P.destinationHashFromParts (P.nameHash P.lxmfDeliveryName) (some (P.identityHash publicKey))

end Platform

end LxmfLite.Primitives
