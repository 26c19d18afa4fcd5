import LxmfLite.Primitives

namespace LxmfLite.Laws

open ByteString Message Primitives

variable {LocalIdentity VerifyingKey : Type}

/-- What the network stack promises of an identity: its own delivery hash is
the one of its public key, and that key verifies what the identity signs. -/
structure IdentityLaws (P : Platform LocalIdentity VerifyingKey) : Prop where
  deliveryHash_eq : ∀ identity, P.lxmfDeliveryHash identity = P.deliveryHash (P.publicKey identity)
  verifies : ∀ identity message, ∃ key, P.verifyingKey (last32 (P.publicKey identity)) = some key ∧
    P.verify key message (P.sign identity message) = true

def DestinationLaw (P : Platform LocalIdentity VerifyingKey) : Prop :=
  ∀ identityHash, P.destinationHashFromName "lxmf.delivery" identityHash =
    P.destinationHashFromParts (P.nameHash P.lxmfDeliveryName) identityHash

def EncryptsInPlace (P : Platform LocalIdentity VerifyingKey) : Prop :=
  ∀ target recipientHash ephemeralPriv iv buffer n, P.eciesCiphertextLen n = .ok buffer.length →
    (P.eciesEncryptInPlace target recipientHash ephemeralPriv iv buffer n).1 = .ok ()

/-- What the network stack promises of the encryption in place: a ciphertext
holds its plaintext behind the header, and the encryption does not fail. -/
structure InPlaceLaws (P : Platform LocalIdentity VerifyingKey) : Prop where
  plaintext_fits : ∀ n m, P.eciesCiphertextLen n = .ok m → P.eciesPlaintextOffset + n ≤ m
  encrypts : EncryptsInPlace P

structure CipherLaws (P : Platform LocalIdentity VerifyingKey)
    (cipher : Bytes → Block 32 → Block 16 → Block 32 → Block 16 → Bytes) : Prop
    extends InPlaceLaws P where
  inPlace : ∀ target recipientHash ephemeralPriv iv buffer plaintext,
    P.eciesCiphertextLen plaintext.length = .ok buffer.length →
    buffer.extract P.eciesPlaintextOffset (P.eciesPlaintextOffset + plaintext.length) = plaintext →
      (P.eciesEncryptInPlace target recipientHash ephemeralPriv iv buffer plaintext.length).2.val =
        cipher plaintext target recipientHash ephemeralPriv iv

structure PacketLaws (P : Platform LocalIdentity VerifyingKey)
    (cipher : Bytes → Block 32 → Block 16 → Block 32 → Block 16 → Bytes) : Prop
    extends CipherLaws P cipher where
  copied : ∀ target recipientHash ephemeralPriv iv out plaintext m,
    plaintext.length ≤ P.maxEciesPlaintext → P.eciesCiphertextLen plaintext.length = .ok m →
    m ≤ out.length →
      (P.eciesEncrypt plaintext target recipientHash ephemeralPriv iv out).1 = .ok m ∧
      (P.eciesEncrypt plaintext target recipientHash ephemeralPriv iv out).2.val.take m =
        cipher plaintext target recipientHash ephemeralPriv iv

/-- What the network stack promises of the encryption into another buffer, of
whatever length: a plaintext within the bound has a ciphertext length, a buffer
of that length takes the ciphertext, and a shorter one is the error. -/
structure OutputLaws (P : Platform LocalIdentity VerifyingKey) : Prop where
  sized : ∀ n, n ≤ P.maxEciesPlaintext →
    ∃ m, P.eciesCiphertextLen n = .ok m ∧ n + 16 ≤ m ∧ m ≤ P.usizeMax
  writes : ∀ plaintext target recipientHash ephemeralPriv iv out m,
    plaintext.length ≤ P.maxEciesPlaintext → P.eciesCiphertextLen plaintext.length = .ok m →
    m ≤ out.length →
      (P.eciesEncrypt plaintext target recipientHash ephemeralPriv iv out).1 = .ok m
  overruns : ∀ plaintext target recipientHash ephemeralPriv iv out m,
    plaintext.length ≤ P.maxEciesPlaintext → P.eciesCiphertextLen plaintext.length = .ok m →
    out.length < m →
      (P.eciesEncrypt plaintext target recipientHash ephemeralPriv iv out).1 = .error .outputTooSmall

/-- What the network stack promises of decryption. A private key that opens
the target finds the plaintext behind the header; any other key fails and
changes nothing. -/
structure DecipherLaws (P : Platform LocalIdentity VerifyingKey)
    (cipher : Bytes → Block 32 → Block 16 → Block 32 → Block 16 → Bytes)
    (opens : Block 32 → Block 32 → Bool) : Prop extends CipherLaws P cipher where
  identityHash_eq : ∀ identity, P.localIdentityHash identity = P.identityHash (P.publicKey identity)
  overhead : ∀ n m, P.eciesCiphertextLen n = .ok m → P.eciesFixedOverhead + 16 ≤ m
  decrypts : ∀ key target hash ephemeralPriv iv plaintext m, opens key target = true →
    P.eciesCiphertextLen plaintext.length = .ok m →
      (P.eciesDecryptInPlace key hash (cipher plaintext target hash ephemeralPriv iv)).1 =
        .ok plaintext.length ∧
      (P.eciesDecryptInPlace key hash (cipher plaintext target hash ephemeralPriv iv)).2.val.extract
        P.eciesPlaintextOffset (P.eciesPlaintextOffset + plaintext.length) = plaintext
  rejects : ∀ key target hash ephemeralPriv iv plaintext m, opens key target = false →
    P.eciesCiphertextLen plaintext.length = .ok m →
      (∃ e, (P.eciesDecryptInPlace key hash (cipher plaintext target hash ephemeralPriv iv)).1 =
        .error e) ∧
      (P.eciesDecryptInPlace key hash (cipher plaintext target hash ephemeralPriv iv)).2.val =
        cipher plaintext target hash ephemeralPriv iv

/-- The first success over the keys of a ring and then the base key, with the
index of the key; the base key has none. -/
def firstOpened (opened : Block 32 → Except CryptoError Bytes) (base : Block 32) :
    Nat → List (Block 32) → Option (Bytes × Option Nat)
  | _, [] =>
      match opened base with
      | .ok plaintext => some (plaintext, none)
      | .error _ => none
  | i, key :: ring =>
      match opened key with
      | .ok plaintext => some (plaintext, some i)
      | .error _ => firstOpened opened base (i + 1) ring

def hintedKey (ring : List (Block 32)) (base : Block 32) : Option Nat → Option (Block 32)
  | none => some base
  | some i => ring[i]?

def Opens {α : Type} {n : Nat} (call : Except CryptoError α × Block n) (a : α) (plaintext : Bytes) :
    Prop :=
  call.1 = .ok a ∧ call.2.val.take plaintext.length = plaintext

/-- What the network stack promises of decryption into a buffer that has room
for every plaintext: under one key it finds one plaintext or fails, over a ring
it is the first success, under a hint it is the key named. refused is the error
of a ring none of whose keys opens the packet. -/
structure RatchetLaws (P : InboundPlatform LocalIdentity VerifyingKey)
    (opened : Bytes → Block 32 → Block 16 → Except CryptoError Bytes)
    (refused : Bytes → List (Block 32) → Block 32 → Block 16 → CryptoError) : Prop where
  decrypts : ∀ packet key hash out plaintext, P.maxEciesPlaintext ≤ out.length →
    opened packet key hash = .ok plaintext →
      Opens (P.eciesDecrypt packet key hash out) plaintext.length plaintext
  rejects : ∀ packet key hash out e, P.maxEciesPlaintext ≤ out.length →
    opened packet key hash = .error e → (P.eciesDecrypt packet key hash out).1 = .error e
  scans : ∀ packet ring base hash out plaintext which, P.maxEciesPlaintext ≤ out.length →
    firstOpened (opened packet · hash) base 0 ring = some (plaintext, which) →
      Opens (P.eciesDecryptWithRatchets packet ring base hash out) (plaintext.length, which) plaintext
  refuses : ∀ packet ring base hash out, P.maxEciesPlaintext ≤ out.length →
    firstOpened (opened packet · hash) base 0 ring = none →
      (P.eciesDecryptWithRatchets packet ring base hash out).1 = .error (refused packet ring base hash)
  refuses_base : ∀ packet base hash e, opened packet base hash = .error e →
    refused packet [] base hash = e
  hinted : ∀ packet ring base hash which key out plaintext, P.maxEciesPlaintext ≤ out.length →
    hintedKey ring base which = some key → opened packet key hash = .ok plaintext →
      Opens (P.eciesDecryptWithRatchetHint packet ring base hash which out) plaintext.length plaintext
  hinted_rejects : ∀ packet ring base hash which key out e, P.maxEciesPlaintext ≤ out.length →
    hintedKey ring base which = some key → opened packet key hash = .error e →
      (P.eciesDecryptWithRatchetHint packet ring base hash which out).1 = .error e
  out_of_range : ∀ packet ring base hash which out, P.maxEciesPlaintext ≤ out.length →
    hintedKey ring base which = none →
      ∃ e, (P.eciesDecryptWithRatchetHint packet ring base hash which out).1 = .error e

/-- What the network stack promises of a packet that its own encryption wrote:
the keys that open the target in place find the plaintext, and no other key
finds one. -/
structure OpeningLaws (P : Platform LocalIdentity VerifyingKey)
    (cipher : Bytes → Block 32 → Block 16 → Block 32 → Block 16 → Bytes)
    (opens : Block 32 → Block 32 → Bool)
    (opened : Bytes → Block 32 → Block 16 → Except CryptoError Bytes) : Prop where
  finds : ∀ key target hash ephemeralPriv iv plaintext, opens key target = true →
    plaintext.length ≤ P.maxEciesPlaintext →
      opened (cipher plaintext target hash ephemeralPriv iv) key hash = .ok plaintext
  refuses : ∀ key target hash ephemeralPriv iv plaintext, opens key target = false →
    ∃ e, opened (cipher plaintext target hash ephemeralPriv iv) key hash = .error e

end LxmfLite.Laws
