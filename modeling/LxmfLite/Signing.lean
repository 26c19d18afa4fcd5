import LxmfLite.Packing

namespace LxmfLite.Signing

open ByteString Execution Message Primitives Writer Payload Framing Build Authentication Packing

variable {LocalIdentity VerifyingKey : Type} {P : Platform LocalIdentity VerifyingKey}
  {source : LocalIdentity} {recipientPublicKey : Block 64} {timestamp : F64} {title content : Bytes}
  {fields : OuterFields} {admitted : PayloadFields Bytes} {payload : Bytes}

structure SignedPayload where
  plen : Nat
  packedPayload : Bytes
  signedPart : Bytes
  signature : Block 64
  hash : Block 32
  deriving DecidableEq

/-- build_plaintext up to its signature. It looks at the caller's buffer only
behind it. -/
def signPayload (P : Platform LocalIdentity VerifyingKey) (source : LocalIdentity)
    (recipientPublicKey : Block 64) (timestamp : F64) (title content : Bytes)
    (fields : PayloadFields Bytes) : Result SignedPayload := do
  let (packed, payload) := (packPayload P.usizeMax timestamp title content fields).run
    (List.replicate P.maxLxmfPayload 0)
  let plen ← mapErr (fun e => if e = .outputTooSmall then .tooLong else e) packed
  let packedPayload ← slice payload 0 plen
  let signed := List.replicate (lxmfDestLength * 2 + P.maxLxmfPayload + messageIdLength) 0
  let signed ← copyFromSlice signed 0 16 (P.deliveryHash recipientPublicKey).val
  let signed ← copyFromSlice signed 16 32 (P.lxmfDeliveryHash source).val
  let signed ← copyFromSlice signed 32 (32 + plen) packedPayload
  let hashed ← slice signed 0 (32 + plen)
  let hash := P.sha256 hashed
  let signed ← copyFromSlice signed (32 + plen) (32 + plen + 32) hash.val
  let signedPart ← slice signed 0 (32 + plen + 32)
  pure ⟨plen, packedPayload, signedPart, P.sign source signedPart, hash⟩

def writePlaintext (P : Platform LocalIdentity VerifyingKey) (source : LocalIdentity)
    (recipientPublicKey : Block 64) (s : SignedPayload) : Exec LxmfError PlaintextBuffers Nat := do
  let ptLen := plaintextPrefix + s.plen
  let buffers ← Exec.get
  Exec.rejectIf (ptLen > buffers.outPlaintext.length ∨ ptLen > P.plaintextMax) .tooLong
  let outPlaintext ← (copyFromSlice buffers.outPlaintext 0 16 (P.lxmfDeliveryHash source).val :
    Result Bytes)
  let outPlaintext ← (copyFromSlice outPlaintext 16 80 s.signature.val : Result Bytes)
  let outPlaintext ← (copyFromSlice outPlaintext 80 ptLen s.packedPayload : Result Bytes)
  Exec.set ⟨outPlaintext, P.deliveryHash recipientPublicKey, s.hash⟩
  pure ptLen

theorem buildPlaintext_eq :
    buildPlaintext P source recipientPublicKey timestamp title content admitted =
      liftM (signPayload P source recipientPublicKey timestamp title content admitted) >>=
        writePlaintext P source recipientPublicKey := by
  simp only [signPayload, Exec.lift_bind]
  rfl

structure OnePacket (P : Platform LocalIdentity VerifyingKey) (title content : Bytes)
    (fields : OuterFields) (payload : Bytes) : Prop where
  encodable : Encodable title content fields
  countable : payload.length ≤ P.usizeMax
  fits : 80 + payload.length ≤ P.maxEciesPlaintext

section Sign

variable (source recipientPublicKey)

theorem signPayload_ok (h : admission fields = .ok admitted)
    (hp : payload = payloadBytes timestamp title content fields)
    (hone : OnePacket P title content fields payload) :
    signPayload P source recipientPublicKey timestamp title content admitted =
      .ok ⟨payload.length, payload, signedPart P (P.deliveryHash recipientPublicKey)
        (P.lxmfDeliveryHash source) payload, signatureOf P source recipientPublicKey payload,
        messageIdFor P source recipientPublicKey payload⟩ := by
  have hfits := hone.fits
  have hzeros (n : Nat) : (List.replicate n (0 : UInt8)).length = n := List.length_replicate
  have hroom : payload.length ≤ P.maxLxmfPayload := by
    rw [Platform.maxLxmfPayload, plaintextPrefix_eq]
    omega
  have hpack := packPayload_ok h hone.encodable (hp ▸ hone.countable)
    (show (payloadBytes timestamp title content fields).length ≤
      (List.replicate P.maxLxmfPayload 0).length by rw [hzeros, ← hp]; exact hroom)
  rw [← hp] at hpack
  have hsigned : (List.replicate (lxmfDestLength * 2 + P.maxLxmfPayload + messageIdLength)
      (0 : UInt8)).length = 64 + P.maxLxmfPayload := by
    rw [hzeros, lxmfDestLength, messageIdLength]
    omega
  simp only [signPayload, hpack, mapErr]
  rw [ok_bind, slice_overwrite (by omega) (by rw [hzeros]; exact hroom), ok_bind, copy_dest _ (by omega),
    ok_bind, copy_source (by omega), ok_bind, copy_payload rfl (by omega), ok_bind,
    slice_hashed rfl (by omega), ok_bind, ← messageIdOf,
    show 32 + payload.length + 32 = 64 + payload.length by omega, copy_hash P rfl (by omega), ok_bind,
    slice_signed P rfl (by omega), ok_bind]
  rfl

/-- Without a payload for one packet nothing is signed, whichever of the
writes is the one that overflows. -/
theorem signPayload_fails (h : admission fields = .ok admitted)
    (hp : payload = payloadBytes timestamp title content fields)
    (hone : ¬OnePacket P title content fields payload) :
    signPayload P source recipientPublicKey timestamp title content admitted = fail .tooLong := by
  have hroom : ¬(Encodable title content fields ∧
      (payloadBytes timestamp title content fields).length ≤ P.usizeMax ∧
      (payloadBytes timestamp title content fields).length ≤
        (List.replicate P.maxLxmfPayload (0 : UInt8)).length) := by
    rintro ⟨he, hmax, hlen⟩
    rw [← hp] at hmax hlen
    rw [List.length_replicate, Platform.maxLxmfPayload, plaintextPrefix_eq] at hlen
    have hprefix := P.plaintextPrefix_le
    rw [plaintextPrefix_eq] at hprefix
    exact hone ⟨he, hmax, by omega⟩
  obtain ⟨e, room, hpack, -, rfl | rfl⟩ := packPayload_fails h hroom
  all_goals
    simp only [signPayload, hpack]
    rfl

end Sign

end LxmfLite.Signing
