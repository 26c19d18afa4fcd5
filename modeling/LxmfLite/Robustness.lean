import LxmfLite.Confinement
import LxmfLite.Packets
import LxmfLite.Totality

namespace LxmfLite.Robustness

open ByteString Execution Contracts Message Primitives Laws Writer Payload Framing Build Packing Propagation
  Parse Stamping Encryption Uploads Requests Signing Outbound Admission Publication Authentication
  Opportunistic Packets Totality Confinement

variable {LocalIdentity VerifyingKey : Type}

/-- What the network stack promises of the lengths it returns: what it encrypts
and decrypts lies in the memory it was given for it. -/
structure LengthLaws (P : InboundPlatform LocalIdentity VerifyingKey) : Prop where
  encrypted : ∀ plaintext target recipientHash ephemeralPriv iv out n,
    (P.eciesEncrypt plaintext target recipientHash ephemeralPriv iv out).1 = .ok n → n ≤ out.length
  inPlace : ∀ key hash buffer n, P.eciesFixedOverhead + 16 ≤ buffer.length →
    (P.eciesDecryptInPlace key hash buffer).1 = .ok n → P.eciesPlaintextOffset + n ≤ buffer.length
  copied : ∀ packet key hash out n, P.maxEciesPlaintext ≤ out.length →
    (P.eciesDecrypt packet key hash out).1 = .ok n → n ≤ out.length
  scanned : ∀ packet ring base hash out n which, P.maxEciesPlaintext ≤ out.length →
    (P.eciesDecryptWithRatchets packet ring base hash out).1 = .ok (n, which) → n ≤ out.length
  hinted : ∀ packet ring base hash which out n, P.maxEciesPlaintext ≤ out.length →
    (P.eciesDecryptWithRatchetHint packet ring base hash which out).1 = .ok n → n ≤ out.length

theorem ensures_ofCrypto {α : Type} {x : Except CryptoError α} {Q : α → Prop} (h : ∀ a, x = .ok a → Q a) :
    Ensures (ofCrypto x) Q := by
  cases x with
  | error e => trivial
  | ok a => exact h a rfl

theorem ensures_of_run {ε σ α : Type} {x : Exec ε σ α} {s : σ} {r : Outcome ε α × σ} {Q : α → Prop}
    (hr : x.run s = r) (h : Ensures r.1 Q) : Ensures (x.eval s) Q := by
  rw [Exec.eval, hr]
  exact h

theorem le_block {n m : Nat} (b : Block m) (h : n ≤ m) : n ≤ b.val.length := by
  rw [b.2]
  exact h

section Builders

variable {P : Platform LocalIdentity VerifyingKey} {fields : OuterFields} {admitted : PayloadFields Bytes}

variable (source : LocalIdentity) (recipientPublicKey : Block 64) (timestamp : F64) (title content : Bytes)

/-- build_plaintext finds out last that the caller's buffer is too short. -/
theorem ensures_buildPlaintext (h : admission fields = .ok admitted) (buffers : PlaintextBuffers) :
    Ensures ((buildPlaintext P source recipientPublicKey timestamp title content admitted).eval buffers)
      (· ≤ buffers.outPlaintext.length) := by
  have hzeros (n : Nat) : (List.replicate n (0 : UInt8)).length = n := List.length_replicate
  by_cases hfit : Encodable title content fields ∧
      (payloadBytes timestamp title content fields).length ≤ P.usizeMax ∧
      (payloadBytes timestamp title content fields).length ≤
        (List.replicate P.maxLxmfPayload (0 : UInt8)).length
  · have hpack := packPayload_ok h hfit.1 hfit.2.1 hfit.2.2
    have hlen := hfit.2.2
    generalize payloadBytes timestamp title content fields = payload at hpack hlen
    have hsigned : (List.replicate (lxmfDestLength * 2 + P.maxLxmfPayload + messageIdLength)
        (0 : UInt8)).length = 64 + P.maxLxmfPayload := by
      rw [hzeros, lxmfDestLength, messageIdLength]
      omega
    simp only [buildPlaintext, hpack, mapErr, Exec.eval_lift_bind, ok_bind, Exec.eval_get_bind,
      Exec.eval_rejectIf_bind, Exec.eval_set_bind, Exec.eval_pure]
    rw [slice_overwrite (Nat.zero_add _).symm hlen, ok_bind]
    rw [hzeros] at hlen
    apply Ensures.bind (ensures_copyFromSlice (by rw [(P.destinationHashFromParts _ _).2]) (by omega))
    intro signed hone
    apply Ensures.bind (ensures_copyFromSlice (by rw [(P.lxmfDeliveryHash source).2]) (by omega))
    intro signed htwo
    apply Ensures.bind (ensures_copyFromSlice rfl (by omega))
    intro signed hthree
    apply Ensures.bind (ensures_slice (Nat.zero_le _) (by omega))
    intro hashed _
    apply Ensures.bind (ensures_copyFromSlice (by rw [(P.sha256 hashed).2]) (by omega))
    intro signed hfour
    apply Ensures.bind (ensures_slice (Nat.zero_le _) (by omega))
    intro signedPart _
    apply ensures_ite
    · intro _
      exact ensures_fail _
    intro hroom
    rw [plaintextPrefix_eq, not_or] at hroom
    apply Ensures.bind (ensures_copyFromSlice (by rw [(P.lxmfDeliveryHash source).2]) (by omega))
    intro out hdest
    apply Ensures.bind (ensures_copyFromSlice (by rw [(P.sign source signedPart).2]) (by omega))
    intro out hsignature
    apply Ensures.bind (ensures_copyFromSlice (by rw [plaintextPrefix_eq]) (by rw [plaintextPrefix_eq]; omega))
    intro out _
    exact Nat.le_of_not_lt hroom.1
  · obtain ⟨e, room, hr, -⟩ := packPayload_fails h hfit
    simp only [buildPlaintext, hr, mapErr]
    exact ensures_fail _

theorem ensures_buildPacketOf {P : InboundPlatform LocalIdentity VerifyingKey} (laws : LengthLaws P)
    (ratchet : Option (Block 32)) (ephemeralPriv : Block 32) (iv : Block 16)
    (entries : Option (List EncodedField)) (packet : PacketBuffers) :
    Ensures ((buildPacketOf P.toPlatform source recipientPublicKey ratchet timestamp title content
      ephemeralPriv iv entries).eval packet) (· ≤ packet.out.length) := by
  rw [buildPacketOf_eq, Exec.eval_lift_bind]
  rcases admission_cases (fieldsOf entries) with ⟨admitted, ha⟩ | ⟨e, -, ha⟩
  · rw [ha, ok_bind]
    by_cases hone : OnePacket P.toPlatform title content (fieldsOf entries)
        (payloadBytes timestamp title content (fieldsOf entries))
    · apply ensures_of_run (buildOpportunisticInner_ok source recipientPublicKey ha hone.encodable rfl
        hone.countable hone.fits ratchet ephemeralPriv iv packet)
      exact ensures_ofCrypto (fun n hn => laws.encrypted _ _ _ _ _ _ n hn)
    · exact ensures_of_run (inner_fails source recipientPublicKey ratchet ephemeralPriv iv ha rfl hone packet)
        trivial
  · rw [ha]
    trivial

end Builders

section InPlace

variable {P : InboundPlatform LocalIdentity VerifyingKey}

theorem ensures_write (laws : InPlaceLaws P.toPlatform) (buffer : Bytes) (call : Call LocalIdentity) :
    Ensures (write P.toPlatform buffer call).1 (· ≤ buffer.length) := by
  rcases write_within laws buffer call with ⟨total, after, hr, hw⟩ | ⟨e, hr⟩
  · rw [hr]
    exact hw.inside
  · rw [hr]
    trivial

theorem ensures_tryKeys (laws : LengthLaws P) (me : LocalIdentity) (keys : List (Block 32)) (i : Nat)
    {buffer : Bytes} (h : 16 + P.eciesFixedOverhead + 16 ≤ buffer.length) :
    Ensures ((tryKeys P.toPlatform me i keys).eval buffer) (fun r => 16 + r.1 ≤ buffer.length) := by
  induction keys generalizing i buffer with
  | nil => exact ensures_fail _
  | cons key keys ih =>
      have hregion : (buffer.extract 16 buffer.length).length = buffer.length - 16 :=
        extract_length (Nat.le_refl _)
      simp only [tryKeys, Exec.eval_get_bind, Exec.eval_lift_bind]
      rw [slice_eq (by omega) (Nat.le_refl _), ok_bind, Exec.eval_set_bind]
      have hkept : (overwrite buffer 16 (P.eciesDecryptInPlace key (P.localIdentityHash me)
          (buffer.extract 16 buffer.length)).2.val).length = buffer.length := by
        apply overwrite_length
        rw [(P.eciesDecryptInPlace key (P.localIdentityHash me) (buffer.extract 16 buffer.length)).2.2,
          hregion]
        omega
      split
      next n hn =>
        have hin := laws.inPlace _ _ _ n (by rw [hregion]; omega) hn
        rw [hregion] at hin
        rw [Exec.eval_lift_bind, copyWithin_eq (Nat.le_add_right _ _) (by rw [hkept]; omega)
          (by rw [hkept]; omega)]
        change 16 + n ≤ buffer.length
        omega
      next e he =>
        refine (ih (i + 1) (by rw [hkept]; exact h)).mono fun r hr => ?_
        rwa [hkept] at hr

theorem ensures_decryptMessage (laws : LengthLaws P) (me : LocalIdentity) (ring : List (Block 32))
    (buffer : Bytes) :
    Ensures ((decryptMessage P.toPlatform me ring).eval buffer) (fun r => r.1 ≤ buffer.length) := by
  simp only [decryptMessage, Exec.eval_get_bind, Exec.eval_rejectIf_bind, Exec.eval_lift_bind]
  apply ensures_ite
  · intro _
    exact ensures_fail _
  intro hlen
  apply Ensures.bind (ensures_slice (Nat.zero_le _) (by omega))
  intro leading _
  apply ensures_ite
  · intro _
    exact ensures_fail _
  intro _
  rw [Exec.eval_bind]
  apply Ensures.bind (ensures_tryKeys laws me _ 0 (Nat.le_of_not_lt hlen))
  intro found hfound
  exact hfound

end InPlace

section Packets

variable {P : InboundPlatform LocalIdentity VerifyingKey} (me : LocalIdentity) (ring : List (Block 32))
  (packet : Bytes) (sourcePublicKey : Block 64)

theorem ensures_parseOpportunistic (laws : LengthLaws P) (buffers : LinkScratch) :
    Ensures ((parseOpportunistic P me packet sourcePublicKey).eval buffers) (fun _ => True) := by
  simp only [parseOpportunistic, Exec.eval_get_bind, Exec.eval_rejectIf_bind, Exec.eval_set_bind,
    Exec.eval_lift_bind]
  apply ensures_ite
  · intro _
    exact ensures_fail _
  intro hroom
  apply Ensures.bind (ensures_ofCrypto (fun n hn => laws.copied _ _ _ _ n (Nat.le_of_not_lt hroom) hn))
  intro ptLen hin
  exact ensures_parseDecrypted P.toPlatform me sourcePublicKey (le_block _ hin) _

theorem ensures_parseOpportunisticRatchet (laws : LengthLaws P) (buffers : LinkScratch) :
    Ensures ((parseOpportunisticRatchet P me ring packet sourcePublicKey).eval buffers) (fun _ => True) := by
  simp only [parseOpportunisticRatchet, Exec.eval_get_bind, Exec.eval_rejectIf_bind, Exec.eval_set_bind,
    Exec.eval_lift_bind]
  apply ensures_ite
  · intro _
    exact ensures_fail _
  intro hroom
  apply Ensures.bind (ensures_ofCrypto
    (fun r hr => laws.scanned _ _ _ _ _ r.1 r.2 (Nat.le_of_not_lt hroom) hr))
  rintro ⟨ptLen, which⟩ hin
  rw [Exec.eval_bind]
  apply Ensures.bind (ensures_parseDecrypted P.toPlatform me sourcePublicKey (le_block _ hin) _)
  intro view _
  trivial

theorem ensures_parseOpportunisticRatchetHint (laws : LengthLaws P) (which : Option Nat)
    (buffers : LinkScratch) :
    Ensures ((parseOpportunisticRatchetHint P me ring which packet sourcePublicKey).eval buffers)
      (fun _ => True) := by
  simp only [parseOpportunisticRatchetHint, Exec.eval_get_bind, Exec.eval_rejectIf_bind, Exec.eval_set_bind,
    Exec.eval_lift_bind]
  apply ensures_ite
  · intro _
    exact ensures_fail _
  intro hroom
  apply Ensures.bind (ensures_ofCrypto
    (fun n hn => laws.hinted _ _ _ _ _ _ n (Nat.le_of_not_lt hroom) hn))
  intro ptLen hin
  exact ensures_parseDecrypted P.toPlatform me sourcePublicKey (le_block _ hin) _

theorem ensures_peekSourceOpportunisticRatchet (laws : LengthLaws P) (scratch : Bytes) :
    Ensures ((peekSourceOpportunisticRatchet P me ring packet).eval scratch) (fun _ => True) := by
  simp only [peekSourceOpportunisticRatchet, Exec.eval_get_bind, Exec.eval_rejectIf_bind,
    Exec.eval_set_bind, Exec.eval_lift_bind]
  apply ensures_ite
  · intro _
    exact ensures_fail _
  intro hroom
  apply Ensures.bind (ensures_ofCrypto
    (fun r hr => laws.scanned _ _ _ _ _ r.1 r.2 (Nat.le_of_not_lt hroom) hr))
  rintro ⟨ptLen, which⟩ hin
  apply ensures_ite
  · intro _
    exact ensures_fail _
  intro hlen
  rw [plaintextPrefix_eq] at hlen
  have hsixteen : 0 + 16 ≤ scratch.length := Nat.le_trans (by omega) hin
  rw [slice_eq (Nat.zero_le _) (le_block _ hsixteen), ok_bind, toArray_extract (le_block _ hsixteen)]
  trivial

theorem ensures_peekSourceOpportunistic (laws : LengthLaws P) (scratch : Bytes) :
    Ensures ((peekSourceOpportunistic P me packet).eval scratch) (fun _ => True) := by
  rw [peekSourceOpportunistic, Exec.eval_bind]
  apply Ensures.bind (ensures_peekSourceOpportunisticRatchet me [] packet laws scratch)
  intro found _
  trivial

end Packets

theorem ensures_packedLenOf (P : Platform LocalIdentity VerifyingKey) (titleLen contentLen : Nat)
    (fields : OuterFields) :
    Ensures (packedLenOf P.usizeMax titleLen contentLen fields) (· ≤ P.usizeMax) := by
  have hsize := packedLenOf_run P ⟨0⟩ (List.replicate titleLen 0) (List.replicate contentLen 0) fields rfl
  rw [List.length_replicate, List.length_replicate] at hsize
  rcases hsize with ⟨hr, -, hmax⟩ | ⟨⟨e, hr⟩, -⟩
  · rw [hr]
    exact hmax
  · rw [hr]
    trivial

/-- Whatever a caller passes, no call of the message code panics, and every length
that one returns lies in the memory it was given: to take the bytes in front of
it does not panic either. -/
theorem calls_stay_inside {P : InboundPlatform LocalIdentity VerifyingKey}
    (inPlace : InPlaceLaws P.toPlatform) (laws : LengthLaws P) :
    (∀ buffer (call : Call LocalIdentity), Ensures (write P.toPlatform buffer call).1 (· ≤ buffer.length)) ∧
    (∀ me ring buffer, Ensures ((decryptMessage P.toPlatform me ring).eval buffer)
      (fun r => r.1 ≤ buffer.length)) ∧
    (∀ source key ratchet timestamp title content ephemeralPriv iv entries packet,
      Ensures ((buildPacketOf P.toPlatform source key ratchet timestamp title content ephemeralPriv iv
        entries).eval packet) (· ≤ packet.out.length)) ∧
    (∀ source key timestamp title content buffers,
      Ensures ((buildPlaintextForParity P.toPlatform source key timestamp title content).eval buffers)
        (· ≤ buffers.outPlaintext.length)) ∧
    (∀ titleLen contentLen fields,
      Ensures (packedLenOf P.usizeMax titleLen contentLen fields) (· ≤ P.usizeMax)) ∧
    ∀ me packet key (buffers : LinkScratch),
      (parseLink P.toPlatform me packet key).eval buffers ≠ panic ∧
      (parseOpportunistic P me packet key).eval buffers ≠ panic ∧
      (∀ ring, (parseOpportunisticRatchet P me ring packet key).eval buffers ≠ panic ∧
        (peekSourceOpportunisticRatchet P me ring packet).eval buffers.scratch ≠ panic ∧
        ∀ which, (parseOpportunisticRatchetHint P me ring which packet key).eval buffers ≠ panic) ∧
      (peekSourceOpportunistic P me packet).eval buffers.scratch ≠ panic := by
  refine ⟨ensures_write inPlace, ensures_decryptMessage laws, fun source key ratchet timestamp title content
    ephemeralPriv iv entries packet => ensures_buildPacketOf source key timestamp title content laws ratchet
    ephemeralPriv iv entries packet, fun source key timestamp title content buffers =>
    ensures_buildPlaintext source key timestamp title content
    (show admission .empty = .ok .empty from rfl) buffers,
    ensures_packedLenOf P.toPlatform, fun me packet key buffers =>
    ⟨?_, ?_, fun ring => ⟨?_, ?_, fun which => ?_⟩, ?_⟩⟩
  · exact (ensures_parseLink P.toPlatform me packet key buffers).not_panic
  · exact (ensures_parseOpportunistic me packet key laws buffers).not_panic
  · exact (ensures_parseOpportunisticRatchet me ring packet key laws buffers).not_panic
  · exact (ensures_peekSourceOpportunisticRatchet me ring packet laws buffers.scratch).not_panic
  · exact (ensures_parseOpportunisticRatchetHint me ring packet key laws which buffers).not_panic
  · exact (ensures_peekSourceOpportunistic me packet laws buffers.scratch).not_panic

section Hello

open Vectors

theorem plainOf_inside {ciphertext : Bytes} (h : 96 ≤ ciphertext.length) :
    48 + (plainOf ciphertext).length ≤ ciphertext.length := by
  rw [plainOf]
  split
  next hc =>
    rw [hc]
    decide +kernel
  next =>
    rw [extract_length (by omega)]
    omega

theorem measured_length {packet : Bytes} {key : Block 32} {hash : Block 16} {n : Nat} {plaintext : Bytes}
    (h : measured (openPacket packet key hash) = .ok (n, plaintext)) : n ≤ 383 := by
  rw [measured] at h
  cases ho : openPacket packet key hash with
  | error e =>
      rw [ho] at h
      cases h
  | ok plaintext =>
      rw [ho] at h
      cases h
      exact openPacket_length ho

theorem place_eq_ok {α : Type} {out : Bytes} {found : Except CryptoError (α × Bytes)} {a : α}
    (h : (place out found).1 = .ok a) : ∃ plaintext, found = .ok (a, plaintext) := by
  cases found with
  | error e => cases h
  | ok r =>
      cases h
      exact ⟨r.2, rfl⟩

theorem platform_lengths : LengthLaws inboundPlatform where
  encrypted plaintext target recipientHash ephemeralPriv iv out n h := by
    simp only [inboundPlatform, platform] at h
    split at h
    · cases h
    split at h
    · cases h
    next hroom =>
      cases h
      exact Nat.le_of_not_lt hroom
  inPlace key hash buffer n hlen h := by
    simp only [inboundPlatform, platform, decrypt] at h
    split at h
    · cases h
      exact plainOf_inside hlen
    · cases h
  copied packet key hash out n hroom h := by
    obtain ⟨plaintext, hm⟩ := place_eq_ok h
    exact Nat.le_trans (measured_length hm) hroom
  scanned packet ring base hash out n which hroom h := by
    obtain ⟨plaintext, hm⟩ := place_eq_ok h
    split at hm
    next hf =>
      cases hm
      exact Nat.le_trans (firstOpened_length hf) hroom
    next => cases hm
  hinted packet ring base hash which out n hroom h := by
    obtain ⟨plaintext, hm⟩ := place_eq_ok h
    split at hm
    next => exact Nat.le_trans (measured_length hm) hroom
    next => cases hm

theorem calls_stay_inside_hello :
    Ensures ((decryptMessage platform .recipient [ephemeralPriv]).eval
      ((overwrite hello.written.out 16 helloCiphertext).take 208))
      (fun r => r.1 ≤ ((overwrite hello.written.out 16 helloCiphertext).take 208).length) := by
  have h (buffer : Bytes) : Ensures ((decryptMessage platform .recipient [ephemeralPriv]).eval buffer)
      (fun r => r.1 ≤ buffer.length) :=
    (calls_stay_inside (P := inboundPlatform) platform_inPlace platform_lengths).2.1 .recipient
      [ephemeralPriv] buffer
  exact h _

end Hello

end LxmfLite.Robustness
