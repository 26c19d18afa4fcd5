import LxmfLite.Contracts
import LxmfLite.Outbound
import LxmfLite.Admission

namespace LxmfLite.Publication

open ByteString Execution Contracts Message Primitives Laws Writer Payload Framing Build Authentication
  Packing Signing Admission Outbound

variable {LocalIdentity VerifyingKey : Type} {P : Platform LocalIdentity VerifyingKey}
  {source : LocalIdentity} {recipientPublicKey : Block 64} {ratchet : Option (Block 32)}
  {timestamp : F64} {title content : Bytes} {fields : OuterFields} {admitted : PayloadFields Bytes}
  {payload out : Bytes} {ephemeralPriv : Block 32} {iv : Block 16}

/-- Whatever destination hash and message id the caller has, a call into out
that fails leaves them to it. -/
def KeepsOutputs (builder : Exec LxmfError PacketBuffers Nat) (out : Bytes) : Prop :=
  ∀ destHash messageId, Exec.OnError builder ⟨out, destHash, messageId⟩
    (fun left => left.outDestHash = destHash ∧ left.outMessageId = messageId)

def Overruns (P : Platform LocalIdentity VerifyingKey) (title content : Bytes) (fields : OuterFields)
    (out : Bytes) : Prop :=
  ∃ s m, packedLenOf P.usizeMax title.length content.length fields = .ok s ∧
    s - 16 ≤ P.maxEciesPlaintext ∧ P.eciesCiphertextLen (s - 16) = .ok m ∧ out.length < m

/-- Without a payload for one packet build_plaintext writes nothing. -/
theorem buildPlaintext_fails (source : LocalIdentity) (recipientPublicKey : Block 64)
    (h : admission fields = .ok admitted) (hp : payload = payloadBytes timestamp title content fields)
    (hone : ¬OnePacket P title content fields payload) (buffers : PlaintextBuffers) :
    (buildPlaintext P source recipientPublicKey timestamp title content admitted).run buffers =
      (fail .tooLong, buffers) := by
  rw [buildPlaintext_eq, signPayload_fails source recipientPublicKey h hp hone, Exec.run_fail_bind]

section Inner

variable (source recipientPublicKey ratchet ephemeralPriv iv)

theorem inner_fails (h : admission fields = .ok admitted)
    (hp : payload = payloadBytes timestamp title content fields)
    (hone : ¬OnePacket P title content fields payload) (packet : PacketBuffers) :
    (buildOpportunisticInner P source recipientPublicKey ratchet timestamp title content admitted
      ephemeralPriv iv).run packet = (fail .tooLong, packet) := by
  have hbuilt := buildPlaintext_fails source recipientPublicKey h hp hone
    ⟨List.replicate P.plaintextMax 0, packet.outDestHash, packet.outMessageId⟩
  simp only [buildOpportunisticInner, Exec.run_get_bind, hbuilt, Exec.run_set_bind]
  rfl

theorem inner_encrypts (laws : OutputLaws P) (h : admission fields = .ok admitted)
    (hp : payload = payloadBytes timestamp title content fields)
    (hone : OnePacket P title content fields payload) (packet : PacketBuffers) {m : Nat}
    (hm : P.eciesCiphertextLen (80 + payload.length) = .ok m) :
    ∃ encrypted, (buildOpportunisticInner P source recipientPublicKey ratchet timestamp title content
      admitted ephemeralPriv iv).run packet =
        (if packet.out.length < m then fail .outputTooSmall else .ok m,
          ⟨encrypted, P.deliveryHash recipientPublicKey,
            messageIdFor P source recipientPublicKey payload⟩) := by
  have hplain : (plaintextFor P source recipientPublicKey payload).length = 80 + payload.length :=
    plaintextOf_length
  refine ⟨_, (buildOpportunisticInner_ok source recipientPublicKey h hone.encodable hp hone.countable
    hone.fits ratchet ephemeralPriv iv packet).trans (Prod.ext ?_ rfl)⟩
  rw [← hplain] at hm
  have hfits : (plaintextFor P source recipientPublicKey payload).length ≤ P.maxEciesPlaintext := by
    rw [hplain]
    exact hone.fits
  split
  next hshort =>
    simp only [laws.overruns _ _ _ _ _ _ _ hfits hm hshort]
    rfl
  next hroom =>
    simp only [laws.writes _ _ _ _ _ _ _ hfits hm (Nat.le_of_not_lt hroom)]
    rfl

end Inner

/-- The size function counts every message that one packet takes. -/
theorem packedLenOf_of_onePacket (laws : OutputLaws P) (timestamp : F64)
    (hp : payload = payloadBytes timestamp title content fields) (h : admission fields = .ok admitted)
    (hone : OnePacket P title content fields payload) :
    packedLenOf P.usizeMax title.length content.length fields = .ok (96 + payload.length) := by
  obtain ⟨m, -, hgrows, hmax⟩ := laws.sized _ hone.fits
  rcases packedLenOf_run P timestamp title content fields hp with ⟨hsize, -, -⟩ | ⟨-, hno⟩
  · exact hsize
  · exact absurd ⟨⟨⟨admitted, h⟩, hone.encodable, hp, hone.countable⟩, by omega⟩ hno

theorem onePacket_of_packedLenOf (timestamp : F64)
    (hp : payload = payloadBytes timestamp title content fields) {s : Nat}
    (hs : packedLenOf P.usizeMax title.length content.length fields = .ok s)
    (hfits : s - 16 ≤ P.maxEciesPlaintext) :
    s = 96 + payload.length ∧ (∃ admitted, admission fields = .ok admitted) ∧
      OnePacket P title content fields payload := by
  rcases packedLenOf_run P timestamp title content fields hp with ⟨hsize, hb, -⟩ | ⟨⟨e, hsize⟩, -⟩
  · rw [hsize] at hs
    cases hs
    exact ⟨rfl, hb.admitted, hb.encodable, hb.countable, by omega⟩
  · rw [hsize] at hs
    cases hs

theorem overruns_iff (laws : OutputLaws P) (timestamp : F64)
    (hp : payload = payloadBytes timestamp title content fields) :
    Overruns P title content fields out ↔ (∃ admitted, admission fields = .ok admitted) ∧
      OnePacket P title content fields payload ∧
      ∃ m, P.eciesCiphertextLen (80 + payload.length) = .ok m ∧ out.length < m := by
  have hlen : 96 + payload.length - 16 = 80 + payload.length := by omega
  constructor
  · rintro ⟨s, m, hs, hfits, hm, hshort⟩
    obtain ⟨rfl, ha, hone⟩ := onePacket_of_packedLenOf timestamp hp hs hfits
    rw [hlen] at hm
    exact ⟨ha, hone, m, hm, hshort⟩
  · rintro ⟨⟨admitted, ha⟩, hone, m, hm, hshort⟩
    have hsize := packedLenOf_of_onePacket laws timestamp hp ha hone
    exact ⟨_, m, hsize, by rw [hlen]; exact hone.fits, by rw [hlen]; exact hm, hshort⟩

theorem exists_block_ne (a : Block 32) : ∃ b : Block 32, a ≠ b := by
  by_cases h : a = ⟨List.replicate 32 0, List.length_replicate⟩
  · refine ⟨⟨List.replicate 32 1, List.length_replicate⟩, ?_⟩
    rw [h]
    decide
  · exact ⟨_, h⟩

theorem buildOpportunisticRatchet_eq :
    buildOpportunisticRatchet P source recipientPublicKey ratchet timestamp title content ephemeralPriv iv =
      liftM (admission .empty) >>= fun admitted => buildOpportunisticInner P source recipientPublicKey
        ratchet timestamp title content admitted ephemeralPriv iv := rfl

theorem keepsOutputs_iff (laws : OutputLaws P) {builder : Exec LxmfError PacketBuffers Nat}
    (hb : builder = liftM (admission fields) >>= fun admitted => buildOpportunisticInner P source
      recipientPublicKey ratchet timestamp title content admitted ephemeralPriv iv) :
    KeepsOutputs builder out ↔ ¬Overruns P title content fields out := by
  subst hb
  rw [overruns_iff laws timestamp rfl]
  constructor
  · rintro hkeeps ⟨⟨admitted, ha⟩, hone, m, hm, hshort⟩
    obtain ⟨messageId, hne⟩ := exists_block_ne (messageIdFor P source recipientPublicKey
      (payloadBytes timestamp title content fields))
    obtain ⟨encrypted, hrun⟩ := inner_encrypts source recipientPublicKey ratchet ephemeralPriv iv laws ha
      rfl hone ⟨out, P.deliveryHash recipientPublicKey, messageId⟩ hm
    rw [if_pos hshort] at hrun
    have hkept := hkeeps (P.deliveryHash recipientPublicKey) messageId .outputTooSmall
    rw [ha, Exec.run_ok_bind, hrun] at hkept
    exact hne (hkept _ rfl).2
  · intro hno destHash messageId
    refine Exec.onError_lift_bind (fun _ _ => ⟨rfl, rfl⟩) ?_
    intro admitted ha e left hrun
    by_cases hone : OnePacket P title content fields (payloadBytes timestamp title content fields)
    · obtain ⟨m, hm, -⟩ := laws.sized _ hone.fits
      obtain ⟨encrypted, hok⟩ := inner_encrypts source recipientPublicKey ratchet ephemeralPriv iv laws ha
        rfl hone ⟨out, destHash, messageId⟩ hm
      have hroom : ¬out.length < m := fun hshort => hno ⟨⟨admitted, ha⟩, hone, m, hm, hshort⟩
      rw [hok, if_neg hroom] at hrun
      cases hrun
    · rw [inner_fails source recipientPublicKey ratchet ephemeralPriv iv ha rfl hone] at hrun
      cases hrun
      exact ⟨rfl, rfl⟩

/-- The opportunistic builders leave the outputs of a failed call to the caller,
except where the message is built and its ciphertext overruns out. -/
theorem builders_keep_iff (laws : OutputLaws P) (source : LocalIdentity) (recipientPublicKey : Block 64)
    (timestamp : F64) (title content : Bytes) (ephemeralPriv : Block 32) (iv : Block 16) (out : Bytes) :
    (KeepsOutputs (buildOpportunistic P source recipientPublicKey timestamp title content ephemeralPriv
      iv) out ↔ ¬Overruns P title content .empty out) ∧
    (∀ ratchet, KeepsOutputs (buildOpportunisticRatchet P source recipientPublicKey ratchet timestamp title
      content ephemeralPriv iv) out ↔ ¬Overruns P title content .empty out) ∧
    (∀ entries, KeepsOutputs (buildOpportunisticWithFields P source recipientPublicKey timestamp title
      content entries ephemeralPriv iv) out ↔ ¬Overruns P title content (.encoded entries) out) ∧
    ∀ ratchet entries, KeepsOutputs (buildOpportunisticRatchetWithFields P source recipientPublicKey
      ratchet timestamp title content entries ephemeralPriv iv) out ↔
        ¬Overruns P title content (.encoded entries) out :=
  ⟨keepsOutputs_iff laws buildOpportunisticRatchet_eq,
    fun _ => keepsOutputs_iff laws buildOpportunisticRatchet_eq,
    fun _ => keepsOutputs_iff laws buildOpportunisticRatchetWithFields_eq,
    fun _ _ => keepsOutputs_iff laws buildOpportunisticRatchetWithFields_eq⟩

theorem builders_keep_hello :
    KeepsOutputs (buildOpportunistic Vectors.platform .source (Vectors.platform.publicKey .recipient)
      Vectors.timestamp Vectors.title Vectors.content Vectors.ephemeralPriv Vectors.iv)
      (List.replicate 8 0) ↔
        ¬Overruns Vectors.platform Vectors.title Vectors.content .empty (List.replicate 8 0) :=
  (builders_keep_iff Vectors.platform_output _ _ _ _ _ _ _ _).1

/-- Eight bytes of room: the call fails, and the caller holds the id of a
message that was never produced. -/
theorem hello_overruns :
    (buildOpportunistic Vectors.platform .source (Vectors.platform.publicKey .recipient)
        Vectors.timestamp Vectors.title Vectors.content Vectors.ephemeralPriv Vectors.iv).run
        ⟨List.replicate 8 0, Vectors.block 16 0, Vectors.block 32 0⟩ =
      (fail .outputTooSmall,
        ⟨List.replicate 8 0, Vectors.Party.recipient.deliveryHash, Vectors.hello.messageId⟩) ∧
    ¬KeepsOutputs (buildOpportunistic Vectors.platform .source (Vectors.platform.publicKey .recipient)
      Vectors.timestamp Vectors.title Vectors.content Vectors.ephemeralPriv Vectors.iv)
      (List.replicate 8 0) := by
  have hrun : (buildOpportunistic Vectors.platform .source (Vectors.platform.publicKey .recipient)
      Vectors.timestamp Vectors.title Vectors.content Vectors.ephemeralPriv Vectors.iv).run
        ⟨List.replicate 8 0, Vectors.block 16 0, Vectors.block 32 0⟩ =
      (fail .outputTooSmall,
        ⟨List.replicate 8 0, Vectors.Party.recipient.deliveryHash, Vectors.hello.messageId⟩) := by
    decide +kernel
  refine ⟨hrun, fun hkeeps => ?_⟩
  have hid := (hkeeps _ _ _ _ hrun).2
  exact absurd hid (by decide +kernel)

end LxmfLite.Publication
