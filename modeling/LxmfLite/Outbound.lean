import LxmfLite.Vectors
import LxmfLite.Laws
import LxmfLite.Encryption
import LxmfLite.Signing

namespace LxmfLite.Outbound

open ByteString Execution Message Primitives Laws Reader Writer Payload Framing Build Authentication Packing
  Signing Propagation Encryption

variable {LocalIdentity VerifyingKey : Type} {P : Platform LocalIdentity VerifyingKey}
  {source : LocalIdentity} {recipientPublicKey : Block 64} {timestamp : F64} {title content : Bytes}
  {fields : OuterFields} {admitted : PayloadFields Bytes} {payload : Bytes}

theorem buildPlaintext_ok (source : LocalIdentity) (recipientPublicKey : Block 64)
    (h : admission fields = .ok admitted) (he : Encodable title content fields)
    (hp : payload = payloadBytes timestamp title content fields) (hmax : payload.length ≤ P.usizeMax)
    (hfit : 80 + payload.length ≤ P.maxEciesPlaintext) (buffers : PlaintextBuffers)
    (hout : 80 + payload.length ≤ buffers.outPlaintext.length) :
    (buildPlaintext P source recipientPublicKey timestamp title content admitted).run buffers =
      (.ok (80 + payload.length),
        ⟨overwrite buffers.outPlaintext 0 (plaintextFor P source recipientPublicKey payload),
          P.deliveryHash recipientPublicKey, messageIdFor P source recipientPublicKey payload⟩) := by
  rw [buildPlaintext_eq, signPayload_ok source recipientPublicKey h hp ⟨he, hmax, hfit⟩, Exec.run_ok_bind]
  simp only [writePlaintext]
  rw [Exec.run_get_bind, plaintextPrefix_eq, Exec.run_rejectIf_bind,
    if_neg (by rw [Platform.plaintextMax]; omega), copy_dest _ (by omega), Exec.run_ok_bind,
    copy_plaintext_signature (by omega), Exec.run_ok_bind, copy_plaintext rfl (by omega),
    Exec.run_ok_bind]
  rfl

theorem buildOpportunisticInner_ok (source : LocalIdentity) (recipientPublicKey : Block 64)
    (h : admission fields = .ok admitted) (he : Encodable title content fields)
    (hp : payload = payloadBytes timestamp title content fields) (hmax : payload.length ≤ P.usizeMax)
    (hfit : 80 + payload.length ≤ P.maxEciesPlaintext) (ratchet : Option (Block 32))
    (ephemeralPriv : Block 32) (iv : Block 16) (packet : PacketBuffers) :
    (buildOpportunisticInner P source recipientPublicKey ratchet timestamp title content admitted
      ephemeralPriv iv).run packet =
      (ofCrypto (P.eciesEncrypt (plaintextFor P source recipientPublicKey payload)
          (targetKey ratchet recipientPublicKey) (P.identityHash recipientPublicKey) ephemeralPriv iv
          packet.out).1,
        ⟨(P.eciesEncrypt (plaintextFor P source recipientPublicKey payload)
            (targetKey ratchet recipientPublicKey) (P.identityHash recipientPublicKey) ephemeralPriv iv
            packet.out).2.val,
          P.deliveryHash recipientPublicKey, messageIdFor P source recipientPublicKey payload⟩) := by
  have hbuilt := buildPlaintext_ok source recipientPublicKey h he hp hmax hfit
    ⟨List.replicate P.plaintextMax 0, packet.outDestHash, packet.outMessageId⟩
    (by rw [List.length_replicate]; exact hfit)
  simp only [buildOpportunisticInner, Exec.run_get_bind, hbuilt, Exec.run_set_bind, Exec.run_ok_bind]
  rw [slice_overwrite (by rw [plaintextFor, plaintextOf_length]; omega)
    (by rw [List.length_replicate]; exact hfit), Exec.run_ok_bind, Exec.run_set_bind, Exec.run_lift]
  cases ratchet <;> rfl

theorem buildOpportunisticRatchetWithFields_eq {entries : List EncodedField}
    {ratchet : Option (Block 32)} {ephemeralPriv : Block 32} {iv : Block 16} :
    buildOpportunisticRatchetWithFields P source recipientPublicKey ratchet timestamp title content entries
        ephemeralPriv iv =
      liftM (admission (.encoded entries)) >>= fun admitted => buildOpportunisticInner P source
        recipientPublicKey ratchet timestamp title content admitted ephemeralPriv iv := by
  rw [buildOpportunisticRatchetWithFields, admission]
  cases encodedFieldSet entries <;> rfl

/-- Sealing a packed message, building the packet at once and encrypting for a
propagation node put the same bytes on the wire. -/
theorem outbound_agree {cipher : Bytes → Block 32 → Block 16 → Block 32 → Block 16 → Bytes}
    (laws : PacketLaws P cipher) (hname : DestinationLaw P) {entries : List EncodedField}
    {ratchet : Option (Block 32)} {ephemeralPriv : Block 32} {iv : Block 16}
    {buffers buffers' : LinkBuffers} {sealedBuffer : Bytes} {n m : Nat}
    (hbuild : (buildLinkWithFields P source recipientPublicKey timestamp title content entries).run
      buffers = (.ok n, buffers'))
    (hseal : (sealOpportunistic P n recipientPublicKey ratchet ephemeralPriv iv).run buffers'.out =
      (.ok m, sealedBuffer)) :
    (∀ packet : PacketBuffers, m ≤ packet.out.length → ∃ packet',
      (buildOpportunisticRatchetWithFields P source recipientPublicKey ratchet timestamp title content
        entries ephemeralPriv iv).run packet = (.ok m, packet') ∧
      packet'.out.take m = sealedBuffer.take m ∧ packet'.outDestHash = buffers'.outDestHash ∧
      packet'.outMessageId = buffers'.outMessageId) ∧
    (∃ present, encodedFieldSet entries = .ok present ∧
      ∀ plain : PlaintextBuffers, n - 16 ≤ plain.outPlaintext.length → ∃ plain',
        (buildPlaintext P source recipientPublicKey timestamp title content
          (.encoded entries present)).run plain = (.ok (n - 16), plain') ∧
        buffers'.out.take n = plain'.outDestHash.val ++ plain'.outPlaintext.take (n - 16) ∧
        plain'.outDestHash = buffers'.outDestHash ∧ plain'.outMessageId = buffers'.outMessageId) ∧
    ∀ buffer : Bytes, buffer.take n = buffers'.out.take n → 16 + m ≤ buffer.length →
      buffer.length ≤ P.usizeMax → ∃ tid final,
        (encryptMessage P n recipientPublicKey ratchet ephemeralPriv iv).run buffer =
          (.ok (16 + m, tid), final) ∧
        final.take 16 = buffers'.outDestHash.val ∧ final.extract 16 (16 + m) = sealedBuffer.take m := by
  obtain ⟨payload, hb, -, hout, rfl, rfl⟩ := buildLinkOf_eq_ok.mp
    (show (buildLinkOf P source recipientPublicKey timestamp title content (.encoded entries)).run
      buffers = (.ok n, buffers') from hbuild)
  obtain ⟨hsealable, rfl⟩ := (sealOpportunistic_eq_ok laws.toInPlaceLaws).mp hseal
  simp only at hsealable ⊢
  have hw := hb.written source recipientPublicKey hout
  generalize overwrite buffers.out 0 (packedFor P source recipientPublicKey payload) = out at hw hsealable
  have hfits : 80 + payload.length ≤ P.maxEciesPlaintext := by
    have := hsealable.fits
    omega
  have hplainLen : (plaintextFor P source recipientPublicKey payload).length = 96 + payload.length - 16 := by
    rw [plaintextFor, plaintextOf_length]
    omega
  have hcipher := hsealable.cipher
  obtain ⟨hsealedTake, -⟩ := ciphered_take recipientPublicKey ratchet ephemeralPriv iv
    laws.toCipherLaws hsealable.inside hcipher (show 0 + m ≤ out.length by
      rw [Nat.zero_add]
      exact hsealable.room)
  rw [Nat.zero_add, List.take_zero, List.nil_append, hw.plaintext] at hsealedTake
  obtain ⟨admitted, ha⟩ := hb.admitted
  refine ⟨fun packet hroom => ?_, ?_, fun buffer hsame hroom hslice => ?_⟩
  · obtain ⟨hok, htake⟩ := laws.copied (targetKey ratchet recipientPublicKey)
      (P.identityHash recipientPublicKey) ephemeralPriv iv packet.out
      (plaintextFor P source recipientPublicKey payload) m (by omega) (by rw [hplainLen]; exact hcipher)
      hroom
    have hrun := buildOpportunisticInner_ok source recipientPublicKey ha hb.encodable hb.eq hb.countable
      hfits ratchet ephemeralPriv iv packet
    rw [hok] at hrun
    have hfields : (buildOpportunisticRatchetWithFields P source recipientPublicKey ratchet timestamp title
        content entries ephemeralPriv iv).run packet = (buildOpportunisticInner P source recipientPublicKey
          ratchet timestamp title content admitted ephemeralPriv iv).run packet := by
      rw [buildOpportunisticRatchetWithFields_eq, ha, Exec.run_ok_bind]
    exact ⟨_, hfields.trans hrun, htake.trans hsealedTake.symm, rfl, rfl⟩
  · obtain ⟨present, hp, hpure⟩ := bind_eq_ok.mp ha
    cases hpure
    refine ⟨present, hp, fun plain hroom => ?_⟩
    have hrun := buildPlaintext_ok source recipientPublicKey ha hb.encodable hb.eq hb.countable hfits plain
      (by omega)
    have htake := overwrite_start plain.outPlaintext (plaintextFor P source recipientPublicKey payload)
    rw [hplainLen] at htake
    rw [show 80 + payload.length = 96 + payload.length - 16 by omega] at hrun
    refine ⟨_, hrun, ?_, rfl, rfl⟩
    rw [hw.take, packedFor_eq, htake]
  · have hw' := hw.of_take hsame
    have hdest := hw'.dest
    have henclosable : Enclosable P buffer (96 + payload.length) recipientPublicKey m :=
      ⟨hsealable.prefixed, hw'.inside, by rw [hname]; exact hdest, hcipher, by omega, hroom⟩
    have hhead : (buffer.take 16).length = 16 := List.length_take_of_le (by omega)
    obtain ⟨hentry, -⟩ := ciphered_take recipientPublicKey ratchet ephemeralPriv iv
      laws.toCipherLaws hw'.inside hcipher hroom
    rw [hw'.plaintext] at hentry
    refine ⟨_, _, (encryptMessage_eq_ok laws.toInPlaceLaws).mpr ⟨m, henclosable, rfl, rfl, rfl⟩, ?_, ?_⟩
    · have hdest16 := congrArg (List.take 16) hentry
      rw [List.take_take, Nat.min_eq_left (by omega), List.take_left' hhead, hdest] at hdest16
      exact hdest16
    · rw [List.extract_eq_take_drop, ← List.drop_take, hentry, List.drop_left' hhead, hsealedTake]

def answerCiphertext : Bytes :=
  Vectors.cipher Vectors.answer.plaintext (first32 Vectors.Party.recipient.publicKey)
    Vectors.Party.recipient.identityHash Vectors.ephemeralPriv Vectors.iv

theorem outbound_answer : ∃ packet' present plain' tid final,
    (buildOpportunisticRatchetWithFields Vectors.platform .source (Vectors.platform.publicKey .recipient)
      none Vectors.timestamp Vectors.title Vectors.content [(0x0a, Vectors.shallowValue)]
      Vectors.ephemeralPriv Vectors.iv).run ⟨List.replicate 192 0, Vectors.block 16 0, Vectors.block 32 0⟩ =
        (.ok 192, packet') ∧
    packet'.out.take 192 = (overwrite Vectors.answer.written.out 0 answerCiphertext).take 192 ∧
    encodedFieldSet [(0x0a, Vectors.shallowValue)] = .ok present ∧
    (buildPlaintext Vectors.platform .source (Vectors.platform.publicKey .recipient) Vectors.timestamp
      Vectors.title Vectors.content (.encoded [(0x0a, Vectors.shallowValue)] present)).run
        ⟨List.replicate 111 0, Vectors.block 16 0, Vectors.block 32 0⟩ = (.ok 111, plain') ∧
    Vectors.answer.written.out.take 127 = plain'.outDestHash.val ++ plain'.outPlaintext.take 111 ∧
    (encryptMessage Vectors.platform 127 (Vectors.platform.publicKey .recipient) none Vectors.ephemeralPriv
      Vectors.iv).run Vectors.answer.written.out = (.ok (208, tid), final) ∧
    final.extract 16 208 = (overwrite Vectors.answer.written.out 0 answerCiphertext).take 192 := by
  have hbuild : (buildLinkWithFields Vectors.platform .source (Vectors.platform.publicKey .recipient)
      Vectors.timestamp Vectors.title Vectors.content [(0x0a, Vectors.shallowValue)]).run Vectors.unwritten =
        (.ok 127, Vectors.answer.written) := Vectors.buildLink_answer
  have hseal : (sealOpportunistic Vectors.platform 127 (Vectors.platform.publicKey .recipient) none
      Vectors.ephemeralPriv Vectors.iv).run Vectors.answer.written.out =
        (.ok 192, overwrite Vectors.answer.written.out 0 answerCiphertext) := by
    decide +kernel
  obtain ⟨hpacket, ⟨present, hpresent, hplain⟩, hwrapped⟩ :=
    outbound_agree Vectors.platform_packet Vectors.platform_destination hbuild hseal
  obtain ⟨packet', hrun, hsame, -⟩ :=
    hpacket ⟨List.replicate 192 0, Vectors.block 16 0, Vectors.block 32 0⟩ (by decide +kernel)
  obtain ⟨plain', hrun', hsplit, -⟩ :=
    hplain ⟨List.replicate 111 0, Vectors.block 16 0, Vectors.block 32 0⟩ (by decide +kernel)
  obtain ⟨tid, final, hrun'', -, hentry⟩ := hwrapped Vectors.answer.written.out rfl (by decide +kernel)
    (by decide +kernel)
  exact ⟨packet', present, plain', tid, final, hrun, hsame, hpresent, hrun', hsplit, hrun'', hentry⟩

end LxmfLite.Outbound
