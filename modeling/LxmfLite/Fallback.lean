import LxmfLite.Publication

namespace LxmfLite.Fallback

open ByteString Execution SelfDelimiting MessagePack Message Primitives Laws Reader Skipping Writer Payload
  Framing Build Propagation Encryption Packing Admission Signing Outbound Publication

variable {LocalIdentity VerifyingKey : Type} {P : Platform LocalIdentity VerifyingKey}
  {source : LocalIdentity} {recipientPublicKey : Block 64} {ratchet : Option (Block 32)}
  {timestamp : F64} {title content : Bytes} {fields : OuterFields} {admitted : PayloadFields Bytes}
  {ephemeralPriv : Block 32} {iv : Block 16}

def TooLarge (P : Platform LocalIdentity VerifyingKey) (size : Result Nat) : Prop :=
  ∀ s, size = .ok s → lxmfPackedPrefix + P.maxLxmfPayload < s

/-- A builder says TooLong for a size that is too large, whatever its buffer,
and for every other size the buffer decides. -/
structure Signals (P : Platform LocalIdentity VerifyingKey) (size : Result Nat)
    (builder : Exec LxmfError PacketBuffers Nat) : Prop where
  tooLong : ∀ packet, (builder.run packet).1 = fail .tooLong ↔ TooLarge P size
  outputTooSmall : ∀ s, size = .ok s → s ≤ lxmfPackedPrefix + P.maxLxmfPayload →
    ∃ m, P.eciesCiphertextLen (s - 16) = .ok m ∧ ∀ packet,
      ((builder.run packet).1 = fail .outputTooSmall ↔ packet.out.length < m) ∧
      (m ≤ packet.out.length → (builder.run packet).1 = .ok m)

theorem room_iff (P : Platform LocalIdentity VerifyingKey) {s : Nat} :
    s ≤ lxmfPackedPrefix + P.maxLxmfPayload ↔ s - 16 ≤ P.maxEciesPlaintext := by
  have hprefix := P.plaintextPrefix_le
  rw [plaintextPrefix_eq] at hprefix
  rw [lxmfPackedPrefix_eq, Platform.maxLxmfPayload, plaintextPrefix_eq]
  omega

theorem tooLarge_iff (laws : OutputLaws P) (timestamp : F64) (h : admission fields = .ok admitted) :
    TooLarge P (packedLenOf P.usizeMax title.length content.length fields) ↔
      ¬OnePacket P title content fields (payloadBytes timestamp title content fields) := by
  constructor
  · intro hlarge hone
    have hlt := hlarge _ (packedLenOf_of_onePacket laws timestamp rfl h hone)
    have hfits := hone.fits
    exact absurd ((room_iff P).mpr (by omega)) (Nat.not_le.mpr hlt)
  · intro hno s hs
    by_contra hle
    exact hno (onePacket_of_packedLenOf timestamp rfl hs ((room_iff P).mp (Nat.not_lt.mp hle))).2.2

theorem signals (laws : OutputLaws P) {builder : Exec LxmfError PacketBuffers Nat}
    (h : admission fields = .ok admitted)
    (hb : builder = liftM (admission fields) >>= fun admitted => buildOpportunisticInner P source
      recipientPublicKey ratchet timestamp title content admitted ephemeralPriv iv) :
    Signals P (packedLenOf P.usizeMax title.length content.length fields) builder := by
  have hrun (packet : PacketBuffers) : builder.run packet = (buildOpportunisticInner P source
      recipientPublicKey ratchet timestamp title content admitted ephemeralPriv iv).run packet := by
    rw [hb, h, Exec.run_ok_bind]
  have hsends (hone : OnePacket P title content fields (payloadBytes timestamp title content fields))
      (packet : PacketBuffers) {m : Nat} (hm : P.eciesCiphertextLen (80 + (payloadBytes timestamp title
        content fields).length) = .ok m) :
      (builder.run packet).1 = if packet.out.length < m then fail .outputTooSmall else .ok m := by
    obtain ⟨encrypted, hsent⟩ := inner_encrypts source recipientPublicKey ratchet ephemeralPriv iv laws h
      rfl hone packet hm
    rw [hrun, hsent]
  constructor
  · intro packet
    rw [tooLarge_iff laws timestamp h]
    constructor
    · intro hlong hone
      obtain ⟨m, hm, -⟩ := laws.sized _ hone.fits
      rw [hsends hone packet hm] at hlong
      split at hlong <;> cases hlong
    · intro hno
      rw [hrun, inner_fails source recipientPublicKey ratchet ephemeralPriv iv h rfl hno packet]
  · intro s hs hle
    obtain ⟨rfl, -, hone⟩ := onePacket_of_packedLenOf timestamp rfl hs ((room_iff P).mp hle)
    obtain ⟨m, hm, -⟩ := laws.sized _ hone.fits
    refine ⟨m, by rw [← hm]; congr 1; omega, fun packet => ?_⟩
    rw [hsends hone packet hm]
    split
    next hshort => exact ⟨⟨fun _ => hshort, fun _ => rfl⟩, fun hroom => absurd hroom (by omega)⟩
    next hroom => exact ⟨⟨nofun, fun hshort => absurd hshort hroom⟩, fun _ => rfl⟩

section Seal

variable {buffer : Bytes} {s : Nat}

structure Framed (P : Platform LocalIdentity VerifyingKey) (buffer : Bytes) (s : Nat)
    (recipientPublicKey : Block 64) : Prop where
  prefixed : lxmfPackedPrefix < s
  inside : s ≤ buffer.length
  marker : buffer[lxmfPackedPrefix]? = some 0x94 ∨ buffer[lxmfPackedPrefix]? = some 0x95
  whole : skipValue (buffer.take s) lxmfPackedPrefix 0 = .ok s
  dest : buffer.take lxmfDestLength = (P.deliveryHash recipientPublicKey).val

theorem Framed.value (h : Framed P buffer s recipientPublicKey) :
    Value 8 0 ((buffer.take s).drop 96) := by
  have hlen : (buffer.take s).length = s := List.length_take_of_le h.inside
  have hprefixed := h.prefixed
  rw [lxmfPackedPrefix_eq] at hprefixed
  have hwhole := h.whole
  rw [lxmfPackedPrefix_eq] at hwhole
  exact (skipValue_whole (buffer.take s) 96 0 (by omega)).mp (by rw [hlen]; exact hwhole)

theorem sealOpportunistic_framed (laws : InPlaceLaws P) (h : Framed P buffer s recipientPublicKey)
    {m : Nat} (hm : s - 16 ≤ P.maxEciesPlaintext → P.eciesCiphertextLen (s - 16) = .ok m) :
    ((sealOpportunistic P s recipientPublicKey ratchet ephemeralPriv iv).run buffer).1 =
      if P.maxEciesPlaintext < s - 16 then fail .tooLong
      else if buffer.length < m then fail .outputTooSmall else .ok m := by
  have hprefixed := h.prefixed
  have hinside := h.inside
  have hmarker := h.marker
  rw [lxmfPackedPrefix_eq] at hprefixed hmarker
  by_cases hok : s - 16 ≤ P.maxEciesPlaintext ∧ m ≤ buffer.length
  · rw [(sealOpportunistic_eq_ok laws).mpr ⟨⟨hprefixed, hinside, hmarker, h.value, h.dest, hok.1, hm hok.1,
      hok.2⟩, rfl⟩, if_neg (by omega), if_neg (by omega)]
  have hget : buffer[96]? = some (buffer[96]) := List.getElem?_eq_getElem (by omega)
  rw [hget, Option.some.injEq, Option.some.injEq] at hmarker
  have hprefix : slice buffer 0 lxmfDestLength = (.ok (buffer.take 16) : Result Bytes) :=
    slice_take (by rw [lxmfDestLength]; omega)
  have hdest : ¬(buffer.take 16 ≠ (P.destinationHashFromParts (P.nameHash P.lxmfDeliveryName)
      (some (P.identityHash recipientPublicKey))).val) := not_not.mpr h.dest
  simp only [sealOpportunistic, Exec.run_get_bind, Exec.run_rejectIf_bind]
  rw [lxmfPackedPrefix_eq, if_neg (by omega), index_of_lt (by omega), Exec.run_ok_bind,
    Exec.run_rejectIf_bind, if_neg (not_not.mpr hmarker), run_whole_bind (by omega) hinside h.value,
    hprefix, Exec.run_ok_bind, Exec.run_rejectIf_bind, if_neg hdest,
    Exec.run_rejectIf_bind, lxmfDestLength, Platform.plaintextMax]
  by_cases hfits : s - 16 ≤ P.maxEciesPlaintext
  · have hshort : buffer.length < m := by omega
    rw [if_neg (Nat.not_lt.mpr hfits), if_neg (Nat.not_lt.mpr hfits), hm hfits, ofCrypto, Exec.run_ok_bind,
      Exec.run_rejectIf_bind, if_pos hshort, if_pos hshort]
  · rw [if_pos (Nat.not_le.mp hfits), if_pos (Nat.not_le.mp hfits)]

theorem sealOpportunistic_tooLong_iff (laws : InPlaceLaws P) (output : OutputLaws P)
    (h : Framed P buffer s recipientPublicKey) :
    ((sealOpportunistic P s recipientPublicKey ratchet ephemeralPriv iv).run buffer).1 = fail .tooLong ↔
      lxmfPackedPrefix + P.maxLxmfPayload < s := by
  have hroom := room_iff P (s := s)
  by_cases hfits : s - 16 ≤ P.maxEciesPlaintext
  · obtain ⟨m, hm, -⟩ := output.sized _ hfits
    rw [sealOpportunistic_framed laws h (fun _ => hm), if_neg (Nat.not_lt.mpr hfits)]
    constructor
    · intro hlong
      split at hlong <;> cases hlong
    · exact fun hlt => absurd (hroom.mpr hfits) (Nat.not_le.mpr hlt)
  · rw [sealOpportunistic_framed (m := 0) laws h (fun hle => absurd hle hfits),
      if_pos (Nat.not_le.mp hfits)]
    exact ⟨fun _ => Nat.not_le.mp (mt hroom.mp hfits), fun _ => rfl⟩

end Seal

theorem packedLenWithFields_nil (usizeMax titleLen contentLen : Nat) :
    packedLenWithFields usizeMax titleLen contentLen [] = packedLen usizeMax titleLen contentLen := by
  have hset : encodedFieldSet [] = .ok .empty := rfl
  rw [packedLenWithFields, hset, ok_bind, countPayload, writePayload_nil]
  rfl

/-- TooLong means that no packet takes the message, for the builders and for
seal_opportunistic alike. -/
theorem fallback_exact (output : OutputLaws P) (laws : InPlaceLaws P) (source : LocalIdentity)
    (recipientPublicKey : Block 64) (timestamp : F64) (title content : Bytes) (ephemeralPriv : Block 32)
    (iv : Block 16) :
    Signals P (packedLenWithFields P.usizeMax title.length content.length [])
      (buildOpportunistic P source recipientPublicKey timestamp title content ephemeralPriv iv) ∧
    (∀ ratchet, Signals P (packedLenWithFields P.usizeMax title.length content.length [])
      (buildOpportunisticRatchet P source recipientPublicKey ratchet timestamp title content ephemeralPriv
        iv)) ∧
    (∀ entries present, encodedFieldSet entries = .ok present →
      Signals P (packedLenWithFields P.usizeMax title.length content.length entries)
        (buildOpportunisticWithFields P source recipientPublicKey timestamp title content entries
          ephemeralPriv iv) ∧
      ∀ ratchet, Signals P (packedLenWithFields P.usizeMax title.length content.length entries)
        (buildOpportunisticRatchetWithFields P source recipientPublicKey ratchet timestamp title content
          entries ephemeralPriv iv)) ∧
    ∀ ratchet buffer s, Framed P buffer s recipientPublicKey →
      (((sealOpportunistic P s recipientPublicKey ratchet ephemeralPriv iv).run buffer).1 =
        fail .tooLong ↔ lxmfPackedPrefix + P.maxLxmfPayload < s) := by
  have hempty : admission .empty = .ok .empty := rfl
  rw [packedLenWithFields_nil]
  refine ⟨signals output hempty buildOpportunisticRatchet_eq,
    fun _ => signals output hempty buildOpportunisticRatchet_eq, ?_,
    fun _ _ _ h => sealOpportunistic_tooLong_iff laws output h⟩
  intro entries present hset
  have ha : admission (.encoded entries) = .ok (.encoded entries present) := by
    rw [admission, hset]
    rfl
  exact ⟨signals output ha buildOpportunisticRatchetWithFields_eq,
    fun _ => signals output ha buildOpportunisticRatchetWithFields_eq⟩

theorem fallback_hello :
    Signals Vectors.platform
      (packedLenWithFields Vectors.platform.usizeMax Vectors.title.length Vectors.content.length [(7, [0x80])])
      (buildOpportunisticWithFields Vectors.platform .source (Vectors.platform.publicKey .recipient)
        Vectors.timestamp Vectors.title Vectors.content [(7, [0x80])] Vectors.ephemeralPriv Vectors.iv) ∧
    (((sealOpportunistic Vectors.platform 124 (Vectors.platform.publicKey .recipient) none
      Vectors.ephemeralPriv Vectors.iv).run Vectors.hello.written.out).1 = fail .tooLong ↔
        lxmfPackedPrefix + Vectors.platform.maxLxmfPayload < 124) := by
  obtain ⟨-, -, hfields, hseal⟩ := fallback_exact Vectors.platform_output Vectors.platform_inPlace .source
    (Vectors.platform.publicKey .recipient) Vectors.timestamp Vectors.title Vectors.content
    Vectors.ephemeralPriv Vectors.iv
  have hframed : Framed Vectors.platform Vectors.hello.written.out 124
      (Vectors.platform.publicKey .recipient) :=
    ⟨by decide +kernel, by decide +kernel, by decide +kernel, by decide +kernel, by decide +kernel⟩
  exact ⟨(hfields [(7, [0x80])] (IdSet.empty.insert 7) (by decide +kernel)).1, hseal none _ 124 hframed⟩

end LxmfLite.Fallback
