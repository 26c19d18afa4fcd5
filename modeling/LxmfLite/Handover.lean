import LxmfLite.Vectors
import LxmfLite.Laws
import LxmfLite.Encryption
import LxmfLite.RoundTrip
import LxmfLite.Stamping

namespace LxmfLite.Handover

open ByteString Execution SelfDelimiting MessagePack KeyedMap Message Primitives Laws Reader Skipping
  FieldMaps Parse Writer Encoder Payload Framing Build Packing Authentication Inbound RoundTrip Propagation
  Stamping Encryption

variable {LocalIdentity VerifyingKey : Type} {P : Platform LocalIdentity VerifyingKey}
  {source : LocalIdentity} {recipientPublicKey : Block 64} {timestamp : F64} {title content : Bytes}
  {fields : OuterFields} {payload : Bytes}

/-- Every caller-encoded value is one whole value where it comes to lie in the
payload: below the payload array and the fields map. -/
def Shallow : OuterFields → Prop
  | .encoded entries => ∀ entry ∈ entries, skipValue entry.2 0 2 = .ok entry.2.length
  | _ => True

theorem shallow_iff (h : Encodable title content fields) :
    Shallow fields ↔ ∀ entry ∈ fields.entries, Value 8 2 entry.2 := by
  cases fields with
  | empty => exact ⟨fun _ => nofun, fun _ => trivial⟩
  | audio field =>
      refine ⟨fun _ entry hm => ?_, fun _ => trivial⟩
      obtain rfl := List.mem_singleton.mp hm
      exact value_audio h.2.2 (by omega)
  | encoded entries =>
      constructor
      · intro hs entry hm
        exact (skipValue_whole _ _ _ (Nat.zero_le _)).mp (hs entry (mem_ordered.mp hm))
      · intro hv entry hm
        exact (skipValue_whole _ _ _ (Nat.zero_le _)).mpr (hv entry (mem_ordered.mpr hm))

theorem value_bytes_iff {depth : Nat} (h : Admitted depth fields) :
    Value 8 1 fields.bytes ↔ ∀ entry ∈ fields.entries, Value 8 2 entry.2 := by
  rw [(fieldMap_bytes h).1.value_iff]
  constructor
  · rintro ⟨-, hv⟩ entry hm
    exact hv _ (List.mem_map_of_mem hm)
  · intro hv
    refine ⟨by omega, fun entry hm => ?_⟩
    obtain ⟨supplied, hs, rfl⟩ := List.mem_map.mp hm
    exact hv supplied hs

/-- The payload that a builder writes is one whole value exactly when the
caller-encoded values are shallow. -/
theorem value_payload_iff (h : Buildable P timestamp title content fields payload) :
    Value 8 0 payload ↔ Shallow fields := by
  have htimestamp : Value 8 1 (0xcb :: timestamp.toBeBytes) :=
    .inline (by omega) rfl timestamp.toBeBytes_length
  have htitle : Value 8 1 (binBytes title) := (blob_binBytes h.encodable.1).value (by omega)
  have hcontent : Value 8 1 (binBytes content) := (blob_binBytes h.encodable.2.1).value (by omega)
  have hpayload : payload = 0x94 :: ((0xcb :: timestamp.toBeBytes) ++ (binBytes title ++
      (binBytes content ++ (fields.bytes ++ [])))) := by
    rw [h.eq, payloadBytes, List.append_nil]
    rfl
  rw [shallow_iff h.encodable, ← value_bytes_iff h.fieldsAdmitted, hpayload]
  constructor
  · intro hv
    obtain ⟨a, b, c, f, hitems, ha, hb, hc, hf⟩ := four_values hv
    obtain ⟨rfl, hbehind⟩ := htimestamp.rest_unique ha hitems
    obtain ⟨rfl, hbehind'⟩ := htitle.rest_unique hb hbehind
    obtain ⟨rfl, hbehind''⟩ := hcontent.rest_unique hc hbehind'
    have hfields := value_bytes h.fieldsAdmitted (Nat.zero_le 8)
    obtain ⟨rfl, -⟩ := hfields.rest_unique hf hbehind''
    exact hf
  · intro hf
    refine (array_value_iff (n := 4) rfl (by omega)).mpr ⟨by omega,
      [0xcb :: timestamp.toBeBytes, binBytes title, binBytes content, fields.bytes], by simp, rfl, ?_⟩
    intro item hm
    simp only [List.mem_cons, List.not_mem_nil, or_false] at hm
    rcases hm with rfl | rfl | rfl | rfl <;> assumption

/-- A stamp can be appended to the message in the buffer, the message can be
sealed before and after, and whatever the room, no call finds it malformed. -/
structure Deliverable (P : Platform LocalIdentity VerifyingKey) (recipientPublicKey : Block 64)
    (buffer : Bytes) (n : Nat) : Prop where
  stamps : ∀ stamp : Bytes, stamp.length = 16 ∨ stamp.length = 32 → n + 2 + stamp.length ≤ buffer.length →
    ∃ stampedBuffer, (appendRecipientStamp P n stamp).run buffer =
      (.ok (n + 2 + stamp.length), stampedBuffer)
  seals : ∀ ratchet ephemeralPriv iv total, n - 16 ≤ P.maxEciesPlaintext →
    P.eciesCiphertextLen (n - 16) = .ok total → total ≤ buffer.length →
    ∃ sealedBuffer, (sealOpportunistic P n recipientPublicKey ratchet ephemeralPriv iv).run buffer =
      (.ok total, sealedBuffer)
  sealsStamped : ∀ stamp e stampedBuffer, (appendRecipientStamp P n stamp).run buffer =
      (.ok e, stampedBuffer) →
    ∀ ratchet ephemeralPriv iv total, e - 16 ≤ P.maxEciesPlaintext →
      P.eciesCiphertextLen (e - 16) = .ok total → total ≤ stampedBuffer.length →
      ∃ sealedBuffer, (sealOpportunistic P e recipientPublicKey ratchet ephemeralPriv iv).run
        stampedBuffer = (.ok total, sealedBuffer)
  framed : ∀ stamp : Bytes, stamp.length = 16 ∨ stamp.length = 32 →
    (appendRecipientStamp P n stamp).eval buffer ≠ fail .malformedPayload
  sealFramed : ∀ ratchet ephemeralPriv iv,
    (sealOpportunistic P n recipientPublicKey ratchet ephemeralPriv iv).eval buffer ≠
      fail .malformedPayload
  sealStampedFramed : ∀ stamp e stampedBuffer, (appendRecipientStamp P n stamp).run buffer =
      (.ok e, stampedBuffer) →
    ∀ ratchet ephemeralPriv iv,
      (sealOpportunistic P e recipientPublicKey ratchet ephemeralPriv iv).eval stampedBuffer ≠
        fail .malformedPayload

section Written

variable {buffer : Bytes}

theorem stampable_written (h : Written P source recipientPublicKey payload buffer)
    (hslice : buffer.length ≤ P.usizeMax) (hv : Value 8 0 payload) {stamp : Bytes}
    (hs : stamp.length = 16 ∨ stamp.length = 32)
    (hroom : 96 + payload.length + 2 + stamp.length ≤ buffer.length) :
    Stampable P buffer (96 + payload.length) stamp := by
  have hpos := h.pos
  exact ⟨by omega, h.inside, hs, h.getElem, by rw [h.drop]; exact hv, by omega, by omega⟩

theorem sealable_written (h : Written P source recipientPublicKey payload buffer)
    (hv : Value 8 0 payload) {total : Nat} (hfits : 96 + payload.length - 16 ≤ P.maxEciesPlaintext)
    (hcipher : P.eciesCiphertextLen (96 + payload.length - 16) = .ok total)
    (hroom : total ≤ buffer.length) :
    Sealable P buffer (96 + payload.length) recipientPublicKey total := by
  have hpos := h.pos
  exact ⟨by omega, h.inside, .inl h.getElem, by rw [h.drop]; exact hv, h.dest, hfits, hcipher, hroom⟩

theorem sealable_stamped {packedLen total : Nat} {stamp : Bytes} (h : Stampable P buffer packedLen stamp)
    (hdest : buffer.take 16 = (P.deliveryHash recipientPublicKey).val)
    (hfits : packedLen + (2 + stamp.length) - 16 ≤ P.maxEciesPlaintext)
    (hcipher : P.eciesCiphertextLen (packedLen + (2 + stamp.length) - 16) = .ok total)
    (hroom : total ≤ (stamped buffer packedLen stamp).length) :
    Sealable P (stamped buffer packedLen stamp) (packedLen + (2 + stamp.length)) recipientPublicKey
      total := by
  have hprefixed := h.prefixed
  obtain ⟨hmarker, hvalue⟩ := stamped_framed h
  refine ⟨by omega, ?_, .inr hmarker, hvalue, ?_, hfits, hcipher, hroom⟩
  · rw [stamped_length h]
    exact h.room
  · obtain ⟨head, items, hhead, hold, hnew⟩ := stamped_parts h
    have htake := congrArg (List.take 16) hnew
    have htake' := congrArg (List.take 16) hold
    rw [List.take_take, Nat.min_eq_left (by omega), List.take_append_of_le_length (by omega)] at htake htake'
    rw [htake, ← htake', hdest]

theorem framed_iff (h : Written P source recipientPublicKey payload buffer) {stamp : Bytes}
    (hs : stamp.length = 16 ∨ stamp.length = 32) :
    (appendRecipientStamp P (96 + payload.length) stamp).eval buffer = fail .malformedPayload ↔
      ¬Value 8 0 payload := by
  have hpos := h.pos
  rw [appendRecipientStamp_malformed (by omega) h.inside hs h.getElem, h.drop]

theorem deliverable_written (laws : InPlaceLaws P) (h : Written P source recipientPublicKey payload buffer)
    (hslice : buffer.length ≤ P.usizeMax) (hv : Value 8 0 payload) :
    Deliverable P recipientPublicKey buffer (96 + payload.length) where
  stamps stamp hs hroom :=
    ⟨_, appendRecipientStamp_eq_ok.mpr ⟨stampable_written h hslice hv hs hroom, by omega, rfl⟩⟩
  seals ratchet ephemeralPriv iv total hfits hc hle :=
    ⟨_, (sealOpportunistic_eq_ok laws).mpr ⟨sealable_written h hv hfits hc hle, rfl⟩⟩
  sealsStamped stamp e stampedBuffer ha ratchet ephemeralPriv iv total hfits hc hle := by
    obtain ⟨hs, rfl, rfl⟩ := appendRecipientStamp_eq_ok.mp ha
    exact ⟨_, (sealOpportunistic_eq_ok laws).mpr ⟨sealable_stamped hs h.dest hfits hc hle, rfl⟩⟩
  framed stamp hs hm := (framed_iff h hs).mp hm hv
  sealFramed ratchet ephemeralPriv iv hm := by
    have hpos := h.pos
    rw [sealOpportunistic_malformed laws (by omega) h.inside (.inl h.getElem), h.drop] at hm
    exact hm hv
  sealStampedFramed stamp e stampedBuffer ha ratchet ephemeralPriv iv hm := by
    obtain ⟨hs, rfl, rfl⟩ := appendRecipientStamp_eq_ok.mp ha
    have hpos := h.pos
    obtain ⟨hmarker, hvalue⟩ := stamped_framed hs
    have hinside : 96 + payload.length + (2 + stamp.length) ≤
        (stamped buffer (96 + payload.length) stamp).length := by
      rw [stamped_length hs]
      exact hs.room
    exact (sealOpportunistic_malformed laws (by omega) hinside (.inr hmarker)).mp hm hvalue

end Written

/-- The messages of the Link builders can be stamped and sealed exactly when
their values stay within the nesting that the payload framing allows. -/
theorem deliverable_iff (laws : InPlaceLaws P) {buffers buffers' : LinkBuffers} {n : Nat}
    (h : (buildLinkOf P source recipientPublicKey timestamp title content fields).run buffers =
      (.ok n, buffers')) (hslice : buffers'.out.length ≤ P.usizeMax) :
    Deliverable P recipientPublicKey buffers'.out n ↔ Shallow fields := by
  obtain ⟨payload, hb, -, hout, rfl, rfl⟩ := buildLinkOf_eq_ok.mp h
  have hw := hb.written source recipientPublicKey hout
  rw [← value_payload_iff hb]
  constructor
  · intro hd
    have hstamp : (List.replicate 16 (0 : UInt8)).length = 16 := List.length_replicate
    by_contra hv
    exact hd.framed _ (.inl hstamp) ((framed_iff hw (.inl hstamp)).mpr hv)
  · exact deliverable_written laws hw hslice

theorem deliverable_answer :
    Shallow (.encoded [(0x0a, Vectors.shallowValue)]) ∧
    Deliverable Vectors.platform (Vectors.platform.publicKey .recipient) Vectors.answer.written.out
      127 := by
  have h := deliverable_iff Vectors.platform_inPlace Vectors.buildLink_answer (by decide +kernel)
  have hshallow : Shallow (.encoded [(0x0a, Vectors.shallowValue)]) := by
    intro entry hm
    obtain rfl := List.mem_singleton.mp hm
    decide +kernel
  exact ⟨hshallow, h.mpr hshallow⟩

/-- A message that the recipient reads, and that can be neither stamped nor
sealed: its field nests one level deeper in the payload than on its own. -/
theorem not_deliverable_nested :
    (buildLinkOf Vectors.platform .source (Vectors.platform.publicKey .recipient) Vectors.timestamp
        Vectors.title Vectors.content (.encoded [(0x0a, Vectors.nestedValue)])).run Vectors.unwritten =
      (.ok 133, Vectors.nested.written) ∧
    (∃ view, (parseLink Vectors.platform .recipient (Vectors.nested.written.out.take 133)
        (Vectors.platform.publicKey .source)).eval Vectors.linkScratch = .ok view ∧
      fieldValue view.fields 0x0a = .ok Vectors.nestedValue) ∧
    (appendRecipientStamp Vectors.platform 133 Vectors.ticketStamp).run Vectors.nested.written.out =
      (fail .malformedPayload, Vectors.nested.written.out) ∧
    (sealOpportunistic Vectors.platform 133 (Vectors.platform.publicKey .recipient) none
        Vectors.ephemeralPriv Vectors.iv).run Vectors.nested.written.out =
      (fail .malformedPayload, Vectors.nested.written.out) ∧
    ¬Deliverable Vectors.platform (Vectors.platform.publicKey .recipient) Vectors.nested.written.out
      133 := by
  have hstamp : (appendRecipientStamp Vectors.platform 133 Vectors.ticketStamp).run
      Vectors.nested.written.out = (fail .malformedPayload, Vectors.nested.written.out) := by
    decide +kernel
  refine ⟨Vectors.buildLink_nested, ⟨⟨Vectors.nested.messageId, Vectors.Party.source.deliveryHash,
    Vectors.timestamp, Vectors.title, Vectors.content, Vectors.nested.payload.drop 27⟩,
    by decide +kernel, by decide +kernel⟩, hstamp, by decide +kernel, fun h => ?_⟩
  obtain ⟨stampedBuffer, hs⟩ := h.stamps Vectors.ticketStamp (by decide +kernel) (by decide +kernel)
  rw [hstamp] at hs
  cases hs

end LxmfLite.Handover
