import LxmfLite.Vectors
import LxmfLite.Laws
import LxmfLite.Inbound
import LxmfLite.Packing

namespace LxmfLite.RoundTrip

open ByteString Execution SelfDelimiting MessagePack KeyedMap Message Primitives Laws Reader Skipping
  FieldReading FieldMaps Parse Decoding Authentication Inbound Writer Encoder Payload Framing Build
  Packing

variable {LocalIdentity VerifyingKey : Type} {P : Platform LocalIdentity VerifyingKey}
  {source recipient : LocalIdentity} {timestamp : F64} {title content : Bytes}
  {fields : OuterFields}

theorem value_bytes {depth : Nat} (h : Admitted (depth + 1) fields) (hd : depth ≤ 8) :
    Value 8 depth fields.bytes := by
  refine (fieldMap_bytes h).1.value_iff.mpr ⟨hd, fun entry hm => ?_⟩
  obtain ⟨supplied, hs, rfl⟩ := List.mem_map.mp hm
  exact h.values supplied hs

/-- The encoder writes a payload that decodes to what it was given. -/
theorem framed_payloadBytes (timestamp : F64) (h : Admitted 1 fields) (he : Encodable title content fields) :
    Framed (payloadBytes timestamp title content fields)
      ⟨timestamp, title, content, fields.bytes, (payloadBytes timestamp title content fields).length⟩ := by
  have hmk := Framed.mk [] (show 0x94 ≤ (0x94 : UInt8).toNat ∧ _ by decide) timestamp.toBeBytes_length
    (blob_binBytes he.1) (blob_binBytes he.2.1) (value_bytes h (Nat.zero_le 8))
  rw [F64.fromBeBytes_toBeBytes, List.append_nil] at hmk
  have hlen : 10 + (binBytes title).length + (binBytes content).length + fields.bytes.length =
      (payloadBytes timestamp title content fields).length := by
    rw [payloadBytes_length]
    omega
  rwa [hlen] at hmk

theorem checkFields_bytes {depth : Nat} (h : Admitted depth fields) :
    checkFields fields.bytes = .ok () :=
  checkFields_eq_ok.mpr (fun _ _ _ _ => ⟨_, (fieldMap_bytes h).shallower (Nat.zero_le depth)⟩)

theorem stripped_payloadBytes (timestamp : F64) (title content : Bytes) (fields : OuterFields) :
    stripped (payloadBytes timestamp title content fields)
    (payloadBytes timestamp title content fields).length = payloadBytes timestamp title content fields := by
  rw [stripped, List.take_length]
  rfl

section Fields

theorem fieldValue_bytes {depth : Nat} (h : Admitted depth fields) {id : UInt8} {value : Bytes} :
    fieldValue fields.bytes id = .ok value ↔ (id, value) ∈ fields.entries := by
  have hmap := (fieldMap_bytes h).shallower (Nat.zero_le depth)
  have hn := (fieldMap_header hmap).choose_spec.choose_spec.2.2.2
  rw [fieldValue_eq hmap]
  have horFail : ∀ x : Option Bytes, (orFail x () : Maybe Bytes) = .ok value ↔ x = some value := by
    intro x
    cases x with
    | none => simp
    | some v => simp
  rw [horFail, lookup_eq_some_iff_mem hn, List.mem_map]
  constructor
  · rintro ⟨⟨id', value'⟩, hm, heq⟩
    obtain ⟨hid, rfl⟩ := Prod.mk.inj heq
    obtain rfl : id' = id := byte_ext (Int.ofNat_inj.mp hid)
    exact hm
  · exact fun hm => ⟨_, hm, rfl⟩

theorem fieldValue_bytes_other {depth : Nat} (h : Admitted depth fields) {id : UInt8}
    (hid : id ∉ fields.entries.map Prod.fst) : fieldValue fields.bytes id = fail () := by
  have hmap := (fieldMap_bytes h).shallower (Nat.zero_le depth)
  rw [fieldValue_eq hmap, List.lookup_eq_none_iff.mpr]
  · rfl
  · intro entry hm
    obtain ⟨supplied, hs, rfl⟩ := List.mem_map.mp hm
    rw [bne_iff_ne]
    intro heq
    exact hid (List.mem_map.mpr ⟨supplied, hs, (byte_ext (Int.ofNat_inj.mp heq)).symm⟩)

end Fields

section Audio

theorem readAudioInteger_uintBytes (mode : UInt8) (rest : Bytes) :
    readAudioInteger (uintBytes mode ++ rest) = .ok (mode, (uintBytes mode).length) := by
  rw [uintBytes]
  by_cases hm : mode ≤ 0x7f
  · rw [if_pos hm]
    have hle : mode.toNat ≤ 0x7f := hm
    simp [readAudioInteger, hle]
  · rw [if_neg hm]
    simp [readAudioInteger, audioIntegerWidth, orFail, slice, index, rejectIf_bind]

theorem audioField_bytes {depth : Nat} {field : AudioField} (h : Admitted depth (.audio field))
    (hb : field.bytes.length ≤ 0xffffffff) :
    audioField (OuterFields.audio field).bytes = .ok (some field) := by
  obtain ⟨mode, bytes⟩ := field
  have hmap := (fieldMap_bytes h).shallower (Nat.zero_le depth)
  have hvalue : fieldValue (OuterFields.audio ⟨mode, bytes⟩).bytes fieldAudio =
      .ok ([0x92] ++ (uintBytes mode ++ binBytes bytes)) :=
    (fieldValue_bytes h).mpr List.mem_cons_self
  have hlen : ([0x92] ++ (uintBytes mode ++ binBytes bytes)).length =
      1 + (uintBytes mode).length + (binBytes bytes).length := by
    simp only [List.length_append, List.length_singleton]
    omega
  have htail : slice ([0x92] ++ (uintBytes mode ++ binBytes bytes)) 1
      ([0x92] ++ (uintBytes mode ++ binBytes bytes)).length =
      (.ok (uintBytes mode ++ binBytes bytes) : Result Bytes) :=
    slice_end rfl (by simp only [List.length_append, List.length_singleton])
  have hdrop : ([0x92] ++ (uintBytes mode ++ binBytes bytes)).drop (1 + (uintBytes mode).length) =
      binBytes bytes := by
    rw [← List.append_assoc, List.drop_left']
    rw [List.length_append, List.length_singleton]
  obtain ⟨m, hm, hrange⟩ := binBytes_head bytes
  have hmarker : ([0x92] ++ (uintBytes mode ++ binBytes bytes))[1 + (uintBytes mode).length]? = some m := by
    have hget : (([0x92] ++ (uintBytes mode ++ binBytes bytes)).drop (1 + (uintBytes mode).length))[0]? =
        ([0x92] ++ (uintBytes mode ++ binBytes bytes))[1 + (uintBytes mode).length + 0]? :=
      List.getElem?_drop
    rw [hdrop, hm] at hget
    exact hget.symm
  have hread : readBin ([0x92] ++ (uintBytes mode ++ binBytes bytes)) (1 + (uintBytes mode).length) =
      .ok (bytes, 1 + (uintBytes mode).length + (binBytes bytes).length) :=
    readBin_eq_ok.mpr ⟨binBytes bytes, ⟨[], by rw [List.append_nil, hdrop]⟩, blob_binBytes hb, rfl⟩
  rw [audioField, validateFieldsWithoutScratch_eq_ok.mpr ⟨_, hmap⟩, ok_bind, hvalue]
  simp only [show pairHeader ([0x92] ++ (uintBytes mode ++ binBytes bytes)) = some 1 from
    if_pos (List.prefix_append _ _), orFail_some, ok_bind, htail, readAudioInteger_uintBytes, okOr,
    hmarker, hread, rejectIf_bind]
  rw [if_neg (not_not_intro hrange), if_neg (by rw [hlen]; simp)]
  rfl

end Audio

/-- The entries that the caller hands over; the audio field is one. -/
def supplied : OuterFields → List EncodedField
  | .empty => []
  | .audio field => [(fieldAudio, 0x92 :: (uintBytes field.mode ++ binBytes field.bytes))]
  | .encoded entries => entries

theorem mem_supplied {entry : EncodedField} : entry ∈ supplied fields ↔ entry ∈ fields.entries := by
  cases fields with
  | empty => exact Iff.rfl
  | audio field => exact Iff.rfl
  | encoded entries => exact mem_ordered.symm

structure ReadBack (source : LocalIdentity) (timestamp : F64) (title content : Bytes)
    (fields : OuterFields) (P : Platform LocalIdentity VerifyingKey) (messageId : Block 32)
    (view : LxmfView) : Prop where
  messageId : view.messageId = messageId
  sourceHash : view.sourceHash = P.lxmfDeliveryHash source
  timestamp : view.timestamp = timestamp
  title : view.title = title
  content : view.content = content
  present : ∀ id value, fieldValue view.fields id = .ok value ↔ (id, value) ∈ supplied fields
  absent : ∀ id, id ∉ (supplied fields).map Prod.fst → fieldValue view.fields id = fail ()
  audio : ∀ field, fields = .audio field → audioField view.fields = .ok (some field)

def viewFor (P : Platform LocalIdentity VerifyingKey) (source : LocalIdentity)
    (recipientPublicKey : Block 64) (timestamp : F64) (title content : Bytes) (fields : OuterFields)
    (payload : Bytes) : LxmfView :=
  ⟨messageIdFor P source recipientPublicKey payload, P.lxmfDeliveryHash source, timestamp, title,
    content, fields.bytes⟩

theorem readBack_viewFor {payload : Bytes} (hb : Buildable P timestamp title content fields payload)
    (recipientPublicKey : Block 64) :
    ReadBack source timestamp title content fields P (messageIdFor P source recipientPublicKey payload)
      (viewFor P source recipientPublicKey timestamp title content fields payload) := by
  have hadmitted := hb.fieldsAdmitted
  refine ⟨rfl, rfl, rfl, rfl, rfl, fun id value => ?_, fun id hid => ?_, ?_⟩
  · rw [viewFor, fieldValue_bytes hadmitted, mem_supplied]
  · refine fieldValue_bytes_other hadmitted (fun hm => hid ?_)
    obtain ⟨entry, he, rfl⟩ := List.mem_map.mp hm
    exact List.mem_map_of_mem (mem_supplied.mpr he)
  · rintro field rfl
    exact audioField_bytes hadmitted hb.encodable.2.2

section Body

variable {m : UInt8} {items : Bytes}

theorem framed_extend {d : Elements} (h : Framed (0x94 :: items) d) (rest : Bytes)
    (hm : 0x94 ≤ m.toNat ∧ m.toNat ≤ 0x9f) : Framed (m :: (items ++ rest)) d := by
  generalize hp : (0x94 : UInt8) :: items = payload at h
  obtain @⟨m', stamp, title, content, titleEnc, contentEnc, fields, rest', -, hs, ht, hc, hf⟩ := h
  obtain ⟨-, rfl⟩ := List.cons.inj hp
  have hmk := Framed.mk (rest' ++ rest) hm hs ht hc hf
  simpa only [List.cons_append, List.append_assoc] using hmk

theorem stripped_extend (rest : Bytes) :
    stripped (m :: (items ++ rest)) (0x94 :: items : Bytes).length = 0x94 :: items := by
  rw [stripped, List.length_cons, List.take_succ_cons, List.take_left, List.drop_one, List.tail_cons]

/-- Both parsers come to the view of the message, whatever follows the payload. -/
theorem authenticate_carried (laws : IdentityLaws P)
    (hb : Buildable P timestamp title content fields (0x94 :: items))
    (hm : 0x94 ≤ m.toNat ∧ m.toNat ≤ 0x9f) (rest : Bytes) {room : Nat}
    (hroom : 64 + (0x94 :: items : Bytes).length ≤ room) :
    authenticate P recipient (P.publicKey source) (P.lxmfDeliveryHash source)
      (signatureOf P source (P.publicKey recipient) (0x94 :: items)) (m :: (items ++ rest)) room =
      .ok (viewFor P source (P.publicKey recipient) timestamp title content fields (0x94 :: items)) := by
  have hframed := framed_payloadBytes timestamp hb.fieldsAdmitted hb.encodable
  rw [← hb.eq] at hframed
  obtain ⟨key, hkey, hverifies⟩ := laws.verifies source
    (signedPart P (P.deliveryHash (P.publicKey recipient)) (P.lxmfDeliveryHash source) (0x94 :: items))
  refine authenticate_eq_ok.mpr ⟨(laws.deliveryHash_eq source).symm, _, framed_extend hframed rest hm,
    checkFields_bytes hb.fieldsAdmitted, hroom, key, hkey, ?_, ?_⟩
  · rw [stripped_extend, laws.deliveryHash_eq recipient]
    exact hverifies
  · rw [stripped_extend, laws.deliveryHash_eq recipient]
    rfl

end Body

/-- What a Link builder writes, the recipient reads back. -/
theorem parseLink_buildLinkOf (laws : IdentityLaws P) {buffers buffers' : LinkBuffers} {n : Nat}
    (h : (buildLinkOf P source (P.publicKey recipient) timestamp title content fields).run buffers =
      (.ok n, buffers')) (scratch : LinkScratch) (hroom : n - 32 ≤ scratch.scratch.length) :
    ∃ view, (parseLink P recipient (buffers'.out.take n) (P.publicKey source)).eval scratch = .ok view ∧
      ReadBack source timestamp title content fields P buffers'.outMessageId view := by
  obtain ⟨payload, hb, -, hout, rfl, rfl⟩ := buildLinkOf_eq_ok.mp h
  have hwritten := hb.written source (P.publicKey recipient) hout
  refine ⟨viewFor P source (P.publicKey recipient) timestamp title content fields payload, ?_,
    readBack_viewFor hb (P.publicKey recipient)⟩
  obtain ⟨items, rfl⟩ := hwritten.marker
  rw [hwritten.take, packedFor, eval_parseLink (List.cons_ne_nil _ _), laws.deliveryHash_eq recipient,
    if_neg (by simp)]
  have hcarried : authenticate P recipient (P.publicKey source) (P.lxmfDeliveryHash source) _
      (0x94 :: (items ++ [])) scratch.scratch.length = _ :=
    authenticate_carried laws hb (by decide) [] (by omega)
  rwa [List.append_nil] at hcarried

theorem parseLink_nested : ∃ view,
    (parseLink Vectors.platform .recipient (Vectors.nested.written.out.take 133)
      (Vectors.platform.publicKey .source)).eval Vectors.linkScratch = .ok view ∧
    ReadBack .source Vectors.timestamp Vectors.title Vectors.content
      (.encoded [(0x0a, Vectors.nestedValue)]) Vectors.platform Vectors.nested.messageId view :=
  parseLink_buildLinkOf Vectors.platform_identity Vectors.buildLink_nested Vectors.linkScratch
    (by decide +kernel)

end LxmfLite.RoundTrip
