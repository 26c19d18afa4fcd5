import LxmfLite.CanonicalFields
import LxmfLite.Carriage
import LxmfLite.FieldLookup

namespace LxmfLite.Resending

open ByteString Execution SelfDelimiting MessagePack Pairing KeyedMap Message Primitives Laws Reader Skipping
  FieldReading FieldMaps Parse Decoding Authentication Inbound Writer Encoder Payload Framing Build Packing
  RoundTrip Admission FieldLookup CanonicalFields Carriage

section Parts

variable {enc header body payload : Bytes}

/-- What a fixstr header saves on the header that the encoder writes. -/
def spared (payload : Bytes) : Nat := if payload.length < 32 then 1 else 0

theorem spared_le (payload : Bytes) : spared payload ≤ 1 := by
  rw [spared]
  split <;> omega

theorem blob_countable (h : Blob enc payload) : payload.length ≤ 0xffffffff := by
  cases h with
  | fix hm hp => omega
  | @sized m k size _ hk hm hs hp =>
      have hlt := ofBe_lt size
      rw [hs, ← hp] at hlt
      interval_cases k <;> omega

/-- No other header is shorter than what the encoder writes, but for fixstr. -/
theorem binBytes_length_le (h : Blob enc payload) : (binBytes payload).length ≤ enc.length + spared payload := by
  have hsize := binSize_cases payload.length
  rw [binBytes_length]
  cases h with
  | fix hm hp =>
      rw [spared, if_pos hp, List.length_cons]
      omega
  | @sized m k size _ hk hm hs hp =>
      have hlt := ofBe_lt size
      rw [hs, ← hp] at hlt
      rw [List.length_cons, List.length_append, hs]
      interval_cases k <;> omega

theorem mapPrefix_length_le {count : Nat} (h : MapHeader header count) :
    (mapPrefix count).length ≤ header.length := by
  cases h with
  | fix hn hm =>
      rw [mapPrefix, if_pos hn]
      exact Nat.le_refl 1
  | @counted m k size hk hm hs =>
      have hpow : 2 ^ 1 ≤ 2 ^ (k + 1) := Nat.pow_le_pow_right (by omega) (by omega)
      rw [mapPrefix, List.length_cons, hs]
      split
      · exact Nat.le_add_left 1 _
      · exact Nat.succ_le_succ hpow

def pairOf (entry : EncodedField) : Int × Bytes := (entry.1.toNat, entry.2)

theorem entryBytes_length_le {entries : List EncodedField} {depth : Nat}
    (h : Entries 8 depth body (entries.map pairOf)) : (entries.flatMap entryBytes).length ≤ body.length := by
  induction entries generalizing body with
  | nil => exact Nat.zero_le _
  | cons entry entries ih =>
      generalize hp : (entry :: entries).map pairOf = pairs at h
      cases h with
      | nil => cases hp
      | cons hk hv hr =>
          obtain ⟨hentry, rfl⟩ := List.cons.inj hp
          cases hentry
          have hkey := (shortest_uintBytes.mpr rfl).2 _ hk
          have hrest := ih hr
          simp only [List.flatMap_cons, entryBytes, List.length_append] at hrest ⊢
          omega

theorem exists_entries {pairs : List (Int × Bytes)} (h : ∀ p ∈ pairs, ∃ id : UInt8, p.1 = id.toNat) :
    ∃ entries : List EncodedField, pairs = entries.map pairOf := by
  induction pairs with
  | nil => exact ⟨[], rfl⟩
  | cons p pairs ih =>
      obtain ⟨id, hid⟩ := h p List.mem_cons_self
      obtain ⟨entries, rfl⟩ := ih fun q hq => h q (List.mem_cons_of_mem p hq)
      exact ⟨(id, p.2) :: entries, by rw [List.map_cons, pairOf, ← hid]⟩

end Parts

section Fields

variable {fields other : Bytes} {pairs pairs' : List (Int × Bytes)}

theorem nodup_keys (h : FieldMap 0 fields pairs) : (keys pairs).Nodup := by
  obtain ⟨⟨-, -, hn⟩, -⟩ := h
  exact hn

theorem fieldValueId_perm (h : FieldMap 0 fields pairs) (h' : FieldMap 0 other pairs')
    (hp : pairs.Perm pairs') (key : FieldId) : fieldValueId fields key = fieldValueId other key := by
  apply OkOr.ext (okOr_fieldValueId _ _) (okOr_fieldValueId _ _)
  intro value
  rw [fieldValueId_eq h, fieldValueId_eq h', orFail_eq_ok, orFail_eq_ok,
    lookup_eq_some_iff_mem (nodup_keys h), lookup_eq_some_iff_mem (nodup_keys h'), hp.mem_iff]

theorem fieldValueId_pair (h : FieldMap 0 fields pairs) {p : Int × Bytes} (hp : p ∈ pairs) :
    ∃ key : FieldId, key.val = p.1 ∧ fieldValueId fields key = .ok p.2 := by
  obtain ⟨m, rfl, rfl⟩ := fieldMap_iff.mp h
  obtain ⟨q, hq, rfl⟩ := List.mem_map.mp hp
  exact ⟨⟨q.id, q.isKey.range.1, q.isKey.range.2⟩, rfl, (fieldValueId_mem m _ _).mpr ⟨q, hq, rfl, rfl⟩⟩

theorem fieldValueId_not_map (h : ¬IsMap fields) (key : FieldId) : fieldValueId fields key = fail () := by
  rcases okOr_fieldValueId fields key with ⟨value, hv⟩ | hf
  · obtain ⟨m, rfl, -⟩ := fieldValueId_eq_ok.mp hv
    obtain ⟨marker, tail, ht⟩ := List.exists_cons_of_ne_nil (MapHeader.ne_nil m.counted)
    have hm := m.counted
    rw [ht] at hm
    exact absurd ⟨marker, tail ++ bytesOf m.pairs, by rw [PairMap.bytes, ht, List.cons_append],
      MapHeader.marker hm⟩ h
  · exact hf

/-- The entries are read in the fields, and what the encoder writes for them is
no longer than the fields. -/
structure Respells (fields : Bytes) (entries : List EncodedField) : Prop where
  accepted : encodedFieldSet entries = .ok (idSet entries)
  length_le : (OuterFields.encoded entries).bytes.length ≤ fields.length
  found : ∀ key, fieldValueId (OuterFields.encoded entries).bytes key = fieldValueId fields key

theorem admission_encoded {entries : List EncodedField} {present : IdSet}
    (h : encodedFieldSet entries = .ok present) :
    admission (.encoded entries) = .ok (.encoded entries present) := by
  rw [admission, h]
  rfl

theorem respells_of_map {entries : List EncodedField} (hv : Value 8 0 fields)
    (h : FieldMap 0 fields (entries.map pairOf)) : Respells fields entries := by
  have hl := h.2
  rw [List.length_map] at hl
  have hn : (entries.map Prod.fst).Nodup := by
    have hkeys := nodup_keys h
    rw [keys, List.map_map] at hkeys
    have hmap : (entries.map Prod.fst).map (fun id : UInt8 => (id.toNat : Int)) =
        entries.map (Prod.fst ∘ pairOf) := by
      rw [List.map_map]
      rfl
    rw [← hmap] at hkeys
    exact hkeys.of_map
  have hset : encodedFieldSet entries = .ok (idSet entries) :=
    encodedFieldSet_eq_ok.mpr ⟨hl, hn, fun entry hm =>
      (h.1.value_iff.mp hv).2 _ (List.mem_map_of_mem hm), rfl⟩
  have hadmitted : Admitted 1 (.encoded entries) := admission_ok (admission_encoded hset) ⟨hl, hn⟩
  have hperm := ordered_perm hn
  refine ⟨hset, ?_, fun key => ?_⟩
  · obtain ⟨header, body, rfl, hh, he, -⟩ := fieldMap_header h
    have hheader := mapPrefix_length_le hh
    have hbody := entryBytes_length_le he
    rw [List.length_map] at hheader
    rw [OuterFields.bytes, OuterFields.entries, hperm.length_eq, List.length_append, List.length_append,
      (hperm.flatMap_right entryBytes).length_eq]
    exact Nat.add_le_add hheader hbody
  · exact fieldValueId_perm ((fieldMap_bytes hadmitted).shallower (Nat.zero_le 1)) h
      (hperm.map pairOf) key

theorem respells_nil (hv : Value 8 0 fields) (h : ¬IsMap fields) : Respells fields [] := by
  have hnodup : (([] : List EncodedField).map Prod.fst).Nodup := List.nodup_nil
  have hentries : (OuterFields.encoded []).entries = [] := (ordered_perm hnodup).eq_nil
  have hadmitted : Admitted 0 (.encoded []) := by
    refine ⟨?_, ?_, ?_⟩ <;> rw [hentries]
    · exact Nat.zero_le _
    · exact hnodup
    · exact fun _ hm => absurd hm List.not_mem_nil
  have hmap := fieldMap_bytes hadmitted
  rw [hentries, List.map_nil] at hmap
  refine ⟨rfl, ?_, fun key => ?_⟩
  · rw [OuterFields.bytes, hentries]
    exact hv.length_pos
  · rw [fieldValueId_not_map h, fieldValueId_eq hmap, List.lookup_nil, orFail_none]

theorem respelled_bytes {entries : List EncodedField} (h : FieldMap 0 fields (entries.map pairOf))
    (key : FieldId) (value : Bytes) (hv : fieldValueId fields key = .ok value) :
    ∃ id : UInt8, key = .ofU8 id := by
  rw [fieldValueId_eq h, orFail_eq_ok, lookup_eq_some_iff_mem (nodup_keys h)] at hv
  obtain ⟨entry, -, he⟩ := List.mem_map.mp hv
  exact ⟨entry.1, FieldId.ext (Prod.mk.inj he).1.symm⟩

theorem exists_respelled (hv : Value 8 0 fields) (hc : checkFields fields = .ok ())
    (hbytes : ∀ key value, fieldValueId fields key = .ok value → ∃ id : UInt8, key = .ofU8 id) :
    ∃ entries, Respells fields entries := by
  by_cases hmap : IsMap fields
  · obtain ⟨pairs, h⟩ := (checkFields_value hv).mp hc hmap
    obtain ⟨entries, rfl⟩ := exists_entries fun p hp => by
      obtain ⟨key, hk, hf⟩ := fieldValueId_pair h hp
      obtain ⟨id, rfl⟩ := hbytes key p.2 hf
      exact ⟨id, hk.symm⟩
    exact ⟨entries, respells_of_map hv h⟩
  · exact ⟨[], respells_nil hv hmap⟩

end Fields

section Messages

variable {LocalIdentity VerifyingKey : Type} {P : Platform LocalIdentity VerifyingKey}

/-- What parse_link accepts has its four elements, as the view tells them, in
the bytes behind the packed prefix. -/
theorem exists_framed {me : LocalIdentity} {data : Bytes} {sourcePublicKey : Block 64}
    {scratch : LinkScratch} {view : LxmfView}
    (h : (parseLink P me data sourcePublicKey).eval scratch = .ok view) :
    ∃ payload d, data.length = 96 + payload.length ∧ Framed payload d ∧
      checkFields d.fields = .ok () ∧ view.timestamp = d.timestamp ∧ view.title = d.title ∧
      view.content = d.content ∧ view.fields = d.fields := by
  obtain ⟨_, _, ha, -⟩ := parseLink_eq_ok.mp h
  obtain ⟨dest, source, signature, payload, rfl, hne⟩ := exists_packed ha.length
  rw [eval_parseLink hne] at h
  split at h
  · cases h
  obtain ⟨-, d, hf, hc, -, key, -, -, rfl⟩ := authenticate_eq_ok.mp h
  exact ⟨payload, d, packedOf_length, hf, hc, rfl, rfl, rfl, rfl⟩

/-- An accepted message whose field keys are bytes can be built again, from
what was read in it, by anybody and for anybody. The new message is at most two
bytes longer, the recipient reads the same in it, and finds the same fields
under every key. -/
theorem parseLink_resendable (laws : IdentityLaws P) {me : LocalIdentity} {data : Bytes}
    {sourcePublicKey : Block 64} {scratch : LinkScratch} {view : LxmfView}
    (h : (parseLink P me data sourcePublicKey).eval scratch = .ok view)
    (hbytes : ∀ key value, fieldValueId view.fields key = .ok value → ∃ id : UInt8, key = .ofU8 id)
    (hslice : data.length + 2 ≤ P.usizeMax) :
    ∃ entries n, packedLenWithFields P.usizeMax view.title.length view.content.length entries = .ok n ∧
      n ≤ data.length + spared view.title + spared view.content ∧
      ∀ (source recipient : LocalIdentity) (buffers : LinkBuffers), n ≤ buffers.out.length →
        n ≤ 32 + buffers.scratch.length → ∃ buffers',
          (buildLinkWithFields P source (P.publicKey recipient) view.timestamp view.title view.content
            entries).run buffers = (.ok n, buffers') ∧
          ∀ scratch' : LinkScratch, n ≤ 32 + scratch'.scratch.length → ∃ view',
            (parseLink P recipient (buffers'.out.take n) (P.publicKey source)).eval scratch' = .ok view' ∧
            view'.messageId = buffers'.outMessageId ∧ view'.sourceHash = P.lxmfDeliveryHash source ∧
            view'.timestamp = view.timestamp ∧ view'.title = view.title ∧ view'.content = view.content ∧
            ∀ key, fieldValueId view'.fields key = fieldValueId view.fields key := by
  obtain ⟨payload₀, d, hdata, hframed, hcheck, htimestamp, htitle, hcontent, hfields⟩ := exists_framed h
  rw [hfields] at hbytes
  rw [htimestamp, htitle, hcontent, hfields]
  have hlen := hframed.length_le
  obtain @⟨m, stamp, title, content, titleEnc, contentEnc, fields, rest, -, -, ht, hc, hv⟩ := hframed
  dsimp only at hbytes hlen hcheck ⊢
  obtain ⟨entries, hr⟩ := exists_respelled hv hcheck hbytes
  obtain ⟨hl, hn, -, -⟩ := encodedFieldSet_eq_ok.mp hr.accepted
  generalize hp : payloadBytes (F64.fromBeBytes stamp) title content (.encoded entries) = payload
  have hshort : 96 + payload.length ≤ data.length + spared title + spared content := by
    have htl := binBytes_length_le ht
    have hcl := binBytes_length_le hc
    have hfl := hr.length_le
    rw [← hp, payloadBytes_length]
    omega
  have hcountable : 96 + payload.length ≤ P.usizeMax := by
    have := spared_le title
    have := spared_le content
    omega
  have hb : Buildable P (F64.fromBeBytes stamp) title content (.encoded entries) payload :=
    ⟨⟨_, admission_encoded hr.accepted⟩, ⟨blob_countable ht, blob_countable hc, hl, hn⟩, hp.symm,
      Nat.le_trans (Nat.le_add_left _ _) hcountable⟩
  refine ⟨entries, 96 + payload.length, ?_, hshort, ?_⟩
  · rcases packedLenOf_run P (F64.fromBeBytes stamp) title content (.encoded entries) hp.symm with
      ⟨hsize, -⟩ | ⟨-, hno⟩
    · exact hsize
    · exact absurd ⟨hb, hcountable⟩ hno
  · intro source recipient buffers hout hscratch
    refine ⟨_, buildLinkOf_eq_ok.mpr ⟨payload, hb, by omega, hout, rfl, rfl⟩, fun scratch' hroom => ?_⟩
    have hcarries := Carries.of_written (hb.written source (P.publicKey recipient) hout)
    exact ⟨_, hcarries.parseLink laws hb scratch' (by omega), rfl, rfl, rfl, rfl, rfl, hr.found⟩

theorem parseLink_resendable_nested : ∃ view entries n buffers' view',
    (parseLink Vectors.platform .recipient Vectors.nested.packed (Vectors.platform.publicKey .source)).eval
      Vectors.linkScratch = .ok view ∧
    (buildLinkWithFields Vectors.platform .recipient (Vectors.platform.publicKey .source) view.timestamp
      view.title view.content entries).run Vectors.unwritten = (.ok n, buffers') ∧ n ≤ 135 ∧
    (parseLink Vectors.platform .source (buffers'.out.take n) (Vectors.platform.publicKey .recipient)).eval
      Vectors.linkScratch = .ok view' ∧
    view'.content = view.content ∧ ∀ key, fieldValueId view'.fields key = fieldValueId view.fields key := by
  let view : LxmfView := ⟨Vectors.nested.messageId, Vectors.Party.source.deliveryHash, Vectors.timestamp,
    Vectors.title, Vectors.content, (OuterFields.encoded [(0x0a, Vectors.nestedValue)]).bytes⟩
  have h : (parseLink Vectors.platform .recipient Vectors.nested.packed
      (Vectors.platform.publicKey .source)).eval Vectors.linkScratch = .ok view := by
    decide +kernel
  obtain ⟨payload, hb, -⟩ := buildLinkOf_eq_ok.mp Vectors.buildLink_nested
  have hmap := (fieldMap_bytes hb.fieldsAdmitted).shallower (Nat.zero_le 1)
  have hlen : Vectors.nested.packed.length = 133 := by decide +kernel
  obtain ⟨entries, n, -, hn, hresend⟩ := parseLink_resendable Vectors.platform_identity h
    (respelled_bytes hmap) (by rw [hlen]; decide +kernel)
  have htitle := spared_le view.title
  have hcontent := spared_le view.content
  rw [hlen] at hn
  have hout : Vectors.unwritten.out.length = 256 := by decide +kernel
  have hscratch : Vectors.unwritten.scratch.length = 256 := by decide +kernel
  have hroom : Vectors.linkScratch.scratch.length = 256 := by decide +kernel
  obtain ⟨buffers', hrun, hread⟩ := hresend .recipient .source Vectors.unwritten (by omega) (by omega)
  obtain ⟨view', hparse, -, -, -, -, hsame, hfound⟩ := hread Vectors.linkScratch (by omega)
  exact ⟨view, entries, n, buffers', view', h, hrun, by omega, hparse, hsame, hfound⟩

end Messages

end LxmfLite.Resending
