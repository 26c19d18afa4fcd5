import LxmfLite.Admission
import LxmfLite.Outbound
import LxmfLite.RoundTrip

namespace LxmfLite.CanonicalFields

open ByteString Execution SelfDelimiting MessagePack KeyedMap Message Primitives Reader Skipping FieldReading
  FieldMaps Writer Encoder Wire Payload Framing Build Packing Admission Outbound RoundTrip

variable {entries other : List EncodedField} {present : IdSet}

section Decode

variable {payload fields bs : Bytes} {pairs : List (Int × Bytes)} {pos count start : Nat}

def readPairs (fields : Bytes) : Nat → Nat → Result (List (Int × Bytes))
  | 0, _ => .ok []
  | count + 1, pos => do
      let (key, afterKey) ← okOr (readFieldId fields pos) .malformedPayload
      let last ← skipValue fields afterKey 0
      let value ← slice fields afterKey last
      let rest ← readPairs fields count last
      pure ((key.val, value) :: rest)

/-- The fields that begin at an index of a payload: skipped as one value and
validated, as the parsers do, then read. -/
def decodeFields (payload : Bytes) (start : Nat) (scratch : FieldScratch) :
    Result (List (Int × Bytes)) := do
  let last ← skipValue payload start 0
  let fields ← slice payload start last
  (validateFields fields).eval scratch
  let (pos, count) ← okOr (readMapHeader fields) .malformedPayload
  readPairs fields count pos

theorem readPairs_entries (he : Entries 8 0 bs pairs) (hp : bs <+: fields.drop pos)
    (hpos : pos + bs.length ≤ fields.length) : readPairs fields pairs.length pos = .ok pairs := by
  induction he generalizing pos with
  | nil => rfl
  | @cons key value rest n pairs hk hv _ ih =>
      rw [prefix_append_iff, prefix_append_iff] at hp
      obtain ⟨hkp, hvp, hrp⟩ := hp
      simp only [List.length_append] at hpos
      have hkey : readFieldId fields pos = .ok (⟨n, hk.range.1, hk.range.2⟩, pos + key.length) :=
        readFieldId_eq_ok.mpr ⟨key, hkp, hk, rfl⟩
      have hvalue : skipValue fields (pos + key.length) 0 = .ok (pos + key.length + value.length) :=
        skipValue_eq_ok.mpr ⟨value, hvp, hv, rfl⟩
      rw [List.length_cons, readPairs, okOr_eq_ok.mpr hkey, ok_bind]
      simp only [hvalue, ok_bind]
      rw [slice_eq (Nat.le_add_right _ _) (by omega), prefix_extract hvp, ok_bind,
        ih hrp (by omega), ok_bind, pure_eq_ok]

/-- Behind the header of a field map its entries are read. -/
theorem readPairs_fieldMap (h : FieldMap 0 fields pairs) (hm : readMapHeader fields = .ok (pos, count)) :
    readPairs fields count pos = .ok pairs := by
  obtain ⟨header, hp, hh, rfl⟩ := readMapHeader_eq_ok.mp hm
  obtain rfl := keyed_header_count h.1 hp hh
  obtain ⟨header', body, rfl, hh', he, -⟩ := fieldMap_header h
  obtain ⟨rest, hr⟩ := hp
  obtain ⟨-, rfl, rfl⟩ := MapHeader.rest_unique hh hh' hr
  have hdrop : (header ++ rest).drop header.length = rest := List.drop_left
  exact readPairs_entries he ⟨[], by rw [List.append_nil, hdrop]⟩ (by rw [List.length_append])

theorem decodeFields_fieldMap (hv : Value 8 0 fields) (h : FieldMap 0 fields pairs) (head : Bytes)
    (scratch : FieldScratch) : decodeFields (head ++ fields) head.length scratch = .ok pairs := by
  have hdrop : (head ++ fields).drop head.length = fields := List.drop_left
  have hskip : skipValue (head ++ fields) head.length 0 = .ok (head ++ fields).length :=
    (skipValue_whole _ _ _ (by rw [List.length_append]; omega)).mpr (by rw [hdrop]; exact hv)
  have hslice : (slice (head ++ fields) head.length (head ++ fields).length : Result Bytes) =
      .ok fields := by
    have hmiddle : (slice (head ++ (fields ++ [])) head.length (head.length + fields.length) :
        Result Bytes) = .ok fields := slice_middle rfl rfl
    rwa [List.append_nil, ← List.length_append] at hmiddle
  have hcheck : (validateFields fields).eval scratch = .ok () :=
    (run_validateFields scratch).trans (checkFields_eq_ok.mpr fun _ _ _ _ => ⟨pairs, h⟩)
  obtain ⟨header, body, hbody, hh, -, -⟩ := fieldMap_header h
  have hheader : readMapHeader fields = .ok (header.length, pairs.length) :=
    readMapHeader_eq_ok.mpr ⟨header, ⟨body, hbody.symm⟩, hh, rfl⟩
  rw [decodeFields, hskip, ok_bind, hslice, ok_bind, hcheck, ok_bind, okOr_eq_ok.mpr hheader, ok_bind]
  exact readPairs_fieldMap h hheader

theorem decodeFields_values {scratch : FieldScratch} (h : decodeFields payload start scratch = .ok pairs) :
    ∀ pair ∈ pairs, Value 8 1 pair.2 := by
  obtain ⟨last, hs, hskipped⟩ := bind_eq_ok.mp h
  obtain ⟨fields, hf, hsliced⟩ := bind_eq_ok.mp hskipped
  obtain ⟨_, hc, hchecked⟩ := bind_eq_ok.mp hsliced
  obtain ⟨⟨pos, count⟩, hm, hpairs⟩ := bind_eq_ok.mp hchecked
  obtain ⟨enc, hp, hv, rfl⟩ := skipValue_eq_ok.mp hs
  have hend := prefix_end_of_ne_nil hp (List.length_pos_iff.mp hv.length_pos)
  rw [slice_eq (Nat.le_add_right _ _) hend, prefix_extract hp] at hf
  cases hf
  obtain ⟨header, hhp, hh, -⟩ := readMapHeader_eq_ok.mp (okOr_eq_ok.mp hm)
  obtain ⟨found, hmap⟩ := checkFields_eq_ok.mp ((run_validateFields scratch).symm.trans hc) header count
    hhp hh
  have hread := readPairs_fieldMap hmap (okOr_eq_ok.mp hm)
  obtain rfl : found = pairs := Except.ok.inj (hread.symm.trans hpairs)
  exact (hmap.1.value_iff.mp hv).2

end Decode

section Emit

def collector : PayloadWriter Bytes Bytes where
  write bytes := do
    let kept ← Exec.get
    Exec.set (kept ++ bytes)
  fieldLen := List.length
  field bytes := do
    let kept ← Exec.get
    Exec.set (kept ++ bytes)

theorem replay_collector {steps : List (Step Bytes)} {bytes : Bytes} (h : wire steps = some bytes)
    (kept : Bytes) : (replay collector steps).run kept = (.ok (), kept ++ bytes) := by
  induction steps generalizing kept bytes with
  | nil =>
      cases h
      rw [List.append_nil]
      rfl
  | cons step steps ih =>
      cases step with
      | reject e => cases h
      | write first =>
          obtain ⟨rest, hr, rfl⟩ := Option.map_eq_some_iff.mp h
          rw [← List.append_assoc]
          exact ih hr (kept ++ first)
      | field first =>
          obtain ⟨rest, hr, rfl⟩ := Option.map_eq_some_iff.mp h
          rw [← List.append_assoc]
          exact ih hr (kept ++ first)

theorem pairwise_allIds : allIds.Pairwise (· < ·) := by
  rw [allIds, List.pairwise_map]
  apply List.pairwise_lt_range.imp_of_mem
  intro a b ha hb hlt
  rw [List.mem_range] at ha hb
  rw [UInt8.lt_iff_toNat_lt, toNat_ofNat_of_lt ha, toNat_ofNat_of_lt hb]
  exact hlt

theorem pairwise_filter {r : EncodedField → EncodedField → Prop} (h : (entries.map Prod.fst).Nodup)
    (id : UInt8) : (entries.filter (·.1 = id)).Pairwise r := by
  apply ((List.pairwise_map.mp h).filter _).imp_of_mem
  intro a b ha hb hne
  simp only [List.mem_filter, decide_eq_true_eq] at ha hb
  exact absurd (ha.2.trans hb.2.symm) hne

theorem pairwise_ordered (h : (entries.map Prod.fst).Nodup) :
    (ordered entries).Pairwise (fun a b => a.1 < b.1) := by
  rw [ordered, List.pairwise_flatMap]
  constructor
  · exact fun id _ => pairwise_filter h id
  · apply pairwise_allIds.imp
    intro a b hab x hx y hy
    simp only [List.mem_filter, decide_eq_true_eq] at hx hy
    rw [hx.2, hy.2]
    exact hab

/-- The map that is written for the entries, whatever it is written behind,
decodes to the entries in ascending order of their ids. -/
def Recovered (entries : List EncodedField) : Prop :=
  ∃ (map : Bytes) (sorted : List EncodedField),
    (∀ head, (writeFields collector (.encoded entries (idSet entries))).run head =
      (.ok (), head ++ map)) ∧
    sorted.Perm entries ∧ sorted.Pairwise (fun a b => a.1 < b.1) ∧
    ∀ head scratch, decodeFields (head ++ map) head.length scratch =
      .ok (sorted.map fun entry => ((entry.1.toNat : Int), entry.2))

/-- encoded_field_set accepts the lists whose map is read back as the list. -/
theorem admitted_iff : (∃ present, encodedFieldSet entries = .ok present) ↔
    entries.length ≤ maxFields ∧ (entries.map Prod.fst).Nodup ∧ Recovered entries := by
  constructor
  · rintro ⟨present, h⟩
    obtain ⟨hl, hn, -, -⟩ := encodedFieldSet_eq_ok.mp h
    have ha : admission (.encoded entries) = .ok (.encoded entries present) := by
      rw [admission, h]
      rfl
    have hadmitted : Admitted 1 (.encoded entries) := admission_ok ha ⟨hl, hn⟩
    have hmap := fieldMap_bytes hadmitted
    have hwire := wire_encoded hl hn (fun _ => contains_idSet _)
    refine ⟨hl, hn, (OuterFields.encoded entries).bytes, ordered entries, fun head => ?_,
      ordered_perm hn, pairwise_ordered hn, fun head scratch => ?_⟩
    · rw [writeFields_eq]
      exact replay_collector hwire head
    · exact decodeFields_fieldMap (value_bytes hadmitted (Nat.zero_le 8))
        (hmap.shallower (Nat.zero_le 1)) head scratch
  · rintro ⟨hl, hn, map, sorted, -, hperm, -, hdecode⟩
    refine ⟨_, encodedFieldSet_eq_ok.mpr ⟨hl, hn, ?_, rfl⟩⟩
    intro entry hm
    exact decodeFields_values (hdecode [] .new) _ (List.mem_map_of_mem (hperm.mem_iff.mpr hm))

end Emit

section SameWrites

def SameWrites (a b : PayloadFields Bytes) : Prop :=
  ∀ (σ : Type) (writer : PayloadWriter σ Bytes) timestamp title content,
    writePayload writer timestamp title content a = writePayload writer timestamp title content b

variable {LocalIdentity VerifyingKey : Type} {P : Platform LocalIdentity VerifyingKey}
  {a b : PayloadFields Bytes} {source : LocalIdentity} {recipientPublicKey : Block 64} {timestamp : F64}
  {title content : Bytes}

theorem SameWrites.packPayload (h : SameWrites a b) (usizeMax : Nat) (timestamp : F64)
    (title content : Bytes) : packPayload usizeMax timestamp title content a =
      packPayload usizeMax timestamp title content b := by
  funext out
  rw [Writer.packPayload, Writer.packPayload, h]

theorem SameWrites.buildLinkInner (h : SameWrites a b) :
    buildLinkInner P source recipientPublicKey timestamp title content a =
      buildLinkInner P source recipientPublicKey timestamp title content b := by
  rw [Build.buildLinkInner, Build.buildLinkInner, h.packPayload]

theorem SameWrites.buildPlaintext (h : SameWrites a b) :
    buildPlaintext P source recipientPublicKey timestamp title content a =
      buildPlaintext P source recipientPublicKey timestamp title content b := by
  rw [Build.buildPlaintext, Build.buildPlaintext, h.packPayload]

theorem SameWrites.buildOpportunisticInner (h : SameWrites a b) (ratchet : Option (Block 32))
    (ephemeralPriv : Block 32) (iv : Block 16) :
    buildOpportunisticInner P source recipientPublicKey ratchet timestamp title content a ephemeralPriv iv =
      buildOpportunisticInner P source recipientPublicKey ratchet timestamp title content b ephemeralPriv
        iv := by
  simp only [Build.buildOpportunisticInner, h.buildPlaintext]

theorem entrySteps_perm {Field : Type} (hp : entries.Perm other) (hn : (entries.map Prod.fst).Nodup) :
    (entrySteps entries (idSet entries) : UInt8 → List (Step Field)) = entrySteps other (idSet other) := by
  funext id
  have hfilter : entries.filter (·.1 = id) = other.filter (·.1 = id) :=
    (hp.filter _).eq_of_pairwise (fun _ _ _ _ h _ => h.elim) (pairwise_filter (r := fun _ _ => False) hn id)
      (pairwise_filter ((hp.map Prod.fst).nodup_iff.mp hn) id)
  rw [entrySteps, entrySteps, contains_idSet, contains_idSet, hfilter]
  simp only [(hp.map Prod.fst).mem_iff]

/-- The order of an accepted list does not matter. -/
theorem sameWrites_perm (hp : entries.Perm other) (h : encodedFieldSet entries = .ok present) :
    ∃ present', encodedFieldSet other = .ok present' ∧
      SameWrites (.encoded entries present) (.encoded other present') := by
  obtain ⟨hl, hn, hv, rfl⟩ := encodedFieldSet_eq_ok.mp h
  refine ⟨idSet other, encodedFieldSet_eq_ok.mpr ⟨hp.length_eq ▸ hl, (hp.map Prod.fst).nodup_iff.mp hn,
    fun entry hm => hv entry (hp.mem_iff.mpr hm), rfl⟩, ?_⟩
  intro σ writer timestamp title content
  rw [writePayload_eq, writePayload_eq, payloadSteps, payloadSteps, fieldsSteps, fieldsSteps,
    entrySteps_perm hp hn, hp.length_eq]

end SameWrites

section Audio

variable {enc bytes : Bytes} {n : UInt8}

theorem integer_byte (h : Integer enc n.toNat) : n.toNat ≤ 0x7f ∧ enc = [n] ∨ enc = [0xcc, n] ∨
    n.toNat ≤ 0x7f ∧ enc.length = 2 ∨ 3 ≤ enc.length := by
  have hn := toNat_lt n
  generalize hv : (n.toNat : Int) = v at h
  cases h with
  | @fix m hm =>
      obtain rfl : n = m := byte_ext (Int.ofNat_inj.mp hv)
      exact .inl ⟨hm, rfl⟩
  | @negative m hm =>
      have := toNat_lt m
      omega
  | @unsigned m k body hk hm hb =>
      obtain rfl | hk' : k = 0 ∨ 1 ≤ k := by omega
      · obtain ⟨b, rfl⟩ := List.length_eq_one_iff.mp hb
        rw [ofBe_singleton] at hv
        obtain rfl : n = b := byte_ext (Int.ofNat_inj.mp hv)
        obtain rfl : m = 0xcc := byte_ext hm
        exact .inr (.inl rfl)
      · have hpow : 2 ^ 1 ≤ 2 ^ k := Nat.pow_le_pow_right (by omega) hk'
        rw [List.length_cons, hb]
        omega
  | @signed m k body hk hm hb =>
      obtain rfl | hk' : k = 0 ∨ 1 ≤ k := by omega
      · obtain ⟨b, rfl⟩ := List.length_eq_one_iff.mp hb
        rw [ofBeSigned, ofBe_singleton, List.length_singleton] at hv
        have hlt := toNat_lt b
        refine .inr (.inr (.inl ⟨?_, rfl⟩))
        split at hv <;> omega
      · have hpow : 2 ^ 1 ≤ 2 ^ k := Nat.pow_le_pow_right (by omega) hk'
        rw [List.length_cons, hb]
        omega

theorem shortest_uintBytes : Shortest Integer enc n.toNat ↔ enc = uintBytes n := by
  apply shortest_iff (integer_uintBytes n)
  · intro other ho
    have hpos := List.length_pos_iff.mpr ho.ne_nil
    rw [uintBytes]
    split
    next hle => exact hpos
    next hgt =>
      have hgt' : ¬n.toNat ≤ 0x7f := hgt
      rcases integer_byte ho with ⟨hle, -⟩ | rfl | ⟨hle, -⟩ | hlong
      · exact absurd hle hgt'
      · exact Nat.le_refl 2
      · exact absurd hle hgt'
      · exact Nat.le_of_succ_le hlong
  · intro other ho hlen
    rw [uintBytes] at hlen ⊢
    split at hlen
    next hle =>
      rw [if_pos hle]
      rcases integer_byte ho with ⟨-, rfl⟩ | rfl | ⟨-, htwo⟩ | hlong
      · rfl
      · exact absurd hlen (by simp)
      · exact absurd (htwo ▸ hlen) (by simp)
      · exact absurd (Nat.le_trans hlong hlen) (by simp)
    next hgt =>
      have hgt' : ¬n.toNat ≤ 0x7f := hgt
      rw [if_neg hgt]
      rcases integer_byte ho with ⟨hle, -⟩ | rfl | ⟨hle, -⟩ | hlong
      · exact absurd hle hgt'
      · rfl
      · exact absurd hle hgt'
      · exact absurd (Nat.le_trans hlong hlen) (by simp)

theorem binary_iff {payload : Bytes} : Binary enc payload ↔
    ∃ k < 3, payload.length < 256 ^ 2 ^ k ∧
      enc = UInt8.ofNat (0xc4 + k) :: (toBe (2 ^ k) payload.length ++ payload) := by
  constructor
  · rintro ⟨hk, hm, hs, hp⟩
    rename_i m k size
    have hlt := ofBe_lt size
    have hback := toBe_ofBe size
    rw [hs, ← hp] at hlt hback
    have hmarker : m = UInt8.ofNat (0xc4 + k) :=
      byte_ext (by rw [hm, toNat_ofNat_of_lt (by omega)])
    exact ⟨k, hk, hlt, by rw [hback, hmarker]⟩
  · rintro ⟨k, hk, hlt, rfl⟩
    exact .mk hk (toNat_ofNat_of_lt (by omega)) (toBe_length _ _) (ofBe_toBe_of_lt hlt).symm

theorem binSize_cases (n : Nat) : n ≤ 0xff ∧ binSize n = 2 + n ∨
    (0xff < n ∧ n ≤ 0xffff) ∧ binSize n = 3 + n ∨ 0xffff < n ∧ binSize n = 5 + n := by
  rw [binSize]
  split
  case isTrue h => exact .inl ⟨h, rfl⟩
  case isFalse h =>
    split
    case isTrue h' => exact .inr (.inl ⟨⟨by omega, h'⟩, rfl⟩)
    case isFalse h' => exact .inr (.inr ⟨by omega, rfl⟩)

theorem shortest_binBytes {payload : Bytes} (hl : payload.length ≤ 0xffffffff) :
    Shortest Binary enc payload ↔ enc = binBytes payload := by
  have hsize := binSize_cases payload.length
  apply shortest_iff
  · obtain ⟨m, hm, hrange⟩ := binBytes_head payload
    obtain ⟨tail, htail⟩ : ∃ tail, binBytes payload = m :: tail := by
      cases henc : binBytes payload with
      | nil => exact absurd (henc ▸ hm) (by simp)
      | cons first tail =>
          rw [henc, List.getElem?_cons_zero, Option.some.injEq] at hm
          exact ⟨tail, by rw [hm]⟩
    have hblob := blob_binBytes hl
    rw [htail] at hblob ⊢
    exact hblob.binary hrange
  · intro other ho
    obtain ⟨k, hk, hlt, rfl⟩ := binary_iff.mp ho
    rw [binBytes_length, List.length_cons, List.length_append, toBe_length]
    interval_cases k <;> omega
  · intro other ho hlen
    obtain ⟨k, hk, hlt, rfl⟩ := binary_iff.mp ho
    rw [binBytes_length, List.length_cons, List.length_append, toBe_length] at hlen
    rw [binBytes, binPrefix]
    interval_cases k
    · rw [if_pos (by omega)]
      rfl
    · rw [if_neg (by omega), if_pos (by omega)]
      rfl
    · rw [if_neg (by omega), if_neg (by omega)]
      rfl

end Audio

section Builders

variable {LocalIdentity VerifyingKey : Type} {P : Platform LocalIdentity VerifyingKey}
  {source : LocalIdentity} {recipientPublicKey : Block 64} {timestamp : F64} {title content : Bytes}

theorem ordered_singleton (entry : EncodedField) : ordered [entry] = [entry] :=
  List.perm_singleton.mp (ordered_perm (List.nodup_singleton _))

theorem buildable_audio {mode : UInt8} {bytes payload : Bytes} (hb : bytes.length ≤ 0xffffffff) :
    Buildable P timestamp title content (.audio ⟨mode, bytes⟩) payload ↔
      Buildable P timestamp title content
        (.encoded [(fieldAudio, 0x92 :: (uintBytes mode ++ binBytes bytes))]) payload := by
  have hone : 1 ≤ maxFields := by decide
  have hvalue : ∀ entry ∈ [(fieldAudio, 0x92 :: (uintBytes mode ++ binBytes bytes))],
      Value 8 1 entry.2 := by
    intro entry hm
    obtain rfl := List.mem_singleton.mp hm
    exact value_audio hb (by omega)
  have hset : encodedFieldSet [(fieldAudio, 0x92 :: (uintBytes mode ++ binBytes bytes))] = .ok _ :=
    encodedFieldSet_eq_ok.mpr ⟨hone, List.nodup_singleton _, hvalue, rfl⟩
  have hpayload : payloadBytes timestamp title content (.audio ⟨mode, bytes⟩) =
      payloadBytes timestamp title content
        (.encoded [(fieldAudio, 0x92 :: (uintBytes mode ++ binBytes bytes))]) := by
    simp only [payloadBytes, OuterFields.bytes, OuterFields.entries, ordered_singleton]
  constructor
  · rintro ⟨-, he, hp, hmax⟩
    exact ⟨⟨_, by rw [admission, hset]; rfl⟩, ⟨he.1, he.2.1, hone, List.nodup_singleton _⟩,
      hp.trans hpayload, hmax⟩
  · rintro ⟨-, he, hp, hmax⟩
    exact ⟨⟨_, rfl⟩, ⟨he.1, he.2.1, hb⟩, hp.trans hpayload.symm, hmax⟩

theorem buildLinkWithAudio_iff {mode : UInt8} {bytes modeEnc binEnc : Bytes}
    (hm : Shortest Integer modeEnc mode.toNat) (hb : Shortest Binary binEnc bytes)
    {buffers buffers' : LinkBuffers} {n : Nat} :
    (buildLinkWithAudio P source recipientPublicKey timestamp title content ⟨mode, bytes⟩).run buffers =
        (.ok n, buffers') ↔
      (buildLinkWithFields P source recipientPublicKey timestamp title content
        [(fieldAudio, 0x92 :: (modeEnc ++ binEnc))]).run buffers = (.ok n, buffers') := by
  obtain ⟨k, hk, hlt, -⟩ := binary_iff.mp hb.1
  have hl : bytes.length ≤ 0xffffffff := by
    interval_cases k <;> omega
  obtain rfl := shortest_uintBytes.mp hm
  obtain rfl := (shortest_binBytes hl).mp hb
  have haudio : (buildLinkOf P source recipientPublicKey timestamp title content
      (.audio ⟨mode, bytes⟩)).run buffers = (.ok n, buffers') ↔ _ := buildLinkOf_eq_ok
  simp only [buildable_audio hl] at haudio
  exact haudio.trans buildLinkOf_eq_ok.symm

/-- The fields map is canonical: what is accepted is what can be read back, and
a message has one encoding of its fields. -/
theorem field_encoding_canonical (P : Platform LocalIdentity VerifyingKey) (source : LocalIdentity)
    (recipientPublicKey : Block 64) (timestamp : F64) (title content : Bytes) :
    (∀ entries, (∃ present, encodedFieldSet entries = .ok present) ↔
      entries.length ≤ maxFields ∧ (entries.map Prod.fst).Nodup ∧ Recovered entries) ∧
    (∀ entries present, encodedFieldSet entries = .ok present → present = idSet entries ∧
      ∀ other, entries.Perm other →
        (∃ present', encodedFieldSet other = .ok present' ∧
          SameWrites (.encoded entries present) (.encoded other present')) ∧
        buildLinkWithFields P source recipientPublicKey timestamp title content entries =
          buildLinkWithFields P source recipientPublicKey timestamp title content other ∧
        ∀ ratchet ephemeralPriv iv, buildOpportunisticRatchetWithFields P source recipientPublicKey
          ratchet timestamp title content entries ephemeralPriv iv =
            buildOpportunisticRatchetWithFields P source recipientPublicKey ratchet timestamp title
              content other ephemeralPriv iv) ∧
    (encodedFieldSet [] = .ok .empty ∧ SameWrites (.encoded [] .empty) .empty ∧
      buildLinkWithFields P source recipientPublicKey timestamp title content [] =
        buildLink P source recipientPublicKey timestamp title content) ∧
    ∀ mode bytes modeEnc binEnc, Shortest Integer modeEnc (UInt8.toNat mode) →
      Shortest Binary binEnc bytes → ∀ buffers n buffers',
        (buildLinkWithAudio P source recipientPublicKey timestamp title content ⟨mode, bytes⟩).run buffers =
            (.ok n, buffers') ↔
          (buildLinkWithFields P source recipientPublicKey timestamp title content
            [(fieldAudio, 0x92 :: (modeEnc ++ binEnc))]).run buffers = (.ok n, buffers') := by
  have hnil : SameWrites (.encoded [] .empty) .empty := fun _ => writePayload_nil
  have hempty : encodedFieldSet [] = .ok .empty := rfl
  refine ⟨fun entries => admitted_iff, ?_, ⟨hempty, hnil, ?_⟩,
    fun mode bytes modeEnc binEnc hm hb buffers n buffers' => buildLinkWithAudio_iff hm hb⟩
  · intro entries present h
    refine ⟨(encodedFieldSet_eq_ok.mp h).2.2.2, fun other hp => ?_⟩
    obtain ⟨present', h', hsame⟩ := sameWrites_perm hp h
    refine ⟨⟨present', h', hsame⟩, ?_, fun ratchet ephemeralPriv iv => ?_⟩
    · rw [buildLinkWithFields, buildLinkWithFields, h, h']
      exact hsame.buildLinkInner
    · rw [buildOpportunisticRatchetWithFields, buildOpportunisticRatchetWithFields, h, h']
      exact hsame.buildOpportunisticInner ratchet ephemeralPriv iv
  · rw [buildLinkWithFields, hempty, buildLink]
    exact hnil.buildLinkInner

theorem field_encoding_two : Recovered [(200, [0x01]), (7, [0xc0])] ∧
    buildLinkWithFields Vectors.platform .source (Vectors.platform.publicKey .recipient) Vectors.timestamp
        Vectors.title Vectors.content [(200, [0x01]), (7, [0xc0])] =
      buildLinkWithFields Vectors.platform .source (Vectors.platform.publicKey .recipient)
        Vectors.timestamp Vectors.title Vectors.content [(7, [0xc0]), (200, [0x01])] ∧
    ∀ buffers n buffers',
      (buildLinkWithAudio Vectors.platform .source (Vectors.platform.publicKey .recipient)
          Vectors.timestamp Vectors.title Vectors.content ⟨200, [0x05]⟩).run buffers = (.ok n, buffers') ↔
        (buildLinkWithFields Vectors.platform .source (Vectors.platform.publicKey .recipient)
          Vectors.timestamp Vectors.title Vectors.content
            [(fieldAudio, [0x92, 0xcc, 200, 0xc4, 0x01, 0x05])]).run buffers = (.ok n, buffers') := by
  obtain ⟨haccept, hperm, -, haudio⟩ := field_encoding_canonical Vectors.platform .source
    (Vectors.platform.publicKey .recipient) Vectors.timestamp Vectors.title Vectors.content
  have hset : encodedFieldSet [(200, [0x01]), (7, [0xc0])] = .ok (idSet [(200, [0x01]), (7, [0xc0])]) := by
    decide +kernel
  exact ⟨((haccept _).mp ⟨_, hset⟩).2.2, ((hperm _ _ hset).2 _ (List.Perm.swap _ _ [])).2.1,
    haudio 200 [0x05] [0xcc, 200] [0xc4, 0x01, 0x05] (shortest_uintBytes.mpr rfl)
      ((shortest_binBytes (by decide)).mpr rfl)⟩

end Builders

end LxmfLite.CanonicalFields
