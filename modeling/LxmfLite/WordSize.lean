import LxmfLite.Totality
import LxmfLite.WordReader

namespace LxmfLite.WordSize

open ByteString Execution SelfDelimiting MessagePack Message Reader Skipping FieldReading FieldMaps
  Contracts Bounds SchemaMaps Totality Parse Replies Arrays Word

variable {w : Nat} {data : Bytes}

/-- Words of at least 32 bits, and bytes that a signed one could index. -/
structure Fits (w : Nat) (data : Bytes) : Prop where
  width : 32 ≤ w
  length : data.length < 2 ^ 31

theorem Fits.two_pow_le (h : Fits w data) : 2 ^ 32 ≤ 2 ^ w := Nat.pow_le_pow_right (by omega) h.width

/-- There is as much room behind the bytes as they can take themselves. -/
theorem Fits.lt (h : Fits w data) {n : Nat} (hn : n ≤ data.length + 2 ^ 31) : n < 2 ^ w := by
  have hpow := h.two_pow_le
  have hlen := h.length
  omega

section Values

theorem body_eq (h : Fits w data) (start n : Nat) :
    WordReader.body w data start n = body data start n := by
  rw [WordReader.body, checkedAdd_filter (h.lt (Nat.le_add_right _ _)), body]
  split <;> rfl

theorem lenAt_eq (h : Fits w data) (start : Nat) {nb : Nat} (hnb : nb ≤ 4) :
    WordReader.lenAt w data start nb = lenAt data start nb := by
  have hpow := h.two_pow_le
  have hwidth := h.width
  rw [WordReader.lenAt, checkedAdd_filter (h.lt (Nat.le_add_right _ _)), lenAt, rejectIf_bind]
  by_cases hin : start + nb ≤ data.length
  · rw [if_pos hin, if_neg (by omega), orFail_some, ok_bind, slice_eq (Nat.le_add_right _ _) hin,
      ok_bind, ok_bind, shiftIn_eq (by omega)]
    · rfl
    · rw [extract_length hin, Nat.add_sub_cancel_left, Nat.zero_add, Nat.one_mul]
      calc 256 ^ nb ≤ 256 ^ 4 := Nat.pow_le_pow_right (by omega) hnb
        _ ≤ 2 ^ w := hpow
  · rw [if_neg hin, if_pos (by omega)]
    rfl

/-- More values than bytes cannot follow one another. -/
theorem skipN_overrun {skip : Nat → Result Nat} (hm : ∀ pos, Malformed (skip pos))
    (hs : ∀ pos, Ensures (skip pos) (Past data pos)) {count pos : Nat}
    (h : data.length < pos + count) : count ≠ 0 → skipN skip count pos = fail .malformedPayload := by
  induction count generalizing pos with
  | zero => exact fun h => absurd rfl h
  | succ count ih =>
      intro _
      rcases hm pos with ⟨e, he⟩ | hf
      · have hpast := (hs pos).of_eq_ok he
        rw [skipN, he, ok_bind]
        refine ih ?_ ?_
        · have hlt := hpast.1
          omega
        · have hle := hpast.2
          have hlt := hpast.1
          omega
      · rw [skipN, hf]
        rfl

/-- Twice a count leaves the word only where the values could not follow. -/
theorem kv_bind (h : Fits w data) {skip : Nat → Result Nat} (hm : ∀ pos, Malformed (skip pos))
    (hs : ∀ pos, Ensures (skip pos) (Past data pos)) (n start : Nat) :
    (WordReader.kv w n >>= fun n => skipN skip n start) = skipN skip (n * 2) start := by
  by_cases hn : n * 2 < 2 ^ w
  · rw [WordReader.kv, checkedMul_eq hn, orFail_some, ok_bind]
  · have hpow := h.two_pow_le
    have hlen := h.length
    rw [WordReader.kv, checkedMul_none (Nat.le_of_not_lt hn), orFail_none, fail_bind,
      skipN_overrun hm hs (by omega) (by omega)]

theorem skipMarker_eq (h : Fits w data) {skip : Nat → Result Nat} (hm : ∀ pos, Malformed (skip pos))
    (hs : ∀ pos, Ensures (skip pos) (Past data pos)) {b p : Nat} (hp : p ≤ data.length) :
    WordReader.skipMarker w data skip b p = skipMarker data skip b p := by
  have hadd {k : Nat} (hk : k ≤ 4) : (add w p k : Result Nat) = .ok (p + k) := add_eq (h.lt (by omega))
  have hmul : (mul w 2 (b &&& 0x0f) : Result Nat) = .ok (2 * (b &&& 0x0f)) := by
    apply mul_eq
    rw [and_fifteen]
    exact h.lt (by omega)
  have hone : 1 ≤ 4 := by omega
  have htwo : 2 ≤ 4 := by omega
  simp only [WordReader.skipMarker, skipMarker, body_eq h, lenAt_eq h p hone, lenAt_eq h p htwo,
    lenAt_eq h p (Nat.le_refl 4), hadd hone, hadd htwo, hadd (Nat.le_refl 4), ok_bind, hmul,
    kv_bind h hm hs]
  rfl

theorem skipLevels_succ (data : Bytes) (levels pos : Nat) : skipLevels data (levels + 1) pos = (do
    rejectIf (pos ≥ data.length) .malformedPayload
    let marker ← index data pos
    skipMarker data (skipLevels data levels) marker.toNat (pos + 1)) := by
  rw [← funext (skipLevelsIn_eq levels 1)]
  rfl

theorem skipLevels_eq (h : Fits w data) (levels pos : Nat) :
    WordReader.skipLevels w data levels pos = skipLevels data levels pos := by
  induction levels generalizing pos with
  | zero => rfl
  | succ levels ih =>
      rw [WordReader.skipLevels, skipLevels_succ, rejectIf_bind, rejectIf_bind]
      by_cases hpos : pos ≥ data.length
      · rw [if_pos hpos, if_pos hpos]
      · rw [if_neg hpos, if_neg hpos, index_of_lt (Nat.lt_of_not_le hpos), ok_bind, ok_bind,
          add_eq (h.lt (by omega)), ok_bind, funext ih,
          skipMarker_eq h (malformed_skipLevels levels) (ensures_skipLevels data levels) (by omega)]

theorem skipValue_eq (h : Fits w data) (pos depth : Nat) :
    WordReader.skipValue w data pos depth = skipValue data pos depth := by
  rw [WordReader.skipValue, skipLevels_eq h, skipValue_levels]

theorem ofBe_extract_lt (data : Bytes) (pos : Nat) {n : Nat} (hn : n ≤ 4) :
    ofBe (data.extract pos (pos + n)) < 2 ^ 32 := by
  have hlen : (data.extract pos (pos + n)).length ≤ 4 := by
    rw [List.extract_eq_take_drop, List.length_take]
    omega
  calc ofBe (data.extract pos (pos + n)) < 256 ^ (data.extract pos (pos + n)).length := ofBe_lt _
    _ ≤ 256 ^ 4 := Nat.pow_le_pow_right (by omega) hlen

theorem fromBeBytes_truncate {ε : Type} (h : Fits w data) {pos n : Nat} (hn : n ≤ 4)
    (hin : pos + n ≤ data.length) :
    (fromBeBytes data pos n >>= fun number => pure (truncate w number) : Outcome ε Nat) =
      fromBeBytes data pos n := by
  have hpow := h.two_pow_le
  have hlt := ofBe_extract_lt data pos hn
  rw [fromBeBytes_eq hin, ok_bind, truncate_eq (by omega)]
  rfl

theorem binArm_eq (h : Fits w data) {pos n : Nat} (hn : n ≤ 4) (hpos : pos < data.length) :
    WordReader.binArm w data pos n = if pos + (n + 1) ≤ data.length then
      fromBeBytes data (pos + 1) n >>= fun len => pure (n + 1, len) else fail .malformedPayload := by
  rw [WordReader.binArm, add_eq (h.lt (by omega)), ok_bind, rejectIf_bind]
  by_cases hin : pos + (n + 1) ≤ data.length
  · rw [if_neg (not_not_intro hin), if_pos hin, WordReader.numberBehind, add_eq (h.lt (by omega)), ok_bind,
      add_eq (h.lt (by omega)), ok_bind, fromBeBytes_truncate h hn (by omega)]
  · rw [if_pos hin, if_neg hin]

theorem binHeader_eq (h : Fits w data) {pos : Nat} (hpos : pos < data.length) (b : Nat) :
    WordReader.binHeader w data pos b = binHeader data pos b := by
  rw [WordReader.binHeader, binHeader]
  by_cases h1 : b = 0xc4 ∨ b = 0xd9
  · rw [if_pos h1, binArm_eq h (by omega) hpos]
    by_cases hin : pos + 2 ≤ data.length
    · rw [if_pos hin, if_pos ⟨h1, hin⟩]
    · rw [if_neg hin, if_neg (fun hc => hin hc.2), if_neg (by omega), if_neg (by omega), if_neg (by omega)]
  have hno1 : ¬((b = 0xc4 ∨ b = 0xd9) ∧ pos + 2 ≤ data.length) := fun hc => h1 hc.1
  rw [if_neg h1, if_neg hno1]
  by_cases h2 : b = 0xc5 ∨ b = 0xda
  · rw [if_pos h2, binArm_eq h (by omega) hpos]
    by_cases hin : pos + 3 ≤ data.length
    · rw [if_pos hin, if_pos ⟨h2, hin⟩]
    · rw [if_neg hin, if_neg (fun hc => hin hc.2), if_neg (by omega), if_neg (by omega)]
  have hno2 : ¬((b = 0xc5 ∨ b = 0xda) ∧ pos + 3 ≤ data.length) := fun hc => h2 hc.1
  rw [if_neg h2, if_neg hno2]
  by_cases h4 : b = 0xc6 ∨ b = 0xdb
  · rw [if_pos h4, binArm_eq h (by omega) hpos]
    by_cases hin : pos + 5 ≤ data.length
    · rw [if_pos hin, if_pos ⟨h4, hin⟩]
    · rw [if_neg hin, if_neg (fun hc => hin hc.2), if_neg (by omega)]
  have hno4 : ¬((b = 0xc6 ∨ b = 0xdb) ∧ pos + 5 ≤ data.length) := fun hc => h4 hc.1
  rw [if_neg h4, if_neg hno4]

/-- The header of a bin lies inside the bytes, but for the one byte that a
short str may lack. -/
theorem binHeader_le {pos b hdr len : Nat} (hpos : pos < data.length)
    (hb : binHeader data pos b = .ok (hdr, len)) : pos + hdr ≤ data.length := by
  have harm {n k : Nat} (hin : pos + k ≤ data.length)
      (hb : (fromBeBytes data (pos + 1) n >>= fun len => pure (k, len) : Result (Nat × Nat)) =
        .ok (hdr, len)) : pos + hdr ≤ data.length := by
    obtain ⟨len', -, hp⟩ := bind_eq_ok.mp hb
    cases hp
    exact hin
  rw [binHeader] at hb
  split at hb
  next hc => exact harm hc.2 hb
  split at hb
  next hc => exact harm hc.2 hb
  split at hb
  next hc => exact harm hc.2 hb
  split at hb
  · cases hb
    omega
  · exact absurd hb (fail_ne_ok _ _)

theorem readBin_eq (h : Fits w data) (pos : Nat) : WordReader.readBin w data pos = readBin data pos := by
  rw [WordReader.readBin, readBin, rejectIf_bind, rejectIf_bind]
  by_cases hpos : pos ≥ data.length
  · rw [if_pos hpos, if_pos hpos]
  have hlt := Nat.lt_of_not_le hpos
  rw [if_neg hpos, if_neg hpos, index_of_lt hlt, ok_bind, ok_bind, binHeader_eq h hlt]
  rcases hb : binHeader data pos data[pos].toNat with e | ⟨hdr, len⟩
  · rfl
  · have hle := binHeader_le hlt hb
    rw [ok_bind, ok_bind]
    simp only [rejectIf_bind]
    rw [add_eq (h.lt (by omega)), ok_bind, checkedAdd_filter (h.lt (Nat.le_add_right _ _))]
    by_cases hin : pos + hdr + len ≤ data.length
    · rw [if_pos hin, if_neg (by omega), orFail_some, ok_bind]
    · rw [if_neg hin, if_pos (by omega)]
      rfl

theorem readMapHeader_eq (h : Fits w data) : WordReader.readMapHeader w data = readMapHeader data := by
  rw [WordReader.readMapHeader, readMapHeader]
  apply bind_congr
  intro marker
  rw [WordReader.mapHeader, mapHeader]
  apply ite_congr rfl (fun _ => rfl)
  intro _
  have harm {n k : Nat} (hn : n ≤ 4) (hin : 1 + n ≤ data.length) :
      (fromBeBytes data 1 n >>= fun count => pure (k, truncate w count) : Maybe (Nat × Nat)) =
        fromBeBytes data 1 n >>= fun count => pure (k, count) := by
    conv_rhs => rw [← fromBeBytes_truncate h hn hin]
    rw [bind_assoc]
    rfl
  apply ite_congr rfl (fun hc => harm (by omega) (by omega))
  intro _
  exact ite_congr rfl (fun hc => harm (by omega) (by omega)) (fun _ => rfl)

theorem fieldIdWidth_le {b width : Nat} {signed : Bool} (h : fieldIdWidth b = some (width, signed)) :
    width ≤ 8 := by
  rw [fieldIdWidth] at h
  repeat' split at h
  all_goals cases h
  all_goals omega

theorem readFieldId_eq (h : Fits w data) (pos : Nat) :
    WordReader.readFieldId w data pos = readFieldId data pos := by
  rw [WordReader.readFieldId, readFieldId]
  cases hm : data[pos]? with
  | none => rfl
  | some marker =>
      have hpos := (List.getElem?_eq_some_iff.mp hm).1
      rw [orFail_some, ok_bind, ok_bind, add_eq (h.lt (by omega)), ok_bind, ok_bind]
      apply ite_congr rfl (fun _ => rfl)
      intro _
      apply ite_congr rfl (fun _ => rfl)
      intro _
      rcases hw : fieldIdWidth marker.toNat with _ | ⟨width, signed⟩
      · rfl
      · have hwidth := fieldIdWidth_le hw
        rw [orFail_some, ok_bind, ok_bind, checkedAdd_eq (h.lt (by omega)), orFail_some]
        simp only [ok_bind]
        rw [checkedAdd_eq (h.lt (by omega)), orFail_some]
        rfl

end Values

section Fields

variable {fields : Bytes} (h : Fits w fields)
include h

theorem validateEntries_eq (count position pos : Nat) :
    WordReader.validateEntries w fields count position pos = validateEntries fields count position pos := by
  induction count generalizing position pos with
  | zero => rfl
  | succ count ih =>
      simp only [WordReader.validateEntries, validateEntries, readFieldId_eq h, skipValue_eq h, ih]

theorem validateFields_eq : WordReader.validateFields w fields = validateFields fields := by
  rw [WordReader.validateFields, validateFields, readMapHeader_eq h]
  rcases readMapHeader fields with (_ | _) | ⟨pos, count⟩
  · rfl
  · rfl
  · simp only [validateEntries_eq h]

theorem priorEntries_eq (key : FieldId) (count prior : Nat) :
    WordReader.priorEntries w fields key count prior = priorEntries fields key count prior := by
  induction count generalizing prior with
  | zero => rfl
  | succ count ih =>
      simp only [WordReader.priorEntries, priorEntries_succ, readFieldId_eq h, skipValue_eq h, ih]

theorem entriesWithoutScratch_eq (first count position pos : Nat) :
    WordReader.entriesWithoutScratch w fields first count position pos =
      entriesWithoutScratch fields first count position pos := by
  induction count generalizing position pos with
  | zero => rfl
  | succ count ih =>
      simp only [WordReader.entriesWithoutScratch, entriesWithoutScratch_succ, readFieldId_eq h,
        skipValue_eq h, priorEntries_eq h, ih]

theorem validateFieldsWithoutScratch_eq :
    WordReader.validateFieldsWithoutScratch w fields = validateFieldsWithoutScratch fields := by
  simp only [WordReader.validateFieldsWithoutScratch, validateFieldsWithoutScratch_def, readMapHeader_eq h,
    entriesWithoutScratch_eq h]

theorem lookupEntries_eq (key : FieldId) (count pos : Nat) :
    WordReader.lookupEntries w fields key count pos = lookupEntries fields key count pos := by
  induction count generalizing pos with
  | zero => rfl
  | succ count ih =>
      simp only [WordReader.lookupEntries, lookupEntries_succ, readFieldId_eq h, skipValue_eq h, ih]

theorem fieldValueId_eq (key : FieldId) :
    WordReader.fieldValueId w fields key = fieldValueId fields key := by
  simp only [WordReader.fieldValueId, fieldValueId_def, validateFieldsWithoutScratch_eq h,
    readMapHeader_eq h, lookupEntries_eq h]

end Fields

section Schema

variable {map : Bytes} (h : Fits w map) (isUtf8 : Bytes → Bool)
include h

theorem readSchemaKey_eq (pos : Nat) :
    WordReader.readSchemaKey w isUtf8 map pos = readSchemaKey isUtf8 map pos := by
  simp only [WordReader.readSchemaKey, readSchemaKey, readBin_eq h, readFieldId_eq h]

theorem priorSchemaKeys_eq (current : SchemaKey) (count prior : Nat) :
    WordReader.priorSchemaKeys w isUtf8 map current count prior =
      priorSchemaKeys isUtf8 map current count prior := by
  induction count generalizing prior with
  | zero => rfl
  | succ count ih =>
      simp only [WordReader.priorSchemaKeys, priorSchemaKeys, readSchemaKey_eq h, skipValue_eq h, ih]

theorem schemaEntries_eq (wanted : Bytes) (first count position pos : Nat) (found : Option Bytes) :
    WordReader.schemaEntries w isUtf8 map wanted first count position pos found =
      schemaEntries isUtf8 map wanted first count position pos found := by
  induction count generalizing position pos found with
  | zero => rfl
  | succ count ih =>
      simp only [WordReader.schemaEntries, schemaEntries, readSchemaKey_eq h, skipValue_eq h,
        priorSchemaKeys_eq h, ih]

theorem mapBytesValue_eq (key : Bytes) :
    WordReader.mapBytesValue w isUtf8 map key = mapBytesValue isUtf8 map key := by
  simp only [WordReader.mapBytesValue, mapBytesValue, readMapHeader_eq h, schemaEntries_eq h]

end Schema

section Items

theorem arrayHeader_eq (h : Fits w data) (b : Nat) :
    WordReader.arrayHeader w data b = arrayHeader data b := by
  have hpow := h.two_pow_le
  have hcount {n : Nat} (hn : n ≤ 4) (count : Block n) : truncate w (ofBe count.val) = ofBe count.val := by
    have hlt := ofBe_lt count.val
    rw [count.2] at hlt
    have hmax : 256 ^ n ≤ 256 ^ 4 := Nat.pow_le_pow_right (by omega) hn
    exact truncate_eq (by omega)
  have htwo : 2 ≤ 4 := by omega
  simp only [WordReader.arrayHeader, arrayHeader, hcount htwo, hcount (Nat.le_refl 4)]

theorem arrayItems_eq (h : Fits w data) : WordReader.arrayItems w data = arrayItems data := by
  simp only [WordReader.arrayItems, arrayItems, skipValue_eq h, arrayHeader_eq h]

theorem next_eq {items : ArrayItems} (h : Fits w items.data) : WordReader.next w items = items.next := by
  simp only [WordReader.next, ArrayItems.next, skipValue_eq h]

end Items

section Long

variable {pos : Nat} {m : UInt8} {size rest : Bytes}

structure Numbered (data : Bytes) (pos : Nat) (m : UInt8) (size rest : Bytes) : Prop where
  bytes : data.drop pos = m :: (size ++ rest)
  four : size.length = 4

namespace Numbered

variable (h : Numbered data pos m size rest)
include h

theorem marker : data[pos]? = some m := by
  rw [← Nat.add_zero pos, ← List.getElem?_drop, h.bytes]
  rfl

theorem length : data.length = pos + 5 + rest.length := by
  have hpos := (List.getElem?_eq_some_iff.mp h.marker).1
  have hlen := congrArg List.length h.bytes
  rw [List.length_drop, List.length_cons, List.length_append, h.four] at hlen
  omega

theorem extract : data.extract (pos + 1) (pos + 1 + 4) = size := by
  rw [List.extract_eq_take_drop, ← List.drop_drop, h.bytes, Nat.add_sub_cancel_left, List.drop_succ_cons,
    List.drop_zero, List.take_append_of_le_length (by rw [h.four]), List.take_of_length_le (by rw [h.four])]

theorem lenAt : lenAt data (pos + 1) 4 = .ok (ofBe size) := by
  have hlen := h.length
  rw [Skipping.lenAt_eq, if_pos (by omega), h.extract]

theorem fromBeBytes {ε : Type} : fromBeBytes data (pos + 1) 4 = (.ok (ofBe size) : Outcome ε Nat) := by
  have hlen := h.length
  rw [fromBeBytes_eq (by omega), h.extract]

theorem skipValue_blob (hm : m.toNat = 0xc6 ∨ m.toNat = 0xdb) (hn : rest.length < ofBe size)
    (depth : Nat) : skipValue data pos depth = fail .malformedPayload := by
  have hlen := h.length
  rw [skipValue_levels]
  cases 9 - depth with
  | zero => rfl
  | succ levels =>
      rw [skipLevels_step h.marker, layout_blob (k := 2) (by omega) hm]
      change (Reader.lenAt data (pos + 1) 4 >>= _) = _
      rw [h.lenAt, ok_bind, body, if_neg (by omega)]
      rfl

theorem skipValue_counted {k : Nat} (hl : layout m = some (.counted 4 k))
    (hn : rest.length < k * ofBe size) (depth : Nat) :
    skipValue data pos depth = fail .malformedPayload := by
  have hlen := h.length
  rw [skipValue_levels]
  cases 9 - depth with
  | zero => rfl
  | succ levels =>
      rw [skipLevels_step h.marker, hl]
      change (Reader.lenAt data (pos + 1) 4 >>= _) = _
      rw [h.lenAt, ok_bind]
      exact skipN_overrun (malformed_skipLevels levels) (ensures_skipLevels data levels) (by omega) (by omega)

theorem readBin (hm : m.toNat = 0xc6 ∨ m.toNat = 0xdb) (hn : rest.length < ofBe size) :
    readBin data pos = fail .malformedPayload := by
  have hlen := h.length
  have hmark : (index data pos : Result UInt8) = .ok m := by
    rw [index, h.marker]
    rfl
  rw [Reader.readBin, rejectIf_bind, if_neg (by omega), hmark, ok_bind, binHeader, if_neg (by omega),
    if_neg (by omega), if_pos ⟨hm, by omega⟩, h.fromBeBytes, ok_bind, pure_eq_ok, ok_bind]
  simp only [rejectIf_bind]
  rw [if_pos (by omega)]

end Numbered

/-- The count of a map keeps all its four bytes. -/
theorem readMapHeader_numbered (h : Numbered data 0 m size rest) (hm : m.toNat = 0xdf) :
    readMapHeader data = .ok (5, ofBe size) := by
  have hlen := h.length
  rw [readMapHeader, h.marker, orFail_some, ok_bind, mapHeader, if_neg (by omega), if_neg (by omega),
    if_pos ⟨hm, by omega⟩, h.fromBeBytes]
  rfl

section Many

variable {first count : Nat} (hm : readMapHeader data = .ok (first, count)) (hc : 64 < count)
include hm hc

theorem validateFields_many (scratch : FieldScratch) :
    (validateFields data).run scratch = (fail .tooManyFields, scratch) := by
  rw [validateFields, hm]
  simp only [Exec.run_rejectIf_bind, if_pos hc]

theorem fieldValueId_many (key : FieldId) : fieldValueId data key = fail () := by
  rw [fieldValueId_def, validateFieldsWithoutScratch_def, hm]
  simp only [okOr, ok_bind, rejectIf_bind, if_pos hc]
  rfl

theorem mapBytesValue_many (isUtf8 : Bytes → Bool) (key : Bytes) :
    mapBytesValue isUtf8 data key = fail () := by
  have hmany : count > 64 ∨ count > (data.length - first) / 2 := .inl hc
  rw [mapBytesValue, hm, rejectIf_bind]
  split
  · rfl
  · simp only [ok_bind, rejectIf_bind, if_pos hmany]

end Many

end Long

/-- The decoders compute over words of any width from 32 bits up what they
compute over the natural numbers, and no sum or product that they leave
unchecked overflows. A 4-byte number that its slice cannot hold is read in full
and refused. -/
theorem decoders_word_free (isUtf8 : Bytes → Bool) (h : Fits w data) :
    ((∀ pos depth, WordReader.skipValue w data pos depth = skipValue data pos depth) ∧
      (∀ pos, WordReader.readBin w data pos = readBin data pos) ∧
      (∀ pos, WordReader.readFieldId w data pos = readFieldId data pos) ∧
      WordReader.readMapHeader w data = readMapHeader data ∧
      WordReader.validateFields w data = validateFields data ∧
      (∀ key, WordReader.fieldValueId w data key = fieldValueId data key) ∧
      (∀ key, WordReader.mapBytesValue w isUtf8 data key = mapBytesValue isUtf8 data key) ∧
      WordReader.arrayItems w data = arrayItems data ∧
      ∀ items : ArrayItems, items.data = data → WordReader.next w items = items.next) ∧
    ((∀ pos depth, WordReader.skipValue w data pos depth ≠ panic) ∧
      (∀ pos, WordReader.readBin w data pos ≠ panic) ∧
      (∀ pos, WordReader.readFieldId w data pos ≠ panic) ∧
      WordReader.readMapHeader w data ≠ panic ∧
      (∀ scratch, (WordReader.validateFields w data).eval scratch ≠ panic) ∧
      (∀ key, WordReader.fieldValueId w data key ≠ panic) ∧
      (∀ key, WordReader.mapBytesValue w isUtf8 data key ≠ panic) ∧
      WordReader.arrayItems w data ≠ panic ∧
      ∀ items : ArrayItems, items.data = data → WordReader.next w items ≠ panic) ∧
    (∀ pos m size rest, Numbered data pos m size rest →
      (m.toNat = 0xc6 ∨ m.toNat = 0xdb → rest.length < ofBe size →
        (∀ depth, WordReader.skipValue w data pos depth = fail .malformedPayload) ∧
        WordReader.readBin w data pos = fail .malformedPayload) ∧
      (m.toNat = 0xdd → rest.length < ofBe size →
        (∀ depth, WordReader.skipValue w data pos depth = fail .malformedPayload) ∧
        (pos = 0 → WordReader.arrayItems w data = fail .malformedPayload)) ∧
      (m.toNat = 0xdf → rest.length < 2 * ofBe size → ∀ depth,
        WordReader.skipValue w data pos depth = fail .malformedPayload) ∧
      (m.toNat = 0xdf → pos = 0 → WordReader.readMapHeader w data = .ok (5, ofBe size) ∧
        (64 < ofBe size →
          (∀ scratch, (WordReader.validateFields w data).eval scratch = fail .tooManyFields) ∧
          (∀ key, WordReader.fieldValueId w data key = fail ()) ∧
          ∀ key, WordReader.mapBytesValue w isUtf8 data key = fail ()))) := by
  refine ⟨⟨skipValue_eq h, readBin_eq h, readFieldId_eq h, readMapHeader_eq h, validateFields_eq h,
    fieldValueId_eq h, mapBytesValue_eq h isUtf8, arrayItems_eq h, ?_⟩, ?_, ?_⟩
  · rintro items rfl
    exact next_eq h
  · simp only [skipValue_eq h, readBin_eq h, readFieldId_eq h, readMapHeader_eq h, validateFields_eq h,
      fieldValueId_eq h, mapBytesValue_eq h, arrayItems_eq h]
    refine ⟨fun pos depth => (ensures_skipValue data pos depth).not_panic,
      fun pos => (ensures_readBin data pos).not_panic, fun pos => (ensures_readFieldId data pos).not_panic,
      (ensures_readMapHeader data).not_panic, fun scratch => ?_,
      fun key => (ensures_fieldValueId data key).not_panic,
      fun key => (ensures_mapBytesValue isUtf8 data key).not_panic, (ensures_arrayItems data).not_panic, ?_⟩
    · rw [Exec.eval, run_validateFields]
      exact (ensures_checkFields data).not_panic
    · rintro items rfl
      rw [next_eq h]
      exact (ensures_next items).not_panic
  · intro pos m size rest hnum
    simp only [skipValue_eq h, readBin_eq h, readMapHeader_eq h, validateFields_eq h, fieldValueId_eq h,
      mapBytesValue_eq h, arrayItems_eq h]
    refine ⟨fun hm hn => ⟨hnum.skipValue_blob hm hn, hnum.readBin hm hn⟩, fun hm hn => ?_,
      fun hm hn => hnum.skipValue_counted (layout_map (k := 1) (by omega) hm) hn, ?_⟩
    · have hskip := hnum.skipValue_counted (layout_array (k := 1) (by omega) hm) (by omega)
      refine ⟨hskip, ?_⟩
      rintro rfl
      rw [arrayItems, hskip, fail_bind]
    · rintro hm rfl
      have hheader := readMapHeader_numbered hnum hm
      refine ⟨hheader, fun hn => ⟨fun scratch => ?_, fieldValueId_many hheader hn,
        mapBytesValue_many hheader hn isUtf8⟩⟩
      rw [Exec.eval, validateFields_many hheader hn]

theorem decoders_word_free_map :
    let data := [0xdf, 0x80, 0, 0, 1, 0xc0]
    WordReader.kv 32 0x80000001 = fail .malformedPayload ∧
      WordReader.kv 64 0x80000001 = .ok 0x100000002 ∧
      WordReader.skipValue 32 data 0 0 = fail .malformedPayload ∧
      WordReader.skipValue 64 data 0 0 = fail .malformedPayload := by
  intro data
  have hnum : Numbered data 0 0xdf [0x80, 0, 0, 1] [0xc0] := ⟨rfl, rfl⟩
  have hrefused {w : Nat} (hw : 32 ≤ w) : WordReader.skipValue w data 0 0 = fail .malformedPayload :=
    ((decoders_word_free (fun bytes => bytes.all (· < 0x80)) ⟨hw, by decide⟩).2.2 0 _ _ _ hnum).2.2.1 rfl
      (by decide) 0
  exact ⟨rfl, rfl, hrefused (by omega), hrefused (by omega)⟩

/-- The header reader reports a count that the data cannot hold. -/
theorem readMapHeader_reports_count :
    let data := [0xdf, 0xff, 0xff, 0xff, 0xff]
    readMapHeader data = .ok (5, 4294967295) ∧
      WordReader.readMapHeader 32 data = .ok (5, 4294967295) ∧
      WordReader.readMapHeader 64 data = .ok (5, 4294967295) ∧
      ¬∃ e, readMapHeader data = fail e := by
  have h : readMapHeader [0xdf, 0xff, 0xff, 0xff, 0xff] = .ok (5, 4294967295) := by decide
  exact ⟨h, by decide, by decide, fun ⟨e, he⟩ => absurd (he.symm.trans h) (fail_ne_ok e _)⟩

end LxmfLite.WordSize
