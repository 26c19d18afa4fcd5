import LxmfLite.FieldMaps
import LxmfLite.Wire
import Mathlib.Data.List.Nodup
import Mathlib.Data.Nat.Bitwise

namespace LxmfLite.Payload

open ByteString Execution SelfDelimiting MessagePack KeyedMap Message Reader Skipping FieldMaps
  Writer Encoder Wire

def binPrefix (length : Nat) : Bytes :=
  if length ≤ 0xff then [0xc4, UInt8.ofNat length]
  else if length ≤ 0xffff then 0xc5 :: toBe 2 length
  else 0xc6 :: toBe 4 length

def binBytes (payload : Bytes) : Bytes := binPrefix payload.length ++ payload

def mapPrefix (count : Nat) : Bytes :=
  if count < 16 then [0x80 ||| UInt8.ofNat count] else [0xde, 0, UInt8.ofNat count]

def entryBytes (entry : EncodedField) : Bytes := uintBytes entry.1 ++ entry.2

def ordered (entries : List EncodedField) : List EncodedField :=
  allIds.flatMap (fun id => entries.filter (·.1 = id))

inductive OuterFields
  | empty
  | audio (field : AudioField)
  | encoded (entries : List EncodedField)

namespace OuterFields

def entries : OuterFields → List EncodedField
  | .empty => []
  | .audio field => [(fieldAudio, 0x92 :: (uintBytes field.mode ++ binBytes field.bytes))]
  | .encoded entries => ordered entries

def bytes (fields : OuterFields) : Bytes :=
  mapPrefix fields.entries.length ++ fields.entries.flatMap entryBytes

def Encodable : OuterFields → Prop
  | .empty => True
  | .audio field => field.bytes.length ≤ 0xffffffff
  | .encoded entries => entries.length ≤ maxFields ∧ (entries.map Prod.fst).Nodup

end OuterFields

/-- The array [timestamp, title, content, fields] as the encoder spells it. -/
def payloadBytes (timestamp : F64) (title content : Bytes) (fields : OuterFields) : Bytes :=
  [0x94, 0xcb] ++ (timestamp.toBeBytes ++ (binBytes title ++ (binBytes content ++ fields.bytes)))

section Bin

theorem binPrefix_pos (length : Nat) : 2 ≤ (binPrefix length).length := by
  rw [binPrefix]
  split
  · exact Nat.le_refl 2
  split <;> simp

theorem blob_binBytes {payload : Bytes} (h : payload.length ≤ 0xffffffff) :
    Blob (binBytes payload) payload := by
  rw [binBytes, binPrefix]
  split
  next hc =>
    refine .sized (k := 0) (by omega) (.inl rfl)
      (show [UInt8.ofNat payload.length].length = 1 from rfl) ?_
    rw [ofBe_singleton, toNat_ofNat_of_lt (by omega)]
  split
  next hc =>
    refine .sized (k := 1) (by omega) (.inl rfl) (toBe_length 2 _) ?_
    rw [ofBe_toBe_of_lt (by omega)]
  next hc =>
    refine .sized (k := 2) (by omega) (.inl rfl) (toBe_length 4 _) ?_
    rw [ofBe_toBe_of_lt (by omega)]

theorem binBytes_head (payload : Bytes) :
    ∃ m, (binBytes payload)[0]? = some m ∧ 0xc4 ≤ m.toNat ∧ m.toNat ≤ 0xc6 := by
  rw [binBytes, binPrefix]
  split
  · exact ⟨0xc4, rfl, by decide⟩
  split
  · exact ⟨0xc5, rfl, by decide⟩
  · exact ⟨0xc6, rfl, by decide⟩

theorem wire_binHeaderSteps {length : Nat} (h : length ≤ 0xffffffff) :
    wire (binHeaderSteps length) = some (binPrefix length) := by
  rw [binHeaderSteps, binPrefix]
  split
  · rfl
  split
  · rfl
  · rw [if_neg (by omega)]
    rfl

theorem wire_binHeaderSteps_none {length : Nat} (h : ¬length ≤ 0xffffffff) :
    wire (binHeaderSteps length) = none := by
  rw [binHeaderSteps]
  rw [if_neg (by omega), if_neg (by omega), if_pos (by omega)]
  rfl

theorem wire_binSteps {payload : Bytes} (h : payload.length ≤ 0xffffffff) :
    wire (binSteps List.length payload) = some (binBytes payload) := by
  rw [binSteps, wire_append (wire_binHeaderSteps h)]
  simp [wire, bytesOf, binBytes]

theorem wire_binSteps_none {payload : Bytes} (h : ¬payload.length ≤ 0xffffffff) :
    wire (binSteps List.length payload) = none :=
  wire_append_none (wire_binHeaderSteps_none h)

end Bin

section IdSet

theorem bit_eq (id : UInt8) : (IdSet.bit id).toNat = 2 ^ (id.toNat % 8) := by
  have h : ∀ id : Fin 256, (IdSet.bit (UInt8.ofNat id.val)).toNat = 2 ^ (id.val % 8) := by
    decide +kernel
  simpa using h ⟨id.toNat, toNat_lt id⟩

theorem contains_eq (present : IdSet) (id : UInt8) :
    present.contains id = (present.byte id).toNat.testBit (id.toNat % 8) := by
  have hpos := Nat.two_pow_pos (id.toNat % 8)
  rw [IdSet.contains, Bool.eq_iff_iff, bne_iff_ne, ne_eq, ← UInt8.toNat_inj, UInt8.toNat_and, bit_eq,
    Nat.and_two_pow, UInt8.toNat_zero]
  cases (present.byte id).toNat.testBit (id.toNat % 8) with
  | false => simp
  | true => simp

theorem contains_insert (present : IdSet) (id other : UInt8) :
    (present.insert id).contains other = (id == other || present.contains other) := by
  rw [contains_eq, contains_eq]
  simp only [IdSet.insert, IdSet.byte]
  simp only [List.get_eq_getElem, List.getElem_set]
  by_cases hb : id.toNat / 8 = other.toNat / 8
  · rw [if_pos hb, UInt8.toNat_or, Nat.testBit_or, bit_eq, Nat.testBit_two_pow, Bool.or_comm]
    simp only [hb]
    congr 1
    rw [Bool.eq_iff_iff, beq_iff_eq, decide_eq_true_iff, ← UInt8.toNat_inj]
    omega
  · rw [if_neg hb]
    have hne : (id == other) = false := beq_eq_false_iff_ne.mpr (fun h => hb (h ▸ rfl))
    rw [hne, Bool.false_or]

theorem contains_empty (id : UInt8) : IdSet.empty.contains id = false := by
  have h : ∀ id : Fin 256, IdSet.empty.contains (UInt8.ofNat id.val) = false := by decide +kernel
  simpa using h ⟨id.toNat, toNat_lt id⟩

end IdSet

section Admission

variable {fields : List EncodedField} {present admitted : IdSet}

def idSet (fields : List EncodedField) : IdSet :=
  fields.foldl (fun present entry => present.insert entry.1) .empty

theorem contains_foldl (fields : List EncodedField) (present : IdSet) (id : UInt8) :
    (fields.foldl (fun present entry => present.insert entry.1) present).contains id =
      (present.contains id || decide (id ∈ fields.map Prod.fst)) := by
  induction fields generalizing present with
  | nil => simp
  | cons entry fields ih =>
      rw [List.foldl_cons, ih, contains_insert, List.map_cons]
      by_cases he : entry.1 = id
      · simp [he]
      · rw [beq_eq_false_iff_ne.mpr he, Bool.false_or]
        simp only [List.mem_cons, Ne.symm he, false_or]

theorem contains_idSet (id : UInt8) :
    (idSet fields).contains id = decide (id ∈ fields.map Prod.fst) := by
  rw [idSet, contains_foldl, contains_empty, Bool.false_or]

theorem insert_fresh {id : UInt8} {ids : List UInt8} :
    (∀ other ∈ ids, (present.insert id).contains other = false) ↔
      id ∉ ids ∧ ∀ other ∈ ids, present.contains other = false := by
  simp only [contains_insert, Bool.or_eq_false_iff, beq_eq_false_iff_ne]
  constructor
  · intro h
    exact ⟨fun hm => (h id hm).1 rfl, fun other hm => (h other hm).2⟩
  · rintro ⟨hid, h⟩ other hm
    exact ⟨fun he => hid (he ▸ hm), h other hm⟩

theorem admitFields_eq_ok : admitFields fields present = .ok admitted ↔
    (fields.map Prod.fst).Nodup ∧ (∀ id ∈ fields.map Prod.fst, present.contains id = false) ∧
      (∀ entry ∈ fields, Value 8 1 entry.2) ∧
      admitted = fields.foldl (fun present entry => present.insert entry.1) present := by
  induction fields generalizing present with
  | nil =>
      constructor
      · intro h
        cases h
        exact ⟨List.nodup_nil, nofun, nofun, rfl⟩
      · rintro ⟨-, -, -, rfl⟩
        rfl
  | cons entry fields ih =>
      obtain ⟨id, value⟩ := entry
      rw [List.map_cons, List.nodup_cons, List.forall_mem_cons, List.forall_mem_cons, List.foldl_cons]
      simp only [admitFields, rejectIf_bind]
      constructor
      · intro h
        split at h
        · exact absurd h (by simp)
        next hnew =>
        obtain ⟨last, hs, h⟩ := bind_eq_ok.mp h
        split at h
        · exact absurd h (by simp)
        next hlast =>
        obtain rfl : last = value.length := by omega
        obtain ⟨hn, hfresh, hv, rfl⟩ := ih.mp h
        obtain ⟨hid, hold⟩ := insert_fresh.mp hfresh
        exact ⟨⟨hid, hn⟩, ⟨by simpa using hnew, hold⟩,
          ⟨(skipValue_whole _ _ _ (Nat.zero_le _)).mp hs, hv⟩, rfl⟩
      · rintro ⟨⟨hid, hn⟩, ⟨hnew, hold⟩, ⟨hv, hvs⟩, rfl⟩
        have hs : skipValue value 0 1 = .ok value.length :=
          (skipValue_whole value 0 1 (Nat.zero_le _)).mpr hv
        rw [if_neg (by rw [hnew]; exact Bool.false_ne_true), hs, ok_bind, if_neg (not_not.mpr rfl)]
        exact ih.mpr ⟨hn, insert_fresh.mpr ⟨hid, hold⟩, hvs, rfl⟩

/-- What encoded_field_set checks, and the set that it returns. -/
theorem encodedFieldSet_eq_ok : encodedFieldSet fields = .ok admitted ↔
    fields.length ≤ maxFields ∧ (fields.map Prod.fst).Nodup ∧
      (∀ entry ∈ fields, Value 8 1 entry.2) ∧ admitted = idSet fields := by
  simp only [encodedFieldSet, rejectIf_bind]
  split
  next hmany =>
    constructor
    · intro h
      cases h
    · rintro ⟨hl, -⟩
      omega
  next hfew =>
    rw [admitFields_eq_ok]
    constructor
    · rintro ⟨hn, -, hv, rfl⟩
      exact ⟨by omega, hn, hv, rfl⟩
    · rintro ⟨-, hn, hv, rfl⟩
      exact ⟨hn, fun id _ => contains_empty id, hv, rfl⟩

theorem encodedFieldSet_ok (h : encodedFieldSet fields = .ok admitted) :
    fields.length ≤ maxFields ∧ (fields.map Prod.fst).Nodup ∧
      (∀ entry ∈ fields, Value 8 1 entry.2) ∧
      ∀ id, admitted.contains id = decide (id ∈ fields.map Prod.fst) := by
  obtain ⟨hl, hn, hv, rfl⟩ := encodedFieldSet_eq_ok.mp h
  exact ⟨hl, hn, hv, fun _ => contains_idSet _⟩

theorem fieldsSteps_nil {Field : Type} (fieldLen : Field → Nat) :
    fieldsSteps fieldLen (.encoded [] .empty) = fieldsSteps fieldLen .empty := by
  have hids : allIds.flatMap (@entrySteps Field [] IdSet.empty) = [] := by
    rw [List.flatMap_eq_nil_iff]
    intro id _
    rw [entrySteps, contains_empty, if_neg Bool.false_ne_true]
  calc fieldsSteps fieldLen (.encoded [] .empty)
      = mapHeaderSteps 0 ++ allIds.flatMap (entrySteps [] .empty) := rfl
    _ = mapHeaderSteps 0 := by rw [hids, List.append_nil]

/-- A list of no entries is written as no fields are. -/
theorem writePayload_nil {σ Field : Type} (writer : PayloadWriter σ Field) (timestamp : F64)
    (title content : Field) : writePayload writer timestamp title content (.encoded [] .empty) =
      writePayload writer timestamp title content .empty := by
  rw [writePayload_eq, writePayload_eq, payloadSteps, fieldsSteps_nil, payloadSteps]

end Admission

section Ordered

variable {entries : List EncodedField}

theorem mem_allIds (id : UInt8) : id ∈ allIds :=
  List.mem_map.mpr ⟨id.toNat, List.mem_range.mpr (toNat_lt id), UInt8.ofNat_toNat⟩

theorem nodup_allIds : allIds.Nodup := by
  apply (List.nodup_map_iff_inj_on List.nodup_range).mpr
  intro a ha b hb h
  have := congrArg UInt8.toNat h
  rwa [toNat_ofNat_of_lt (List.mem_range.mp ha), toNat_ofNat_of_lt (List.mem_range.mp hb)] at this

theorem mem_ordered {entries : List EncodedField} {entry : EncodedField} :
    entry ∈ ordered entries ↔ entry ∈ entries := by
  simp only [ordered, List.mem_flatMap, List.mem_filter, decide_eq_true_eq]
  constructor
  · rintro ⟨id, -, hm, -⟩
    exact hm
  · exact fun hm => ⟨entry.1, mem_allIds _, hm, rfl⟩

theorem ordered_perm (h : (entries.map Prod.fst).Nodup) : (ordered entries).Perm entries := by
  have hn : entries.Nodup := List.Nodup.of_map Prod.fst h
  refine (List.perm_ext_iff_of_nodup ?_ hn).mpr (fun entry => ?_)
  · rw [ordered, List.nodup_flatMap]
    refine ⟨fun id _ => hn.filter _, nodup_allIds.imp (fun {a b} hab => ?_)⟩
    intro entry ha hb
    simp only [List.mem_filter, decide_eq_true_eq] at ha hb
    exact hab (ha.2.symm.trans hb.2)
  · exact mem_ordered

theorem filter_of_mem {entry : EncodedField} (h : (entries.map Prod.fst).Nodup)
    (hm : entry ∈ entries) : entries.filter (·.1 = entry.1) = [entry] := by
  induction entries with
  | nil => cases hm
  | cons head entries ih =>
      rw [List.map_cons, List.nodup_cons] at h
      rcases List.mem_cons.mp hm with rfl | hm
      · rw [List.filter_cons_of_pos (by simp), List.filter_eq_nil_iff.mpr]
        intro other ho he
        exact h.1 (List.mem_map.mpr ⟨other, ho, by simpa using he⟩)
      · rw [List.filter_cons_of_neg, ih h.2 hm]
        intro he
        exact h.1 (List.mem_map.mpr ⟨entry, hm, (by simpa using he : head.1 = entry.1).symm⟩)

end Ordered

end LxmfLite.Payload
