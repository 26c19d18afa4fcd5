import LxmfLite.Bounds
import LxmfLite.Pairing

namespace LxmfLite.FieldLookup

open ByteString Execution SelfDelimiting MessagePack KeyedMap Pairing Message Reader Skipping
  FieldReading FieldMaps Contracts Bounds

variable {fields : Bytes} {entries : List (Int × Bytes)}

def Complete (value : Bytes) : Prop := skipValue value 0 0 = .ok value.length

theorem complete_iff {value : Bytes} : Complete value ↔ Value 8 0 value :=
  skipValue_whole value 0 0 (Nat.zero_le _)

theorem complete_unique (a b r s : Bytes) (ha : Complete a) (hb : Complete b)
    (h : a ++ r = b ++ s) : a = b ∧ r = s :=
  (complete_iff.mp ha).rest_unique (complete_iff.mp hb) h

abbrev OuterMap := PairMap Integer Complete maxFields

def entryOf (p : Pair Integer Complete) : Int × Bytes := (p.id, p.value)

theorem integer_value_unique {enc : Bytes} {n k : Int} (hn : Integer enc n) (hk : Integer enc k) :
    n = k := by
  cases hn with
  | fix hm => exact (integer_fix_inv hm hk).2.symm
  | negative hm => exact (integer_negative_inv hm hk).2.symm
  | unsigned hl hm hb => exact (integer_unsigned_inv hl hm hk).2.symm
  | signed hl hm hb => exact (integer_signed_inv hl hm hk).2.symm

theorem integer_readable : Readable Integer := by
  intro a b n k r s ha hb h
  obtain ⟨rfl, hr⟩ := (ha.value (Nat.zero_le 0)).rest_unique (hb.value (Nat.zero_le 0)) h
  exact ⟨rfl, integer_value_unique ha hb, hr⟩

theorem entries_bytesOf (pairs : List (Pair Integer Complete)) :
    Entries 8 0 (bytesOf pairs) (pairs.map entryOf) := by
  induction pairs with
  | nil => exact .nil
  | cons p pairs ih =>
      rw [bytesOf_cons]
      exact .cons p.isKey (complete_iff.mp p.isValue) ih

theorem exists_pairs {bs : Bytes} (h : Entries 8 0 bs entries) :
    ∃ pairs : List (Pair Integer Complete), bs = bytesOf pairs ∧ entries = pairs.map entryOf := by
  induction h with
  | nil => exact ⟨[], rfl, rfl⟩
  | @cons key value rest n entries hk hv _ ih =>
      obtain ⟨pairs, rfl, rfl⟩ := ih
      let p : Pair Integer Complete := ⟨key, n, value, hk, complete_iff.mpr hv⟩
      exact ⟨p :: pairs, (bytesOf_cons p pairs).symm, rfl⟩

theorem keys_entryOf (pairs : List (Pair Integer Complete)) :
    keys (pairs.map entryOf) = pairs.map Pair.id := by
  rw [keys, List.map_map]
  rfl

theorem fieldMap_outerMap (m : OuterMap) : FieldMap 0 m.bytes (m.pairs.map entryOf) := by
  refine ⟨⟨?_, entries_bytesOf m.pairs, ?_⟩, ?_⟩
  · rw [List.length_map]
    exact m.counted
  · rw [keys_entryOf]
    exact m.distinct
  · rw [List.length_map]
    exact m.atMost

theorem fieldMap_iff : FieldMap 0 fields entries ↔
    ∃ m : OuterMap, fields = m.bytes ∧ entries = m.pairs.map entryOf := by
  constructor
  · intro h
    have hl := h.2
    obtain ⟨header, body, rfl, hh, he, hn⟩ := fieldMap_header h
    obtain ⟨pairs, rfl, rfl⟩ := exists_pairs he
    rw [List.length_map] at hh hl
    rw [keys_entryOf] at hn
    exact ⟨⟨header, pairs, hh, hl, hn⟩, rfl, rfl⟩
  · rintro ⟨m, rfl, rfl⟩
    exact fieldMap_outerMap m

theorem validated_iff : validateFieldsWithoutScratch fields = .ok () ↔
    ∃ m : OuterMap, fields = m.bytes := by
  rw [validateFieldsWithoutScratch_eq_ok]
  constructor
  · rintro ⟨entries, h⟩
    obtain ⟨m, hm, -⟩ := fieldMap_iff.mp h
    exact ⟨m, hm⟩
  · rintro ⟨m, rfl⟩
    exact ⟨_, fieldMap_outerMap m⟩

theorem fieldValueId_pairs (m : OuterMap) (key : FieldId) :
    fieldValueId m.bytes key = orFail ((m.pairs.map entryOf).lookup key.val) () :=
  fieldValueId_eq (fieldMap_outerMap m) key

theorem orFail_eq_ok {ε α : Type} {x : Option α} {error : ε} {a : α} :
    orFail x error = .ok a ↔ x = some a := by
  cases x <;> simp

theorem fieldValueId_mem (m : OuterMap) (key : FieldId) (value : Bytes) :
    fieldValueId m.bytes key = .ok value ↔ ∃ p ∈ m.pairs, p.id = key.val ∧ p.value = value := by
  have hn : (keys (m.pairs.map entryOf)).Nodup := by
    rw [keys_entryOf]
    exact m.distinct
  rw [fieldValueId_pairs, orFail_eq_ok, lookup_eq_some_iff_mem hn, List.mem_map]
  constructor
  · rintro ⟨p, hp, he⟩
    obtain ⟨hid, hv⟩ := Prod.mk.inj he
    exact ⟨p, hp, hid, hv⟩
  · rintro ⟨p, hp, hid, hv⟩
    exact ⟨p, hp, Prod.ext hid hv⟩

/-- What reading a map pair by pair meets: from the header to the end, each
read starts where the one before it ended. -/
structure Tiled (m : OuterMap) : Prop where
  first : readMapHeader m.bytes = .ok (m.start 0, m.pairs.length)
  key : ∀ i p, m.pairs[i]? = some p → ∃ id : FieldId, id.val = p.id ∧
    readFieldId m.bytes (m.start i) = .ok (id, m.start i + p.key.length) ∧
    m.bytes.extract (m.start i) (m.start i + p.key.length) = p.key
  value : ∀ i p, m.pairs[i]? = some p →
    skipValue m.bytes (m.start i + p.key.length) 0 = .ok (m.start (i + 1)) ∧
    m.bytes.extract (m.start i + p.key.length) (m.start (i + 1)) = p.value
  last : m.start m.pairs.length = m.bytes.length

theorem tiled (m : OuterMap) : Tiled m := by
  constructor
  case first =>
    exact readMapHeader_eq_ok.mpr ⟨m.header, List.prefix_append _ _, m.counted, rfl⟩
  case key =>
    intro i p h
    have hp : p.key <+: m.bytes.drop (m.start i) := ⟨_, (m.drop_start h).symm⟩
    exact ⟨⟨p.id, p.isKey.range.1, p.isKey.range.2⟩, rfl,
      readFieldId_eq_ok.mpr ⟨p.key, hp, p.isKey, rfl⟩, prefix_extract hp⟩
  case value =>
    intro i p h
    have hp : p.value <+: m.bytes.drop (m.start i + p.key.length) := ⟨_, (m.drop_value h).symm⟩
    rw [m.start_succ h]
    exact ⟨skipValue_eq_ok.mpr ⟨p.value, hp, complete_iff.mp p.isValue, rfl⟩, prefix_extract hp⟩
  case last =>
    exact m.start_end

theorem okOr_fieldValueId (fields : Bytes) (key : FieldId) : OkOr () (fieldValueId fields key) :=
  okOr_of_ensures (ensures_fieldValueId fields key)

/-- field_value_id looks up the pairs of the one map that the bytes are. -/
theorem fieldValueId_eq_ok {key : FieldId} {value : Bytes} : fieldValueId fields key = .ok value ↔
    ∃ m : OuterMap, fields = m.bytes ∧ ∃ p ∈ m.pairs, p.id = key.val ∧ p.value = value := by
  constructor
  · intro h
    obtain ⟨u, hu, -⟩ := bind_eq_ok.mp h
    have hv : validateFieldsWithoutScratch fields = .ok () := by
      rcases hc : validateFieldsWithoutScratch fields with (_ | _) | _
      · rw [hc] at hu
        cases hu
      · rw [hc] at hu
        cases hu
      · rfl
    obtain ⟨m, rfl⟩ := validated_iff.mp hv
    exact ⟨m, rfl, (fieldValueId_mem m key value).mp h⟩
  · rintro ⟨m, rfl, hp⟩
    exact (fieldValueId_mem m key value).mpr hp

theorem outerMap_unique {m m' : OuterMap} (h : m.bytes = m'.bytes) : m = m' := by
  have hb : m.bytes ++ [] = m'.bytes ++ [] := by rw [h]
  exact (PairMap.unique integer_readable complete_unique hb).1

/-- The order of the pairs, and how the header spells their count, do not
matter to a lookup. -/
theorem fieldValueId_reordered {m m' : OuterMap} (h : m.pairs.Perm m'.pairs) (key : FieldId) :
    fieldValueId m.bytes key = fieldValueId m'.bytes key := by
  apply OkOr.ext (okOr_fieldValueId _ _) (okOr_fieldValueId _ _)
  intro value
  rw [fieldValueId_mem, fieldValueId_mem]
  constructor
  · rintro ⟨p, hp, he⟩
    exact ⟨p, h.mem_iff.mp hp, he⟩
  · rintro ⟨p, hp, he⟩
    exact ⟨p, h.mem_iff.mpr hp, he⟩

/-- The lookup is exact on arbitrary bytes: it finds the value of the pair with
the key, of a map that the bytes spell in full and in one way, pair by pair. -/
theorem fieldValueId_exact (fields : Bytes) (key : FieldId) :
    (∀ value, fieldValueId fields key = .ok value ↔
      ∃ m : OuterMap, fields = m.bytes ∧ ∃ p ∈ m.pairs, p.id = key.val ∧ p.value = value) ∧
    ((∀ value, fieldValueId fields key ≠ .ok value) → fieldValueId fields key = fail ()) ∧
    ∀ m : OuterMap, fields = m.bytes →
      Tiled m ∧ (∀ m' : OuterMap, fields = m'.bytes → m' = m) ∧
      ∀ m' : OuterMap, m.pairs.Perm m'.pairs → fieldValueId fields key = fieldValueId m'.bytes key := by
  refine ⟨fun value => fieldValueId_eq_ok, ?_, ?_⟩
  · intro hno
    rcases okOr_fieldValueId fields key with ⟨value, hv⟩ | hf
    · exact absurd hv (hno value)
    · exact hf
  · rintro m rfl
    refine ⟨tiled m, ?_, ?_⟩
    · intro m' hm'
      exact (outerMap_unique hm').symm
    · intro m' hp
      exact fieldValueId_reordered hp key

end LxmfLite.FieldLookup
