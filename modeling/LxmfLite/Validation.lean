import LxmfLite.Audio
import LxmfLite.Inbound
import LxmfLite.Opportunistic

namespace LxmfLite.Validation

open ByteString Execution SelfDelimiting MessagePack KeyedMap Pairing Message Primitives Reader
  FieldReading FieldMaps Parse Decoding Authentication FieldLookup Audio Inbound Opportunistic

variable {fields : Bytes}

def Present (fields : Bytes) (key : FieldId) : Prop :=
  ∃ (header : Bytes) (entries : List (Bytes × Bytes)), MapHeader header entries.length ∧
    fields = header ++ (entries.map fun entry => entry.1 ++ entry.2).flatten ∧
    (∀ entry ∈ entries, Value 8 1 entry.1 ∧ Value 8 1 entry.2) ∧
    ∃ entry ∈ entries, Integer entry.1 key.val

/-- A run of pairs is cut into keys and values in one way. -/
theorem pairs_of_values {entries : List (Bytes × Bytes)} {pairs : List (Pair Integer Complete)}
    (hv : ∀ entry ∈ entries, Value 8 1 entry.1 ∧ Value 8 1 entry.2)
    (hl : entries.length = pairs.length)
    (h : (entries.map fun entry => entry.1 ++ entry.2).flatten = bytesOf pairs) :
    entries = pairs.map fun p => (p.key, p.value) := by
  induction entries generalizing pairs with
  | nil =>
      obtain rfl := List.length_eq_zero_iff.mp hl.symm
      rfl
  | cons entry entries ih =>
      cases pairs with
      | nil => exact absurd hl (by simp)
      | cons p pairs =>
          rw [List.forall_mem_cons] at hv
          rw [List.map_cons, List.flatten_cons, bytesOf_cons, List.append_assoc] at h
          obtain ⟨hkey, hrest⟩ := hv.1.1.rest_unique (p.isKey.value (Nat.zero_le 8)) h
          obtain ⟨hvalue, hrest⟩ := hv.1.2.rest_unique (complete_iff.mp p.isValue) hrest
          rw [List.map_cons, ih hv.2 (Nat.succ.inj hl) hrest, ← hkey, ← hvalue]

theorem present_outerMap {m : OuterMap} {key : FieldId} (h : Present m.bytes key) :
    ∃ p ∈ m.pairs, p.id = key.val := by
  obtain ⟨header, entries, hh, hb, hv, entry, he, hi⟩ := h
  obtain ⟨hl, -, hrest⟩ := MapHeader.rest_unique m.counted hh hb
  rw [pairs_of_values hv hl.symm hrest.symm, List.mem_map] at he
  obtain ⟨p, hp, rfl⟩ := he
  exact ⟨p, hp, integer_value_unique p.isKey hi⟩

theorem readable_iff : (∃ r, readMapHeader fields = .ok r) ↔
    ∃ header count, header <+: fields ∧ MapHeader header count := by
  constructor
  · rintro ⟨⟨pos, count⟩, h⟩
    obtain ⟨header, hp, hh, -⟩ := readMapHeader_eq_ok.mp h
    exact ⟨header, count, hp, hh⟩
  · rintro ⟨header, count, hp, hh⟩
    exact ⟨_, readMapHeader_eq_ok.mpr ⟨header, hp, hh, rfl⟩⟩

/-- On bytes with a map header both validators accept the field maps. -/
theorem checkFields_iff (h : ∃ r, readMapHeader fields = .ok r) :
    checkFields fields = .ok () ↔ validateFieldsWithoutScratch fields = .ok () := by
  rw [checkFields_eq_ok, validateFieldsWithoutScratch_eq_ok]
  obtain ⟨header, count, hp, hh⟩ := readable_iff.mp h
  exact ⟨fun hf => hf header count hp hh, fun he _ _ _ _ => he⟩

/-- The lazy readers see the outer map m in the fields: they find every key of
it, and the audio reader judges nothing but the value under its key. -/
structure ReadsAs (fields : Bytes) (m : OuterMap) : Prop where
  spelled : fields = m.bytes
  present : ∀ key, Present fields key → ∃ value, fieldValueId fields key = .ok value
  found : ∀ p ∈ m.pairs, ∃ key : FieldId, key.val = p.id ∧ fieldValueId fields key = .ok p.value
  validated : validateFieldsWithoutScratch fields = .ok ()
  silent : (∀ p ∈ m.pairs, p.id ≠ 7) → audioField fields = .ok none
  audio : ∀ p ∈ m.pairs, p.id = 7 → audioField fields = readAudio p.value

def Usable (fields : Bytes) : Prop := ∃ m : OuterMap, ReadsAs fields m

theorem usable_of_validated (h : validateFieldsWithoutScratch fields = .ok ()) : Usable fields := by
  obtain ⟨m, rfl⟩ := validated_iff.mp h
  refine ⟨m, ?_⟩
  constructor
  case spelled => rfl
  case present =>
    intro key hk
    obtain ⟨p, hp, hid⟩ := present_outerMap hk
    exact ⟨p.value, (fieldValueId_mem m key p.value).mpr ⟨p, hp, hid, rfl⟩⟩
  case found =>
    intro p hp
    exact ⟨⟨p.id, p.isKey.range.1, p.isKey.range.2⟩, rfl,
      (fieldValueId_mem m _ _).mpr ⟨p, hp, rfl, rfl⟩⟩
  case validated => exact h
  case silent => exact audioField_of_not_mem m
  case audio => exact fun p hp => audioField_of_mem m hp

theorem usable_of_checked (hv : Value 8 0 fields) (hc : checkFields fields = .ok ())
    (hm : IsMap fields) : Usable fields := by
  apply usable_of_validated
  rw [validateFieldsWithoutScratch_eq_ok]
  exact (checkFields_value hv).mp hc hm

section Messages

variable {LocalIdentity VerifyingKey : Type} {P : Platform LocalIdentity VerifyingKey}
  {me : LocalIdentity} {sourcePublicKey : Block 64} {source : Block 16} {signature : Block 64}
  {payload : Bytes} {view : LxmfView}

theorem framed_value {d : Elements} (h : Framed payload d) : Value 8 0 d.fields := by
  cases h
  assumption

theorem authenticateOpened_fields
    (h : authenticateOpened P me sourcePublicKey source signature payload = .ok view) :
    Value 8 0 view.fields ∧ checkFields view.fields = .ok () := by
  obtain ⟨-, d, hd, hc, hf⟩ := authenticateOpened_inv h
  rw [hf]
  exact ⟨framed_value (frame_eq_ok.mp hd), hc⟩

theorem parseLink_fields {data : Bytes} {buffers : LinkScratch}
    (h : (parseLink P me data sourcePublicKey).eval buffers = .ok view) :
    Value 8 0 view.fields ∧ checkFields view.fields = .ok () := by
  by_cases hlen : 97 ≤ data.length
  · obtain ⟨dest, source, signature, payload, rfl, hne⟩ := exists_packed hlen
    rw [eval_parseLink hne] at h
    split at h
    · exact absurd h (by simp)
    obtain ⟨-, d, hf, hc, -, key, -, -, rfl⟩ := authenticate_eq_ok.mp h
    exact ⟨framed_value hf, hc⟩
  · rw [eval_parseLink_short (by omega)] at h
    exact absurd h (by simp)

theorem parseDecrypted_fields {scratch : Bytes} {ptLen : Nat} {fieldScratch : FieldScratch}
    (h : (parseDecrypted P me sourcePublicKey scratch ptLen).eval fieldScratch = .ok view) :
    Value 8 0 view.fields ∧ checkFields view.fields = .ok () := by
  by_cases hpt : ptLen ≤ scratch.length
  · have hlen : (scratch.take ptLen).length = ptLen := List.length_take_of_le hpt
    by_cases hshort : ptLen < 81
    · rw [eval_parseDecrypted_short hpt hshort] at h
      exact absurd h (by simp)
    · obtain ⟨source, signature, payload, hp, hne⟩ :=
        exists_plaintext (show 81 ≤ (scratch.take ptLen).length by omega)
      rw [eval_parseDecrypted_opened hne (by rw [slice_take hpt, hp])] at h
      exact authenticateOpened_fields h
  · -- a length past the scratch does not reach the checks
    rw [parseDecrypted, Exec.eval_lift_bind, slice, if_neg (by omega)] at h
    cases h

end Messages

theorem parseOpportunistic_fields {LocalIdentity VerifyingKey : Type}
    {P : InboundPlatform LocalIdentity VerifyingKey} {me : LocalIdentity} {packetPayload : Bytes}
    {sourcePublicKey : Block 64} {buffers : LinkScratch} {view : LxmfView}
    (h : (parseOpportunistic P me packetPayload sourcePublicKey).eval buffers = .ok view) :
    Value 8 0 view.fields ∧ checkFields view.fields = .ok () := by
  rw [parseOpportunistic, Exec.eval_get_bind, Exec.eval_rejectIf_bind] at h
  split at h
  · exact absurd h (by simp)
  simp only [Exec.eval_set_bind, Exec.eval_lift_bind] at h
  obtain ⟨ptLen, -, h⟩ := bind_eq_ok.mp h
  rw [eval_parseScratch] at h
  exact parseDecrypted_fields h

/-- The two validators agree where a map header is read, what an earlier call
left in the scratch does not matter, and the lazy readers can rely on the
fields of every accepted message. -/
theorem validators_agree {LocalIdentity VerifyingKey : Type}
    (P : InboundPlatform LocalIdentity VerifyingKey) :
    (∀ fields (scratch scratch' : FieldScratch),
      (validateFields fields).eval scratch = (validateFields fields).eval scratch') ∧
    (∀ fields r scratch, readMapHeader fields = .ok r →
      ((validateFields fields).eval scratch = .ok () ↔
        validateFieldsWithoutScratch fields = .ok ())) ∧
    (∀ me data sourcePublicKey buffers view,
      (parseLink P.toPlatform me data sourcePublicKey).eval buffers = .ok view → IsMap view.fields →
        Usable view.fields) ∧
    ∀ me packetPayload sourcePublicKey buffers view,
      (parseOpportunistic P me packetPayload sourcePublicKey).eval buffers = .ok view →
      IsMap view.fields → Usable view.fields := by
  have heval (fields : Bytes) (scratch : FieldScratch) :
      (validateFields fields).eval scratch = checkFields fields := run_validateFields scratch
  refine ⟨?_, ?_, ?_, ?_⟩
  · intro fields scratch scratch'
    rw [heval, heval]
  · intro fields r scratch h
    rw [heval]
    exact checkFields_iff ⟨r, h⟩
  · intro me data sourcePublicKey buffers view h hm
    obtain ⟨hv, hc⟩ := parseLink_fields h
    exact usable_of_checked hv hc hm
  · intro me packetPayload sourcePublicKey buffers view h hm
    obtain ⟨hv, hc⟩ := parseOpportunistic_fields h
    exact usable_of_checked hv hc hm

end LxmfLite.Validation
