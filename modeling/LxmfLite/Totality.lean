import LxmfLite.Arrays
import LxmfLite.Audio
import LxmfLite.Opportunistic
import LxmfLite.Replies
import LxmfLite.SchemaMaps

namespace LxmfLite.Totality

open ByteString Execution SelfDelimiting MessagePack Message Primitives Reader Skipping FieldMaps Parse
  Authentication Contracts Bounds Audio Opportunistic SchemaMaps Replies Arrays

variable {LocalIdentity VerifyingKey : Type} {data : Bytes}

theorem ensures_some {ε α : Type} (o : Option α) (e : ε) : Ensures (orFail o e) (fun _ => True) :=
  ensures_orFail e (fun _ _ => trivial)

section Tickets

theorem numberWidth_le {b w : Nat} (h : numberWidth b = some w) : w ≤ 8 := by
  rw [numberWidth] at h
  repeat' split at h
  all_goals cases h
  all_goals omega

theorem ensures_readNumber (data : Bytes) (pos : Nat) :
    Ensures (readNumber data pos) (fun r => Past data pos r.2) := by
  apply Ensures.bind (ensures_orFail (Q := fun _ => pos < data.length) _ ?_)
  · intro marker hpos
    apply ensures_ite
    · intro _
      exact ⟨Nat.lt_succ_self pos, hpos⟩
    intro _
    apply ensures_ite
    · intro _
      exact ⟨Nat.lt_succ_self pos, hpos⟩
    intro _
    apply Ensures.bind (ensures_orFail (Q := fun w => w ≤ 8) _ (fun _ => numberWidth_le))
    intro width hwidth
    apply ensures_rejectIf_bind
    intro hlen
    have hend : pos + 1 + width ≤ data.length := Nat.le_of_not_lt hlen
    have hbytes : (data.extract (pos + 1) (pos + 1 + width)).length = width := by
      rw [extract_length hend, Nat.add_sub_cancel_left]
    apply Ensures.bind (ensures_copyFromSlice _ (Nat.le_of_eq List.length_replicate.symm))
    · intro raw _
      exact ⟨by omega, hend⟩
    · rw [hbytes]
      omega
  · intro marker hm
    exact (List.getElem?_eq_some_iff.mp hm).1

theorem ensures_ticketField (fields : Bytes) (now : F64) :
    Ensures (ticketField fields now) (fun _ => True) := by
  apply Ensures.bind (ensures_fieldValueId fields _)
  intro value _
  apply Ensures.bind (ensures_some _ _)
  intro first _
  apply Ensures.bind (ensures_readNumber value first)
  rintro ⟨expires, after⟩ _
  apply Ensures.bind (ensures_ok (ensures_readBin value after))
  rintro ⟨ticket, last⟩ _
  apply ensures_rejectIf_bind
  intro _
  apply Ensures.bind (ensures_some _ _)
  intro ticket _
  trivial

end Tickets

section Items

/-- The first item starts behind the header, inside the bytes. -/
theorem ensures_arrayItems (data : Bytes) :
    Ensures (arrayItems data) (fun items => items.data = data ∧ Past data 0 items.pos) := by
  rcases arrayItems_cases data with ⟨a, rfl⟩ | ⟨-, hf⟩
  · rw [arrayItems_bytes]
    exact ⟨rfl, a.past_start⟩
  · rw [hf]
    trivial

theorem ensures_valueAsBytes (value : Bytes) : Ensures (valueAsBytes value) (fun _ => True) := by
  apply Ensures.bind (ensures_ok (ensures_readBin value 0))
  rintro ⟨bytes, _⟩ _
  trivial

theorem ensures_responseData (data : Bytes) (expectedId : Block 16) :
    Ensures (responseData data expectedId) (fun _ => True) := by
  apply Ensures.bind (ensures_arrayItems data)
  intro items _
  apply ensures_rejectIf_bind
  intro _
  apply Ensures.bind (ensures_okOr (ensures_next items) _)
  rintro ⟨id, items⟩ _
  apply Ensures.bind (ensures_okOr (ensures_valueAsBytes id) _)
  intro found _
  apply ensures_rejectIf_bind
  intro _
  apply Ensures.bind (ensures_okOr (ensures_next items) _)
  rintro ⟨value, _⟩ _
  trivial

theorem ensures_availableItems (wanted left position : Nat) (items : ArrayItems)
    (first : Option (Block 32)) :
    Ensures (availableItems wanted left position items first) (fun _ => True) := by
  induction left generalizing position items first with
  | zero => trivial
  | succ left ih =>
      rw [availableItems]
      rcases okOr_of_ensures (ensures_next items) with ⟨⟨item, items'⟩, hn⟩ | hn
      · rw [hn]
        apply Ensures.bind (ensures_okOr (ensures_valueAsBytes item) _)
        intro id _
        apply Ensures.bind (ensures_some _ _)
        intro id _
        exact ih _ _ _
      · rw [hn]
        trivial

theorem ensures_availableAt (data : Bytes) (wanted : Nat) :
    Ensures (availableAt data wanted) (fun _ => True) := by
  apply Ensures.bind (ensures_arrayItems data)
  intro items _
  apply Ensures.bind (ensures_availableItems wanted items.remaining 0 items none)
  intro first _
  trivial

theorem ensures_fetchedMessage (data : Bytes) : Ensures (fetchedMessage data) (fun _ => True) := by
  apply Ensures.bind (ensures_arrayItems data)
  intro items _
  apply ensures_rejectIf_bind
  intro _
  rcases okOr_of_ensures (ensures_next items) with ⟨⟨item, items'⟩, hn⟩ | hn
  · rw [hn]
    apply Ensures.bind (ensures_okOr (ensures_valueAsBytes item) _)
    intro message _
    trivial
  · rw [hn]
    trivial

end Items

section Announces

theorem ensures_unsigned (data : Bytes) : Ensures (unsigned data) (fun _ => True) := by
  apply Ensures.bind (ensures_orFail (Q := fun _ => 0 < data.length) _ ?_)
  · intro marker hpos
    apply ensures_ite
    · intro _
      trivial
    intro _
    apply ensures_ite
    · intro _
      apply Ensures.bind (ensures_index hpos)
      intro first _
      apply Ensures.bind (ensures_ite (fun _ => ensures_some _ _) (fun _ => ensures_some _ _))
      intro number _
      apply ensures_rejectIf_bind
      intro _
      trivial
    · intro _
      apply Ensures.bind (ensures_some _ _)
      rintro ⟨width, signed⟩ _
      apply Ensures.bind (ensures_some _ _)
      intro value _
      exact ensures_ite (fun _ => ensures_some _ _) (fun _ => trivial)
  · intro marker hm
    exact (List.getElem?_eq_some_iff.mp hm).1

theorem ensures_toOption {α : Type} {x : Maybe α} (h : Ensures x (fun _ => True)) :
    Ensures (toOption x) (fun _ => True) := by
  rcases x with (_ | _) | a
  · exact h
  · trivial
  · trivial

theorem ensures_parseNodeAnnounce (data : Bytes) :
    Ensures (parseNodeAnnounce data) (fun _ => True) := by
  apply Ensures.bind (ensures_ok (ensures_arrayItems data))
  intro items _
  apply ensures_rejectIf_bind
  intro _
  apply Ensures.bind (ensures_next items)
  rintro ⟨_, items⟩ _
  apply Ensures.bind (ensures_next items)
  rintro ⟨item, items⟩ _
  apply Ensures.bind (ensures_unsigned item)
  intro timebase _
  apply ensures_rejectIf_bind
  intro _
  apply Ensures.bind (ensures_next items)
  rintro ⟨item, items⟩ _
  apply Ensures.bind (ensures_some _ _)
  intro enabled _
  apply Ensures.bind (ensures_next items)
  rintro ⟨item, items⟩ _
  apply Ensures.bind (ensures_unsigned item)
  intro transferLimitKb _
  apply Ensures.bind (ensures_next items)
  rintro ⟨item, items⟩ _
  apply Ensures.bind (ensures_unsigned item)
  intro syncLimitKb _
  apply ensures_rejectIf_bind
  intro _
  apply ensures_rejectIf_bind
  intro _
  apply Ensures.bind (ensures_next items)
  rintro ⟨item, items⟩ _
  apply Ensures.bind (ensures_ok (ensures_arrayItems item))
  intro costs _
  apply ensures_rejectIf_bind
  intro _
  apply Ensures.bind (ensures_next costs)
  rintro ⟨cost, costs⟩ _
  apply Ensures.bind (ensures_unsigned cost)
  intro cost _
  apply Ensures.bind (ensures_some _ _)
  intro stampCost _
  apply Ensures.bind (ensures_next costs)
  rintro ⟨cost, costs⟩ _
  apply Ensures.bind (ensures_unsigned cost)
  intro cost _
  apply Ensures.bind (ensures_some _ _)
  intro stampFlex _
  apply Ensures.bind (ensures_next costs)
  rintro ⟨cost, _⟩ _
  apply Ensures.bind (ensures_unsigned cost)
  intro cost _
  apply Ensures.bind (ensures_some _ _)
  intro peeringCost _
  apply Ensures.bind (ensures_next items)
  rintro ⟨metadata, _⟩ _
  apply Ensures.bind (ensures_some _ _)
  intro marker _
  apply ensures_rejectIf_bind
  intro _
  apply Ensures.bind
  · apply ensures_toOption
    apply Ensures.bind (ensures_fieldValueId metadata _)
    intro value _
    exact ensures_valueAsBytes value
  · intro name _
    trivial

theorem ensures_deliveryStampCost (data : Bytes) :
    Ensures (deliveryStampCost data) (fun _ => True) := by
  apply Ensures.bind (ensures_ok (ensures_arrayItems data))
  intro items _
  apply Ensures.bind (ensures_next items)
  rintro ⟨_, items⟩ _
  apply Ensures.bind (ensures_next items)
  rintro ⟨cost, _⟩ _
  apply ensures_ite
  · intro _
    trivial
  · intro _
    apply ensures_rejectIf_bind
    intro _
    apply Ensures.bind (ensures_unsigned cost)
    intro cost _
    apply Ensures.bind (ensures_some _ _)
    intro cost _
    trivial

end Announces

section Messages

variable (P : Platform LocalIdentity VerifyingKey)

theorem ensures_authenticate (me : LocalIdentity) (sourcePublicKey : Block 64) (source : Block 16)
    (signature : Block 64) (payload : Bytes) (room : Nat) :
    Ensures (authenticate P me sourcePublicKey source signature payload room) (fun _ => True) := by
  apply ensures_rejectIf_bind
  intro _
  apply Ensures.bind (ensures_of_okOr (Decoding.malformed_frame payload) (Q := fun _ => True)
    (fun _ _ => trivial))
  intro d _
  apply Ensures.bind (ensures_checkFields d.fields)
  intro _ _
  apply ensures_rejectIf_bind
  intro _
  apply Ensures.bind (ensures_some _ _)
  intro key _
  apply ensures_rejectIf_bind
  intro _
  trivial

theorem ensures_parseLink (me : LocalIdentity) (data : Bytes) (sourcePublicKey : Block 64)
    (buffers : LinkScratch) :
    Ensures ((parseLink P me data sourcePublicKey).eval buffers) (fun _ => True) := by
  by_cases hlen : data.length < 97
  · rw [eval_parseLink_short hlen]
    exact ensures_fail _
  · obtain ⟨dest, source, signature, payload, rfl, hne⟩ := exists_packed (Nat.le_of_not_lt hlen)
    rw [eval_parseLink hne]
    exact ensures_ite (fun _ => ensures_fail _) (fun _ => ensures_authenticate P _ _ _ _ _ _)

theorem ensures_parseDecrypted (me : LocalIdentity) (sourcePublicKey : Block 64) {scratch : Bytes}
    {ptLen : Nat} (h : ptLen ≤ scratch.length) (fieldScratch : FieldScratch) :
    Ensures ((parseDecrypted P me sourcePublicKey scratch ptLen).eval fieldScratch)
      (fun _ => True) := by
  by_cases hlen : ptLen < 81
  · rw [eval_parseDecrypted_short h hlen]
    exact ensures_fail _
  · obtain ⟨source, signature, payload, htake, hne⟩ := exists_plaintext
      (show 81 ≤ (scratch.take ptLen).length by rw [List.length_take_of_le h]; omega)
    rw [eval_parseDecrypted_opened hne (by rw [slice_take h, htake])]
    exact ensures_authenticateOpened P me sourcePublicKey source signature payload

end Messages

theorem ensures_readAudioInteger (value : Bytes) :
    Ensures (readAudioInteger value) (fun r => 0 < r.2 ∧ r.2 ≤ value.length) := by
  apply ensures_of_okOr (okOr_readAudioInteger value)
  rintro ⟨mode, width⟩ h
  obtain ⟨enc, hp, hi, rfl⟩ := readAudioInteger_eq_ok.mp h
  exact ⟨List.length_pos_iff.mpr hi.ne_nil, hp.length_le⟩

/-- No input makes a decoder panic, and no reader stands still or leaves its
slice. -/
theorem decoders_total (P : Platform LocalIdentity VerifyingKey) (isUtf8 : Bytes → Bool) :
    (∀ me data sourcePublicKey buffers,
      (parseLink P me data sourcePublicKey).eval buffers ≠ panic) ∧
    (∀ me sourcePublicKey scratch ptLen fieldScratch, ptLen ≤ scratch.length →
      (parseDecrypted P me sourcePublicKey scratch ptLen).eval fieldScratch ≠ panic) ∧
    (∀ fields, (∀ key, fieldValueId fields key ≠ panic) ∧
      (∀ scratch, (validateFields fields).eval scratch ≠ panic) ∧ audioField fields ≠ panic ∧
      (∀ now, ticketField fields now ≠ panic) ∧ ∀ key, mapBytesValue isUtf8 fields key ≠ panic) ∧
    (∀ data, arrayItems data ≠ panic ∧ (∀ id, responseData data id ≠ panic) ∧
      (∀ index, availableAt data index ≠ panic) ∧ fetchedMessage data ≠ panic ∧
      parseNodeAnnounce data ≠ panic ∧ deliveryStampCost data ≠ panic) ∧
    (∀ items : ArrayItems, Ensures items.next
      (fun r => r.2.data = items.data ∧ Past items.data items.pos r.2.pos)) ∧
    ∀ data pos, (∀ depth, Ensures (skipValue data pos depth) (Past data pos)) ∧
      Ensures (readBin data pos) (fun r => Past data pos r.2) ∧
      Ensures (readFieldId data pos) (fun r => Past data pos r.2) ∧
      Ensures (readSchemaKey isUtf8 data pos) (fun r => Past data pos r.2) ∧
      Ensures (readNumber data pos) (fun r => Past data pos r.2) ∧
      Ensures (readMapHeader data) (fun r => Past data 0 r.1) ∧
      Ensures (readAudioInteger data) (fun r => Past data 0 r.2) := by
  refine ⟨fun me data key buffers => (ensures_parseLink P me data key buffers).not_panic,
    fun me key scratch ptLen fieldScratch h => (ensures_parseDecrypted P me key h fieldScratch).not_panic,
    fun fields => ⟨fun key => (ensures_fieldValueId fields key).not_panic, fun scratch => ?_,
      (ensures_audioField fields).not_panic, fun now => (ensures_ticketField fields now).not_panic,
      fun key => (ensures_mapBytesValue isUtf8 fields key).not_panic⟩,
    fun data => ⟨(ensures_arrayItems data).not_panic, fun id => (ensures_responseData data id).not_panic,
      fun index => (ensures_availableAt data index).not_panic, (ensures_fetchedMessage data).not_panic,
      (ensures_parseNodeAnnounce data).not_panic, (ensures_deliveryStampCost data).not_panic⟩,
    ensures_next,
    fun data pos => ⟨ensures_skipValue data pos, ensures_readBin data pos, ensures_readFieldId data pos,
      ensures_readSchemaKey isUtf8 data pos, ensures_readNumber data pos, ensures_readMapHeader data,
      ensures_readAudioInteger data⟩⟩
  rw [Exec.eval, run_validateFields]
  exact (ensures_checkFields fields).not_panic

end LxmfLite.Totality
