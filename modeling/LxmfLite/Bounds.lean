import LxmfLite.Contracts
import LxmfLite.FieldMaps

namespace LxmfLite.Bounds

open ByteString Execution SelfDelimiting MessagePack KeyedMap Message Reader Skipping FieldReading
  FieldMaps Contracts

variable {data fields : Bytes}

/-- Where a reader that starts at pos may end. -/
def Past (data : Bytes) (pos e : Nat) : Prop := pos < e ∧ e ≤ data.length

theorem past_of_prefix {pos : Nat} {enc : Bytes} (hp : enc <+: data.drop pos) (hne : enc ≠ []) :
    Past data pos (pos + enc.length) := by
  have hlen := List.length_pos_iff.mpr hne
  exact ⟨by omega, prefix_end_of_ne_nil hp hne⟩

theorem ensures_skipLevels (data : Bytes) (levels pos : Nat) :
    Ensures (skipLevels data levels pos) (Past data pos) := by
  apply ensures_of_okOr (malformed_skipLevels levels pos)
  intro e he
  cases levels with
  | zero => exact absurd he (fail_ne_ok _ _)
  | succ levels =>
      have hacc : Accepts data (skipLevels data (levels + 1)) (Value levels 0) :=
        skipLevels_accepts (by omega)
      obtain ⟨enc, hp, hv, rfl⟩ := (hacc pos e).mp he
      exact past_of_prefix hp hv.ne_nil

theorem ensures_skipValue (data : Bytes) (pos depth : Nat) :
    Ensures (skipValue data pos depth) (Past data pos) := by
  rw [skipValue_levels]
  exact ensures_skipLevels data _ pos

theorem ensures_readBin (data : Bytes) (pos : Nat) :
    Ensures (readBin data pos) (fun r => Past data pos r.2) := by
  apply ensures_of_okOr (malformed_readBin pos)
  rintro ⟨payload, e⟩ he
  obtain ⟨enc, hp, hb, rfl⟩ := readBin_eq_ok.mp he
  exact past_of_prefix hp hb.ne_nil

theorem ensures_readFieldId (data : Bytes) (pos : Nat) :
    Ensures (readFieldId data pos) (fun r => Past data pos r.2) := by
  apply ensures_of_okOr (okOr_readFieldId data pos)
  rintro ⟨id, e⟩ he
  obtain ⟨enc, hp, hi, rfl⟩ := readFieldId_eq_ok.mp he
  exact past_of_prefix hp hi.ne_nil

theorem ensures_readMapHeader (data : Bytes) :
    Ensures (readMapHeader data) (fun r => Past data 0 r.1) := by
  apply ensures_of_okOr (okOr_readMapHeader data)
  rintro ⟨pos, count⟩ he
  obtain ⟨header, hp, hh, rfl⟩ := readMapHeader_eq_ok.mp he
  exact ⟨List.length_pos_iff.mpr (MapHeader.ne_nil hh), hp.length_le⟩

theorem ensures_rejectIf {c : Prop} [Decidable c] (e : LxmfError) :
    Ensures (rejectIf c e) (fun _ => True) := by
  rw [rejectIf]
  exact ensures_ite (fun _ => ensures_fail e) (fun _ => trivial)

theorem ensures_okOr {α : Type} {x : Maybe α} {Q : α → Prop} (h : Ensures x Q) (error : LxmfError) :
    Ensures (okOr x error) Q := by
  rcases x with (_ | _) | a
  · exact h
  · trivial
  · exact h

theorem ensures_ok {α : Type} {x : Result α} {Q : α → Prop} (h : Ensures x Q) : Ensures (ok x) Q := by
  rcases x with (_ | _) | a
  · exact h
  · trivial
  · exact h

theorem ensures_priorEntries (fields : Bytes) (key : FieldId) (count prior : Nat) :
    Ensures (priorEntries fields key count prior) (fun _ => True) := by
  induction count generalizing prior with
  | zero => trivial
  | succ count ih =>
      apply Ensures.bind (ensures_okOr (ensures_readFieldId fields prior) .malformedPayload)
      rintro ⟨previous, last⟩ -
      apply ensures_rejectIf_bind
      intro _
      apply Ensures.bind (ensures_skipValue fields last 0)
      intro e _
      exact ih e

/-- The position that the loop carries stays inside the bytes. -/
theorem ensures_entriesWithoutScratch (fields : Bytes) (first count position : Nat) {pos : Nat}
    (h : pos ≤ fields.length) :
    Ensures (entriesWithoutScratch fields first count position pos)
      (fun e => pos ≤ e ∧ e ≤ fields.length) := by
  induction count generalizing position pos with
  | zero => exact ⟨Nat.le_refl pos, h⟩
  | succ count ih =>
      apply Ensures.bind (ensures_okOr (ensures_readFieldId fields pos) .malformedPayload)
      rintro ⟨key, afterKey⟩ hkey
      apply Ensures.bind (ensures_priorEntries fields key position first)
      intro _ _
      apply Ensures.bind (ensures_skipValue fields afterKey 0)
      intro e he
      apply (ih (position + 1) he.2).mono
      intro e' he'
      exact ⟨Nat.le_trans (Nat.le_of_lt (Nat.lt_trans hkey.1 he.1)) he'.1, he'.2⟩

theorem ensures_validateFieldsWithoutScratch (fields : Bytes) :
    Ensures (validateFieldsWithoutScratch fields) (fun _ => True) := by
  apply Ensures.bind (ensures_okOr (ensures_readMapHeader fields) .malformedPayload)
  rintro ⟨first, count⟩ hfirst
  apply ensures_rejectIf_bind
  intro _
  apply Ensures.bind (ensures_entriesWithoutScratch fields first count 0 hfirst.2)
  intro e _
  exact ensures_rejectIf _

theorem ensures_lookupEntries (fields : Bytes) (key : FieldId) (count pos : Nat) :
    Ensures (lookupEntries fields key count pos) (fun _ => True) := by
  induction count generalizing pos with
  | zero => trivial
  | succ count ih =>
      apply Ensures.bind (ensures_readFieldId fields pos)
      rintro ⟨id, afterKey⟩ hkey
      apply Ensures.bind (ensures_ok (ensures_skipValue fields afterKey 0))
      intro e he
      apply ensures_ite
      · intro _
        exact (ensures_slice (Nat.le_of_lt he.1) he.2).mono (fun _ _ => trivial)
      · intro _
        exact ih e

theorem ensures_fieldValueId (fields : Bytes) (key : FieldId) :
    Ensures (fieldValueId fields key) (fun _ => True) := by
  apply Ensures.bind (ensures_ok (ensures_validateFieldsWithoutScratch fields))
  intro _ _
  apply Ensures.bind (ensures_readMapHeader fields)
  rintro ⟨pos, count⟩ _
  exact ensures_lookupEntries fields key count pos

theorem ensures_walk (fields : Bytes) (count : Nat) (seen : List Int) (pos : Nat) :
    Ensures (walk fields count seen pos) (fun _ => True) := by
  induction count generalizing seen pos with
  | zero => trivial
  | succ count ih =>
      apply Ensures.bind (ensures_okOr (ensures_readFieldId fields pos) .malformedPayload)
      rintro ⟨key, afterKey⟩ _
      apply ensures_rejectIf_bind
      intro _
      apply Ensures.bind (ensures_skipValue fields afterKey 0)
      intro e _
      exact ih _ e

theorem ensures_checkFields (fields : Bytes) : Ensures (checkFields fields) (fun _ => True) := by
  rw [checkFields]
  rcases okOr_readMapHeader fields with ⟨⟨pos, count⟩, h⟩ | h
  · rw [h]
    apply ensures_rejectIf_bind
    intro _
    apply ensures_rejectIf_bind
    intro _
    apply Ensures.bind (ensures_walk fields count [] pos)
    intro e _
    exact ensures_rejectIf _
  · rw [h]
    trivial

theorem okOr_of_ensures {α : Type} {x : Maybe α} {Q : α → Prop} (h : Ensures x Q) : OkOr () x := by
  rcases x with (_ | _) | a
  · exact absurd h (fun h => h)
  · exact .inr rfl
  · exact .inl ⟨a, rfl⟩

end LxmfLite.Bounds
