import LxmfLite.FieldMaps
import LxmfLite.Parse

namespace LxmfLite.Decoding

open ByteString Execution SelfDelimiting MessagePack Message Reader Skipping FieldReading

variable {payload : Bytes}

structure Elements where
  timestamp : F64
  title : Bytes
  content : Bytes
  fields : Bytes
  length : Nat

/-- The positional decode that both parsers make. -/
def frame (payload : Bytes) : Result Elements := do
  rejectIf (payload.length = 0) .malformedPayload
  let marker ← index payload 0
  rejectIf (¬(0x94 ≤ marker.toNat ∧ marker.toNat ≤ 0x9f)) .malformedPayload
  rejectIf (payload.length < 10) .malformedPayload
  let second ← index payload 1
  rejectIf (second ≠ 0xcb) .malformedPayload
  let timestampBytes ← slice payload 2 10
  let (title, afterTitle) ← readBin payload 10
  let (content, afterContent) ← readBin payload afterTitle
  let afterFields ← skipValue payload afterContent 0
  let fields ← slice payload afterContent afterFields
  pure ⟨F64.fromBeBytes timestampBytes, title, content, fields, afterFields⟩

/-- A payload that starts with an array of four or more elements, the first
four of them the elements given. -/
inductive Framed : Bytes → Elements → Prop
  | mk {m : UInt8} {stamp title content titleEnc contentEnc fields : Bytes} (rest : Bytes)
      (hm : 0x94 ≤ m.toNat ∧ m.toNat ≤ 0x9f) (hs : stamp.length = 8) (ht : Blob titleEnc title)
      (hc : Blob contentEnc content) (hf : Value 8 0 fields) :
      Framed (m :: 0xcb :: (stamp ++ (titleEnc ++ (contentEnc ++ (fields ++ rest)))))
        ⟨F64.fromBeBytes stamp, title, content, fields,
          10 + titleEnc.length + contentEnc.length + fields.length⟩

theorem frame_tail {timestamp t : F64} {title content fields : Bytes} {length : Nat} :
    (do
      let (title, afterTitle) ← readBin payload 10
      let (content, afterContent) ← readBin payload afterTitle
      let afterFields ← skipValue payload afterContent 0
      let fields ← slice payload afterContent afterFields
      pure ⟨timestamp, title, content, fields, afterFields⟩ : Result Elements) =
      .ok ⟨t, title, content, fields, length⟩ ↔
    ∃ titleEnc contentEnc, titleEnc ++ (contentEnc ++ fields) <+: payload.drop 10 ∧
      Blob titleEnc title ∧ Blob contentEnc content ∧ Value 8 0 fields ∧
      t = timestamp ∧ length = 10 + titleEnc.length + contentEnc.length + fields.length := by
  simp only [bind_eq_ok, Prod.exists]
  constructor
  · rintro ⟨title', afterTitle, ht, content', afterContent, hc, afterFields, hf, fields', hs, hd⟩
    obtain ⟨titleEnc, htp, htb, rfl⟩ := readBin_eq_ok.mp ht
    obtain ⟨contentEnc, hcp, hcb, rfl⟩ := readBin_eq_ok.mp hc
    obtain ⟨fieldsEnc, hfp, hfv, rfl⟩ := skipValue_eq_ok.mp hf
    rw [slice_eq (Nat.le_add_right _ _) (prefix_end_of_ne_nil hfp hfv.ne_nil),
      prefix_extract hfp] at hs
    cases hs
    cases hd
    exact ⟨titleEnc, contentEnc, prefix_append_iff.mpr ⟨htp, prefix_append_iff.mpr ⟨hcp, hfp⟩⟩, htb,
      hcb, hfv, rfl, rfl⟩
  · rintro ⟨titleEnc, contentEnc, hp, htb, hcb, hfv, ht, hl⟩
    rw [prefix_append_iff, prefix_append_iff] at hp
    subst ht hl
    refine ⟨title, _, readBin_eq_ok.mpr ⟨titleEnc, hp.1, htb, rfl⟩, content, _,
      readBin_eq_ok.mpr ⟨contentEnc, hp.2.1, hcb, rfl⟩, _,
      skipValue_eq_ok.mpr ⟨fields, hp.2.2, hfv, rfl⟩, fields, ?_, rfl⟩
    rw [slice_eq (Nat.le_add_right _ _) (prefix_end_of_ne_nil hp.2.2 hfv.ne_nil),
      prefix_extract hp.2.2]

theorem malformed_slice_behind {afterContent afterFields : Nat}
    (h : skipValue payload afterContent 0 = .ok afterFields) :
    Malformed (slice payload afterContent afterFields) := by
  obtain ⟨fields, hp, hv, rfl⟩ := skipValue_eq_ok.mp h
  exact .inl ⟨_, slice_eq (Nat.le_add_right _ _) (prefix_end_of_ne_nil hp hv.ne_nil)⟩

theorem frame_cons {m second : UInt8} {tail : Bytes} (hm : 0x94 ≤ m.toNat ∧ m.toNat ≤ 0x9f) :
    frame (m :: second :: tail) = if tail.length < 8 ∨ second ≠ 0xcb then fail .malformedPayload else (do
      let (title, afterTitle) ← readBin (m :: second :: tail) 10
      let (content, afterContent) ← readBin (m :: second :: tail) afterTitle
      let afterFields ← skipValue (m :: second :: tail) afterContent 0
      let fields ← slice (m :: second :: tail) afterContent afterFields
      pure ⟨F64.fromBeBytes (tail.take 8), title, content, fields, afterFields⟩) := by
  have hsecond : (index (m :: second :: tail) 1 : Result UInt8) = .ok second := rfl
  simp only [frame, rejectIf_bind, index_cons_zero, ok_bind, hsecond, List.length_cons]
  rw [if_neg (by omega), if_neg (by omega)]
  by_cases hl : tail.length < 8
  · rw [if_pos (by omega), if_pos (.inl hl)]
  · rw [if_neg (by omega)]
    by_cases hs : second ≠ 0xcb
    · rw [if_pos hs, if_pos (.inr hs)]
    · rw [if_neg hs, if_neg (by tauto), slice_eq (by omega) (by simp only [List.length_cons]; omega),
        ok_bind]
      rfl

theorem frame_eq_ok {d : Elements} : frame payload = .ok d ↔ Framed payload d := by
  constructor
  · intro h
    match payload, h with
    | [], h => exact absurd h (by simp [frame])
    | [m], h =>
        simp only [frame, rejectIf_bind, index_cons_zero, ok_bind, List.length_cons,
          List.length_nil] at h
        rw [if_neg (by omega), if_pos (c := 0 + 1 < 10) (by omega)] at h
        split at h <;> exact absurd h (by simp)
    | m :: second :: tail, h =>
        by_cases hm : 0x94 ≤ m.toNat ∧ m.toNat ≤ 0x9f
        · rw [frame_cons hm] at h
          split at h
          · exact absurd h (by simp)
          next hg =>
          have hl : 8 ≤ tail.length := by omega
          obtain rfl : second = 0xcb := by tauto
          obtain ⟨t, title, content, fields, length⟩ := d
          obtain ⟨titleEnc, contentEnc, ⟨rest, hp⟩, ht, hc, hf, rfl, rfl⟩ := frame_tail.mp h
          rw [List.drop_succ_cons, List.drop_succ_cons] at hp
          have htail : tail = tail.take 8 ++ (titleEnc ++ (contentEnc ++ (fields ++ rest))) := by
            simp only [List.append_assoc] at hp
            rw [hp, List.take_append_drop]
          have hframed := Framed.mk rest hm (List.length_take_of_le hl) ht hc hf
          rwa [← htail] at hframed
        · simp only [frame, rejectIf_bind, index_cons_zero, ok_bind, List.length_cons] at h
          rw [if_neg (by omega), if_pos hm] at h
          exact absurd h (by simp)
  · intro h
    cases h with
    | @mk m stamp title content titleEnc contentEnc fields rest hm hs ht hc hf =>
        rw [frame_cons hm, if_neg (by
          rintro (hl | hne)
          · rw [List.length_append] at hl
            omega
          · exact hne rfl)]
        refine frame_tail.mpr ⟨titleEnc, contentEnc, ⟨rest, ?_⟩, ht, hc, hf, ?_, rfl⟩
        · rw [List.drop_succ_cons, List.drop_succ_cons, ← hs, List.drop_left]
          simp only [List.append_assoc]
        · rw [List.take_left' hs]

theorem malformed_index {i : Nat} (h : i < payload.length) : Malformed (index payload i) :=
  .inl ⟨_, index_of_lt h⟩

/-- Every error of the decode is MalformedPayload. -/
theorem malformed_frame (payload : Bytes) : Malformed (frame payload) := by
  simp only [frame, rejectIf_bind]
  apply okOr_ite
  intro hne
  apply OkOr.bind (malformed_index (by omega))
  intro marker
  refine okOr_ite (fun _ => okOr_ite (fun hl => ?_))
  refine OkOr.bind (malformed_index (by omega)) (fun second => okOr_ite (fun _ => ?_))
  rw [slice_eq (by omega) (by omega), ok_bind]
  refine OkOr.bind (malformed_readBin _) (fun t => OkOr.bind (malformed_readBin _) (fun c => ?_))
  rcases malformed_skipValue payload c.2 0 with ⟨afterFields, hf⟩ | hf
  · rw [hf, ok_bind]
    exact (malformed_slice_behind hf).bind (fun fields => .inl ⟨_, rfl⟩)
  · rw [hf]
    exact .inr rfl

theorem value_timestamp {stamp : Bytes} (h : stamp.length = 8) : Value 8 0 (0xcb :: stamp) :=
  .inline (by omega) rfl h

/-- The elements are decoded from the first four values alone: neither the
count in the marker nor what follows them matters. -/
theorem Framed.of_values {m m' : UInt8} {a b c f r : Bytes} (r' : Bytes) {da db dc df : Nat}
    {d : Elements}    (ha : Value 8 da a) (hb : Value 8 db b) (hc : Value 8 dc c) (hf : Value 8 df f)
    (hm : 0x94 ≤ m'.toNat ∧ m'.toNat ≤ 0x9f)
    (h : Framed (m :: (a ++ (b ++ (c ++ (f ++ r))))) d) :
    Framed (m' :: (a ++ (b ++ (c ++ (f ++ r'))))) d ∧
      d.length = 1 + (a ++ (b ++ (c ++ f))).length := by
  generalize hp : m :: (a ++ (b ++ (c ++ (f ++ r)))) = payload at h
  obtain @⟨m, stamp, title, content, titleEnc, contentEnc, fields, rest, -, hs, ht, hc', hf'⟩ := h
  obtain ⟨-, hp⟩ := List.cons.inj hp
  rw [← List.cons_append] at hp
  obtain ⟨rfl, htitle⟩ := ha.rest_unique (value_timestamp hs) hp
  obtain ⟨rfl, hcontent⟩ := hb.rest_unique (ht.value (Nat.zero_le 8)) htitle
  obtain ⟨rfl, hfields⟩ := hc.rest_unique (hc'.value (Nat.zero_le 8)) hcontent
  obtain ⟨rfl, -⟩ := hf.rest_unique hf' hfields
  refine ⟨.mk _ hm hs ht hc' hf', ?_⟩
  simp only [List.length_append, List.length_cons, hs]
  omega

theorem frame_of_values {m m' : UInt8} {a b c f : Bytes} (r r' : Bytes) {da db dc df : Nat}
    (ha : Value 8 da a) (hb : Value 8 db b) (hc : Value 8 dc c) (hf : Value 8 df f)
    (hm : 0x94 ≤ m.toNat ∧ m.toNat ≤ 0x9f) (hm' : 0x94 ≤ m'.toNat ∧ m'.toNat ≤ 0x9f) :
    frame (m :: (a ++ (b ++ (c ++ (f ++ r))))) = frame (m' :: (a ++ (b ++ (c ++ (f ++ r'))))) := by
  apply (malformed_frame _).ext (malformed_frame _)
  intro d
  rw [frame_eq_ok, frame_eq_ok]
  exact ⟨fun h => (h.of_values _ ha hb hc hf hm').1, fun h => (h.of_values _ ha hb hc hf hm).1⟩

/-- The payload that is hashed and signed: cut behind the fields, its marker
set to four elements. -/
def stripped (payload : Bytes) (length : Nat) : Bytes := 0x94 :: (payload.take length).drop 1

theorem Framed.length_le {d : Elements} (h : Framed payload d) : d.length ≤ payload.length := by
  cases h
  simp only [List.length_cons, List.length_append]
  omega

/-- The signed payload decodes to the same elements. -/
theorem Framed.stripped {d : Elements} (h : Framed payload d) :
    Framed (stripped payload d.length) d := by
  obtain @⟨m, stamp, title, content, titleEnc, contentEnc, fields, rest, -, hs, ht, hc, hf⟩ := h
  have hsplit : m :: 0xcb :: (stamp ++ (titleEnc ++ (contentEnc ++ (fields ++ rest)))) =
      (m :: 0xcb :: (stamp ++ (titleEnc ++ (contentEnc ++ fields)))) ++ rest := by
    simp only [List.cons_append, List.append_assoc]
  rw [Decoding.stripped, hsplit, List.take_left' (by
    simp only [List.length_cons, List.length_append]
    omega)]
  have hmk := Framed.mk [] (show 0x94 ≤ (0x94 : UInt8).toNat ∧ _ by decide) hs ht hc hf
  rwa [List.append_nil] at hmk

end LxmfLite.Decoding
