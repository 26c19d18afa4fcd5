import LxmfLite.Audio
import LxmfLite.Replies

namespace LxmfLite.IntegerDecoders

open ByteString Execution SelfDelimiting MessagePack Message Reader Skipping FieldReading FieldLookup
  Audio Replies

variable {data : Bytes}

theorem readFieldId_start {id : FieldId} {e : Nat} : readFieldId data 0 = .ok (id, e) ↔
    ∃ enc, enc <+: data ∧ Integer enc id.val ∧ e = enc.length := by
  rw [readFieldId_eq_ok, List.drop_zero]
  simp only [Nat.zero_add]

theorem readFieldId_iff_skipValue {id : FieldId} {e : Nat} : readFieldId data 0 = .ok (id, e) ↔
    (∃ enc, enc <+: data ∧ Integer enc id.val) ∧ skipValue data 0 0 = .ok e := by
  rw [readFieldId_start, skipValue_eq_ok, List.drop_zero]
  constructor
  · rintro ⟨enc, hp, hi, rfl⟩
    exact ⟨⟨enc, hp, hi⟩, enc, hp, hi.value (Nat.zero_le 8), (Nat.zero_add _).symm⟩
  · rintro ⟨⟨enc, ⟨r, hr⟩, hi⟩, value, ⟨s, hs⟩, hv, rfl⟩
    have hu : enc = value := (hi.value (Nat.zero_le 8)).unique hv (hr.trans hs.symm)
    exact ⟨enc, ⟨r, hr⟩, hi, by rw [hu, Nat.zero_add]⟩

theorem readAudioInteger_iff {m : UInt8} {e : Nat} : readAudioInteger data = .ok (m, e) ↔
    ∃ id, readFieldId data 0 = .ok (id, e) ∧ id.val = m.toNat := by
  rw [readAudioInteger_eq_ok]
  constructor
  · rintro ⟨enc, hp, hi, he⟩
    exact ⟨⟨m.toNat, hi.range.1, hi.range.2⟩, readFieldId_start.mpr ⟨enc, hp, hi, he⟩, rfl⟩
  · rintro ⟨id, h, hid⟩
    obtain ⟨enc, hp, hi, he⟩ := readFieldId_start.mp h
    exact ⟨enc, hp, hid ▸ hi, he⟩

inductive Class (m : UInt8) : Prop
  | fix (h : m.toNat ≤ 0x7f)
  | negative (h : 0xe0 ≤ m.toNat)
  | wide (k : Nat) (signed : Bool) (hk : k < 4)
      (h : m.toNat = 0xcc + k ∧ signed = false ∨ m.toNat = 0xd0 + k ∧ signed = true)

def IntegerMarker (m : UInt8) : Prop :=
  m.toNat ≤ 0x7f ∨ 0xe0 ≤ m.toNat ∨ (0xcc ≤ m.toNat ∧ m.toNat ≤ 0xd3)

theorem integerMarker_class {m : UInt8} (h : IntegerMarker m) : Class m := by
  rcases h with h | h | h
  · exact .fix h
  · exact .negative h
  · by_cases hs : m.toNat ≤ 0xcf
    · exact .wide (m.toNat - 0xcc) false (by omega) (.inl ⟨by omega, rfl⟩)
    · exact .wide (m.toNat - 0xd0) true (by omega) (.inr ⟨by omega, rfl⟩)

theorem integer_marker {m : UInt8} {tail : Bytes} {n : Int} (h : Integer (m :: tail) n) :
    IntegerMarker m := by
  rw [IntegerMarker]
  cases h <;> omega

theorem prefix_integer_cons {m : UInt8} {tail : Bytes} {n : Int} :
    (∃ enc, enc <+: m :: tail ∧ Integer enc n) ↔ ∃ body, body <+: tail ∧ Integer (m :: body) n := by
  constructor
  · rintro ⟨enc, hp, hi⟩
    obtain ⟨body, rfl, hb⟩ := prefix_marker hp hi.ne_nil
    exact ⟨body, hb, hi⟩
  · rintro ⟨body, hb, hi⟩
    exact ⟨m :: body, List.cons_prefix_cons.mpr ⟨rfl, hb⟩, hi⟩

theorem prefix_integer_iff {m : UInt8} {tail : Bytes} {n : Int} {k : Nat} {signed : Bool} (hk : k < 4)
    (hm : m.toNat = 0xcc + k ∧ signed = false ∨ m.toNat = 0xd0 + k ∧ signed = true) :
    (∃ enc, enc <+: m :: tail ∧ Integer enc n) ↔ 2 ^ k ≤ tail.length ∧
      n = if signed then ofBeSigned (tail.take (2 ^ k)) else ofBe (tail.take (2 ^ k)) := by
  rw [prefix_integer_cons]
  constructor
  · rintro ⟨body, hbody, hi⟩
    obtain ⟨hl, hv⟩ := integer_wide_inv hk hm hi
    rw [← hl, ← List.prefix_iff_eq_take.mp hbody]
    exact ⟨hbody.length_le, hv⟩
  · rintro ⟨hl, rfl⟩
    exact ⟨tail.take (2 ^ k), List.take_prefix _ _, integer_wide hk hm (List.length_take_of_le hl)⟩

theorem getBe_cons {m : UInt8} {tail : Bytes} {n : Nat} : getBe (m :: tail) n =
    if n ≤ tail.length then some (ofBe (tail.take n)) else none := by
  rw [getBe, List.length_cons, List.extract_eq_take_drop, List.drop_succ_cons, List.drop_zero,
    Nat.add_sub_cancel_left]
  by_cases h : n ≤ tail.length
  · rw [if_pos h, if_pos (by omega)]
  · rw [if_neg h, if_neg (by omega)]

theorem unsignedWidth_eq_fieldIdWidth (b : Nat) : unsignedWidth b = fieldIdWidth b := rfl

theorem nonNegative_eq_some {bytes : Bytes} {k n : Nat} (hk : k < 4) (hb : bytes.length = 2 ^ k) :
    nonNegative (2 ^ k) (ofBe bytes) = some n ↔ (n : Int) = ofBeSigned bytes := by
  have hlt := ofBe_lt bytes
  rw [nonNegative, ofBeSigned]
  rw [hb] at hlt ⊢
  interval_cases k
  all_goals
    constructor
    · intro h
      split at h
      · obtain rfl := Option.some.inj h
        rw [if_pos (by omega)]
      · cases h
    · intro h
      split at h
      · rw [if_pos (by omega), Int.ofNat.inj h]
      · omega

section Unsigned

variable {m : UInt8} {tail : Bytes} {u : Nat}

theorem unsigned_fix (h : m.toNat ≤ 0x7f) : unsigned (m :: tail) = .ok m.toNat := if_pos h

theorem unsigned_refused (hf : ¬(m.toNat = 0xca ∨ m.toNat = 0xcb)) (h : 0x7f < m.toNat)
    (hw : m.toNat < 0xcc ∨ 0xd3 < m.toNat) : unsigned (m :: tail) ≠ .ok u := by
  rw [unsigned, List.getElem?_cons_zero, orFail_some, ok_bind, if_neg (Nat.not_le.mpr h), if_neg hf,
    unsignedWidth_eq_fieldIdWidth, fieldIdWidth_eq_none hw]
  exact fail_ne_ok _ _

theorem unsigned_wide {k : Nat} {signed : Bool} (hk : k < 4)
    (hm : m.toNat = 0xcc + k ∧ signed = false ∨ m.toNat = 0xd0 + k ∧ signed = true) :
    unsigned (m :: tail) = .ok u ↔ 2 ^ k ≤ tail.length ∧
      (u : Int) = if signed then ofBeSigned (tail.take (2 ^ k)) else ofBe (tail.take (2 ^ k)) := by
  have hw := fieldIdWidth_eq.mpr ⟨k, hk, rfl, hm⟩
  rw [unsigned, List.getElem?_cons_zero, orFail_some, ok_bind, if_neg (by omega), if_neg (by omega),
    unsignedWidth_eq_fieldIdWidth, hw, orFail_some, ok_bind]
  simp only [getBe_cons]
  by_cases hl : 2 ^ k ≤ tail.length
  · rw [if_pos hl, orFail_some, ok_bind, and_iff_right hl]
    cases signed with
    | false =>
        constructor
        · intro hu
          cases hu
          rfl
        · intro hv
          rw [Int.ofNat.inj hv]
          rfl
    | true =>
        simp only [if_true]
        rw [orFail_eq_ok, nonNegative_eq_some hk (List.length_take_of_le hl)]
  · rw [if_neg hl, orFail_none, fail_bind]
    exact iff_of_false (fail_ne_ok _ _) (fun h => hl h.1)

theorem unsigned_eq_ok (hf : data[0]? ≠ some 0xca ∧ data[0]? ≠ some 0xcb) :
    unsigned data = .ok u ↔ ∃ enc, enc <+: data ∧ Integer enc u := by
  cases data with
  | nil =>
      constructor
      · intro h
        exact absurd h (by simp [unsigned])
      · rintro ⟨enc, hp, hi⟩
        exact absurd (List.prefix_nil.mp hp) hi.ne_nil
  | cons m tail =>
      have hnf : ¬(m.toNat = 0xca ∨ m.toNat = 0xcb) := by
        rintro (hm | hm)
        · exact hf.1 (congrArg some (byte_ext hm))
        · exact hf.2 (congrArg some (byte_ext hm))
      by_cases hm : IntegerMarker m
      · cases integerMarker_class hm with
        | fix h =>
            rw [unsigned_fix h, prefix_integer_cons]
            constructor
            · intro hu
              cases hu
              exact ⟨[], List.nil_prefix, .fix h⟩
            · rintro ⟨body, -, hi⟩
              rw [Int.ofNat.inj (integer_fix_inv h hi).2]
        | negative h =>
            refine iff_of_false (unsigned_refused hnf (by omega) (.inr (by omega))) ?_
            rw [prefix_integer_cons]
            rintro ⟨body, -, hi⟩
            have hn := (integer_negative_inv h hi).2
            have hlt := toNat_lt m
            omega
        | wide k signed hk h => rw [unsigned_wide hk h, prefix_integer_iff hk h]
      · have hm' := hm
        rw [IntegerMarker] at hm'
        refine iff_of_false (unsigned_refused hnf (by omega) (by omega)) ?_
        rw [prefix_integer_cons]
        rintro ⟨body, -, hi⟩
        exact hm (integer_marker hi)

end Unsigned

section Numbers

variable {pos : Nat} {m : UInt8}

def integerValue (b width unsigned : Nat) : Int :=
  if 0xcc ≤ b ∧ b ≤ 0xcf then unsigned
  else
    let shift := 64 - 8 * width
    ((BitVec.ofNat 64 unsigned <<< shift).sshiftRight shift).toInt

/-- read_number up to its conversion, for the markers of the integers. -/
def readInteger (data : Bytes) (pos : Nat) : Maybe (Int × Nat) := do
  let marker ← orFail data[pos]? ()
  if marker.toNat ≤ 0x7f then pure ((marker.toNat : Int), pos + 1)
  else if 0xe0 ≤ marker.toNat then pure ((marker.toNat : Int) - 256, pos + 1)
  else do
    let width ← orFail (numberWidth marker.toNat) ()
    rejectIf (pos + 1 + width > data.length) ()
    let bytes := data.extract (pos + 1) (pos + 1 + width)
    let raw ← copyFromSlice (List.replicate 8 0) (8 - width) 8 bytes
    pure (integerValue marker.toNat width (ofBe raw), pos + 1 + width)

theorem numberValue_eq {b width n : Nat} (hb : b ≠ 0xca ∧ b ≠ 0xcb) :
    numberValue b width n = .ofInt (integerValue b width n) := by
  rw [numberValue, if_neg hb.1, if_neg hb.2, integerValue]
  split <;> rfl

theorem readNumber_eq (hm : data[pos]? = some m) (hi : IntegerMarker m) : readNumber data pos =
    readInteger data pos >>= fun r => pure (F64.ofInt r.1, r.2) := by
  have hf : m.toNat ≠ 0xca ∧ m.toNat ≠ 0xcb := by
    rw [IntegerMarker] at hi
    omega
  simp only [readNumber, readInteger, hm, orFail_some, ok_bind, numberValue_eq hf]
  split
  · rfl
  split
  · rfl
  cases numberWidth m.toNat with
  | none => rfl
  | some width =>
      simp only [orFail_some, ok_bind, rejectIf_bind]
      split
      · rfl
      cases copyFromSlice (List.replicate 8 0) (8 - width) 8
        (data.extract (pos + 1) (pos + 1 + width)) with
      | error f => rfl
      | ok raw => rfl

theorem numberWidth_wide {b k : Nat} (hk : k < 4) (hb : b = 0xcc + k ∨ b = 0xd0 + k) :
    numberWidth b = some (2 ^ k) := by
  interval_cases k <;> rcases hb with rfl | rfl <;> rfl

theorem ofBe_replicate_append (n : Nat) (bytes : Bytes) :
    ofBe (List.replicate n 0 ++ bytes) = ofBe bytes := by
  induction n with
  | zero => rfl
  | succ n ih =>
      rw [List.replicate_succ, List.cons_append, ofBe_cons, ih]
      simp

/-- The bytes at the end of raw, under zeros. -/
theorem copy_raw {bytes : Bytes} {w : Nat} (hb : bytes.length = w) (hw : w ≤ 8) :
    (copyFromSlice (List.replicate 8 0) (8 - w) 8 bytes : Maybe Bytes) =
      .ok (List.replicate (8 - w) 0 ++ bytes) := by
  rw [copyFromSlice_eq (by omega) (by simp), overwrite, List.take_replicate, List.drop_of_length_le]
  · rw [List.append_nil, Nat.min_eq_left (by omega)]
  · rw [List.length_replicate]
    omega

/-- Shifting up and down again extends the sign. -/
theorem integerValue_eq {bytes : Bytes} {b k : Nat} {signed : Bool} (hk : k < 4)
    (hb : b = 0xcc + k ∧ signed = false ∨ b = 0xd0 + k ∧ signed = true) (hl : bytes.length = 2 ^ k) :
    integerValue b (2 ^ k) (ofBe bytes) = if signed then ofBeSigned bytes else ofBe bytes := by
  have hlt := ofBe_lt bytes
  rw [integerValue]
  rcases hb with ⟨rfl, rfl⟩ | ⟨rfl, rfl⟩
  · rw [if_pos (by omega), if_neg (by simp)]
  · rw [if_neg (by omega), if_pos rfl, ofBeSigned]
    rw [hl] at hlt ⊢
    simp only [BitVec.toInt_sshiftRight, BitVec.toInt_shiftLeft, BitVec.toNat_ofNat]
    generalize ofBe bytes = n at hlt ⊢
    interval_cases k
    all_goals simp only [Nat.shiftLeft_eq, Int.shiftRight_eq_div_pow, Int.bmod]
    all_goals split <;> split <;> omega

theorem extract_of_prefix {bytes : Bytes} {w : Nat} (hp : bytes <+: data.drop (pos + 1))
    (hw : bytes.length = w) : data.extract (pos + 1) (pos + 1 + w) = bytes := hw ▸ prefix_extract hp

theorem readInteger_eq (hm : data[pos]? = some m) (hi : IntegerMarker m) : readInteger data pos =
    readFieldId data pos >>= fun r => pure (r.1.val, r.2) := by
  rw [readInteger, hm, orFail_some, ok_bind]
  cases integerMarker_class hi with
  | fix h =>
      rcases readFieldId_cases hm with ⟨-, he⟩ | ⟨h', -⟩ | ⟨k, signed, -, h'⟩ | ⟨hno, -⟩
      · rw [if_pos h, he]
        rfl
      · omega
      · omega
      · exact absurd (.fix h) (hno [] _)
  | negative h =>
      rcases readFieldId_cases hm with ⟨h', -⟩ | ⟨-, he⟩ | ⟨k, signed, hk, h'⟩ | ⟨hno, -⟩
      · omega
      · rw [if_neg (by omega), if_pos h, he, ok_bind, ofI8_val h]
      · omega
      · exact absurd (.negative h) (hno [] _)
  | wide k signed hk h =>
      have hw := numberWidth_wide hk (h.imp And.left And.left)
      rw [if_neg (by omega), if_neg (by omega), hw, orFail_some, ok_bind]
      simp only [rejectIf_bind]
      rcases readFieldId_wide hm hk h with ⟨hl, he⟩ | ⟨bytes, id, hp, hb, hv, he⟩
      · rw [if_pos (by omega), he]
        rfl
      · have hend := prefix_end hp (List.getElem?_eq_some_iff.mp hm).1
        have hle : 2 ^ k ≤ 8 := by interval_cases k <;> omega
        rw [if_neg (by omega), extract_of_prefix hp hb, copy_raw hb hle, ok_bind,
          ofBe_replicate_append, integerValue_eq hk h hb, he, ok_bind, hv]

end Numbers

/-- The integer decoders agree with the format and so with one another. -/
theorem integer_decoders_agree (data : Bytes) :
    (∀ id e, readFieldId data 0 = .ok (id, e) ↔
      (∃ enc, enc <+: data ∧ Integer enc id.val) ∧ skipValue data 0 0 = .ok e) ∧
    (∀ m e, readAudioInteger data = .ok (m, e) ↔
      ∃ id, readFieldId data 0 = .ok (id, e) ∧ id.val = m.toNat) ∧
    (data[0]? ≠ some 0xca ∧ data[0]? ≠ some 0xcb →
      ∀ u, unsigned data = .ok u ↔ ∃ id e, readFieldId data 0 = .ok (id, e) ∧ id.val = u) ∧
    ∀ m, data[0]? = some m → IntegerMarker m →
      (readNumber data 0 = readInteger data 0 >>= fun r => pure (F64.ofInt r.1, r.2)) ∧
      ((∃ r, readNumber data 0 = .ok r) ↔ ∃ r, readFieldId data 0 = .ok r) ∧
      ∀ n e, readInteger data 0 = .ok (n, e) ↔
        ∃ id, readFieldId data 0 = .ok (id, e) ∧ id.val = n := by
  refine ⟨fun id e => readFieldId_iff_skipValue, fun m e => readAudioInteger_iff, ?_, ?_⟩
  · intro hf u
    rw [unsigned_eq_ok hf]
    constructor
    · rintro ⟨enc, hp, hi⟩
      exact ⟨⟨u, hi.range.1, hi.range.2⟩, _, readFieldId_start.mpr ⟨enc, hp, hi, rfl⟩, rfl⟩
    · rintro ⟨id, e, h, hid⟩
      obtain ⟨enc, hp, hi, -⟩ := readFieldId_start.mp h
      exact ⟨enc, hp, hid ▸ hi⟩
  · intro m hm hi
    refine ⟨readNumber_eq hm hi, ?_, ?_⟩
    · rw [readNumber_eq hm hi, readInteger_eq hm hi]
      rcases okOr_readFieldId data 0 with ⟨r, h⟩ | h
      · rw [h]
        exact iff_of_true ⟨_, rfl⟩ ⟨r, rfl⟩
      · rw [h, fail_bind, fail_bind]
        exact iff_of_false (fun hr => fail_ne_ok _ _ hr.choose_spec) (fun hr => fail_ne_ok _ _ hr.choose_spec)
    · intro n e
      rw [readInteger_eq hm hi, bind_eq_ok]
      constructor
      · rintro ⟨⟨id, e'⟩, h, he⟩
        cases he
        exact ⟨id, h, rfl⟩
      · rintro ⟨id, h, rfl⟩
        exact ⟨(id, e), h, rfl⟩

end LxmfLite.IntegerDecoders
