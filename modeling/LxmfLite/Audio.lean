import LxmfLite.FieldLookup

namespace LxmfLite.Audio

open ByteString Execution SelfDelimiting MessagePack KeyedMap Pairing Message Reader Skipping
  FieldReading FieldMaps Contracts Bounds FieldLookup

theorem audioIntegerWidth_eq {b w : Nat} : audioIntegerWidth b = some w ↔
    ∃ k, k < 4 ∧ w = 2 ^ k ∧ (b = 0xcc + k ∨ b = 0xd0 + k) := by
  constructor
  · intro h
    rw [audioIntegerWidth] at h
    repeat' split at h
    all_goals cases h
    · exact ⟨0, by omega, rfl, by omega⟩
    · exact ⟨1, by omega, rfl, by omega⟩
    · exact ⟨2, by omega, rfl, by omega⟩
    · exact ⟨3, by omega, rfl, by omega⟩
  · rintro ⟨k, hk, rfl, rfl | rfl⟩ <;> interval_cases k <;> rfl

theorem ofBe_eq_zero_iff {bs : Bytes} : ofBe bs = 0 ↔ ∀ b ∈ bs, b = 0 := by
  induction bs using List.reverseRecOn with
  | nil => simp
  | append_singleton bs b ih =>
      rw [ofBe_append_singleton, List.forall_mem_append, List.forall_mem_singleton, ← ih]
      have hb : b = 0 ↔ b.toNat = 0 := ⟨fun h => by rw [h]; rfl, fun h => byte_ext h⟩
      rw [hb]
      omega

section Wide

variable {m last mode : UInt8} {high rest : Bytes} {k : Nat} (hk : k < 4)
  (hl : high.length + 1 = 2 ^ k)

/-- An unsigned integer fits a byte when its high bytes are zero. -/
theorem ofBe_byte : (ofBe (high ++ [last]) : Int) = mode.toNat ↔
    (∀ b ∈ high, b = 0) ∧ last = mode := by
  have hlast := toNat_lt last
  have hmode := toNat_lt mode
  rw [ofBe_append_singleton, ← ofBe_eq_zero_iff]
  constructor
  · intro h
    exact ⟨by omega, byte_ext (by omega)⟩
  · rintro ⟨hz, rfl⟩
    omega

include hk hl

/-- A signed one fits under the same condition, unless it is a single byte with
the sign bit set. -/
theorem ofBeSigned_byte : ofBeSigned (high ++ [last]) = mode.toNat ↔
    (∀ b ∈ high, b = 0) ∧ last = mode ∧ (k = 0 → last.toNat ≤ 0x7f) := by
  have hlast := toNat_lt last
  have hmode := toNat_lt mode
  have hlt := ofBe_lt (high ++ [last])
  have hlen : (high ++ [last]).length = 2 ^ k := by
    rw [List.length_append, List.length_singleton, hl]
  rw [ofBeSigned, ← ofBe_eq_zero_iff]
  rw [hlen] at hlt ⊢
  rw [ofBe_append_singleton] at hlt ⊢
  constructor
  · intro h
    split at h
    next hs =>
      refine ⟨by omega, byte_ext (by omega), ?_⟩
      rintro rfl
      omega
    next hs => interval_cases k <;> omega
  · rintro ⟨hz, rfl, hsign⟩
    rw [hz, if_pos]
    · omega
    · interval_cases k <;> omega

theorem readAudioInteger_wide (hm : m.toNat = 0xcc + k ∨ m.toNat = 0xd0 + k) :
    readAudioInteger (m :: (high ++ [last] ++ rest)) =
      if (∃ b ∈ high, b ≠ 0) ∨ m = 0xd0 ∧ last.toNat > 0x7f then fail ()
      else .ok (last, 2 ^ k + 1) := by
  have hw := audioIntegerWidth_eq.mpr ⟨k, hk, rfl, hm⟩
  have hnumber : (m :: (high ++ [last] ++ rest)).extract 1 (1 + 2 ^ k) = high ++ [last] := by
    rw [List.extract_eq_take_drop, List.drop_succ_cons, List.drop_zero, Nat.add_sub_cancel_left, ← hl]
    exact List.take_left' (by simp)
  have hhigh : (slice (high ++ [last]) 0 (2 ^ k - 1) : Maybe Bytes) = .ok high := by
    rw [← hl, Nat.add_sub_cancel]
    exact (slice_take (by simp)).trans (by rw [List.take_left])
  have hfirst : ∃ b, (index (high ++ [last]) 0 : Maybe UInt8) = .ok b ∧ (k = 0 → b = last) := by
    cases high with
    | nil => exact ⟨last, rfl, fun _ => rfl⟩
    | cons b high =>
        refine ⟨b, rfl, ?_⟩
        rintro rfl
        simp at hl
  have hlast : (index (high ++ [last]) (2 ^ k - 1) : Maybe UInt8) = .ok last := by
    rw [← hl, Nat.add_sub_cancel]
    exact index_of_getElem? (by simp)
  obtain ⟨b, hb, hb'⟩ := hfirst
  have hlen : ¬1 + 2 ^ k > (m :: (high ++ [last] ++ rest)).length := by
    simp only [List.length_cons, List.length_append, List.length_nil]
    omega
  rw [readAudioInteger, List.getElem?_cons_zero, orFail_some, ok_bind, if_neg (by omega), hw,
    orFail_some, ok_bind]
  simp only [rejectIf_bind, if_neg hlen, hnumber, hhigh, ok_bind, hb, hlast, pure_eq_ok]
  by_cases hz : ∃ b ∈ high, b ≠ 0
  · rw [if_pos hz, if_pos (.inl hz)]
  · rw [if_neg hz]
    by_cases hs : m = 0xd0
    · have hzero : k = 0 := by
        have hnat : m.toNat = 0xd0 := congrArg UInt8.toNat hs
        omega
      rw [hb' hzero]
      by_cases hlow : last.toNat > 0x7f
      · rw [if_pos ⟨hs, hlow⟩, if_pos (.inr ⟨hs, hlow⟩)]
      · rw [if_neg (fun h => hlow h.2), if_neg (fun h => h.elim hz (fun h => hlow h.2))]
    · rw [if_neg (fun h => hs h.1), if_neg (fun h => h.elim hz (fun h => hs h.1))]

end Wide

theorem readAudioInteger_short {m : UInt8} {tail : Bytes} {k : Nat} (hk : k < 4)
    (hm : m.toNat = 0xcc + k ∨ m.toNat = 0xd0 + k) (hl : tail.length < 2 ^ k) :
    readAudioInteger (m :: tail) = fail () := by
  have hw := audioIntegerWidth_eq.mpr ⟨k, hk, rfl, hm⟩
  rw [readAudioInteger, List.getElem?_cons_zero, orFail_some, ok_bind, if_neg (by omega), hw,
    orFail_some, ok_bind, rejectIf_bind, if_pos (by rw [List.length_cons]; omega)]

theorem readAudioInteger_fix {m : UInt8} {tail : Bytes} (hm : m.toNat ≤ 0x7f) :
    readAudioInteger (m :: tail) = .ok (m, 1) := by
  rw [readAudioInteger, List.getElem?_cons_zero, orFail_some, ok_bind, if_pos hm, pure_eq_ok]

theorem readAudioInteger_other {m : UInt8} {tail : Bytes} (hm : ¬m.toNat ≤ 0x7f)
    (hno : audioIntegerWidth m.toNat = none) : readAudioInteger (m :: tail) = fail () := by
  rw [readAudioInteger, List.getElem?_cons_zero, orFail_some, ok_bind, if_neg hm, hno]
  rfl

theorem wide_split {bs : Bytes} {k : Nat} (h : bs.length = 2 ^ k) :
    ∃ high last, bs = high ++ [last] ∧ high.length + 1 = 2 ^ k := by
  have hne : bs ≠ [] := by
    have := Nat.two_pow_pos k
    exact List.length_pos_iff.mp (by omega)
  refine ⟨bs.dropLast, bs.getLast hne, (List.dropLast_append_getLast hne).symm, ?_⟩
  have hpos := List.length_pos_iff.mpr hne
  rw [List.length_dropLast]
  omega

theorem integer_byte_iff {m last mode : UInt8} {high : Bytes} {k : Nat} (hk : k < 4)
    (hl : high.length + 1 = 2 ^ k) (hm : m.toNat = 0xcc + k ∨ m.toNat = 0xd0 + k) :
    Integer (m :: (high ++ [last])) mode.toNat ↔
      (∀ b ∈ high, b = 0) ∧ last = mode ∧ ¬(m = 0xd0 ∧ last.toNat > 0x7f) := by
  have hb : (high ++ [last]).length = 2 ^ k := by simp [hl]
  have hd0 : m = 0xd0 ↔ m.toNat = 0xd0 := ⟨fun h => by rw [h]; rfl, fun h => byte_ext h⟩
  rcases hm with hm | hm
  · have hno : ¬m = 0xd0 := fun h => by
      have := hd0.mp h
      omega
    constructor
    · intro h
      obtain ⟨-, hv⟩ := integer_unsigned_inv hk hm h
      obtain ⟨hz, hlast⟩ := ofBe_byte.mp hv.symm
      exact ⟨hz, hlast, fun h => hno h.1⟩
    · rintro ⟨hz, hlast, -⟩
      rw [← ofBe_byte.mpr ⟨hz, hlast⟩]
      exact .unsigned hk hm hb
  · have hzero : m = 0xd0 ↔ k = 0 := by
      rw [hd0]
      omega
    constructor
    · intro h
      obtain ⟨-, hv⟩ := integer_signed_inv hk hm h
      obtain ⟨hz, hlast, hs⟩ := (ofBeSigned_byte hk hl).mp hv.symm
      exact ⟨hz, hlast, fun h => absurd h.2 (Nat.not_lt.mpr (hs (hzero.mp h.1)))⟩
    · rintro ⟨hz, hlast, hs⟩
      have hs' : k = 0 → last.toNat ≤ 0x7f := fun h => Nat.not_lt.mp (fun hlt => hs ⟨hzero.mpr h, hlt⟩)
      rw [← (ofBeSigned_byte hk hl).mpr ⟨hz, hlast, hs'⟩]
      exact .signed hk hm hb

theorem integer_wide_length {m : UInt8} {body : Bytes} {n : Int} {k : Nat} (hk : k < 4)
    (hm : m.toNat = 0xcc + k ∨ m.toNat = 0xd0 + k) (h : Integer (m :: body) n) :
    body.length = 2 ^ k := by
  rcases hm with hm | hm
  · exact (integer_unsigned_inv hk hm h).1
  · exact (integer_signed_inv hk hm h).1

theorem integer_other {m mode : UInt8} {body : Bytes} (hm : ¬m.toNat ≤ 0x7f)
    (hno : audioIntegerWidth m.toNat = none) : ¬Integer (m :: body) mode.toNat := by
  intro h
  have hmode := toNat_lt mode
  have hwide : ∀ k, k < 4 → ¬(m.toNat = 0xcc + k ∨ m.toNat = 0xd0 + k) := by
    intro k hk hc
    rw [audioIntegerWidth_eq.mpr ⟨k, hk, rfl, hc⟩] at hno
    cases hno
  generalize hn : (mode.toNat : Int) = n at h
  cases h with
  | fix hc => exact hm hc
  | negative hc =>
      have := toNat_lt m
      omega
  | unsigned hk hc hb => exact hwide _ hk (.inl hc)
  | signed hk hc hb => exact hwide _ hk (.inr hc)

theorem readAudioInteger_wide_eq_ok {m mode : UInt8} {tail : Bytes} {k width : Nat} (hk : k < 4)
    (hm : m.toNat = 0xcc + k ∨ m.toNat = 0xd0 + k) :
    readAudioInteger (m :: tail) = .ok (mode, width) ↔
      ∃ body, body <+: tail ∧ Integer (m :: body) mode.toNat ∧ width = body.length + 1 := by
  by_cases hlen : tail.length < 2 ^ k
  · rw [readAudioInteger_short hk hm hlen]
    constructor
    · intro h
      exact absurd h (by simp)
    · rintro ⟨body, hp, hi, -⟩
      have hle := hp.length_le
      have hbody := integer_wide_length hk hm hi
      omega
  · obtain ⟨high, last, hs, hl⟩ := wide_split (List.length_take_of_le (Nat.le_of_not_lt hlen))
    rw [← List.take_append_drop (2 ^ k) tail, hs, readAudioInteger_wide hk hl hm]
    constructor
    · intro h
      split at h
      next => exact absurd h (by simp)
      next hc =>
        rw [not_or] at hc
        cases h
        refine ⟨high ++ [mode], List.prefix_append _ _,
          (integer_byte_iff hk hl hm).mpr ⟨by simpa using hc.1, rfl, hc.2⟩, ?_⟩
        rw [List.length_append, List.length_singleton, hl]
    · rintro ⟨body, ⟨rest, hr⟩, hi, rfl⟩
      have hbody := integer_wide_length hk hm hi
      obtain ⟨rfl, -⟩ := List.append_inj hr (by simp [hbody, hl])
      obtain ⟨hz, hlast, hd0⟩ := (integer_byte_iff hk hl hm).mp hi
      rw [if_neg (not_or.mpr ⟨by simpa using hz, hd0⟩), hbody, hlast]

/-- read_audio_integer reads the one integer that the bytes start with, and
returns it when it fits a byte. -/
theorem readAudioInteger_eq_ok {value : Bytes} {mode : UInt8} {width : Nat} :
    readAudioInteger value = .ok (mode, width) ↔
      ∃ enc, enc <+: value ∧ Integer enc mode.toNat ∧ width = enc.length := by
  cases value with
  | nil =>
      constructor
      · intro h
        exact absurd h (by simp [readAudioInteger])
      · rintro ⟨enc, hp, hi, -⟩
        exact absurd (List.prefix_nil.mp hp) hi.ne_nil
  | cons m tail =>
      -- an encoding that starts here has the marker m
      have hcons : (∃ enc, enc <+: m :: tail ∧ Integer enc mode.toNat ∧ width = enc.length) ↔
          ∃ body, body <+: tail ∧ Integer (m :: body) mode.toNat ∧ width = body.length + 1 := by
        constructor
        · rintro ⟨enc, hp, hi, rfl⟩
          obtain ⟨body, rfl, ht⟩ := prefix_marker hp hi.ne_nil
          exact ⟨body, ht, hi, rfl⟩
        · rintro ⟨body, hp, hi, rfl⟩
          exact ⟨m :: body, List.cons_prefix_cons.mpr ⟨rfl, hp⟩, hi, rfl⟩
      rw [hcons]
      by_cases hfix : m.toNat ≤ 0x7f
      · rw [readAudioInteger_fix hfix]
        constructor
        · intro h
          cases h
          exact ⟨[], List.nil_prefix, .fix hfix, rfl⟩
        · rintro ⟨body, hp, hi, rfl⟩
          obtain ⟨rfl, hv⟩ := integer_fix_inv hfix hi
          rw [byte_ext (Int.ofNat.inj hv), List.length_nil]
      cases hw : audioIntegerWidth m.toNat with
      | none =>
          rw [readAudioInteger_other hfix hw]
          constructor
          · intro h
            exact absurd h (by simp)
          · rintro ⟨body, -, hi, -⟩
            exact absurd hi (integer_other hfix hw)
      | some w =>
          obtain ⟨k, hk, rfl, hm⟩ := audioIntegerWidth_eq.mp hw
          exact readAudioInteger_wide_eq_ok hk hm

theorem pairHeader_eq {value : Bytes} {n : Nat} : pairHeader value = some n ↔
    ∃ header, header <+: value ∧ ArrayHeader header 2 ∧ n = header.length := by
  have hfix : ArrayHeader [0x92] 2 := .fix (by decide) rfl
  have htwo : ArrayHeader [0xdc, 0, 2] 2 := .counted (k := 0) (by decide) rfl rfl
  have hfour : ArrayHeader [0xdd, 0, 0, 0, 2] 2 := .counted (k := 1) (by decide) rfl rfl
  rw [pairHeader]
  constructor
  · intro h
    split at h
    next hp =>
      cases h
      exact ⟨_, hp, hfix, rfl⟩
    split at h
    next hp =>
      cases h
      exact ⟨_, hp, htwo, rfl⟩
    split at h
    next hp =>
      cases h
      exact ⟨_, hp, hfour, rfl⟩
    next => cases h
  · rintro ⟨header, hp, hh, rfl⟩
    -- a prefix starts with one marker, so each header excludes the other two
    have hmark : ∀ {m b : UInt8} {size digits : Bytes}, m :: size <+: value → m.toNat ≠ b.toNat →
        ¬b :: digits <+: value := by
      rintro m b size digits ⟨r, rfl⟩ hne ⟨s, hs⟩
      exact hne (congrArg UInt8.toNat (List.cons.inj hs).1.symm)
    generalize htwo' : 2 = count at hh
    cases hh with
    | @fix m n hn hm =>
        obtain rfl : m = 0x92 := byte_ext (by rw [hm, ← htwo']; rfl)
        exact if_pos hp
    | @counted m k size hk hm hs =>
        obtain rfl | rfl : k = 0 ∨ k = 1 := by omega
        · have hsize : size = [0, 2] := by
            rw [← toBe_ofBe size, hs, ← htwo']
            rfl
          obtain rfl : m = 0xdc := byte_ext hm
          subst hsize
          rw [if_neg (hmark hp (by decide)), if_pos hp]
          rfl
        · have hsize : size = [0, 0, 0, 2] := by
            rw [← toBe_ofBe size, hs, ← htwo']
            rfl
          obtain rfl : m = 0xdd := byte_ext hm
          subst hsize
          rw [if_neg (hmark hp (by decide)), if_neg (hmark hp (by decide)), if_pos hp]
          rfl

/-- What stands under the audio key: an array of an integer in a byte and a bin. -/
inductive AudioValue : Bytes → AudioField → Prop
  | mk {header integer binary : Bytes} {audio : AudioField} (hh : ArrayHeader header 2)
      (hi : Integer integer audio.mode.toNat) (hb : Binary binary audio.bytes) :
      AudioValue (header ++ (integer ++ binary)) audio

def readAudio (value : Bytes) : Result (Option AudioField) := do
  let arrayHeader ← orFail (pairHeader value) .malformedPayload
  let tail ← slice value arrayHeader value.length
  let (mode, width) ← okOr (readAudioInteger tail) .malformedPayload
  let binStart := arrayHeader + width
  let marker ← orFail value[binStart]? .malformedPayload
  rejectIf (¬(0xc4 ≤ marker.toNat ∧ marker.toNat ≤ 0xc6)) .malformedPayload
  let (bytes, last) ← readBin value binStart
  rejectIf (last ≠ value.length) .malformedPayload
  pure (some ⟨mode, bytes⟩)

theorem slice_drop {ε : Type} {bs : Bytes} {n : Nat} (h : n ≤ bs.length) :
    (slice bs n bs.length : Outcome ε Bytes) = .ok (bs.drop n) := by
  rw [slice_eq h (Nat.le_refl _), List.extract_eq_take_drop,
    List.take_of_length_le (by rw [List.length_drop])]

theorem readBin_last {value bytes : Bytes} {pos : Nat} {m : UInt8} (hm : value[pos]? = some m)
    (hc : 0xc4 ≤ m.toNat ∧ m.toNat ≤ 0xc6) :
    readBin value pos = .ok (bytes, value.length) ↔ Binary (value.drop pos) bytes := by
  have hpos := (List.getElem?_eq_some_iff.mp hm).1
  rw [readBin_eq_ok]
  constructor
  · rintro ⟨enc, hp, hb, hl⟩
    obtain rfl : enc = value.drop pos := by
      apply hp.eq_of_length
      rw [List.length_drop]
      omega
    obtain ⟨m', tail, ht⟩ := List.exists_cons_of_ne_nil hb.ne_nil
    obtain rfl : m' = m := by
      have h := getElem?_of_drop ht
      rw [hm] at h
      exact (Option.some.inj h).symm
    rw [ht] at hb ⊢
    exact hb.binary hc
  · intro hb
    refine ⟨value.drop pos, List.prefix_rfl, hb.blob, ?_⟩
    rw [List.length_drop]
    omega

theorem readAudio_eq_ok {value : Bytes} {r : Option AudioField} :
    readAudio value = .ok r ↔ ∃ audio, r = some audio ∧ AudioValue value audio := by
  constructor
  · intro h
    obtain ⟨n, hn, h⟩ := bind_eq_ok.mp h
    obtain ⟨header, ⟨rest, rfl⟩, hh, rfl⟩ := pairHeader_eq.mp (orFail_eq_ok.mp hn)
    obtain ⟨tail, ht, h⟩ := bind_eq_ok.mp h
    rw [slice_drop (by simp), List.drop_left] at ht
    cases ht
    obtain ⟨⟨mode, width⟩, hr, h⟩ := bind_eq_ok.mp h
    obtain ⟨integer, ⟨binary, rfl⟩, hi, rfl⟩ := readAudioInteger_eq_ok.mp (okOr_eq_ok.mp hr)
    obtain ⟨m, hm, h⟩ := bind_eq_ok.mp h
    rw [orFail_eq_ok] at hm
    rw [rejectIf_bind] at h
    split at h
    next => exact absurd h (by simp)
    next hc =>
      obtain ⟨⟨bytes, last⟩, hb, h⟩ := bind_eq_ok.mp h
      simp only [rejectIf_bind] at h
      split at h
      next => exact absurd h (by simp)
      next hlast =>
        rw [not_not] at hc hlast
        rw [hlast, readBin_last hm hc, ← List.drop_drop, List.drop_left, List.drop_left] at hb
        cases h
        exact ⟨⟨mode, bytes⟩, rfl, .mk hh hi hb⟩
  · rintro ⟨audio, rfl, ⟨hh, hi, hb⟩⟩
    rename_i header integer binary
    have hheader := pairHeader_eq.mpr ⟨header, List.prefix_append header (integer ++ binary), hh, rfl⟩
    have hinteger := readAudioInteger_eq_ok.mpr ⟨integer, List.prefix_append integer binary, hi, rfl⟩
    obtain ⟨m, tail, rfl⟩ := List.exists_cons_of_ne_nil hb.blob.ne_nil
    have hdrop : (header ++ (integer ++ m :: tail)).drop (header.length + integer.length) =
        m :: tail := by
      rw [← List.drop_drop, List.drop_left, List.drop_left]
    have hm := getElem?_of_drop hdrop
    have hbin := (readBin_last hm hb.marker).mpr (by rw [hdrop]; exact hb)
    rw [readAudio, hheader, orFail_some, ok_bind, slice_drop (by simp), ok_bind, List.drop_left,
      hinteger]
    simp only [okOr, ok_bind, hm, orFail_some, rejectIf_bind]
    rw [if_neg (not_not_intro hb.marker), hbin]
    simp

theorem okOr_readAudioInteger (value : Bytes) : OkOr () (readAudioInteger value) := by
  cases value with
  | nil => exact .inr rfl
  | cons m tail =>
      by_cases hfix : m.toNat ≤ 0x7f
      · exact .inl ⟨_, readAudioInteger_fix hfix⟩
      cases hw : audioIntegerWidth m.toNat with
      | none => exact .inr (readAudioInteger_other hfix hw)
      | some w =>
          obtain ⟨k, hk, rfl, hm⟩ := audioIntegerWidth_eq.mp hw
          by_cases hlen : tail.length < 2 ^ k
          · exact .inr (readAudioInteger_short hk hm hlen)
          · obtain ⟨high, last, hs, hl⟩ := wide_split (List.length_take_of_le (Nat.le_of_not_lt hlen))
            rw [← List.take_append_drop (2 ^ k) tail, hs, readAudioInteger_wide hk hl hm]
            split
            · exact .inr rfl
            · exact .inl ⟨_, rfl⟩

theorem ensures_readAudio (value : Bytes) : Ensures (readAudio value) (fun _ => True) := by
  apply Ensures.bind (Q := fun n => n ≤ value.length)
  · apply ensures_orFail
    intro n hn
    obtain ⟨header, hp, -, rfl⟩ := pairHeader_eq.mp hn
    exact hp.length_le
  intro n hn
  apply Ensures.bind (ensures_slice hn (Nat.le_refl _))
  intro tail _
  apply Ensures.bind (ensures_okOr (ensures_of_okOr (okOr_readAudioInteger tail) (Q := fun _ => True)
    (fun _ _ => trivial)) .malformedPayload)
  rintro ⟨mode, width⟩ -
  apply Ensures.bind (ensures_orFail _ (Q := fun _ => True) (fun _ _ => trivial))
  intro marker _
  apply ensures_rejectIf_bind
  intro _
  apply Ensures.bind (ensures_readBin value _)
  rintro ⟨bytes, last⟩ _
  apply ensures_rejectIf_bind
  intro _
  trivial

def audioUnder : Maybe Bytes → Result (Option AudioField)
  | .error (.error ()) => .ok none
  | .error .panic => panic
  | .ok value => readAudio value

theorem audioField_eq (fields : Bytes) : audioField fields =
    validateFieldsWithoutScratch fields >>= fun _ => audioUnder (fieldValue fields fieldAudio) := by
  rw [audioField]
  congr 1

theorem ensures_audioField (fields : Bytes) : Ensures (audioField fields) (fun _ => True) := by
  rw [audioField_eq]
  apply Ensures.bind (ensures_validateFieldsWithoutScratch fields)
  intro _ _
  rcases okOr_fieldValueId fields (.ofU8 fieldAudio) with ⟨value, h⟩ | h
  · rw [fieldValue, h]
    exact ensures_readAudio value
  · rw [fieldValue, h]
    trivial

theorem validated (m : OuterMap) : validateFieldsWithoutScratch m.bytes = .ok () :=
  validated_iff.mpr ⟨m, rfl⟩

theorem audioKey (id : Int) : id = (FieldId.ofU8 fieldAudio).val ↔ id = 7 := Iff.rfl

theorem audioField_of_mem (m : OuterMap) {p : Pair Integer Complete} (hp : p ∈ m.pairs)
    (h : p.id = 7) : audioField m.bytes = readAudio p.value := by
  have hv : fieldValue m.bytes fieldAudio = .ok p.value :=
    (fieldValueId_mem m _ _).mpr ⟨p, hp, (audioKey _).mpr h, rfl⟩
  rw [audioField_eq, validated m, ok_bind, hv, audioUnder]

theorem audioField_of_not_mem (m : OuterMap) (h : ∀ p ∈ m.pairs, p.id ≠ 7) :
    audioField m.bytes = .ok none := by
  have hv : fieldValue m.bytes fieldAudio = fail () := by
    rcases okOr_fieldValueId m.bytes (.ofU8 fieldAudio) with ⟨value, hv⟩ | hv
    · obtain ⟨p, hp, hid, -⟩ := (fieldValueId_mem m _ _).mp hv
      exact absurd ((audioKey _).mp hid) (h p hp)
    · exact hv
  rw [audioField_eq, validated m, ok_bind, hv]
  rfl

theorem audioField_map {fields : Bytes} {r : Option AudioField} (h : audioField fields = .ok r) :
    ∃ m : OuterMap, fields = m.bytes := by
  rw [audioField_eq] at h
  obtain ⟨_, hv, -⟩ := bind_eq_ok.mp h
  exact validated_iff.mp hv

theorem audioField_none_iff {fields : Bytes} : audioField fields = .ok none ↔
    ∃ m : OuterMap, fields = m.bytes ∧ ∀ p ∈ m.pairs, p.id ≠ 7 := by
  constructor
  · intro h
    obtain ⟨m, rfl⟩ := audioField_map h
    refine ⟨m, rfl, ?_⟩
    intro p hp hid
    rw [audioField_of_mem m hp hid] at h
    obtain ⟨audio, ha, -⟩ := readAudio_eq_ok.mp h
    cases ha
  · rintro ⟨m, rfl, h⟩
    exact audioField_of_not_mem m h

theorem audioField_some_iff {fields : Bytes} {audio : AudioField} :
    audioField fields = .ok (some audio) ↔
      ∃ m : OuterMap, fields = m.bytes ∧ ∃ p ∈ m.pairs, p.id = 7 ∧ AudioValue p.value audio := by
  constructor
  · intro h
    obtain ⟨m, rfl⟩ := audioField_map h
    refine ⟨m, rfl, ?_⟩
    by_cases hp : ∃ p ∈ m.pairs, p.id = 7
    · obtain ⟨p, hp, hid⟩ := hp
      rw [audioField_of_mem m hp hid] at h
      obtain ⟨audio', ha, hv⟩ := readAudio_eq_ok.mp h
      cases ha
      exact ⟨p, hp, hid, hv⟩
    · rw [audioField_of_not_mem m (fun p hm hid => hp ⟨p, hm, hid⟩)] at h
      cases h
  · rintro ⟨m, rfl, p, hp, hid, hv⟩
    rw [audioField_of_mem m hp hid]
    exact readAudio_eq_ok.mpr ⟨audio, rfl, hv⟩

theorem exists_fail {α : Type} {x : Result α} {Q : α → Prop} (h : Ensures x Q)
    (hno : ∀ a, x ≠ .ok a) : ∃ e, x = fail e := by
  rcases x with (_ | e) | a
  · exact absurd h (fun h => h)
  · exact ⟨e, rfl⟩
  · exact absurd rfl (hno a)

/-- audio_field tells absent audio, well formed audio and everything else
apart, and accepts no proper prefix of what it accepts. -/
theorem audioField_exact (fields : Bytes) :
    (audioField fields = .ok none ↔
      ∃ m : OuterMap, fields = m.bytes ∧ ∀ p ∈ m.pairs, p.id ≠ 7) ∧
    (∀ audio, audioField fields = .ok (some audio) ↔
      ∃ m : OuterMap, fields = m.bytes ∧ ∃ p ∈ m.pairs, p.id = 7 ∧ AudioValue p.value audio) ∧
    ((∀ r, audioField fields ≠ .ok r) → ∃ e, audioField fields = fail e) ∧
    ∀ r part, audioField fields = .ok r → part <+: fields → part ≠ fields →
      ∃ e, audioField part = fail e := by
  refine ⟨audioField_none_iff, fun audio => audioField_some_iff, exists_fail (ensures_audioField fields),
    ?_⟩
  rintro r part h ⟨rest, rfl⟩ hne
  apply exists_fail (ensures_audioField part)
  intro r' h'
  obtain ⟨m, hm⟩ := audioField_map h
  obtain ⟨m', rfl⟩ := audioField_map h'
  have hb : m'.bytes ++ rest = m.bytes ++ [] := by rw [List.append_nil, hm]
  obtain ⟨-, rfl⟩ := PairMap.unique integer_readable complete_unique hb
  exact hne (List.append_nil _).symm

end LxmfLite.Audio
