import LxmfLite.Skipping

namespace LxmfLite.FieldReading

open ByteString Execution SelfDelimiting MessagePack Message Reader Skipping

variable {data : Bytes} {pos e : Nat}

theorem fromBeBytes_eq {ε : Type} {start nb : Nat} (h : start + nb ≤ data.length) :
    (fromBeBytes data start nb : Outcome ε Nat) = .ok (ofBe (data.extract start (start + nb))) := by
  simp only [fromBeBytes, slice_eq (Nat.le_add_right _ _) h, ok_bind, pure_eq_ok]

theorem index_of_getElem? {ε : Type} {m : UInt8} (h : data[pos]? = some m) :
    (index data pos : Outcome ε UInt8) = .ok m := by
  rw [index, h]
  rfl

/-- The header that readBin sees behind the marker m, when all of it is there. -/
def BinHead (data : Bytes) (pos : Nat) (m : UInt8) (hdr len : Nat) : Prop :=
  (∃ k, k < 3 ∧ (m.toNat = 0xc4 + k ∨ m.toNat = 0xd9 + k) ∧ pos + 1 + 2 ^ k ≤ data.length ∧
    hdr = 1 + 2 ^ k ∧ len = ofBe (data.extract (pos + 1) (pos + 1 + 2 ^ k))) ∨
  (m.toNat = 0xa0 + len ∧ len < 32 ∧ hdr = 1)

theorem binHeader_eq_ok {m : UInt8} {hdr len : Nat} :
    binHeader data pos m.toNat = .ok (hdr, len) ↔ BinHead data pos m hdr len := by
  rw [binHeader]
  constructor
  · intro h
    split at h
    next hc =>
      rw [fromBeBytes_eq (by omega), ok_bind, pure_eq_ok] at h
      cases h
      exact .inl ⟨0, by omega, hc.1, by omega, rfl, rfl⟩
    split at h
    next hc =>
      rw [fromBeBytes_eq (by omega), ok_bind, pure_eq_ok] at h
      cases h
      exact .inl ⟨1, by omega, hc.1, by omega, rfl, rfl⟩
    split at h
    next hc =>
      rw [fromBeBytes_eq (by omega), ok_bind, pure_eq_ok] at h
      cases h
      exact .inl ⟨2, by omega, hc.1, by omega, rfl, rfl⟩
    split at h
    next hc =>
      cases h
      rw [and_thirtyone]
      exact .inr ⟨by omega, by omega, rfl⟩
    next => exact absurd h (by simp)
  · rintro (⟨k, hk, he, hl, rfl, rfl⟩ | ⟨he, hlen, rfl⟩)
    · obtain rfl | rfl | rfl : k = 0 ∨ k = 1 ∨ k = 2 := by omega
      · rw [if_pos (by omega), fromBeBytes_eq (by omega), ok_bind, pure_eq_ok]
        rfl
      · rw [if_neg (by omega), if_pos (by omega), fromBeBytes_eq (by omega), ok_bind, pure_eq_ok]
        rfl
      · rw [if_neg (by omega), if_neg (by omega), if_pos (by omega), fromBeBytes_eq (by omega),
          ok_bind, pure_eq_ok]
        rfl
    · rw [if_neg (by omega), if_neg (by omega), if_neg (by omega), if_pos (by omega),
        and_thirtyone, pure_eq_ok, show m.toNat % 32 = len by omega]

theorem malformed_binHeader (b : Nat) : Malformed (binHeader data pos b) := by
  rw [binHeader]
  split
  next hc => rw [fromBeBytes_eq (by omega)]; exact .inl ⟨_, rfl⟩
  split
  next hc => rw [fromBeBytes_eq (by omega)]; exact .inl ⟨_, rfl⟩
  split
  next hc => rw [fromBeBytes_eq (by omega)]; exact .inl ⟨_, rfl⟩
  split
  · exact .inl ⟨_, rfl⟩
  · exact .inr rfl

theorem readBin_eq {m : UInt8} (hm : data[pos]? = some m) :
    readBin data pos = binHeader data pos m.toNat >>= fun h =>
      if pos + h.1 + h.2 > data.length then fail .malformedPayload
      else .ok (data.extract (pos + h.1) (pos + h.1 + h.2), pos + h.1 + h.2) := by
  have hlt := (List.getElem?_eq_some_iff.mp hm).1
  rw [readBin, rejectIf_bind, if_neg (by omega), index_of_getElem? hm, ok_bind]
  congr 1
  funext h
  obtain ⟨hdr, len⟩ := h
  simp only [rejectIf_bind]
  split
  · rfl
  · rw [slice_eq (Nat.le_add_right _ _) (by omega), ok_bind, pure_eq_ok]

theorem readBin_past (h : data[pos]? = none) : readBin data pos = fail .malformedPayload := by
  rw [readBin, rejectIf_bind, if_pos (List.getElem?_eq_none_iff.mp h)]

theorem BinHead.blob {m : UInt8} {hdr len : Nat} (h : BinHead data pos m hdr len) (hm : data[pos]? = some m)
    (hfit : pos + hdr + len ≤ data.length) :
    ∃ enc, enc <+: data.drop pos ∧ Blob enc (data.extract (pos + hdr) (pos + hdr + len)) ∧
      enc.length = hdr + len := by
  have hlen : (data.extract (pos + hdr) (pos + hdr + len)).length = len := by
    rw [extract_length hfit]
    omega
  rcases h with ⟨k, hk, he, hl, rfl, rfl⟩ | ⟨he, hn, rfl⟩
  · have hs : (data.extract (pos + 1) (pos + 1 + 2 ^ k)).length = 2 ^ k := by
      rw [extract_length hl, Nat.add_sub_cancel_left]
    refine ⟨_, prefix_cons_iff.mpr ⟨hm, prefix_append_iff.mpr ⟨extract_prefix_drop, ?_⟩⟩,
      .sized hk he hs hlen, ?_⟩
    · rw [hs, Nat.add_assoc pos 1]
      exact extract_prefix_drop
    · rw [List.length_cons, List.length_append, hs, hlen]
      omega
  · refine ⟨_, prefix_cons_iff.mpr ⟨hm, extract_prefix_drop⟩, .fix ?_ ?_, ?_⟩
    · rw [hlen, he]
    · rw [hlen]
      exact hn
    · rw [List.length_cons, hlen]
      omega

theorem blob_header {m : UInt8} {enc payload : Bytes} (hb : Blob enc payload) (hm : data[pos]? = some m)
    (hp : enc <+: data.drop pos) (hpos : pos < data.length) :
    ∃ hdr, BinHead data pos m hdr payload.length ∧ pos + hdr + payload.length ≤ data.length ∧
      data.extract (pos + hdr) (pos + hdr + payload.length) = payload ∧
      enc.length = hdr + payload.length := by
  cases hb with
  | fix he hn =>
      rw [prefix_cons_iff, hm, Option.some.injEq] at hp
      obtain ⟨rfl, ht⟩ := hp
      exact ⟨1, .inr ⟨he, hn, rfl⟩, prefix_end ht (by omega), prefix_extract ht, Nat.add_comm _ 1⟩
  | @sized m' k size _ hk he hs hl =>
      rw [prefix_cons_iff, hm, Option.some.injEq, prefix_append_iff, hs] at hp
      obtain ⟨rfl, ht, hpay⟩ := hp
      have hend := prefix_end ht (by omega)
      rw [hs] at hend
      have hsize : ofBe (data.extract (pos + 1) (pos + 1 + 2 ^ k)) = payload.length := by
        rw [← hs, prefix_extract ht, hl]
      rw [Nat.add_assoc pos 1] at hpay
      refine ⟨1 + 2 ^ k, .inl ⟨k, hk, he, hend, rfl, hsize.symm⟩, prefix_end hpay (by omega),
        prefix_extract hpay, ?_⟩
      rw [List.length_cons, List.length_append, hs]
      omega

/-- read_bin returns the payload of the one bin or str that starts at pos. -/
theorem readBin_eq_ok {payload : Bytes} : readBin data pos = .ok (payload, e) ↔
    ∃ enc, enc <+: data.drop pos ∧ Blob enc payload ∧ e = pos + enc.length := by
  cases hm : data[pos]? with
  | none =>
      rw [readBin_past hm]
      constructor
      · intro h
        exact absurd h (by simp)
      · rintro ⟨enc, hp, hb, -⟩
        exact absurd (prefix_past hm hp) hb.ne_nil
  | some m =>
      have hlt := (List.getElem?_eq_some_iff.mp hm).1
      rw [readBin_eq hm, bind_eq_ok]
      constructor
      · rintro ⟨⟨hdr, len⟩, hh, h⟩
        simp only at h
        split at h
        next => exact absurd h (by simp)
        next hle =>
          simp only [Except.ok.injEq, Prod.mk.injEq] at h
          obtain ⟨rfl, rfl⟩ := h
          obtain ⟨enc, hp, hb, hlen⟩ := (binHeader_eq_ok.mp hh).blob hm (by omega)
          exact ⟨enc, hp, hb, by omega⟩
      · rintro ⟨enc, hp, hb, rfl⟩
        obtain ⟨hdr, hh, hfit, hpayload, hlen⟩ := blob_header hb hm hp hlt
        refine ⟨(hdr, payload.length), binHeader_eq_ok.mpr hh, ?_⟩
        simp only
        rw [if_neg (by omega), hpayload, hlen, Nat.add_assoc]

theorem malformed_readBin (pos : Nat) : Malformed (readBin data pos) := by
  cases hm : data[pos]? with
  | none => exact .inr (readBin_past hm)
  | some m =>
      rw [readBin_eq hm]
      refine (malformed_binHeader _).bind (fun h => okOr_ite (fun _ => .inl ⟨_, rfl⟩))

theorem fieldIdWidth_eq {b w : Nat} {signed : Bool} : fieldIdWidth b = some (w, signed) ↔
    ∃ k, k < 4 ∧ w = 2 ^ k ∧ (b = 0xcc + k ∧ signed = false ∨ b = 0xd0 + k ∧ signed = true) := by
  constructor
  · intro h
    rw [fieldIdWidth] at h
    repeat' split at h
    all_goals cases h
    · exact ⟨0, by omega, rfl, .inl ⟨by omega, rfl⟩⟩
    · exact ⟨1, by omega, rfl, .inl ⟨by omega, rfl⟩⟩
    · exact ⟨2, by omega, rfl, .inl ⟨by omega, rfl⟩⟩
    · exact ⟨3, by omega, rfl, .inl ⟨by omega, rfl⟩⟩
    · exact ⟨0, by omega, rfl, .inr ⟨by omega, rfl⟩⟩
    · exact ⟨1, by omega, rfl, .inr ⟨by omega, rfl⟩⟩
    · exact ⟨2, by omega, rfl, .inr ⟨by omega, rfl⟩⟩
    · exact ⟨3, by omega, rfl, .inr ⟨by omega, rfl⟩⟩
  · rintro ⟨k, hk, rfl, ⟨rfl, rfl⟩ | ⟨rfl, rfl⟩⟩ <;> interval_cases k <;> rfl

theorem fieldIdWidth_eq_none {b : Nat} (h : b < 0xcc ∨ 0xd3 < b) : fieldIdWidth b = none := by
  rw [fieldIdWidth]
  repeat rw [if_neg (by omega)]

theorem high_bit (b : UInt8) : b.toNat &&& 0x80 ≠ 0 ↔ 128 ≤ b.toNat := by
  have h : ∀ n : Fin 256, n.val &&& 0x80 ≠ 0 ↔ 128 ≤ n.val := by decide +kernel
  exact h ⟨b.toNat, toNat_lt b⟩

/-- Shifting the digits into the seed reads them in two's complement. -/
theorem signSeed_digits {bytes : Bytes} (signed : Bool) (hne : bytes ≠ []) :
    ∃ seed, signSeed bytes signed = .ok seed ∧
      bytes.foldl (fun v b => v * 256 + (b.toNat : Int)) seed =
        if signed then ofBeSigned bytes else ofBe bytes := by
  cases signed with
  | false => exact ⟨0, rfl, by rw [foldl_digits]; simp⟩
  | true =>
      obtain ⟨b, tail, rfl⟩ := List.exists_cons_of_ne_nil hne
      refine ⟨if b.toNat &&& 0x80 ≠ 0 then -1 else 0, rfl, ?_⟩
      have htail := ofBe_lt tail
      rw [foldl_digits, if_pos rfl, ofBeSigned, ofBe_cons, List.length_cons, Nat.pow_succ]
      push_cast
      by_cases hb : 128 ≤ b.toNat
      · have hq := Nat.mul_le_mul_right (256 ^ tail.length) hb
        rw [if_pos ((high_bit b).mpr hb), if_neg (by omega)]
        ring
      · have hq := Nat.mul_le_mul_right (256 ^ tail.length) (show b.toNat ≤ 127 by omega)
        rw [if_neg (fun h => hb ((high_bit b).mp h)), if_pos (by omega)]
        ring

theorem integer_fix_inv {m : UInt8} {tail : Bytes} {n : Int} (hm : m.toNat ≤ 0x7f)
    (h : Integer (m :: tail) n) : tail = [] ∧ n = m.toNat := by
  cases h with
  | fix => exact ⟨rfl, rfl⟩
  | negative h => omega
  | unsigned hk h => omega
  | signed hk h => omega

theorem integer_negative_inv {m : UInt8} {tail : Bytes} {n : Int} (hm : 0xe0 ≤ m.toNat)
    (h : Integer (m :: tail) n) : tail = [] ∧ n = m.toNat - 256 := by
  cases h with
  | fix h => omega
  | negative => exact ⟨rfl, rfl⟩
  | unsigned hk h => omega
  | signed hk h => omega

theorem integer_wide_inv {m : UInt8} {tail : Bytes} {n : Int} {k : Nat} {signed : Bool} (hk : k < 4)
    (hm : m.toNat = 0xcc + k ∧ signed = false ∨ m.toNat = 0xd0 + k ∧ signed = true)
    (h : Integer (m :: tail) n) :
    tail.length = 2 ^ k ∧ n = if signed then ofBeSigned tail else ofBe tail := by
  cases h with
  | fix h => omega
  | negative h => omega
  | @unsigned _ k' _ hk' h hb =>
      obtain ⟨h', rfl⟩ | ⟨h', -⟩ := hm
      · rw [show k = k' by omega]
        exact ⟨hb, rfl⟩
      · omega
  | @signed _ k' _ hk' h hb =>
      obtain ⟨h', -⟩ | ⟨h', rfl⟩ := hm
      · omega
      · rw [show k = k' by omega]
        exact ⟨hb, rfl⟩

theorem integer_unsigned_inv {m : UInt8} {tail : Bytes} {n : Int} {k : Nat} (hk : k < 4)
    (hm : m.toNat = 0xcc + k) (h : Integer (m :: tail) n) :
    tail.length = 2 ^ k ∧ n = ofBe tail :=
  integer_wide_inv hk (.inl ⟨hm, rfl⟩) h

theorem integer_signed_inv {m : UInt8} {tail : Bytes} {n : Int} {k : Nat} (hk : k < 4)
    (hm : m.toNat = 0xd0 + k) (h : Integer (m :: tail) n) :
    tail.length = 2 ^ k ∧ n = ofBeSigned tail :=
  integer_wide_inv hk (.inr ⟨hm, rfl⟩) h

theorem tryFrom_of_range {v : Int} (h : -2 ^ 63 ≤ v ∧ v ≤ 2 ^ 64 - 1) :
    FieldId.tryFrom v = .ok ⟨v, h.1, h.2⟩ := by
  rw [FieldId.tryFrom]
  rw [dif_neg (by omega)]

theorem integer_wide {m : UInt8} {bytes : Bytes} {k : Nat} {signed : Bool} (hk : k < 4)
    (hm : m.toNat = 0xcc + k ∧ signed = false ∨ m.toNat = 0xd0 + k ∧ signed = true)
    (hb : bytes.length = 2 ^ k) :
    Integer (m :: bytes) (if signed then ofBeSigned bytes else ofBe bytes) := by
  rcases hm with ⟨hm, rfl⟩ | ⟨hm, rfl⟩
  · exact .unsigned hk hm hb
  · exact .signed hk hm hb

theorem readFieldId_wide {m : UInt8} {k : Nat} {signed : Bool} (hm : data[pos]? = some m)
    (hk : k < 4) (hc : m.toNat = 0xcc + k ∧ signed = false ∨ m.toNat = 0xd0 + k ∧ signed = true) :
    (¬pos + 1 + 2 ^ k ≤ data.length ∧ readFieldId data pos = fail ()) ∨
    ∃ bytes id, bytes <+: data.drop (pos + 1) ∧ bytes.length = 2 ^ k ∧
      id.val = (if signed then ofBeSigned bytes else (ofBe bytes : Int)) ∧
      readFieldId data pos = .ok (id, pos + 1 + 2 ^ k) := by
  have hw := fieldIdWidth_eq.mpr ⟨k, hk, rfl, hc⟩
  rw [readFieldId, hm, orFail_some, ok_bind, if_neg (by omega), if_neg (by omega), hw,
    orFail_some, ok_bind]
  simp only [rejectIf_bind]
  by_cases hl : pos + 1 + 2 ^ k ≤ data.length
  · right
    have hb : (data.extract (pos + 1) (pos + 1 + 2 ^ k)).length = 2 ^ k := by
      rw [extract_length hl, Nat.add_sub_cancel_left]
    have hne : data.extract (pos + 1) (pos + 1 + 2 ^ k) ≠ [] := by
      have := Nat.two_pow_pos k
      exact List.length_pos_iff.mp (by rw [hb]; exact this)
    obtain ⟨seed, hs, hv⟩ := signSeed_digits signed hne
    refine ⟨_, ⟨_, (integer_wide hk hc hb).range.1, (integer_wide hk hc hb).range.2⟩,
      extract_prefix_drop, hb, rfl, ?_⟩
    rw [if_neg (by omega), hs, ok_bind, hv, tryFrom_of_range (integer_wide hk hc hb).range]
    rfl
  · left
    rw [if_pos (by omega)]
    exact ⟨hl, rfl⟩

theorem readFieldId_past (h : data[pos]? = none) : readFieldId data pos = fail () := by
  rw [readFieldId, h]
  rfl

theorem ofI8_val {m : UInt8} (h : 0xe0 ≤ m.toNat) : (FieldId.ofI8 m).val = m.toNat - 256 :=
  if_neg (by omega)

theorem readFieldId_cases {m : UInt8} (hm : data[pos]? = some m) :
    (m.toNat ≤ 0x7f ∧ readFieldId data pos = .ok (.ofU8 m, pos + 1)) ∨
    (0xe0 ≤ m.toNat ∧ readFieldId data pos = .ok (.ofI8 m, pos + 1)) ∨
    (∃ k signed, k < 4 ∧
      (m.toNat = 0xcc + k ∧ signed = false ∨ m.toNat = 0xd0 + k ∧ signed = true)) ∨
    ((∀ enc n, ¬Integer (m :: enc) n) ∧ readFieldId data pos = fail ()) := by
  by_cases h1 : m.toNat ≤ 0x7f
  · refine .inl ⟨h1, ?_⟩
    rw [readFieldId, hm, orFail_some, ok_bind, if_pos h1, pure_eq_ok]
  by_cases h2 : 0xe0 ≤ m.toNat
  · refine .inr (.inl ⟨h2, ?_⟩)
    rw [readFieldId, hm, orFail_some, ok_bind, if_neg h1, if_pos h2, pure_eq_ok]
  by_cases h3 : 0xcc ≤ m.toNat ∧ m.toNat ≤ 0xcf
  · exact .inr (.inr (.inl ⟨m.toNat - 0xcc, false, by omega, .inl ⟨by omega, rfl⟩⟩))
  by_cases h4 : 0xd0 ≤ m.toNat ∧ m.toNat ≤ 0xd3
  · exact .inr (.inr (.inl ⟨m.toNat - 0xd0, true, by omega, .inr ⟨by omega, rfl⟩⟩))
  refine .inr (.inr (.inr ⟨?_, ?_⟩))
  · intro enc n h
    cases h <;> omega
  · have hw : fieldIdWidth m.toNat = none := by
      rw [fieldIdWidth]
      repeat rw [if_neg (by omega)]
    rw [readFieldId, hm, orFail_some, ok_bind, if_neg h1, if_neg h2, hw]
    rfl

theorem okOr_readFieldId (data : Bytes) (pos : Nat) : OkOr () (readFieldId data pos) := by
  cases hm : data[pos]? with
  | none => exact .inr (readFieldId_past hm)
  | some m =>
      rcases readFieldId_cases hm with ⟨-, h⟩ | ⟨-, h⟩ | ⟨k, signed, hk, hc⟩ | ⟨-, h⟩
      · exact .inl ⟨_, h⟩
      · exact .inl ⟨_, h⟩
      · rcases readFieldId_wide hm hk hc with ⟨-, h⟩ | ⟨_, _, -, -, -, h⟩
        · exact .inr h
        · exact .inl ⟨_, h⟩
      · exact .inr h

/-- read_field_id returns the value of the one integer that starts at pos. -/
theorem readFieldId_eq_ok {id : FieldId} : readFieldId data pos = .ok (id, e) ↔
    ∃ enc, enc <+: data.drop pos ∧ Integer enc id.val ∧ e = pos + enc.length := by
  cases hm : data[pos]? with
  | none =>
      rw [readFieldId_past hm]
      constructor
      · intro h
        exact absurd h (by simp)
      · rintro ⟨enc, hp, hi, -⟩
        obtain ⟨m, tail, rfl⟩ := List.exists_cons_of_ne_nil hi.ne_nil
        rw [prefix_cons_iff, hm] at hp
        exact absurd hp.1 (by simp)
  | some m =>
      have hone : [m] <+: data.drop pos := prefix_cons_iff.mpr ⟨hm, List.nil_prefix⟩
      constructor
      · intro h
        rcases readFieldId_cases hm with ⟨hc, he⟩ | ⟨hc, he⟩ | ⟨k, signed, hk, hc⟩ | ⟨-, he⟩
        · rw [he] at h
          cases h
          exact ⟨_, hone, .fix hc, rfl⟩
        · rw [he] at h
          cases h
          refine ⟨_, hone, ?_, rfl⟩
          rw [ofI8_val hc]
          exact .negative hc
        · rcases readFieldId_wide hm hk hc with ⟨-, he⟩ | ⟨bytes, id', hp, hb, hv, he⟩
          · rw [he] at h
            exact absurd h (by simp)
          · rw [he] at h
            cases h
            refine ⟨m :: bytes, prefix_cons_iff.mpr ⟨hm, hp⟩, ?_, ?_⟩
            · rw [hv]
              exact integer_wide hk hc hb
            · rw [List.length_cons, hb]
              omega
        · rw [he] at h
          exact absurd h (by simp)
      · rintro ⟨enc, hp, hi, rfl⟩
        obtain ⟨m', tail, rfl⟩ := List.exists_cons_of_ne_nil hi.ne_nil
        rw [prefix_cons_iff, hm, Option.some.injEq] at hp
        obtain ⟨rfl, ht⟩ := hp
        rcases readFieldId_cases hm with ⟨hc, he⟩ | ⟨hc, he⟩ | ⟨k, signed, hk, hc⟩ | ⟨hno, -⟩
        · obtain ⟨rfl, hv⟩ := integer_fix_inv hc hi
          obtain rfl : id = .ofU8 _ := FieldId.ext hv
          exact he
        · obtain ⟨rfl, hv⟩ := integer_negative_inv hc hi
          obtain rfl : id = .ofI8 _ := FieldId.ext (hv.trans (ofI8_val hc).symm)
          exact he
        · obtain ⟨hl, hv⟩ := integer_wide_inv hk hc hi
          have hend := prefix_end ht (List.getElem?_eq_some_iff.mp hm).1
          rcases readFieldId_wide hm hk hc with ⟨hle, -⟩ | ⟨bytes, id', hp, hb, hv', he⟩
          · exact absurd (by rw [← hl]; exact hend) hle
          · have heq := (prefix_extract hp).symm.trans ((hb.trans hl.symm) ▸ prefix_extract ht)
            subst heq
            rw [he, FieldId.ext (hv'.trans hv.symm), List.length_cons, hl]
            congr 2
            omega
        · exact absurd hi (hno tail id.val)

end LxmfLite.FieldReading
