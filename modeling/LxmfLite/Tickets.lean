import LxmfLite.IntegerDecoders

namespace LxmfLite.Tickets

open ByteString Execution SelfDelimiting MessagePack Pairing FloatingPoint Message Reader Skipping
  FieldReading FieldMaps FieldLookup Audio IntegerDecoders

section Numbers

inductive Number : Bytes → F64 → Prop
  | integer {enc : Bytes} {n : Int} (h : Integer enc n) : Number enc (.ofInt n)
  | float32 {m : UInt8} {body : Bytes} (hm : m.toNat = 0xca) (hb : body.length = 4) :
      Number (m :: body) (.ofF32Bits (ofBe body))
  | float64 {m : UInt8} {body : Bytes} (hm : m.toNat = 0xcb) (hb : body.length = 8) :
      Number (m :: body) (.fromBits (ofBe body))

theorem Number.ne_nil {enc : Bytes} {x : F64} (h : Number enc x) : enc ≠ [] := by
  cases h with
  | integer h => exact h.ne_nil
  | float32 hm hb => exact List.cons_ne_nil _ _
  | float64 hm hb => exact List.cons_ne_nil _ _

variable {data : Bytes} {pos : Nat} {m : UInt8}

theorem number_integer {tail : Bytes} {x : F64} (hi : IntegerMarker m) (h : Number (m :: tail) x) :
    ∃ n, Integer (m :: tail) n ∧ x = .ofInt n := by
  rw [IntegerMarker] at hi
  cases h with
  | integer h => exact ⟨_, h, rfl⟩
  | float32 hm hb => omega
  | float64 hm hb => omega

theorem number_float {tail : Bytes} {x : F64} (hf : m.toNat = 0xca ∨ m.toNat = 0xcb) :
    Number (m :: tail) x ↔ tail.length = (if m.toNat = 0xca then 4 else 8) ∧
      x = if m.toNat = 0xca then .ofF32Bits (ofBe tail) else .fromBits (ofBe tail) := by
  constructor
  · intro h
    cases h with
    | integer h =>
        have hi := integer_marker h
        rw [IntegerMarker] at hi
        omega
    | float32 hm hb => exact ⟨by rw [if_pos hm, hb], by rw [if_pos hm]⟩
    | float64 hm hb => exact ⟨by rw [if_neg (by omega), hb], by rw [if_neg (by omega)]⟩
  · rintro ⟨hb, rfl⟩
    rcases hf with hm | hm
    · rw [if_pos hm] at hb ⊢
      exact .float32 hm hb
    · rw [if_neg (by omega)] at hb ⊢
      exact .float64 hm hb

theorem readNumber_past (h : data[pos]? = none) : readNumber data pos = fail () := by
  rw [readNumber, h]
  rfl

theorem readNumber_float {w : Nat} (hm : data[pos]? = some m) (hf : m.toNat = 0xca ∨ m.toNat = 0xcb)
    (hw : w = if m.toNat = 0xca then 4 else 8) : readNumber data pos =
      if pos + 1 + w > data.length then fail ()
      else .ok (if m.toNat = 0xca then .ofF32Bits (ofBe (data.extract (pos + 1) (pos + 1 + w)))
        else .fromBits (ofBe (data.extract (pos + 1) (pos + 1 + w))), pos + 1 + w) := by
  have hwidth : numberWidth m.toNat = some w := by
    rcases hf with hf | hf <;> rw [hw, hf] <;> rfl
  have hle : w ≤ 8 := by
    split at hw <;> omega
  rw [readNumber, hm, orFail_some, ok_bind, if_neg (by omega), if_neg (by omega), hwidth, orFail_some,
    ok_bind]
  simp only [rejectIf_bind]
  split
  · rfl
  next hlen =>
    have hb : (data.extract (pos + 1) (pos + 1 + w)).length = w := by
      rw [extract_length (by omega), Nat.add_sub_cancel_left]
    have hlt := ofBe_lt (data.extract (pos + 1) (pos + 1 + w))
    rw [hb] at hlt
    rw [copy_raw hb hle, ok_bind, ofBe_replicate_append, numberValue, pure_eq_ok]
    by_cases hc : m.toNat = 0xca
    · rw [if_pos hc] at hw
      subst hw
      have hfit : ofBe (data.extract (pos + 1) (pos + 1 + 4)) < 2 ^ 32 := by omega
      rw [if_pos hc, if_pos hc, Nat.mod_eq_of_lt hfit]
    · rw [if_neg hc, if_pos (by omega), if_neg hc]

theorem readNumber_other (hm : data[pos]? = some m) (hi : ¬IntegerMarker m)
    (hf : ¬(m.toNat = 0xca ∨ m.toNat = 0xcb)) : readNumber data pos = fail () := by
  rw [IntegerMarker] at hi
  have hw : numberWidth m.toNat = none := by
    rw [numberWidth]
    repeat rw [if_neg (by omega)]
  rw [readNumber, hm, orFail_some, ok_bind, if_neg (by omega), if_neg (by omega), hw]
  rfl

variable {x : F64} {e : Nat}

theorem readNumber_integer_iff (hm : data[pos]? = some m) (hi : IntegerMarker m) :
    readNumber data pos = .ok (x, e) ↔
      ∃ enc, enc <+: data.drop pos ∧ Number enc x ∧ e = pos + enc.length := by
  rw [readNumber_eq hm hi, readInteger_eq hm hi]
  constructor
  · intro h
    obtain ⟨r, hr, h⟩ := bind_eq_ok.mp h
    obtain ⟨⟨id, e'⟩, hid, hr⟩ := bind_eq_ok.mp hr
    cases hr
    cases h
    obtain ⟨enc, hp, hint, rfl⟩ := readFieldId_eq_ok.mp hid
    exact ⟨enc, hp, .integer hint, rfl⟩
  · rintro ⟨enc, hp, hn, rfl⟩
    obtain ⟨tail, rfl, -⟩ := marker_at hm hp hn.ne_nil
    obtain ⟨n, hint, rfl⟩ := number_integer hi hn
    have hid : readFieldId data pos = .ok (⟨n, hint.range.1, hint.range.2⟩, _) :=
      readFieldId_eq_ok.mpr ⟨_, hp, hint, rfl⟩
    rw [hid]
    rfl

theorem readNumber_float_iff (hm : data[pos]? = some m) (hf : m.toNat = 0xca ∨ m.toNat = 0xcb) :
    readNumber data pos = .ok (x, e) ↔
      ∃ enc, enc <+: data.drop pos ∧ Number enc x ∧ e = pos + enc.length := by
  obtain ⟨w, hw⟩ : ∃ w, w = if m.toNat = 0xca then 4 else 8 := ⟨_, rfl⟩
  rw [readNumber_float hm hf hw]
  constructor
  · intro h
    split at h
    · exact absurd h (fail_ne_ok _ _)
    next hlen =>
      cases h
      have hb : (data.extract (pos + 1) (pos + 1 + w)).length = w := by
        rw [extract_length (Nat.le_of_not_lt hlen), Nat.add_sub_cancel_left]
      refine ⟨m :: _, prefix_cons_iff.mpr ⟨hm, extract_prefix_drop⟩,
        (number_float hf).mpr ⟨hb.trans hw, rfl⟩, ?_⟩
      rw [List.length_cons, hb]
      omega
  · rintro ⟨enc, hp, hn, rfl⟩
    obtain ⟨tail, rfl, ht⟩ := marker_at hm hp hn.ne_nil
    obtain ⟨hb, rfl⟩ := (number_float hf).mp hn
    rw [← hw] at hb
    have hend := prefix_end ht (List.getElem?_eq_some_iff.mp hm).1
    rw [if_neg (by omega), extract_of_prefix ht hb, List.length_cons, hb]
    congr 2
    omega

/-- read_number reads the one number that starts at pos. -/
theorem readNumber_eq_ok : readNumber data pos = .ok (x, e) ↔
    ∃ enc, enc <+: data.drop pos ∧ Number enc x ∧ e = pos + enc.length := by
  cases hm : data[pos]? with
  | none =>
      rw [readNumber_past hm]
      refine iff_of_false (fail_ne_ok _ _) ?_
      rintro ⟨enc, hp, hn, -⟩
      exact hn.ne_nil (prefix_past hm hp)
  | some m =>
      by_cases hi : IntegerMarker m
      · exact readNumber_integer_iff hm hi
      by_cases hf : m.toNat = 0xca ∨ m.toNat = 0xcb
      · exact readNumber_float_iff hm hf
      rw [readNumber_other hm hi hf]
      refine iff_of_false (fail_ne_ok _ _) ?_
      rintro ⟨enc, hp, hn, -⟩
      obtain ⟨tail, rfl, -⟩ := marker_at hm hp hn.ne_nil
      cases hn with
      | integer h => exact hi (integer_marker h)
      | float32 hc hb => exact hf (.inl hc)
      | float64 hc hb => exact hf (.inr hc)

end Numbers

/-- What stands under the ticket key: a number and a bin or str of sixteen bytes. -/
inductive TicketValue : Bytes → TicketField → Prop
  | mk {header number blob : Bytes} {t : TicketField} (hh : ArrayHeader header 2)
      (hn : Number number t.expires) (hb : Blob blob t.ticket.val) :
      TicketValue (header ++ (number ++ blob)) t

def readTicket (value : Bytes) (now : F64) : Maybe TicketField := do
  let first ← orFail (pairHeader value) ()
  let (expires, after) ← readNumber value first
  let (ticket, last) ← ok (readBin value after)
  rejectIf (last ≠ value.length ∨ expires.isFinite = false ∨ expires.le now) ()
  let ticket ← orFail (tryInto ticketLength ticket) ()
  pure ⟨expires, ticket⟩

theorem ticketField_eq (fields : Bytes) (now : F64) : ticketField fields now =
    fieldValue fields fieldTicket >>= fun value => readTicket value now := rfl

theorem readTicket_eq_ok {value : Bytes} {now : F64} {t : TicketField} :
    readTicket value now = .ok t ↔
      TicketValue value t ∧ t.expires.isFinite = true ∧ t.expires.le now = false := by
  constructor
  · intro h
    obtain ⟨n, hn, h⟩ := bind_eq_ok.mp h
    obtain ⟨header, ⟨rest, rfl⟩, hh, rfl⟩ := pairHeader_eq.mp (orFail_eq_ok.mp hn)
    obtain ⟨⟨expires, after⟩, hr, h⟩ := bind_eq_ok.mp h
    obtain ⟨number, hp, hnum, rfl⟩ := readNumber_eq_ok.mp hr
    rw [List.drop_left] at hp
    obtain ⟨rest, rfl⟩ := hp
    obtain ⟨⟨bytes, last⟩, hb, h⟩ := bind_eq_ok.mp h
    obtain ⟨blob, hp, hblob, rfl⟩ := readBin_eq_ok.mp (ok_eq_ok.mp hb)
    rw [← List.drop_drop, List.drop_left, List.drop_left] at hp
    simp only [rejectIf_bind] at h
    split at h
    · exact absurd h (fail_ne_ok _ _)
    next hc =>
      obtain ⟨ticket, ht, h⟩ := bind_eq_ok.mp h
      cases h
      obtain rfl := tryInto_eq_some.mp (orFail_eq_ok.mp ht)
      rw [not_or, not_or, not_not, Bool.not_eq_false, Bool.not_eq_true] at hc
      obtain ⟨hlen, hfinite, hlate⟩ := hc
      simp only [List.length_append] at hlen
      obtain rfl := hp.eq_of_length (by omega)
      exact ⟨.mk hh hnum hblob, hfinite, hlate⟩
  · rintro ⟨⟨hh, hn, hb⟩, hfinite, hlate⟩
    rename_i header number blob
    have hheader := pairHeader_eq.mpr ⟨header, List.prefix_append header (number ++ blob), hh, rfl⟩
    have hbehind : (header ++ (number ++ blob)).drop header.length = number ++ blob := List.drop_left
    have hafter : (header ++ (number ++ blob)).drop (header.length + number.length) = blob := by
      rw [← List.drop_drop, hbehind, List.drop_left]
    have hnumber := readNumber_eq_ok.mpr
      ⟨number, by rw [hbehind]; exact List.prefix_append number blob, hn, rfl⟩
    have hblob := readBin_eq_ok.mpr ⟨blob, ⟨[], by rw [List.append_nil, hafter]⟩, hb, rfl⟩
    rw [readTicket, hheader, orFail_some, ok_bind, hnumber, ok_bind]
    simp only
    rw [hblob, ok, ok_bind]
    simp only [rejectIf_bind]
    rw [if_neg, tryInto_eq_some.mpr rfl, orFail_some, ok_bind]
    · rfl
    · rw [not_or, not_or, not_not, Bool.not_eq_false, Bool.not_eq_true]
      refine ⟨?_, hfinite, hlate⟩
      simp only [List.length_append, Nat.add_assoc]

def Holds (fields : Bytes) (t : TicketField) : Prop :=
  ∃ m : OuterMap, fields = m.bytes ∧ ∃ p ∈ m.pairs, p.id = fieldTicket.toNat ∧ TicketValue p.value t

theorem ticketField_eq_ok {fields : Bytes} {now : F64} {t : TicketField} :
    ticketField fields now = .ok t ↔
      Holds fields t ∧ t.expires.isFinite = true ∧ t.expires.le now = false := by
  rw [ticketField_eq, bind_eq_ok]
  simp only [fieldValue, fieldValueId_eq_ok, readTicket_eq_ok]
  constructor
  · rintro ⟨value, ⟨m, rfl, p, hp, hid, rfl⟩, hv, hrest⟩
    exact ⟨⟨m, rfl, p, hp, hid, hv⟩, hrest⟩
  · rintro ⟨⟨m, rfl, p, hp, hid, hv⟩, hrest⟩
    exact ⟨p.value, ⟨m, rfl, p, hp, hid, rfl⟩, hv, hrest⟩

/-- The ticket is read exactly as long as the clock is a number, and where it is
not as long as no ticket with a finite expiry stands in the fields. -/
theorem ticketField_exact_iff (fields : Bytes) (now : F64) :
    (∀ t, ticketField fields now = .ok t ↔
      Holds fields t ∧ t.expires.isFinite = true ∧ now.lt t.expires = true) ↔
    ¬(now.datum = .nan ∧ ∃ t, Holds fields t ∧ t.expires.isFinite = true) := by
  constructor
  · rintro hexact ⟨hnan, t, ht, hfinite⟩
    have hlate : t.expires.le now = false := by
      rw [F64.le, hnan, Datum.le_nan]
    have hlt := ((hexact t).mp (ticketField_eq_ok.mpr ⟨ht, hfinite, hlate⟩)).2.2
    rw [F64.lt, hnan, Datum.nan_lt] at hlt
    exact nomatch hlt
  · intro hno t
    rw [ticketField_eq_ok]
    apply and_congr_right
    intro ht
    apply and_congr_right
    intro hfinite
    have hnan : now.datum ≠ .nan := fun hnan => hno ⟨hnan, t, ht, hfinite⟩
    obtain ⟨v, hv⟩ := Format.decode_of_isFinite binary64 hfinite
    rw [F64.le, F64.lt, F64.datum, hv]
    exact Datum.le_eq_false_iff hnan

def expiredTicket : Bytes := [0x81, 0x0c, 0x92, 1, 0xc4, 16] ++ List.replicate 16 0

def notANumber : F64 := ⟨0x7ff8000000000000⟩

theorem expiredTicket_accepted :
    ¬∀ t, ticketField expiredTicket notANumber = .ok t ↔
      Holds expiredTicket t ∧ t.expires.isFinite = true ∧ notANumber.lt t.expires = true := by
  intro h
  have ht : ticketField expiredTicket notANumber =
      .ok ⟨.ofInt 1, ⟨List.replicate 16 0, List.length_replicate⟩⟩ := by
    decide +kernel
  exact absurd ((h _).mp ht).2.2 (by decide +kernel)

end LxmfLite.Tickets
