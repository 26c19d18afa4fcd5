import LxmfLite.Rounding
import LxmfLite.Tickets
import LxmfLite.Totality
import Mathlib.Data.Rat.Floor

namespace LxmfLite.ExactNumbers

open ByteString Execution SelfDelimiting MessagePack Pairing FloatingPoint Format Message Reader
  FieldLookup Audio IntegerDecoders Replies Tickets
open Totality (ensures_ticketField)

section Patterns

variable {x v : ℚ} {bits : Nat}

theorem round_lt (negative : Bool) (x : ℚ) : binary64.round negative x < 2 ^ 64 := by
  have hinfinity : binary64.infinity = 0x7ff0000000000000 := by decide
  have hsign : binary64.signBit = 0x8000000000000000 := by decide
  have hle : binary64.nearest (x.num.natAbs * 2 ^ binary64.scale) x.den ≤ binary64.infinity := by
    rw [nearest_eq]
    exact Nat.min_le_left _ _
  rw [Format.round, withSign]
  split <;> omega

theorem fromBits_datum (h : bits < 2 ^ 64) : (F64.fromBits bits).datum = binary64.decode bits := by
  rw [F64.datum, F64.fromBits, UInt64.toNat_ofNat_of_lt' h]

theorem isFinite_iff (y : F64) : y.isFinite = true ↔ ∃ v, y.datum = .finite v := by
  rw [F64.isFinite, F64.datum]
  constructor
  · exact decode_of_isFinite binary64
  · rintro ⟨v, h⟩
    exact (decode_eq_finite h).1

theorem ofInt_datum {n : Int} (h : |(n : ℚ)| ≤ 2 ^ 64) :
    (F64.ofInt n).datum = .finite (binary64.rounded n) := by
  have hfits : binary64.Fits |(n : ℚ)| := by
    refine fits_of_lt (t := 1086) (abs_nonneg _) ?_ (by decide)
    have hscale : binary64.scale = 1074 := by decide
    have hbits : binary64.fractionBits = 52 := rfl
    rw [hscale, hbits]
    calc |(n : ℚ)| * 2 ^ 1074 ≤ 2 ^ 64 * 2 ^ 1074 := mul_le_mul_of_nonneg_right h (by positivity)
      _ = 2 ^ (64 + 1074) := (pow_add 2 64 1074).symm
      _ < 2 ^ (52 + 1086 + 1) := pow_lt_pow_right₀ (by norm_num) (by norm_num)
  have hlt : binary64.ofInt n < 2 ^ 64 := round_lt _ _
  rw [F64.ofInt, fromBits_datum hlt, decode_ofInt hfits]

theorem convert_lt (bits : Nat) : binary64.convert binary32 bits < 2 ^ 64 := by
  have hinfinity : binary64.infinity = 0x7ff0000000000000 := by decide
  have hnan : binary64.quietNan = 0x7ff8000000000000 := by decide
  have hsign : binary64.signBit = 0x8000000000000000 := by decide
  rw [convert]
  split
  · rw [withSign]
    split <;> omega
  · rw [withSign]
    split <;> omega
  · exact round_lt _ _

theorem not_finite (negative : Bool) :
    binary64.isFinite (binary64.withSign negative binary64.infinity) ≠ true ∧
      binary64.isFinite (binary64.withSign negative binary64.quietNan) ≠ true := by
  cases negative <;> decide

theorem ofF32Bits_datum : (F64.ofF32Bits bits).datum = .finite v ↔ binary32.decode bits = .finite v := by
  rw [F64.ofF32Bits, fromBits_datum (convert_lt bits)]
  constructor
  · intro h
    cases hd : binary32.decode bits with
    | nan =>
        rw [convert, hd] at h
        exact absurd (decode_eq_finite h).1 (not_finite _).2
    | infinite negative =>
        rw [convert, hd] at h
        exact absurd (decode_eq_finite h).1 (not_finite _).1
    | finite u =>
        have hu := decode_convert binary32_widens (by decide) hd
        rw [hu] at h
        exact h
  · exact decode_convert binary32_widens (by decide)

end Patterns

inductive Exact : Bytes → ℚ → Prop
  | integer {enc : Bytes} {n : Int} (h : Integer enc n) : Exact enc n
  | float32 {m : UInt8} {body : Bytes} {v : ℚ} (hm : m.toNat = 0xca) (hb : body.length = 4)
      (hv : binary32.decode (ofBe body) = .finite v) : Exact (m :: body) v
  | float64 {m : UInt8} {body : Bytes} {v : ℚ} (hm : m.toNat = 0xcb) (hb : body.length = 8)
      (hv : binary64.decode (ofBe body) = .finite v) : Exact (m :: body) v

theorem Exact.ne_nil {enc : Bytes} {v : ℚ} (h : Exact enc v) : enc ≠ [] := by
  cases h with
  | integer h => exact h.ne_nil
  | float32 hm hb hv => exact List.cons_ne_nil _ _
  | float64 hm hb hv => exact List.cons_ne_nil _ _

theorem Exact.unique {enc : Bytes} {u v : ℚ} (h : Exact enc u) (h' : Exact enc v) : u = v := by
  cases h with
  | integer h =>
      cases h' with
      | integer h' => rw [integer_value_unique h h']
      | float32 hm' => exact absurd (integer_marker h) (by rw [IntegerMarker]; omega)
      | float64 hm' => exact absurd (integer_marker h) (by rw [IntegerMarker]; omega)
  | float32 hm hb hv =>
      cases h' with
      | integer h' => exact absurd (integer_marker h') (by rw [IntegerMarker]; omega)
      | float32 hm' hb' hv' => exact Datum.finite.inj (hv.symm.trans hv')
      | float64 hm' => omega
  | float64 hm hb hv =>
      cases h' with
      | integer h' => exact absurd (integer_marker h') (by rw [IntegerMarker]; omega)
      | float32 hm' => omega
      | float64 hm' hb' hv' => exact Datum.finite.inj (hv.symm.trans hv')

section Numbers

variable {enc : Bytes} {x : F64} {v : ℚ} {m : UInt8} {body : Bytes}

theorem ofBe_lt_eight (h : body.length = 8) : ofBe body < 2 ^ 64 := by
  have hlt := ofBe_lt body
  rwa [h] at hlt

theorem integer_datum {n : Int} (h : Integer enc n) :
    (F64.ofInt n).datum = .finite (binary64.rounded n) := by
  have hrange := h.range
  refine ofInt_datum ?_
  rw [abs_le]
  constructor
  · exact_mod_cast (by omega : -2 ^ 64 ≤ n)
  · exact_mod_cast (by omega : n ≤ 2 ^ 64)

theorem float64_datum (hb : body.length = 8) :
    (F64.fromBits (ofBe body)).datum = .finite v ↔ binary64.decode (ofBe body) = .finite v := by
  rw [fromBits_datum (ofBe_lt_eight hb)]

theorem rounded_float32 {bits : Nat} (h : binary32.decode bits = .finite v) :
    binary64.rounded v = v := by
  have hwide := decode_convert binary32_widens (by decide) h
  exact rounded_of_decode (by decide) hwide

/-- What is read is finite when the encoding stands for a number, and is the
nearest to it. -/
theorem number_datum : (∃ x, Number enc x ∧ x.datum = .finite v) ↔
    ∃ u, Exact enc u ∧ v = binary64.rounded u := by
  constructor
  · rintro ⟨x, hn, hx⟩
    cases hn with
    | integer h =>
        rw [integer_datum h] at hx
        cases hx
        exact ⟨_, .integer h, rfl⟩
    | float32 hm hb =>
        have hv := ofF32Bits_datum.mp hx
        exact ⟨v, .float32 hm hb hv, (rounded_float32 hv).symm⟩
    | float64 hm hb =>
        have hv := (float64_datum hb).mp hx
        exact ⟨v, .float64 hm hb hv, (rounded_of_decode (by decide) hv).symm⟩
  · rintro ⟨u, he, rfl⟩
    cases he with
    | integer h => exact ⟨_, .integer h, integer_datum h⟩
    | float32 hm hb hv =>
        refine ⟨_, .float32 hm hb, ?_⟩
        rw [rounded_float32 hv]
        exact ofF32Bits_datum.mpr hv
    | float64 hm hb hv =>
        refine ⟨_, .float64 hm hb, ?_⟩
        rw [rounded_of_decode (by decide) hv]
        exact (float64_datum hb).mpr hv

end Numbers

section Unsigned

variable {data tail : Bytes} {x : F64} {v : ℚ} {m : UInt8} {u : Nat}

/-- The bounds that unsigned compares with are exact. -/
theorem bound_datum {n : Int} {k j : Nat} (h : n.natAbs = k * 2 ^ j) (hk : k < 2 ^ 53)
    (hn : n.natAbs ≤ 2 ^ 64) : (F64.ofInt n).datum = .finite n := by
  have hle : |(n : ℚ)| ≤ 2 ^ 64 := by
    have hcast : ((n.natAbs : Nat) : ℚ) ≤ 2 ^ 64 := by exact_mod_cast hn
    rwa [Nat.cast_natAbs, Int.cast_abs] at hcast
  rw [ofInt_datum hle, rounded_intCast h hk]

theorem admitted_iff :
    (x.isFinite = true ∧ (F64.ofInt 0).le x = true ∧ x.lt (.ofInt (2 ^ 64)) = true) ↔
      ∃ v, x.datum = .finite v ∧ 0 ≤ v ∧ v < 2 ^ 64 := by
  have hzero : (F64.ofInt 0).datum = .finite 0 :=
    bound_datum (k := 0) (j := 0) (by decide) (by decide) (by decide)
  have hbound : (F64.ofInt (2 ^ 64)).datum = .finite (2 ^ 64) := by
    rw [bound_datum (k := 1) (j := 64) (by decide) (by decide) (by decide), Int.cast_pow, Int.cast_ofNat]
  rw [isFinite_iff, F64.le, F64.lt, hzero, hbound]
  constructor
  · rintro ⟨⟨v, hv⟩, hle, hlt⟩
    rw [hv] at hle hlt
    simp only [Datum.le, Datum.lt, decide_eq_true_eq, Bool.and_eq_true, Bool.not_eq_true',
      decide_eq_false_iff_not] at hle hlt
    exact ⟨v, hv, hle, not_le.mp hlt.2⟩
  · rintro ⟨v, hv, hle, hlt⟩
    rw [hv]
    simp only [Datum.le, Datum.lt, decide_eq_true_eq, Bool.and_eq_true, Bool.not_eq_true',
      decide_eq_false_iff_not]
    exact ⟨⟨v, rfl⟩, hle, hlt.le, not_le.mpr hlt⟩

theorem asU64_eq (h : x.datum = .finite v) (hle : 0 ≤ v) (hlt : v < 2 ^ 64) : (x.asU64 : Int) = ⌊v⌋ := by
  have hfloor : 0 ≤ ⌊v⌋ := Int.floor_nonneg.mpr hle
  have hfit : ⌊v⌋ < 2 ^ 64 := Int.floor_lt.mpr (by exact_mod_cast hlt)
  have hasU64 : x.asU64 = min ⌊v⌋.toNat (2 ^ 64 - 1) := by
    rw [F64.asU64, h]
    rfl
  omega

def floored (x : F64) : Maybe Nat := do
  rejectIf (¬(x.isFinite = true ∧ (F64.ofInt 0).le x = true ∧ x.lt (.ofInt (2 ^ 64)) = true)) ()
  pure x.asU64

theorem floored_eq_ok : floored x = .ok u ↔
    ∃ v, x.datum = .finite v ∧ 0 ≤ v ∧ v < 2 ^ 64 ∧ (u : Int) = ⌊v⌋ := by
  simp only [floored, rejectIf_bind]
  constructor
  · intro h
    split at h
    next => exact absurd h (fail_ne_ok _ _)
    next hin =>
      obtain ⟨v, hv, hle, hlt⟩ := admitted_iff.mp (not_not.mp hin)
      cases h
      exact ⟨v, hv, hle, hlt, asU64_eq hv hle hlt⟩
  · rintro ⟨v, hv, hle, hlt, hu⟩
    rw [if_neg (not_not.mpr (admitted_iff.mpr ⟨v, hv, hle, hlt⟩))]
    rw [← asU64_eq hv hle hlt] at hu
    rw [Int.ofNat.inj hu]
    rfl

theorem unsigned_float {w : Nat} (hf : m.toNat = 0xca ∨ m.toNat = 0xcb)
    (hw : w = if m.toNat = 0xca then 4 else 8) : unsigned (m :: tail) =
      if w ≤ tail.length then
        floored (if m.toNat = 0xca then .ofF32Bits (ofBe (tail.take w)) else .fromBits (ofBe (tail.take w)))
      else fail () := by
  have hindex : (index (m :: tail) 0 : Maybe UInt8) = .ok m := rfl
  rw [unsigned, List.getElem?_cons_zero, orFail_some, ok_bind, if_neg (by omega), if_pos hf, hindex, ok_bind]
  simp only [getBe_cons]
  by_cases hl : w ≤ tail.length
  · rcases hf with hm | hm
    · obtain rfl : m = 0xca := byte_ext hm
      obtain rfl : w = 4 := hw
      rw [if_pos hl, if_pos hl]
      rfl
    · obtain rfl : m = 0xcb := byte_ext hm
      obtain rfl : w = 8 := hw
      rw [if_pos hl, if_pos hl]
      rfl
  · rcases hf with hm | hm
    · obtain rfl : m = 0xca := byte_ext hm
      obtain rfl : w = 4 := hw
      rw [if_neg hl, if_neg hl]
      rfl
    · obtain rfl : m = 0xcb := byte_ext hm
      obtain rfl : w = 8 := hw
      rw [if_neg hl, if_neg hl]
      rfl

theorem exact_float (hf : m.toNat = 0xca ∨ m.toNat = 0xcb) : Exact (m :: tail) v ↔
    tail.length = (if m.toNat = 0xca then 4 else 8) ∧
      (if m.toNat = 0xca then F64.ofF32Bits (ofBe tail) else .fromBits (ofBe tail)).datum = .finite v := by
  constructor
  · intro h
    cases h with
    | integer h =>
        have hi := integer_marker h
        rw [IntegerMarker] at hi
        omega
    | float32 hm hb hv =>
        rw [if_pos hm, if_pos hm]
        exact ⟨hb, ofF32Bits_datum.mpr hv⟩
    | float64 hm hb hv =>
        rw [if_neg (by omega), if_neg (by omega)]
        exact ⟨hb, (float64_datum hb).mpr hv⟩
  · rintro ⟨hb, hv⟩
    rcases hf with hm | hm
    · rw [if_pos hm] at hb hv
      exact .float32 hm hb (ofF32Bits_datum.mp hv)
    · rw [if_neg (by omega)] at hb hv
      exact .float64 hm hb ((float64_datum hb).mp hv)

theorem prefix_exact_cons : (∃ enc v, enc <+: m :: tail ∧ Exact enc v ∧ 0 ≤ v ∧ v < 2 ^ 64 ∧ (u : Int) = ⌊v⌋) ↔
    ∃ body v, body <+: tail ∧ Exact (m :: body) v ∧ 0 ≤ v ∧ v < 2 ^ 64 ∧ (u : Int) = ⌊v⌋ := by
  constructor
  · rintro ⟨enc, v, hp, he, hv⟩
    obtain ⟨body, rfl, hb⟩ := prefix_marker hp he.ne_nil
    exact ⟨body, v, hb, he, hv⟩
  · rintro ⟨body, v, hb, he, hv⟩
    exact ⟨m :: body, v, List.cons_prefix_cons.mpr ⟨rfl, hb⟩, he, hv⟩

/-- unsigned rounds down every number of the 64 bits, whatever its encoding. -/
theorem unsigned_floors (data : Bytes) (u : Nat) : unsigned data = .ok u ↔
    ∃ enc v, enc <+: data ∧ Exact enc v ∧ 0 ≤ v ∧ v < 2 ^ 64 ∧ (u : Int) = ⌊v⌋ := by
  cases data with
  | nil =>
      constructor
      · intro h
        exact absurd h (fail_ne_ok _ _)
      · rintro ⟨enc, v, hp, he, -⟩
        exact absurd (List.prefix_nil.mp hp) he.ne_nil
  | cons m tail =>
      by_cases hf : m.toNat = 0xca ∨ m.toNat = 0xcb
      · rw [prefix_exact_cons]
        obtain ⟨w, hw⟩ : ∃ w, w = if m.toNat = 0xca then 4 else 8 := ⟨_, rfl⟩
        rw [unsigned_float hf hw]
        simp only [exact_float hf, ← hw]
        constructor
        · intro h
          split at h
          next hl =>
            obtain ⟨v, hv, hin⟩ := floored_eq_ok.mp h
            exact ⟨tail.take w, v, List.take_prefix _ _, ⟨List.length_take_of_le hl, hv⟩, hin⟩
          next => exact absurd h (fail_ne_ok _ _)
        · rintro ⟨body, v, hb, ⟨hl, hv⟩, hin⟩
          obtain rfl : body = tail.take w := hl ▸ List.prefix_iff_eq_take.mp hb
          rw [if_pos (hl ▸ hb.length_le)]
          exact floored_eq_ok.mpr ⟨v, hv, hin⟩
      · have hne : (m :: tail)[0]? ≠ some 0xca ∧ (m :: tail)[0]? ≠ some 0xcb := by
          constructor
          · intro h
            exact hf (.inl (congrArg UInt8.toNat (Option.some.inj h)))
          · intro h
            exact hf (.inr (congrArg UInt8.toNat (Option.some.inj h)))
        rw [unsigned_eq_ok hne]
        constructor
        · rintro ⟨enc, hp, hi⟩
          refine ⟨enc, _, hp, .integer hi, ?_, ?_, (Int.floor_intCast _).symm⟩
          · exact_mod_cast u.cast_nonneg
          · have hrange := hi.range.2
            exact_mod_cast (by omega : u < 2 ^ 64)
        · rintro ⟨enc, v, hp, he, -, -, hu⟩
          obtain ⟨body, rfl, -⟩ := prefix_marker hp he.ne_nil
          cases he with
          | integer h =>
              rw [Int.floor_intCast] at hu
              exact ⟨_, hp, hu ▸ h⟩
          | float32 hm => exact absurd (.inl hm) hf
          | float64 hm => exact absurd (.inr hm) hf

end Unsigned

section Expiry

variable {enc fields : Bytes} {now : F64} {v τ : ℚ} {ticket : Block ticketLength}

/-- Only the integers past the significand are rounded. -/
theorem Exact.rounded (h : Exact enc v) (hv : |v| ≤ 2 ^ 53) : binary64.rounded v = v := by
  cases h with
  | @integer _ n h =>
      have hn : n.natAbs ≤ 2 ^ 53 := by
        have hcast : ((n.natAbs : Nat) : ℚ) ≤ 2 ^ 53 := by rwa [Nat.cast_natAbs, Int.cast_abs]
        exact_mod_cast hcast
      rcases Nat.lt_or_eq_of_le hn with hlt | heq
      · exact rounded_intCast (j := 0) (Nat.mul_one _).symm hlt
      · exact rounded_intCast (m := 1) (j := 53) heq (by decide)
  | float32 hm hb hv => exact rounded_float32 hv
  | float64 hm hb hv => exact rounded_of_decode (by decide) hv

inductive Issued : Bytes → Block ticketLength → ℚ → Prop
  | mk {header number blob : Bytes} {ticket : Block ticketLength} {v : ℚ} (hh : ArrayHeader header 2)
      (he : Exact number v) (hb : Blob blob ticket.val) : Issued (header ++ (number ++ blob)) ticket v

def Expires (fields : Bytes) (ticket : Block ticketLength) (v : ℚ) : Prop :=
  ∃ m : OuterMap, fields = m.bytes ∧ ∃ p ∈ m.pairs, p.id = fieldTicket.toNat ∧ Issued p.value ticket v

theorem Issued.rounded {value : Bytes} (h : Issued value ticket v) (hv : |v| ≤ 2 ^ 53) :
    binary64.rounded v = v := by
  cases h with
  | mk hh he hb => exact he.rounded hv

theorem ticketValue_datum {value : Bytes} :
    (∃ expires, TicketValue value ⟨expires, ticket⟩ ∧ expires.datum = .finite v) ↔
      ∃ u, Issued value ticket u ∧ v = binary64.rounded u := by
  constructor
  · rintro ⟨expires, hvalue, hd⟩
    cases hvalue with
    | mk hh hn hb =>
        obtain ⟨u, he, hu⟩ := number_datum.mp ⟨expires, hn, hd⟩
        exact ⟨u, .mk hh he hb, hu⟩
  · rintro ⟨u, hvalue, hu⟩
    cases hvalue with
    | mk hh he hb =>
        obtain ⟨expires, hn, hd⟩ := number_datum.mpr ⟨u, he, hu⟩
        exact ⟨expires, .mk hh hn hb, hd⟩

theorem holds_datum : (∃ expires, Holds fields ⟨expires, ticket⟩ ∧ expires.datum = .finite v) ↔
    ∃ u, Expires fields ticket u ∧ v = binary64.rounded u := by
  constructor
  · rintro ⟨expires, ⟨m, rfl, p, hp, hid, hvalue⟩, hd⟩
    obtain ⟨u, hi, hu⟩ := ticketValue_datum.mp ⟨expires, hvalue, hd⟩
    exact ⟨u, ⟨m, rfl, p, hp, hid, hi⟩, hu⟩
  · rintro ⟨u, ⟨m, rfl, p, hp, hid, hi⟩, hu⟩
    obtain ⟨expires, hvalue, hd⟩ := ticketValue_datum.mpr ⟨u, hi, hu⟩
    exact ⟨expires, ⟨m, rfl, p, hp, hid, hvalue⟩, hd⟩

theorem le_eq_false_iff {x : F64} {u : ℚ} (hx : x.datum = .finite u) (hnow : now.datum = .finite τ) :
    x.le now = false ↔ τ < u := by
  rw [F64.le, hx, hnow, Datum.le, decide_eq_false_iff_not, not_le]

theorem ticketField_rounded (hnow : now.datum = .finite τ) :
    (∃ expires, ticketField fields now = .ok ⟨expires, ticket⟩) ↔
      ∃ u, Expires fields ticket u ∧ τ < binary64.rounded u := by
  simp only [ticketField_eq_ok, isFinite_iff]
  constructor
  · rintro ⟨expires, hheld, ⟨v, hv⟩, hlate⟩
    obtain ⟨u, hu, rfl⟩ := holds_datum.mp ⟨expires, hheld, hv⟩
    exact ⟨u, hu, (le_eq_false_iff hv hnow).mp hlate⟩
  · rintro ⟨u, hu, hlate⟩
    obtain ⟨expires, hheld, hv⟩ := holds_datum.mpr ⟨u, hu, rfl⟩
    exact ⟨expires, hheld, ⟨_, hv⟩, (le_eq_false_iff hv hnow).mpr hlate⟩

theorem ticketValue_unique {value : Bytes} {t t' : TicketField} (h : TicketValue value t)
    (h' : TicketValue value t') (hf : t.expires.isFinite = true) (hf' : t'.expires.isFinite = true) :
    t = t' := by
  -- every finite moment is later than a clock at the infinity below
  have hclock : (F64.datum ⟨0xfff0000000000000⟩) = .infinite true := by decide +kernel
  have hlate {t : TicketField} (hf : t.expires.isFinite = true) :
      t.expires.le ⟨0xfff0000000000000⟩ = false := by
    obtain ⟨v, hv⟩ := (isFinite_iff _).mp hf
    rw [F64.le, hv, hclock]
    rfl
  have hread := readTicket_eq_ok.mpr ⟨h, hf, hlate hf⟩
  exact Except.ok.inj (hread.symm.trans (readTicket_eq_ok.mpr ⟨h', hf', hlate hf'⟩))

/-- One ticket stands under the key, and the clock decides whether it is read. -/
theorem ticketField_issued {value : Bytes} (h : fieldValue fields fieldTicket = .ok value)
    (hi : Issued value ticket v) : ∃ expires, ∀ now τ, now.datum = .finite τ →
      ticketField fields now = if τ < binary64.rounded v then .ok ⟨expires, ticket⟩ else fail () := by
  obtain ⟨expires, hvalue, hd⟩ := ticketValue_datum.mpr ⟨v, hi, rfl⟩
  have hfinite := (isFinite_iff expires).mpr ⟨_, hd⟩
  refine ⟨expires, fun now τ hnow => ?_⟩
  have hread : ticketField fields now = readTicket value now := by rw [ticketField_eq, h, ok_bind]
  split
  next hlt =>
    rw [hread]
    exact readTicket_eq_ok.mpr ⟨hvalue, hfinite, (le_eq_false_iff hd hnow).mpr hlt⟩
  next hlate =>
    have hens := ensures_ticketField fields now
    cases ht : ticketField fields now with
    | ok t =>
        obtain ⟨hvalue', hfinite', hle⟩ := readTicket_eq_ok.mp (hread.symm.trans ht)
        obtain rfl := ticketValue_unique hvalue hvalue' hfinite hfinite'
        exact absurd ((le_eq_false_iff hd hnow).mp hle) hlate
    | error f =>
        rw [ht] at hens
        cases f with
        | error u => rfl
        | panic => exact hens.elim

/-- A ticket is never taken at or after the moment it is issued for, and before
it is refused only where the f64 nearest to that moment is the clock itself,
which takes an integer of more than 53 bits. -/
theorem ticketField_expires (hnow : now.datum = .finite τ) (fields : Bytes)
    (ticket : Block ticketLength) :
    ((∃ expires, ticketField fields now = .ok ⟨expires, ticket⟩) ↔
      ∃ v, Expires fields ticket v ∧ τ < v ∧ binary64.rounded v ≠ τ) ∧
    ∀ v, Expires fields ticket v → τ < v → binary64.rounded v = τ → 2 ^ 53 < |v| := by
  have hclock : binary64.rounded τ = τ := rounded_of_decode (by decide) hnow
  constructor
  · rw [ticketField_rounded hnow]
    refine exists_congr fun v => and_congr_right fun _ => ?_
    constructor
    · intro hlate
      refine ⟨not_le.mp fun hle => ?_, hlate.ne'⟩
      have hmono := rounded_mono (f := binary64) hle
      rw [hclock] at hmono
      exact absurd hlate (not_lt.mpr hmono)
    · rintro ⟨hlt, hne⟩
      have hmono := rounded_mono (f := binary64) hlt.le
      rw [hclock] at hmono
      exact lt_of_le_of_ne hmono (Ne.symm hne)
  · rintro v ⟨m, -, p, -, -, hi⟩ hlt heq
    by_contra hsmall
    rw [hi.rounded (not_lt.mp hsmall)] at heq
    exact absurd heq hlt.ne'

/-- A ticket for 2 ^ 53 + 1, which no f64 holds. -/
def lateTicket : Bytes := [0x81, 0x0c, 0x92, 0xcf, 0, 0x20, 0, 0, 0, 0, 0, 1, 0xc4, 16] ++ List.replicate 16 0

def lateClock : F64 := ⟨0x4340000000000000⟩

theorem lateTicket_expires :
    ((∃ expires, ticketField lateTicket lateClock = .ok ⟨expires, ⟨List.replicate 16 0, rfl⟩⟩) ↔
      ∃ v, Expires lateTicket ⟨List.replicate 16 0, rfl⟩ v ∧ 2 ^ 53 < v ∧ binary64.rounded v ≠ 2 ^ 53) ∧
    ∀ v, Expires lateTicket ⟨List.replicate 16 0, rfl⟩ v → 2 ^ 53 < v → binary64.rounded v = 2 ^ 53 →
      2 ^ 53 < |v| :=
  ticketField_expires (by decide +kernel) lateTicket ⟨List.replicate 16 0, rfl⟩

example : ticketField lateTicket lateClock = fail () := by decide +kernel

end Expiry

end LxmfLite.ExactNumbers
