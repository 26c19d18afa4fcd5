import LxmfLite.ByteString
import LxmfLite.SelfDelimiting

namespace LxmfLite.MessagePack

open ByteString SelfDelimiting

/-- The marker table of the format: fixint, nil, bool, int, float, bin, str,
array and map. 0xc1 and the extension types have no entry. -/
def layoutOf (m : Nat) : Option Layout :=
  if m ≤ 0x7f ∨ 0xe0 ≤ m ∨ m = 0xc0 ∨ m = 0xc2 ∨ m = 0xc3 then some (.inline 0)
  else if m ≤ 0x8f then some (.nested (2 * (m - 0x80)))
  else if m ≤ 0x9f then some (.nested (m - 0x90))
  else if m ≤ 0xbf then some (.inline (m - 0xa0))
  else if m = 0xc4 ∨ m = 0xd9 then some (.sized 1)
  else if m = 0xc5 ∨ m = 0xda then some (.sized 2)
  else if m = 0xc6 ∨ m = 0xdb then some (.sized 4)
  else if m = 0xcc ∨ m = 0xd0 then some (.inline 1)
  else if m = 0xcd ∨ m = 0xd1 then some (.inline 2)
  else if m = 0xca ∨ m = 0xce ∨ m = 0xd2 then some (.inline 4)
  else if m = 0xcb ∨ m = 0xcf ∨ m = 0xd3 then some (.inline 8)
  else if m = 0xdc then some (.counted 2 1)
  else if m = 0xdd then some (.counted 4 1)
  else if m = 0xde then some (.counted 2 2)
  else if m = 0xdf then some (.counted 4 2)
  else none

def layout (marker : UInt8) : Option Layout := layoutOf marker.toNat

def messagePack : Format UInt8 := ⟨layout, ofBe⟩

abbrev Value (limit depth : Nat) (bs : Bytes) : Prop := Encoded messagePack limit depth bs

@[simp] theorem messagePack_layout : messagePack.layout = layout := rfl

section Markers

variable {m : UInt8}

theorem layout_scalar
    (h : m.toNat ≤ 0x7f ∨ 0xe0 ≤ m.toNat ∨ m.toNat = 0xc0 ∨ m.toNat = 0xc2 ∨ m.toNat = 0xc3) :
    layout m = some (.inline 0) := by
  rw [layout, layoutOf, if_pos h]

theorem layout_fixmap {n : Nat} (h : m.toNat = 0x80 + n) (hn : n < 16) :
    layout m = some (.nested (2 * n)) := by
  rw [layout, h, layoutOf, if_neg (by omega), if_pos (by omega), Nat.add_sub_cancel_left]

theorem layout_fixarray {n : Nat} (h : m.toNat = 0x90 + n) (hn : n < 16) :
    layout m = some (.nested n) := by
  rw [layout, h, layoutOf, if_neg (by omega), if_neg (by omega), if_pos (by omega),
    Nat.add_sub_cancel_left]

theorem layout_fixstr {n : Nat} (h : m.toNat = 0xa0 + n) (hn : n < 32) :
    layout m = some (.inline n) := by
  rw [layout, h, layoutOf, if_neg (by omega), if_neg (by omega), if_neg (by omega),
    if_pos (by omega), Nat.add_sub_cancel_left]

end Markers

/-- A bin or str, of any header width, with its payload. -/
inductive Blob : Bytes → Bytes → Prop
  | fix {m} {payload : Bytes} (hm : m.toNat = 0xa0 + payload.length) (hp : payload.length < 32) :
      Blob (m :: payload) payload
  | sized {m} {k : Nat} {size payload : Bytes} (hk : k < 3)
      (hm : m.toNat = 0xc4 + k ∨ m.toNat = 0xd9 + k) (hs : size.length = 2 ^ k)
      (hp : payload.length = ofBe size) : Blob (m :: (size ++ payload)) payload

theorem layout_blob {m : UInt8} {k : Nat} (hk : k < 3)
    (hm : m.toNat = 0xc4 + k ∨ m.toNat = 0xd9 + k) : layout m = some (.sized (2 ^ k)) := by
  obtain rfl | rfl | rfl : k = 0 ∨ k = 1 ∨ k = 2 := by omega
  all_goals rcases hm with hm | hm <;> simp [layout, layoutOf, hm]

theorem Blob.value {enc payload : Bytes} (h : Blob enc payload) {limit depth : Nat}
    (hd : depth ≤ limit) : Value limit depth enc := by
  cases h with
  | fix hm hp => exact .inline hd (layout_fixstr hm hp) rfl
  | sized hk hm hs hp => exact .sized hd (layout_blob hk hm) hs hp

theorem Blob.ne_nil {enc payload : Bytes} (h : Blob enc payload) : enc ≠ [] := by
  cases h <;> exact List.cons_ne_nil _ _

inductive Binary : Bytes → Bytes → Prop
  | mk {m} {k : Nat} {size payload : Bytes} (hk : k < 3) (hm : m.toNat = 0xc4 + k)
      (hs : size.length = 2 ^ k) (hp : payload.length = ofBe size) :
      Binary (m :: (size ++ payload)) payload

inductive Text : Bytes → Bytes → Prop
  | fix {m} {payload : Bytes} (hm : m.toNat = 0xa0 + payload.length) (hp : payload.length < 32) :
      Text (m :: payload) payload
  | sized {m} {k : Nat} {size payload : Bytes} (hk : k < 3) (hm : m.toNat = 0xd9 + k)
      (hs : size.length = 2 ^ k) (hp : payload.length = ofBe size) :
      Text (m :: (size ++ payload)) payload

theorem Binary.blob {enc payload : Bytes} (h : Binary enc payload) : Blob enc payload := by
  cases h with
  | mk hk hm hs hp => exact .sized hk (.inl hm) hs hp

theorem Text.blob {enc payload : Bytes} (h : Text enc payload) : Blob enc payload := by
  cases h with
  | fix hm hp => exact .fix hm hp
  | sized hk hm hs hp => exact .sized hk (.inr hm) hs hp

theorem Blob.binary {m : UInt8} {tail payload : Bytes} (h : Blob (m :: tail) payload)
    (hm : 0xc4 ≤ m.toNat ∧ m.toNat ≤ 0xc6) : Binary (m :: tail) payload := by
  cases h with
  | fix he hp => omega
  | sized hk he hs hp => exact .mk hk (by omega) hs hp

theorem Blob.text {m : UInt8} {tail payload : Bytes} (h : Blob (m :: tail) payload)
    (hm : (0xa0 ≤ m.toNat ∧ m.toNat ≤ 0xbf) ∨ (0xd9 ≤ m.toNat ∧ m.toNat ≤ 0xdb)) :
    Text (m :: tail) payload := by
  cases h with
  | fix he hp => exact .fix he hp
  | sized hk he hs hp => exact .sized hk (by omega) hs hp

theorem Binary.marker {m : UInt8} {tail payload : Bytes} (h : Binary (m :: tail) payload) :
    0xc4 ≤ m.toNat ∧ m.toNat ≤ 0xc6 := by
  cases h with
  | mk hk hm hs hp => omega

theorem Text.marker {m : UInt8} {tail payload : Bytes} (h : Text (m :: tail) payload) :
    (0xa0 ≤ m.toNat ∧ m.toNat ≤ 0xbf) ∨ (0xd9 ≤ m.toNat ∧ m.toNat ≤ 0xdb) := by
  cases h with
  | fix hm hp => omega
  | sized hk hm hs hp => omega

def ofBeSigned (bs : Bytes) : Int :=
  if 2 * ofBe bs < 256 ^ bs.length then ofBe bs else (ofBe bs : Int) - 256 ^ bs.length

inductive Integer : Bytes → Int → Prop
  | fix {m} (hm : m.toNat ≤ 0x7f) : Integer [m] m.toNat
  | negative {m} (hm : 0xe0 ≤ m.toNat) : Integer [m] (m.toNat - 256)
  | unsigned {m} {k : Nat} {body : Bytes} (hk : k < 4) (hm : m.toNat = 0xcc + k)
      (hb : body.length = 2 ^ k) : Integer (m :: body) (ofBe body)
  | signed {m} {k : Nat} {body : Bytes} (hk : k < 4) (hm : m.toNat = 0xd0 + k)
      (hb : body.length = 2 ^ k) : Integer (m :: body) (ofBeSigned body)

theorem ofBeSigned_range {bs : Bytes} {k : Nat} (hk : k < 4) (hb : bs.length = 2 ^ k) :
    -2 ^ 63 ≤ ofBeSigned bs ∧ ofBeSigned bs ≤ 2 ^ 64 - 1 := by
  have hlt := ofBe_lt bs
  rw [ofBeSigned]
  rw [hb] at hlt ⊢
  interval_cases k <;> split <;> omega

/-- Every integer of the format lies in -2^63 ..= 2^64 - 1. -/
theorem Integer.range {enc : Bytes} {n : Int} (h : Integer enc n) :
    -2 ^ 63 ≤ n ∧ n ≤ 2 ^ 64 - 1 := by
  cases h with
  | fix hm => omega
  | @negative m hm =>
      have := toNat_lt m
      omega
  | @unsigned m k body hk hm hb =>
      have hlt := ofBe_lt body
      rw [hb] at hlt
      interval_cases k <;> omega
  | signed hk hm hb => exact ofBeSigned_range hk hb

theorem Integer.ne_nil {enc : Bytes} {n : Int} (h : Integer enc n) : enc ≠ [] := by
  cases h <;> exact List.cons_ne_nil _ _

theorem layout_integer {m : UInt8} {k : Nat} (hk : k < 4)
    (hm : m.toNat = 0xcc + k ∨ m.toNat = 0xd0 + k) : layout m = some (.inline (2 ^ k)) := by
  obtain rfl | rfl | rfl | rfl : k = 0 ∨ k = 1 ∨ k = 2 ∨ k = 3 := by omega
  all_goals rcases hm with hm | hm <;> simp [layout, layoutOf, hm]

theorem Integer.value {enc : Bytes} {n : Int} (h : Integer enc n) {limit depth : Nat}
    (hd : depth ≤ limit) : Value limit depth enc := by
  cases h with
  | fix hm => exact .inline hd (layout_scalar (.inl hm)) rfl
  | negative hm => exact .inline hd (layout_scalar (.inr (.inl hm))) rfl
  | unsigned hk hm hb => exact .inline hd (layout_integer hk (.inl hm)) hb
  | signed hk hm hb => exact .inline hd (layout_integer hk (.inr hm)) hb

theorem array_value_iff {limit depth n : Nat} {m : UInt8} {tail : Bytes} (hm : m.toNat = 0x90 + n)
    (hn : n < 16) : Value limit depth (m :: tail) ↔ depth ≤ limit ∧ ∃ items : List Bytes,
      tail = items.flatten ∧ items.length = n ∧ ∀ item ∈ items, Value limit (depth + 1) item := by
  rw [Value, encoded_cons_iff, messagePack_layout, layout_fixarray hm hn]
  rfl

inductive ArrayHeader : Bytes → Nat → Prop
  | fix {m} {n : Nat} (hn : n < 16) (hm : m.toNat = 0x90 + n) : ArrayHeader [m] n
  | counted {m} {k : Nat} {size : Bytes} (hk : k < 2) (hm : m.toNat = 0xdc + k)
      (hs : size.length = 2 ^ (k + 1)) : ArrayHeader (m :: size) (ofBe size)

theorem layout_array {m : UInt8} {k : Nat} (hk : k < 2) (hm : m.toNat = 0xdc + k) :
    layout m = some (.counted (2 ^ (k + 1)) 1) := by
  obtain rfl | rfl : k = 0 ∨ k = 1 := by omega
  all_goals simp [layout, layoutOf, hm]

inductive MapHeader : Bytes → Nat → Prop
  | fix {m} {n : Nat} (hn : n < 16) (hm : m.toNat = 0x80 + n) : MapHeader [m] n
  | counted {m} {k : Nat} {size : Bytes} (hk : k < 2) (hm : m.toNat = 0xde + k)
      (hs : size.length = 2 ^ (k + 1)) : MapHeader (m :: size) (ofBe size)

theorem layout_map {m : UInt8} {k : Nat} (hk : k < 2) (hm : m.toNat = 0xde + k) :
    layout m = some (.counted (2 ^ (k + 1)) 2) := by
  obtain rfl | rfl : k = 0 ∨ k = 1 := by omega
  all_goals simp [layout, layoutOf, hm]

inductive Header (fixed wide : Nat) : Bytes → Nat → Prop
  | fix {m} {n : Nat} (hn : n < 16) (hm : m.toNat = fixed + n) : Header fixed wide [m] n
  | counted {m} {k : Nat} {size : Bytes} (hm : m.toNat = wide + k)
      (hs : size.length = 2 ^ (k + 1)) : Header fixed wide (m :: size) (ofBe size)

theorem Header.rest_unique {fixed wide : Nat} (hapart : fixed + 16 ≤ wide) {a b r s : Bytes} {n k : Nat}
    (ha : Header fixed wide a n) (hb : Header fixed wide b k) (h : a ++ r = b ++ s) :
    n = k ∧ a = b ∧ r = s := by
  cases ha with
  | fix hn hm =>
      cases hb with
      | fix hk hm' =>
          obtain ⟨rfl, rfl⟩ := List.cons.inj h
          exact ⟨by omega, rfl, rfl⟩
      | counted hm' hs =>
          obtain ⟨rfl, -⟩ := List.cons.inj h
          omega
  | @counted _ w size hm hs =>
      cases hb with
      | fix hk hm' =>
          obtain ⟨rfl, -⟩ := List.cons.inj h
          omega
      | @counted _ w' size' hm' hs' =>
          obtain ⟨rfl, htail⟩ := List.cons.inj h
          obtain rfl : w = w' := by omega
          obtain ⟨rfl, rfl⟩ := List.append_inj htail (hs.trans hs'.symm)
          exact ⟨rfl, rfl, rfl⟩

theorem ArrayHeader.header {header : Bytes} {n : Nat} (h : ArrayHeader header n) :
    Header 0x90 0xdc header n := by
  cases h with
  | fix hn hm => exact .fix hn hm
  | counted _ hm hs => exact .counted hm hs

theorem MapHeader.header {header : Bytes} {n : Nat} (h : MapHeader header n) :
    Header 0x80 0xde header n := by
  cases h with
  | fix hn hm => exact .fix hn hm
  | counted _ hm hs => exact .counted hm hs

def MapMarker (m : UInt8) : Prop :=
  (0x80 ≤ m.toNat ∧ m.toNat ≤ 0x8f) ∨ m.toNat = 0xde ∨ m.toNat = 0xdf

instance (m : UInt8) : Decidable (MapMarker m) := by unfold MapMarker; infer_instance

/-- A map is its header and twice as many values as the header counts. -/
theorem map_value_iff {limit depth : Nat} {m : UInt8} {tail : Bytes} (hm : MapMarker m) :
    Value limit depth (m :: tail) ↔ depth ≤ limit ∧ ∃ (header : Bytes) (n : Nat) (items : List Bytes),
      MapHeader header n ∧ m :: tail = header ++ items.flatten ∧ items.length = 2 * n ∧
      ∀ item ∈ items, Value limit (depth + 1) item := by
  refine encoded_cons_iff.trans (and_congr_right (fun _ => ?_))
  constructor
  · intro hf
    rcases hm with hm | hm
    · have hl : layout m = some (.nested (2 * (m.toNat - 0x80))) :=
        layout_fixmap (by omega) (by omega)
      rw [messagePack_layout, hl] at hf
      obtain ⟨items, rfl, hn, hi⟩ := hf
      exact ⟨[m], _, items, .fix (by omega) (by omega), rfl, hn, hi⟩
    · obtain ⟨k, hk, hm⟩ : ∃ k, k < 2 ∧ m.toNat = 0xde + k := ⟨m.toNat - 0xde, by omega, by omega⟩
      rw [messagePack_layout, layout_map hk hm] at hf
      obtain ⟨size, items, rfl, hs, hn, hi⟩ := hf
      exact ⟨m :: size, _, items, .counted hk hm hs, rfl, hn, hi⟩
  · rintro ⟨header, n, items, hh, he, hn, hi⟩
    cases hh with
    | fix hn' hm' =>
        obtain ⟨rfl, rfl⟩ := List.cons.inj he
        rw [messagePack_layout, layout_fixmap hm' hn']
        exact ⟨items, rfl, hn, hi⟩
    | counted hk hm' hs =>
        obtain ⟨rfl, rfl⟩ := List.cons.inj he
        rw [messagePack_layout, layout_map hk hm']
        exact ⟨_, items, rfl, hs, hn, hi⟩

end LxmfLite.MessagePack
