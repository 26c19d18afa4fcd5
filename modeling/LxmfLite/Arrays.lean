import LxmfLite.FieldLookup
import LxmfLite.Grammar
import LxmfLite.Replies

namespace LxmfLite.Arrays

open ByteString Execution SelfDelimiting MessagePack Message Reader Skipping Contracts Bounds
  FieldLookup Grammar Parse Replies

theorem ensures_next (items : ArrayItems) :
    Ensures items.next (fun r => r.2.data = items.data ∧ Past items.data items.pos r.2.pos) := by
  apply ensures_rejectIf_bind
  intro _
  apply Ensures.bind (ensures_ok (ensures_skipValue items.data items.pos 0))
  intro last hlast
  apply Ensures.bind (ensures_slice (Nat.le_of_lt hlast.1) hlast.2)
  intro item _
  exact ⟨rfl, hlast⟩

section Headers

def ArrayMarker (m : UInt8) : Prop :=
  (0x90 ≤ m.toNat ∧ m.toNat ≤ 0x9f) ∨ m.toNat = 0xdc ∨ m.toNat = 0xdd

instance (m : UInt8) : Decidable (ArrayMarker m) := by unfold ArrayMarker; infer_instance

theorem ArrayHeader.ne_nil {header : Bytes} {n : Nat} (h : ArrayHeader header n) : header ≠ [] := by
  cases h <;> exact List.cons_ne_nil _ _

theorem ArrayHeader.marker {m : UInt8} {tail : Bytes} {n : Nat} (h : ArrayHeader (m :: tail) n) :
    ArrayMarker m := by
  rw [ArrayMarker]
  cases h <;> omega

theorem ArrayHeader.rest_unique {a b r s : Bytes} {n k : Nat} (ha : ArrayHeader a n)
    (hb : ArrayHeader b k) (h : a ++ r = b ++ s) : n = k ∧ a = b ∧ r = s :=
  Header.rest_unique (by decide) ha.header hb.header h

theorem exists_items {limit depth : Nat} {m : UInt8} {tail : Bytes} (hm : ArrayMarker m)
    (h : Value limit depth (m :: tail)) : ∃ (header : Bytes) (items : List Bytes),
      ArrayHeader header items.length ∧ m :: tail = header ++ items.flatten ∧
      ∀ item ∈ items, Value limit (depth + 1) item := by
  obtain ⟨-, hf⟩ := encoded_cons_iff.mp h
  rcases hm with hm | hm
  · have hl : layout m = some (.nested (m.toNat - 0x90)) := layout_fixarray (by omega) (by omega)
    rw [messagePack_layout, hl] at hf
    obtain ⟨items, rfl, hn, hi⟩ := hf
    exact ⟨[m], items, .fix (by omega) (by omega), rfl, hi⟩
  · obtain ⟨k, hk, hm⟩ : ∃ k, k < 2 ∧ m.toNat = 0xdc + k := ⟨m.toNat - 0xdc, by omega, by omega⟩
    rw [messagePack_layout, layout_array hk hm] at hf
    obtain ⟨size, items, rfl, hs, hn, hi⟩ := hf
    refine ⟨m :: size, items, ?_, rfl, hi⟩
    rw [hn, Nat.one_mul]
    exact .counted hk hm hs

end Headers

/-- An array as it stands in the bytes, its items one level below it. -/
structure ItemArray where
  header : Bytes
  items : List Bytes
  counted : ArrayHeader header items.length
  nested : ∀ item ∈ items, Value 8 1 item

namespace ItemArray

variable (a b : ItemArray) {i : Nat} {item : Bytes}

def bytes : Bytes := a.header ++ a.items.flatten

def start (i : Nat) : Nat := a.header.length + (a.items.take i).flatten.length

def iterator (i : Nat) : ArrayItems := ⟨a.bytes, a.start i, a.items.length - i⟩

theorem value : Value 8 0 a.bytes := value_array (Nat.zero_le 8) a.counted a.nested

theorem complete_item (h : item ∈ a.items) : Complete item :=
  complete_iff.mpr ((a.nested item h).shallower (Nat.zero_le 1))

variable {a b} in
theorem ext (hh : a.header = b.header) (hi : a.items = b.items) : a = b := by
  cases a
  cases b
  cases hh
  cases hi
  rfl

variable {a b} in
theorem unique {r s : Bytes} (h : a.bytes ++ r = b.bytes ++ s) : a = b ∧ r = s := by
  obtain ⟨he, hr⟩ := a.value.rest_unique b.value h
  obtain ⟨hl, hh, -⟩ := ArrayHeader.rest_unique a.counted b.counted he
  refine ⟨ext hh ?_, hr⟩
  rw [bytes, bytes, hh] at he
  have hitems : a.items.flatten ++ [] = b.items.flatten ++ [] := by
    rw [List.append_cancel_left he]
  exact flatten_unique (fun x hx y r s hy h => (a.nested x hx).unique hy h) b.nested hl hitems

variable {a b} in
theorem eq_of_bytes (h : a.bytes = b.bytes) : a = b :=
  (unique (r := []) (s := []) (by rw [h])).1

theorem exists_marker : ∃ m tail, a.bytes = m :: tail ∧ ArrayMarker m := by
  obtain ⟨m, tail, hh⟩ := List.exists_cons_of_ne_nil (ArrayHeader.ne_nil a.counted)
  refine ⟨m, tail ++ a.items.flatten, by rw [bytes, hh, List.cons_append], ?_⟩
  have hc := a.counted
  rw [hh] at hc
  exact ArrayHeader.marker hc

variable {a}

theorem start_succ (h : a.items[i]? = some item) : a.start (i + 1) = a.start i + item.length := by
  obtain ⟨hi, rfl⟩ := List.getElem?_eq_some_iff.mp h
  rw [start, start, List.take_succ_eq_append_getElem hi, List.flatten_append, List.length_append]
  simp only [List.flatten_cons, List.flatten_nil, List.append_nil]
  omega

theorem drop_start (h : a.items[i]? = some item) :
    a.bytes.drop (a.start i) = item ++ (a.items.drop (i + 1)).flatten := by
  obtain ⟨hi, rfl⟩ := List.getElem?_eq_some_iff.mp h
  have hs : a.items.flatten = (a.items.take i).flatten ++
      (a.items[i] ++ (a.items.drop (i + 1)).flatten) := by
    rw [← List.flatten_cons, List.getElem_cons_drop, ← List.flatten_append, List.take_append_drop]
  rw [bytes, hs, ← List.append_assoc, start, ← List.length_append, List.drop_left]

/-- A step of the iterator: the walk from depth 0 ends where the item does. -/
theorem next_item (h : a.items[i]? = some item) :
    (a.iterator i).next = .ok (item, a.iterator (i + 1)) := by
  have hi := (List.getElem?_eq_some_iff.mp h).1
  have hp : item <+: a.bytes.drop (a.start i) := ⟨_, (drop_start h).symm⟩
  have hv : Value 8 0 item := complete_iff.mp (a.complete_item (List.mem_of_getElem? h))
  have hskip : skipValue a.bytes (a.start i) 0 = .ok (a.start i + item.length) :=
    skipValue_eq_ok.mpr ⟨item, hp, hv, rfl⟩
  rw [ArrayItems.next, iterator, rejectIf_bind, if_neg (by simp only; omega)]
  simp only
  rw [hskip, ok, ok_bind, slice_eq (Nat.le_add_right _ _) (prefix_end_of_ne_nil hp hv.ne_nil), ok_bind,
    prefix_extract hp, iterator, start_succ h]
  rfl

theorem next_end : (a.iterator a.items.length).next = fail () := by
  rw [ArrayItems.next, rejectIf_bind, if_pos]
  exact Nat.sub_self _

variable (a) in
theorem past_start : Past a.bytes 0 (a.start 0) := by
  have hpos := List.length_pos_iff.mpr (ArrayHeader.ne_nil a.counted)
  rw [start, List.take_zero, List.flatten_nil, List.length_nil, Nat.add_zero, bytes]
  exact ⟨hpos, by rw [List.length_append]; exact Nat.le_add_right _ _⟩

theorem len_iterator (i : Nat) : (a.iterator i).len = a.items.length - i := rfl

theorem len_start : (a.iterator 0).len = a.items.length := rfl

end ItemArray

section Header

variable {m : UInt8} {tail : Bytes}

theorem arrayHeader_of_header {header : Bytes} {n : Nat} (hp : header <+: m :: tail)
    (hh : ArrayHeader header n) : arrayHeader (m :: tail) m.toNat = .ok (header.length, n) := by
  rw [arrayHeader]
  cases hh with
  | fix hn hm =>
      obtain rfl := (List.cons_prefix_cons.mp hp).1
      rw [if_pos (by omega), pure_eq_ok, and_fifteen]
      congr 2
      omega
  | @counted m' k size hk hm hs =>
      obtain ⟨rfl, rest, rfl⟩ := List.cons_prefix_cons.mp hp
      have hsize {n : Nat} (hn : size.length = n) :
          (slice (m' :: (size ++ rest)) 1 (1 + n) : Result Bytes) = .ok size ∧
            toArray n size = .ok ⟨size, hn⟩ := by
        refine ⟨?_, dif_pos hn⟩
        rw [← List.singleton_append]
        exact slice_middle rfl (by rw [hn])
      obtain rfl | rfl : k = 0 ∨ k = 1 := by omega
      · have hs2 : size.length = 2 := hs
        rw [if_neg (by omega), if_pos (by omega), (hsize hs2).1, ok_bind, (hsize hs2).2, ok_bind,
          pure_eq_ok, List.length_cons, hs2]
      · have hs4 : size.length = 4 := hs
        rw [if_neg (by omega), if_neg (by omega), if_pos (by omega), (hsize hs4).1, ok_bind,
          (hsize hs4).2, ok_bind, pure_eq_ok, List.length_cons, hs4]

theorem arrayHeader_of_other (hm : ¬ArrayMarker m) :
    arrayHeader (m :: tail) m.toNat = fail .malformedPayload := by
  rw [ArrayMarker, not_or, not_or] at hm
  rw [arrayHeader, if_neg hm.1, if_neg hm.2.1, if_neg hm.2.2]

end Header

variable {data : Bytes}

theorem arrayItems_bytes (a : ItemArray) : arrayItems a.bytes = .ok (a.iterator 0) := by
  have hwhole : skipValue a.bytes 0 0 = .ok a.bytes.length := complete_iff.mpr a.value
  obtain ⟨m, tail, hb, -⟩ := a.exists_marker
  have hp : a.header <+: m :: tail := hb ▸ List.prefix_append _ _
  rw [arrayItems, hwhole, ok_bind, rejectIf_bind, if_neg (not_not_intro rfl), hb, index_cons_zero,
    ok_bind, arrayHeader_of_header hp a.counted, ok_bind, ← hb]
  rfl

/-- array_items takes the bytes of an array, and no others. -/
theorem arrayItems_cases (data : Bytes) : (∃ a : ItemArray, data = a.bytes) ∨
    (∀ a : ItemArray, data ≠ a.bytes) ∧ arrayItems data = fail .malformedPayload := by
  by_cases ha : ∃ a : ItemArray, data = a.bytes
  · exact .inl ha
  refine .inr ⟨fun a he => ha ⟨a, he⟩, ?_⟩
  rcases malformed_skipValue data 0 0 with ⟨last, hlast⟩ | hlast
  swap
  · rw [arrayItems, hlast]
    rfl
  rw [arrayItems, hlast, ok_bind, rejectIf_bind]
  split
  · rfl
  next hwhole =>
    obtain rfl : last = data.length := by tauto
    have hv := complete_iff.mp hlast
    obtain ⟨m, tail, rfl⟩ := List.exists_cons_of_ne_nil hv.ne_nil
    have hm : ¬ArrayMarker m := by
      intro hm
      obtain ⟨header, items, hh, he, hi⟩ := exists_items hm hv
      exact ha ⟨⟨header, items, hh, hi⟩, he⟩
    rw [index_cons_zero, ok_bind, arrayHeader_of_other hm]
    rfl

theorem arrayItems_eq_ok {items : ArrayItems} :
    arrayItems data = .ok items ↔ ∃ a : ItemArray, data = a.bytes ∧ items = a.iterator 0 := by
  constructor
  · intro h
    rcases arrayItems_cases data with ⟨a, rfl⟩ | ⟨-, hf⟩
    · rw [arrayItems_bytes] at h
      cases h
      exact ⟨a, rfl, rfl⟩
    · rw [hf] at h
      exact absurd h (fail_ne_ok _ _)
  · rintro ⟨a, rfl, rfl⟩
    exact arrayItems_bytes a

theorem exists_itemArray_iff : (∃ a : ItemArray, data = a.bytes) ↔
    ∃ ts, Encodes (.array ts) data ∧ Within 8 0 (.array ts) := by
  constructor
  · rintro ⟨a, rfl⟩
    exact exists_array (Nat.zero_le 8) (fun item hi => value_iff_tree.mp (a.nested item hi)) a.counted
  · rintro ⟨ts, ht, hw⟩
    generalize hroot : Tree.array ts = t at ht hw
    cases ht with
    | @array header items hh hi =>
        have hc := (within_array.mp hw).2
        refine ⟨⟨header, items.map Prod.snd, by rw [List.length_map]; exact hh, ?_⟩, rfl⟩
        intro item hm
        obtain ⟨x, hx, rfl⟩ := List.mem_map.mp hm
        exact (hi x hx).value (hc x.1 (List.mem_map_of_mem hx))
    | _ => exact nomatch hroot

theorem arrayItems_item {item : Bytes} (h : Complete item) :
    (∃ items, arrayItems item = .ok items) ↔ ∃ m, item[0]? = some m ∧ ArrayMarker m := by
  constructor
  · rintro ⟨items, hi⟩
    obtain ⟨a, rfl, -⟩ := arrayItems_eq_ok.mp hi
    obtain ⟨m, tail, hb, hm⟩ := a.exists_marker
    exact ⟨m, by rw [hb, List.getElem?_cons_zero], hm⟩
  · rintro ⟨m, hm, harray⟩
    have hv := complete_iff.mp h
    obtain ⟨m', tail, rfl⟩ := List.exists_cons_of_ne_nil hv.ne_nil
    obtain rfl : m' = m := Option.some.inj hm
    obtain ⟨header, items, hh, he, hi⟩ := exists_items harray hv
    exact ⟨_, arrayItems_eq_ok.mpr ⟨⟨header, items, hh, hi⟩, he, rfl⟩⟩

/-- The whole run of an iterator: the items that next returns, with len in
front of each step, up to a next that returns none. -/
inductive Yields : ArrayItems → List Bytes → Prop
  | done {items} (hl : items.len = 0) (hn : items.next = fail ()) : Yields items []
  | step {items rest item values} (hl : items.len = values.length + 1)
      (hn : items.next = .ok (item, rest)) (h : Yields rest values) : Yields items (item :: values)

theorem Yields.unique {items : ArrayItems} {values values' : List Bytes} (h : Yields items values)
    (h' : Yields items values') : values = values' := by
  induction h generalizing values' with
  | done hl hn =>
      cases h' with
      | done => rfl
      | step hl' => exact absurd (hl.symm.trans hl') (by omega)
  | step hl hn h ih =>
      cases h' with
      | done hl' => exact absurd (hl'.symm.trans hl) (by omega)
      | step hl' hn' h' =>
          rw [hn] at hn'
          cases hn'
          rw [ih h']

/-- From any position on the iterator yields the items that are left. -/
theorem yields_drop (a : ItemArray) {n i : Nat} (h : i + n = a.items.length) :
    Yields (a.iterator i) (a.items.drop i) := by
  induction n generalizing i with
  | zero =>
      obtain rfl : i = a.items.length := h
      rw [List.drop_length]
      exact .done (Nat.sub_self _) ItemArray.next_end
  | succ n ih =>
      have hi : i < a.items.length := by omega
      rw [List.drop_eq_getElem_cons hi]
      refine .step ?_ (ItemArray.next_item (List.getElem?_eq_getElem hi)) (ih (by omega))
      rw [ItemArray.len_iterator, List.length_drop]
      omega

theorem array_yields {header : Bytes} {values : List Bytes} (hh : ArrayHeader header values.length)
    (hv : ∀ item ∈ values, Value 8 1 item) (hd : data = header ++ values.flatten) :
    ∃ items, arrayItems data = .ok items ∧ Yields items values := by
  let a : ItemArray := ⟨header, values, hh, hv⟩
  subst hd
  exact ⟨_, arrayItems_bytes a, yields_drop a (Nat.zero_add _)⟩

/-- Iterating over an array tiles its bytes, and no step fails. -/
theorem arrayItems_tiles (data : Bytes) :
    ((∃ items, arrayItems data = .ok items) ↔
      ∃ ts, Encodes (.array ts) data ∧ Within 8 0 (.array ts)) ∧
    ∀ items, arrayItems data = .ok items → ∃ (header : Bytes) (values : List Bytes),
      ArrayHeader header values.length ∧ data = header ++ values.flatten ∧ Yields items values ∧
      ∀ value ∈ values, Complete value ∧
        ((∃ items, arrayItems value = .ok items) ↔ ∃ m, value[0]? = some m ∧ ArrayMarker m) := by
  constructor
  · rw [← exists_itemArray_iff]
    constructor
    · rintro ⟨items, h⟩
      obtain ⟨a, ha, -⟩ := arrayItems_eq_ok.mp h
      exact ⟨a, ha⟩
    · rintro ⟨a, rfl⟩
      exact ⟨_, arrayItems_bytes a⟩
  · intro items h
    obtain ⟨a, rfl, rfl⟩ := arrayItems_eq_ok.mp h
    refine ⟨a.header, a.items, a.counted, rfl, yields_drop a (Nat.zero_add _), ?_⟩
    intro value hv
    exact ⟨a.complete_item hv, arrayItems_item (a.complete_item hv)⟩

end LxmfLite.Arrays
