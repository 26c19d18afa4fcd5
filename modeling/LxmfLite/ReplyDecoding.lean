import LxmfLite.Arrays
import Mathlib.Data.List.Forall2

namespace LxmfLite.ReplyDecoding

open ByteString Execution SelfDelimiting MessagePack Message Reader Skipping FieldReading FieldMaps
  Bounds FieldLookup Parse Replies Arrays

variable {data : Bytes}

/-- A complete array is a value that skip_value accepts whole behind an array
marker. -/
theorem itemArray_iff_complete : (∃ a : ItemArray, data = a.bytes) ↔
    Complete data ∧ ∃ m, data[0]? = some m ∧ ArrayMarker m := by
  constructor
  · rintro ⟨a, rfl⟩
    have hc : Complete a.bytes := complete_iff.mpr a.value
    exact ⟨hc, (arrayItems_item hc).mp ⟨_, arrayItems_bytes a⟩⟩
  · rintro ⟨hc, hm⟩
    obtain ⟨items, h⟩ := (arrayItems_item hc).mpr hm
    obtain ⟨a, ha, -⟩ := arrayItems_eq_ok.mp h
    exact ⟨a, ha⟩

section Items

variable {item payload : Bytes}

theorem valueAsBytes_eq_ok (hc : Complete item) :
    valueAsBytes item = .ok payload ↔ Blob item payload := by
  have hv := complete_iff.mp hc
  rw [valueAsBytes, bind_eq_ok]
  constructor
  · rintro ⟨⟨bytes, e⟩, hr, he⟩
    cases he
    obtain ⟨enc, ⟨rest, hp⟩, hblob, -⟩ := readBin_eq_ok.mp (ok_eq_ok.mp hr)
    have hu := (hblob.value (Nat.zero_le 0)).unique hv (r := rest) (s := [])
      (by rw [hp, List.drop_zero, List.append_nil])
    exact hu ▸ hblob
  · intro hb
    exact ⟨_, ok_eq_ok.mpr (readBin_eq_ok.mpr ⟨item, List.prefix_rfl, hb, rfl⟩), rfl⟩

theorem malformed_valueAsBytes (item : Bytes) :
    Malformed (okOr (valueAsBytes item) .malformedPayload) := by
  rw [valueAsBytes]
  have hbin : Malformed (readBin item 0) := malformed_readBin 0
  rcases hbin with ⟨⟨bytes, e⟩, h⟩ | h
  · rw [h]
    exact .inl ⟨bytes, rfl⟩
  · rw [h]
    exact .inr rfl

end Items

theorem kept_cons (i wanted : Nat) (id : Block 32) (ids : List (Block 32)) (first : Option (Block 32)) :
    (if i + 1 ≤ wanted then ids[wanted - (i + 1)]? else none).or (if i = wanted then some id else first) =
      (if i ≤ wanted then (id :: ids)[wanted - i]? else none).or first := by
  rcases Nat.lt_trichotomy i wanted with h | rfl | h
  · obtain ⟨k, rfl⟩ := Nat.exists_eq_add_of_lt h
    rw [if_pos (by omega), if_neg (by omega), if_pos (by omega), show i + k + 1 - i = k + 1 by omega,
      List.getElem?_cons_succ, show i + k + 1 - (i + 1) = k by omega]
  · rw [if_neg (by omega), if_pos rfl, if_pos (Nat.le_refl i), Nat.sub_self]
    rfl
  · rw [if_neg (by omega), if_neg (by omega), if_neg (by omega)]

section Steps

variable {a : ItemArray} {i : Nat}

theorem okOr_next_item {item : Bytes} (h : a.items[i]? = some item) :
    okOr (a.iterator i).next .malformedPayload = .ok (item, a.iterator (i + 1)) := by
  rw [ItemArray.next_item h]
  rfl

theorem complete_getElem? {item : Bytes} (h : a.items[i]? = some item) : Complete item :=
  a.complete_item (List.mem_of_getElem? h)

/-- The loop of available_at from a position on: every item that is left is an
id, and the wanted one is kept. -/
theorem availableItems_eq_ok {wanted n : Nat} {first o : Option (Block 32)}
    (h : i + n = a.items.length) : availableItems wanted n i (a.iterator i) first = .ok o ↔
      ∃ ids : List (Block 32), List.Forall₂ (fun item id => Blob item id.val) (a.items.drop i) ids ∧
        o = (if i ≤ wanted then ids[wanted - i]? else none).or first := by
  induction n generalizing i first with
  | zero =>
      rw [List.drop_of_length_le (by omega), availableItems]
      constructor
      · intro he
        cases he
        refine ⟨[], .nil, ?_⟩
        rw [List.getElem?_nil, ite_self, Option.none_or]
      · rintro ⟨ids, hids, rfl⟩
        cases hids
        rw [List.getElem?_nil, ite_self, Option.none_or]
        rfl
  | succ n ih =>
      have hi : i < a.items.length := by omega
      have hget := List.getElem?_eq_getElem hi
      rw [List.drop_eq_getElem_cons hi, availableItems, ItemArray.next_item hget]
      simp only
      rw [bind_eq_ok]
      constructor
      · rintro ⟨payload, hp, he⟩
        obtain ⟨id, hid, he⟩ := bind_eq_ok.mp he
        obtain ⟨ids, hids, rfl⟩ := (ih (by omega)).mp he
        have hblob := (valueAsBytes_eq_ok (complete_getElem? hget)).mp (okOr_eq_ok.mp hp)
        refine ⟨id :: ids, .cons ?_ hids, ?_⟩
        · rw [tryInto_eq_some.mp (orFail_eq_ok.mp hid)]
          exact hblob
        · exact kept_cons i wanted id ids first
      · rintro ⟨ids, hids, rfl⟩
        obtain ⟨id, ids, hblob, hrest, rfl⟩ := List.forall₂_cons_left_iff.mp hids
        refine ⟨id.val, okOr_eq_ok.mpr
          ((valueAsBytes_eq_ok (complete_getElem? hget)).mpr hblob), ?_⟩
        rw [tryInto_eq_some.mpr rfl, orFail_some, ok_bind]
        exact (ih (by omega)).mpr ⟨ids, hrest, (kept_cons i wanted id ids first).symm⟩

end Steps

theorem malformed_arrayItems (data : Bytes) : Malformed (arrayItems data) := by
  rcases arrayItems_cases data with ⟨a, rfl⟩ | ⟨-, hf⟩
  · exact .inl ⟨_, arrayItems_bytes a⟩
  · exact .inr hf

theorem malformed_next (items : ArrayItems) : Malformed (okOr items.next .malformedPayload) := by
  rcases okOr_of_ensures (ensures_next items) with ⟨r, h⟩ | h
  · rw [h]
    exact .inl ⟨r, rfl⟩
  · rw [h]
    exact .inr rfl

theorem malformed_responseData (data : Bytes) (id : Block 16) : Malformed (responseData data id) := by
  apply (malformed_arrayItems data).bind
  intro items
  rw [rejectIf_bind]
  apply okOr_ite
  intro _
  apply (malformed_next items).bind
  rintro ⟨item, items⟩
  apply (malformed_valueAsBytes item).bind
  intro found
  rw [rejectIf_bind]
  apply okOr_ite
  intro _
  apply (malformed_next items).bind
  rintro ⟨value, items⟩
  exact .inl ⟨value, rfl⟩

theorem malformed_availableItems (wanted left position : Nat) (items : ArrayItems)
    (first : Option (Block 32)) : Malformed (availableItems wanted left position items first) := by
  induction left generalizing position items first with
  | zero => exact .inl ⟨first, rfl⟩
  | succ left ih =>
      rw [availableItems]
      rcases okOr_of_ensures (ensures_next items) with ⟨⟨item, items'⟩, hn⟩ | hn
      · rw [hn]
        apply (malformed_valueAsBytes item).bind
        intro id
        cases tryInto 32 id with
        | none => exact .inr rfl
        | some id => exact ih _ _ _
      · rw [hn]
        exact .inl ⟨first, rfl⟩

theorem malformed_availableAt (data : Bytes) (wanted : Nat) : Malformed (availableAt data wanted) := by
  apply (malformed_arrayItems data).bind
  intro items
  apply (malformed_availableItems wanted items.remaining 0 items none).bind
  intro first
  exact .inl ⟨(first, items.len), rfl⟩

theorem malformed_fetchedMessage (data : Bytes) : Malformed (fetchedMessage data) := by
  apply (malformed_arrayItems data).bind
  intro items
  rw [rejectIf_bind]
  apply okOr_ite
  intro _
  rcases okOr_of_ensures (ensures_next items) with ⟨⟨item, items'⟩, hn⟩ | hn
  · rw [hn]
    apply (malformed_valueAsBytes item).bind
    intro message
    exact .inl ⟨some message, rfl⟩
  · rw [hn]
    exact .inl ⟨none, rfl⟩

theorem responseData_eq_ok {id : Block 16} {v : Bytes} : responseData data id = .ok v ↔
    ∃ a : ItemArray, data = a.bytes ∧ ∃ first, a.items = [first, v] ∧ Blob first id.val := by
  rw [responseData, bind_eq_ok]
  constructor
  · rintro ⟨items, hi, h⟩
    obtain ⟨a, rfl, rfl⟩ := arrayItems_eq_ok.mp hi
    rw [rejectIf_bind, ItemArray.len_start] at h
    split at h
    · exact absurd h (fail_ne_ok _ _)
    next hlen =>
      obtain ⟨first, second, hitems⟩ := List.length_eq_two.mp (not_not.mp hlen)
      have h0 : a.items[0]? = some first := by rw [hitems]; rfl
      have h1 : a.items[0 + 1]? = some second := by rw [hitems]; rfl
      rw [okOr_next_item h0, ok_bind] at h
      obtain ⟨found, hf, h⟩ := bind_eq_ok.mp h
      rw [rejectIf_bind] at h
      split at h
      · exact absurd h (fail_ne_ok _ _)
      next hfound =>
        rw [okOr_next_item h1] at h
        cases h
        have hb := (valueAsBytes_eq_ok (complete_getElem? h0)).mp (okOr_eq_ok.mp hf)
        exact ⟨a, rfl, first, hitems, not_not.mp hfound ▸ hb⟩
  · rintro ⟨a, rfl, first, hitems, hb⟩
    have h0 : a.items[0]? = some first := by rw [hitems]; rfl
    have h1 : a.items[0 + 1]? = some v := by rw [hitems]; rfl
    have hv := (valueAsBytes_eq_ok (complete_getElem? h0)).mpr hb
    refine ⟨_, arrayItems_bytes a, ?_⟩
    rw [rejectIf_bind, ItemArray.len_start, hitems, if_neg (by simp), okOr_next_item h0, ok_bind]
    simp only
    rw [hv, okOr, ok_bind, rejectIf_bind, if_neg (not_not_intro rfl), okOr_next_item h1]
    rfl

theorem availableAt_eq_ok {wanted n : Nat} {o : Option (Block 32)} :
    availableAt data wanted = .ok (o, n) ↔ ∃ (a : ItemArray) (ids : List (Block 32)), data = a.bytes ∧
      List.Forall₂ (fun item id => Blob item id.val) a.items ids ∧ o = ids[wanted]? ∧ n = a.items.length := by
  have hloop (a : ItemArray) (o : Option (Block 32)) :
      availableItems wanted a.items.length 0 (a.iterator 0) none = .ok o ↔
        ∃ ids : List (Block 32), List.Forall₂ (fun item id => Blob item id.val) a.items ids ∧
          o = ids[wanted]? := by
    rw [availableItems_eq_ok (Nat.zero_add _), List.drop_zero]
    simp only [Nat.zero_le, if_true, Nat.sub_zero, Option.or_none]
  rw [availableAt, bind_eq_ok]
  constructor
  · rintro ⟨items, hi, h⟩
    obtain ⟨a, rfl, rfl⟩ := arrayItems_eq_ok.mp hi
    obtain ⟨first, hf, h⟩ := bind_eq_ok.mp h
    cases h
    obtain ⟨ids, hids, rfl⟩ := (hloop a _).mp hf
    exact ⟨a, ids, rfl, hids, rfl, rfl⟩
  · rintro ⟨a, ids, rfl, hids, rfl, rfl⟩
    refine ⟨_, arrayItems_bytes a, ?_⟩
    exact bind_eq_ok.mpr ⟨_, (hloop a _).mpr ⟨ids, hids, rfl⟩, rfl⟩

theorem firstAvailable_eq_ok {n : Nat} {o : Option (Block 32)} :
    firstAvailable data = .ok (o, n) ↔ ∃ (a : ItemArray) (ids : List (Block 32)), data = a.bytes ∧
      List.Forall₂ (fun item id => Blob item id.val) a.items ids ∧ o = ids.head? ∧ n = ids.length := by
  rw [firstAvailable, availableAt_eq_ok]
  constructor
  · rintro ⟨a, ids, ha, hids, rfl, rfl⟩
    exact ⟨a, ids, ha, hids, List.head?_eq_getElem?.symm, hids.length_eq⟩
  · rintro ⟨a, ids, ha, hids, rfl, rfl⟩
    exact ⟨a, ids, ha, hids, List.head?_eq_getElem?, hids.length_eq.symm⟩

/-- Which id is wanted does not decide whether there is a list, nor how long it is. -/
theorem count_independent (data : Bytes) (i j : Nat) :
    (availableAt data i).map Prod.snd = (availableAt data j).map Prod.snd := by
  have hcount {i j : Nat} {r : Option (Block 32) × Nat} (h : availableAt data i = .ok r) :
      (availableAt data i).map Prod.snd = (availableAt data j).map Prod.snd := by
    obtain ⟨o, n⟩ := r
    obtain ⟨a, ids, ha, hids, -, rfl⟩ := availableAt_eq_ok.mp h
    have hj : availableAt data j = .ok (ids[j]?, a.items.length) :=
      availableAt_eq_ok.mpr ⟨a, ids, ha, hids, rfl, rfl⟩
    rw [h, hj]
    rfl
  rcases malformed_availableAt data i with ⟨r, hi⟩ | hi
  · exact hcount hi
  · rcases malformed_availableAt data j with ⟨r, hj⟩ | hj
    · exact (hcount hj).symm
    · rw [hi, hj]

theorem fetchedMessage_eq_ok {message : Option Bytes} : fetchedMessage data = .ok message ↔
    ∃ a : ItemArray, data = a.bytes ∧ ((a.items = [] ∧ message = none) ∨
      ∃ item b, a.items = [item] ∧ Blob item b ∧ message = some b) := by
  rw [fetchedMessage, bind_eq_ok]
  constructor
  · rintro ⟨items, hi, h⟩
    obtain ⟨a, rfl, rfl⟩ := arrayItems_eq_ok.mp hi
    refine ⟨a, rfl, ?_⟩
    rw [rejectIf_bind, ItemArray.len_start] at h
    split at h
    · exact absurd h (fail_ne_ok _ _)
    next hlen =>
      rcases hitems : a.items with - | ⟨item, rest⟩
      · have hnext : (a.iterator 0).next = fail () := by
          have he := ItemArray.next_end (a := a)
          rwa [hitems] at he
        rw [hnext] at h
        cases h
        exact .inl ⟨rfl, rfl⟩
      · obtain rfl : rest = [] := by
          rw [hitems, List.length_cons] at hlen
          exact List.length_eq_zero_iff.mp (by omega)
        have h0 : a.items[0]? = some item := by rw [hitems]; rfl
        rw [ItemArray.next_item h0] at h
        obtain ⟨b, hb, h⟩ := bind_eq_ok.mp h
        cases h
        exact .inr ⟨item, b, rfl, (valueAsBytes_eq_ok (complete_getElem? h0)).mp (okOr_eq_ok.mp hb), rfl⟩
  · rintro ⟨a, rfl, ⟨hitems, rfl⟩ | ⟨item, b, hitems, hb, rfl⟩⟩
    · refine ⟨_, arrayItems_bytes a, ?_⟩
      have hnext : (a.iterator 0).next = fail () := by
        have he := ItemArray.next_end (a := a)
        rwa [hitems] at he
      rw [rejectIf_bind, ItemArray.len_start, hitems, if_neg (by simp), hnext]
      rfl
    · have h0 : a.items[0]? = some item := by rw [hitems]; rfl
      have hv := (valueAsBytes_eq_ok (complete_getElem? h0)).mpr hb
      refine ⟨_, arrayItems_bytes a, ?_⟩
      rw [rejectIf_bind, ItemArray.len_start, hitems, if_neg (by simp), ItemArray.next_item h0]
      simp only
      rw [hv]
      rfl

/-- The replies are decoded whole or not at all, and nothing but a complete array
is a reply. -/
theorem replies_exact :
    (∀ data, (∃ a : ItemArray, data = a.bytes) ↔ Complete data ∧ ∃ m, data[0]? = some m ∧ ArrayMarker m) ∧
    (∀ data (id : Block 16), Malformed (responseData data id) ∧
      ∀ v, responseData data id = .ok v ↔
        ∃ a : ItemArray, data = a.bytes ∧ ∃ first, a.items = [first, v] ∧ Blob first id.val) ∧
    (∀ data wanted, Malformed (availableAt data wanted) ∧
      (∀ o n, availableAt data wanted = .ok (o, n) ↔ ∃ (a : ItemArray) (ids : List (Block 32)),
        data = a.bytes ∧ List.Forall₂ (fun item id => Blob item id.val) a.items ids ∧
        o = ids[wanted]? ∧ n = a.items.length) ∧
      ∀ wanted', (availableAt data wanted').map Prod.snd = (availableAt data wanted).map Prod.snd) ∧
    (∀ data, Malformed (fetchedMessage data) ∧
      (fetchedMessage data = .ok none ↔ ∃ a : ItemArray, data = a.bytes ∧ a.items = []) ∧
      ∀ b, fetchedMessage data = .ok (some b) ↔
        ∃ a : ItemArray, data = a.bytes ∧ ∃ item, a.items = [item] ∧ Blob item b) ∧
    ∀ data, (∀ m, data[0]? = some m → ¬ArrayMarker m) →
      (∀ id, responseData data id = fail .malformedPayload) ∧
      (∀ wanted, availableAt data wanted = fail .malformedPayload) ∧
      fetchedMessage data = fail .malformedPayload := by
  refine ⟨fun data => itemArray_iff_complete, fun data id => ⟨malformed_responseData data id,
    fun v => responseData_eq_ok⟩, fun data wanted => ⟨malformed_availableAt data wanted,
    fun o n => availableAt_eq_ok, fun wanted' => ?_⟩, fun data => ⟨malformed_fetchedMessage data, ?_, ?_⟩,
    ?_⟩
  · exact count_independent data wanted' wanted
  · rw [fetchedMessage_eq_ok]
    constructor
    · rintro ⟨a, ha, ⟨hi, -⟩ | ⟨item, b, -, -, hb⟩⟩
      · exact ⟨a, ha, hi⟩
      · exact nomatch hb
    · rintro ⟨a, ha, hi⟩
      exact ⟨a, ha, .inl ⟨hi, rfl⟩⟩
  · intro b
    rw [fetchedMessage_eq_ok]
    constructor
    · rintro ⟨a, ha, ⟨-, hb⟩ | ⟨item, b', hi, hblob, hb⟩⟩
      · exact nomatch hb
      · obtain rfl := Option.some.inj hb
        exact ⟨a, ha, item, hi, hblob⟩
    · rintro ⟨a, ha, item, hi, hblob⟩
      exact ⟨a, ha, .inr ⟨item, b, hi, hblob, rfl⟩⟩
  · intro data hm
    have hf : arrayItems data = fail .malformedPayload := by
      rcases arrayItems_cases data with ⟨a, rfl⟩ | ⟨-, hf⟩
      · obtain ⟨m, tail, hb, ham⟩ := a.exists_marker
        exact absurd ham (hm m (by rw [hb]; rfl))
      · exact hf
    refine ⟨fun id => ?_, fun wanted => ?_, ?_⟩
    · rw [responseData, hf, fail_bind]
    · rw [availableAt, hf, fail_bind]
    · rw [fetchedMessage, hf, fail_bind]

end LxmfLite.ReplyDecoding
