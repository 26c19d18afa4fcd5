import LxmfLite.IntegerDecoders
import LxmfLite.ReplyDecoding
import LxmfLite.Totality

namespace LxmfLite.NodeAnnounces

open ByteString Execution SelfDelimiting MessagePack Pairing Message Reader Skipping FieldReading
  FieldMaps Contracts Bounds FieldLookup Replies Arrays ReplyDecoding IntegerDecoders

section Itemwise

def Itemwise (n : Nat) (S : Nat → Bytes → Prop) (items : List Bytes) : Prop :=
  ∀ i < n, ∃ item, items[i]? = some item ∧ S i item

variable {n : Nat} {S : Nat → Bytes → Prop} {items items' : List Bytes}

theorem Itemwise.of_getElem? (h : Itemwise n S items) {i : Nat} (hi : i < n) {item : Bytes}
    (hget : items[i]? = some item) : S i item := by
  obtain ⟨item', hget', hs⟩ := h i hi
  exact Option.some.inj (hget'.symm.trans hget) ▸ hs

theorem Itemwise.le_length (h : Itemwise (n + 1) S items) : n + 1 ≤ items.length := by
  obtain ⟨item, hi, -⟩ := h n (Nat.lt_succ_self n)
  exact (List.getElem?_eq_some_iff.mp hi).1

theorem itemwise_set {i : Nat} {item item' : Bytes} (h : items[i]? = some item)
    (hs : S i item ↔ S i item') : Itemwise n S items ↔ Itemwise n S (items.set i item') := by
  have hlen := (List.getElem?_eq_some_iff.mp h).1
  apply forall_congr'
  intro j
  apply imp_congr_right
  intro _
  by_cases hj : i = j
  · subst hj
    rw [List.getElem?_set_self hlen, h]
    constructor
    · rintro ⟨_, ⟨⟩, hsays⟩
      exact ⟨item', rfl, hs.mp hsays⟩
    · rintro ⟨_, ⟨⟩, hsays⟩
      exact ⟨item, rfl, hs.mpr hsays⟩
  · rw [List.getElem?_set_ne hj]

theorem itemwise_take (h : items'.take n = items.take n) : Itemwise n S items ↔ Itemwise n S items' := by
  apply forall_congr'
  intro i
  apply imp_congr_right
  intro hi
  rw [← List.getElem?_take_of_lt hi, ← h, List.getElem?_take_of_lt hi]

end Itemwise

section Meaning

def costAt (a : NodeAnnounce) : Nat → UInt8
  | 0 => a.stampCost
  | 1 => a.stampFlex
  | _ => a.peeringCost

def Costs (item : Bytes) (a : NodeAnnounce) : Prop := ∃ costs : ItemArray, item = costs.bytes ∧
  Itemwise 3 (fun j cost => unsigned cost = .ok (costAt a j).toNat) costs.items

/-- The bin or str under key 1 of the metadata, and none where there is none or
where they are no outer map. -/
def Named (metadata : Bytes) (name : Option Bytes) : Prop :=
  ∀ b, name = some b ↔ ∃ m : OuterMap, metadata = m.bytes ∧ ∃ p ∈ m.pairs, p.id = 1 ∧ Blob p.value b

/-- What the item at a position, counted from 0, says in an announce. -/
def Says : Nat → Bytes → NodeAnnounce → Prop
  | 1, item, a => unsigned item = .ok a.timebase ∧ a.timebase ≤ 2 ^ 63 - 1
  | 2, item, a => item = if a.enabled then [0xc3] else [0xc2]
  | 3, item, a => unsigned item = .ok a.transferLimitKb ∧ a.transferLimitKb * 1000 < 2 ^ 64
  | 4, item, a => unsigned item = .ok a.syncLimitKb ∧ a.syncLimitKb * 1000 < 2 ^ 64
  | 5, item, a => Costs item a
  | 6, item, a => (∃ m, item[0]? = some m ∧ MapMarker m) ∧ Named item a.name
  | _, _, _ => True

def Announces (items : List Bytes) (a : NodeAnnounce) : Prop :=
  Itemwise 7 (fun i item => Says i item a) items

theorem announces_cons {legacy timebase enabled transfer sync costs metadata : Bytes}
    {more : List Bytes} {a : NodeAnnounce} :
    Announces (legacy :: timebase :: enabled :: transfer :: sync :: costs :: metadata :: more) a ↔
      (unsigned timebase = .ok a.timebase ∧ a.timebase ≤ 2 ^ 63 - 1) ∧
      enabled = (if a.enabled then [0xc3] else [0xc2]) ∧
      (unsigned transfer = .ok a.transferLimitKb ∧ a.transferLimitKb * 1000 < 2 ^ 64) ∧
      (unsigned sync = .ok a.syncLimitKb ∧ a.syncLimitKb * 1000 < 2 ^ 64) ∧ Costs costs a ∧
      (∃ m, metadata[0]? = some m ∧ MapMarker m) ∧ Named metadata a.name := by
  constructor
  · intro h
    exact ⟨h.of_getElem? (i := 1) (by decide) rfl, h.of_getElem? (i := 2) (by decide) rfl,
      h.of_getElem? (i := 3) (by decide) rfl, h.of_getElem? (i := 4) (by decide) rfl,
      h.of_getElem? (i := 5) (by decide) rfl, h.of_getElem? (i := 6) (by decide) rfl⟩
  · rintro ⟨h1, h2, h3, h4, h5, h6⟩ i hi
    interval_cases i
    · exact ⟨legacy, rfl, trivial⟩
    · exact ⟨timebase, rfl, h1⟩
    · exact ⟨enabled, rfl, h2⟩
    · exact ⟨transfer, rfl, h3⟩
    · exact ⟨sync, rfl, h4⟩
    · exact ⟨costs, rfl, h5⟩
    · exact ⟨metadata, rfl, h6⟩

theorem costs_iff {item : Bytes} {a : NodeAnnounce} : Costs item a ↔
    ∃ costs : ItemArray, item = costs.bytes ∧ ∃ cost flex peering more,
      costs.items = cost :: flex :: peering :: more ∧ unsigned cost = .ok a.stampCost.toNat ∧
      unsigned flex = .ok a.stampFlex.toNat ∧ unsigned peering = .ok a.peeringCost.toNat := by
  apply exists_congr
  intro costs
  apply and_congr_right
  intro _
  constructor
  · intro h
    match hi : costs.items, h.le_length with
    | cost :: flex :: peering :: more, _ =>
        rw [hi] at h
        exact ⟨cost, flex, peering, more, rfl, h.of_getElem? (i := 0) (by decide) rfl,
          h.of_getElem? (i := 1) (by decide) rfl, h.of_getElem? (i := 2) (by decide) rfl⟩
  · rintro ⟨cost, flex, peering, more, hi, h0, h1, h2⟩ j hj
    rw [hi]
    interval_cases j
    · exact ⟨cost, rfl, h0⟩
    · exact ⟨flex, rfl, h1⟩
    · exact ⟨peering, rfl, h2⟩

end Meaning

section Parts

variable {item : Bytes}

def readCosts (item : Bytes) : Maybe (UInt8 × UInt8 × UInt8) := do
  let costs ← ok (arrayItems item)
  rejectIf (costs.len < 3) ()
  let (cost, costs) ← costs.next
  let cost ← unsigned cost
  let stampCost ← orFail (toU8 cost) ()
  let (cost, costs) ← costs.next
  let cost ← unsigned cost
  let stampFlex ← orFail (toU8 cost) ()
  let (cost, _) ← costs.next
  let cost ← unsigned cost
  let peeringCost ← orFail (toU8 cost) ()
  pure (stampCost, stampFlex, peeringCost)

def readName (metadata : Bytes) : Maybe (Option Bytes) := do
  let marker ← orFail metadata[0]? ()
  rejectIf (¬MapMarker marker) ()
  toOption (do
    let value ← fieldValue metadata 1
    valueAsBytes value)

theorem toU8_eq_some {n : Nat} {b : UInt8} : toU8 n = some b ↔ n = b.toNat := by
  have hb := toNat_lt b
  rw [toU8]
  constructor
  · intro h
    split at h
    · rw [← Option.some.inj h, toNat_ofNat_of_lt (by omega)]
    · exact nomatch h
  · rintro rfl
    rw [if_pos (by omega), UInt8.ofNat_toNat]

theorem toBool_eq_some {b : Bool} : Replies.toBool item = some b ↔ item = if b then [0xc3] else [0xc2] := by
  unfold Replies.toBool
  constructor
  · intro h
    split at h
    · obtain rfl := Option.some.inj h
      assumption
    split at h
    · obtain rfl := Option.some.inj h
      assumption
    · exact nomatch h
  · rintro rfl
    cases b <;> rfl

theorem cost_eq_ok {α : Type} {f : UInt8 → Maybe α} {r : α} :
    (unsigned item >>= fun cost => orFail (toU8 cost) () >>= f) = .ok r ↔
      ∃ b : UInt8, unsigned item = .ok b.toNat ∧ f b = .ok r := by
  rw [bind_eq_ok]
  constructor
  · rintro ⟨n, hn, h⟩
    obtain ⟨b, hb, hf⟩ := bind_eq_ok.mp h
    rw [toU8_eq_some.mp (orFail_eq_ok.mp hb)] at hn
    exact ⟨b, hn, hf⟩
  · rintro ⟨b, hn, h⟩
    exact ⟨_, hn, bind_eq_ok.mpr ⟨b, orFail_eq_ok.mpr (toU8_eq_some.mpr rfl), h⟩⟩

theorem readCosts_eq_ok {a : NodeAnnounce} :
    readCosts item = .ok (a.stampCost, a.stampFlex, a.peeringCost) ↔ Costs item a := by
  rw [costs_iff, readCosts, bind_eq_ok]
  constructor
  · rintro ⟨costs, hc, h⟩
    obtain ⟨c, rfl, rfl⟩ := arrayItems_eq_ok.mp (ok_eq_ok.mp hc)
    rw [rejectIf_bind, ItemArray.len_start] at h
    split at h
    · exact absurd h (fail_ne_ok _ _)
    next hlen =>
      obtain ⟨cost, flex, peering, more, hi⟩ : ∃ cost flex peering more,
          c.items = cost :: flex :: peering :: more := by
        match hi : c.items with
        | cost :: flex :: peering :: more => exact ⟨cost, flex, peering, more, rfl⟩
        | [] | [_] | [_, _] => exact absurd (by rw [hi]; simp) hlen
      simp only [c.next_item (i := 0) (by rw [hi]; rfl), c.next_item (i := 1) (by rw [hi]; rfl),
        c.next_item (i := 2) (by rw [hi]; rfl), ok_bind, Nat.reduceAdd] at h
      obtain ⟨b0, h0, h⟩ := cost_eq_ok.mp h
      obtain ⟨b1, h1, h⟩ := cost_eq_ok.mp h
      obtain ⟨b2, h2, h⟩ := cost_eq_ok.mp h
      simp only [pure_eq_ok, Except.ok.injEq, Prod.mk.injEq] at h
      obtain ⟨rfl, rfl, rfl⟩ := h
      exact ⟨c, rfl, cost, flex, peering, more, hi, h0, h1, h2⟩
  · rintro ⟨c, rfl, cost, flex, peering, more, hi, h0, h1, h2⟩
    refine ⟨c.iterator 0, ok_eq_ok.mpr (arrayItems_bytes c), ?_⟩
    rw [rejectIf_bind, ItemArray.len_start, if_neg (by rw [hi]; simp)]
    simp only [c.next_item (i := 0) (by rw [hi]; rfl), c.next_item (i := 1) (by rw [hi]; rfl),
      c.next_item (i := 2) (by rw [hi]; rfl), ok_bind, Nat.reduceAdd]
    exact cost_eq_ok.mpr ⟨_, h0, cost_eq_ok.mpr ⟨_, h1, cost_eq_ok.mpr ⟨_, h2, rfl⟩⟩⟩

theorem toOption_eq_ok {α : Type} {x : Maybe α} (hx : OkOr () x) {o : Option α} :
    toOption x = .ok o ↔ ∀ a, o = some a ↔ x = .ok a := by
  rcases hx with ⟨a, rfl⟩ | rfl
  · constructor
    · intro h a'
      cases h
      rw [Option.some.injEq, Except.ok.injEq]
    · intro h
      rw [(h a).mpr rfl]
      rfl
  · constructor
    · intro h a
      cases h
      exact iff_of_false nofun nofun
    · intro h
      cases o with
      | none => rfl
      | some a => exact nomatch (h a).mp rfl

theorem okOr_name (metadata : Bytes) : OkOr () (fieldValue metadata 1 >>= valueAsBytes) := by
  apply (okOr_fieldValueId metadata _).bind
  intro value
  exact okOr_of_ensures (Totality.ensures_valueAsBytes value)

theorem name_eq_ok {metadata b : Bytes} : fieldValue metadata 1 >>= valueAsBytes = .ok b ↔
    ∃ m : OuterMap, metadata = m.bytes ∧ ∃ p ∈ m.pairs, p.id = 1 ∧ Blob p.value b := by
  rw [bind_eq_ok]
  simp only [fieldValue, fieldValueId_eq_ok]
  constructor
  · rintro ⟨value, ⟨m, rfl, p, hp, hid, rfl⟩, hb⟩
    exact ⟨m, rfl, p, hp, hid, (valueAsBytes_eq_ok p.isValue).mp hb⟩
  · rintro ⟨m, rfl, p, hp, hid, hb⟩
    exact ⟨p.value, ⟨m, rfl, p, hp, hid, rfl⟩, (valueAsBytes_eq_ok p.isValue).mpr hb⟩

theorem readName_eq_ok {metadata : Bytes} {name : Option Bytes} : readName metadata = .ok name ↔
    (∃ m, metadata[0]? = some m ∧ MapMarker m) ∧ Named metadata name := by
  have hname : toOption (fieldValue metadata 1 >>= valueAsBytes) = .ok name ↔ Named metadata name := by
    rw [toOption_eq_ok (okOr_name metadata)]
    simp only [name_eq_ok]
    rfl
  rw [← hname, readName, bind_eq_ok]
  constructor
  · rintro ⟨m, hm, h⟩
    rw [rejectIf_bind] at h
    split at h
    · exact absurd h (fail_ne_ok _ _)
    next hmap => exact ⟨⟨m, orFail_eq_ok.mp hm, not_not.mp hmap⟩, h⟩
  · rintro ⟨⟨m, hm, hmap⟩, h⟩
    refine ⟨m, orFail_eq_ok.mpr hm, ?_⟩
    rw [rejectIf_bind, if_neg (not_not_intro hmap)]
    exact h

end Parts

def readAnnounce (timebase enabled transfer sync costs metadata : Bytes) : Maybe NodeAnnounce := do
  let timebase ← unsigned timebase
  rejectIf (timebase > 2 ^ 63 - 1) ()
  let enabled ← orFail (Replies.toBool enabled) ()
  let transferLimitKb ← unsigned transfer
  let syncLimitKb ← unsigned sync
  rejectIf (transferLimitKb * 1000 > 2 ^ 64 - 1) ()
  rejectIf (syncLimitKb * 1000 > 2 ^ 64 - 1) ()
  let (stampCost, stampFlex, peeringCost) ← readCosts costs
  let name ← readName metadata
  pure ⟨timebase, enabled, transferLimitKb, syncLimitKb, stampCost, stampFlex, peeringCost, name⟩

theorem scaled_iff {n : Nat} : ¬n * 1000 > 2 ^ 64 - 1 ↔ n * 1000 < 2 ^ 64 := by omega

theorem readAnnounce_eq_ok {timebase enabled transfer sync costs metadata : Bytes} {a : NodeAnnounce} :
    readAnnounce timebase enabled transfer sync costs metadata = .ok a ↔
      (unsigned timebase = .ok a.timebase ∧ a.timebase ≤ 2 ^ 63 - 1) ∧
      enabled = (if a.enabled then [0xc3] else [0xc2]) ∧
      (unsigned transfer = .ok a.transferLimitKb ∧ a.transferLimitKb * 1000 < 2 ^ 64) ∧
      (unsigned sync = .ok a.syncLimitKb ∧ a.syncLimitKb * 1000 < 2 ^ 64) ∧ Costs costs a ∧
      (∃ m, metadata[0]? = some m ∧ MapMarker m) ∧ Named metadata a.name := by
  rw [readAnnounce, bind_eq_ok]
  simp only [rejectIf_bind]
  constructor
  · rintro ⟨base, h1, h⟩
    split at h
    · exact absurd h (fail_ne_ok _ _)
    next hbase =>
      obtain ⟨b, h2, h⟩ := bind_eq_ok.mp h
      obtain ⟨transferKb, h3, h⟩ := bind_eq_ok.mp h
      obtain ⟨syncKb, h4, h⟩ := bind_eq_ok.mp h
      split at h
      · exact absurd h (fail_ne_ok _ _)
      next htransfer =>
        split at h
        · exact absurd h (fail_ne_ok _ _)
        next hsync =>
          obtain ⟨⟨stampCost, stampFlex, peeringCost⟩, h5, h⟩ := bind_eq_ok.mp h
          obtain ⟨name, h6, h⟩ := bind_eq_ok.mp h
          cases h
          refine ⟨⟨h1, Nat.le_of_not_lt hbase⟩, ?_, ⟨h3, scaled_iff.mp htransfer⟩,
            ⟨h4, scaled_iff.mp hsync⟩, readCosts_eq_ok.mp h5, readName_eq_ok.mp h6⟩
          exact toBool_eq_some.mp (orFail_eq_ok.mp h2)
  · rintro ⟨⟨h1, hbase⟩, h2, ⟨h3, htransfer⟩, ⟨h4, hsync⟩, h5, h6⟩
    refine ⟨a.timebase, h1, ?_⟩
    rw [if_neg (Nat.not_lt.mpr hbase), orFail_eq_ok.mpr (toBool_eq_some.mpr h2), ok_bind, h3, ok_bind,
      h4, ok_bind, if_neg (scaled_iff.mpr htransfer), if_neg (scaled_iff.mpr hsync),
      readCosts_eq_ok.mpr h5, ok_bind]
    simp only
    rw [readName_eq_ok.mpr h6]
    rfl

section Items

variable {a : ItemArray} {legacy timebase enabled transfer sync costs metadata : Bytes}
  {more : List Bytes}
  (hi : a.items = legacy :: timebase :: enabled :: transfer :: sync :: costs :: metadata :: more)
include hi

theorem parseNodeAnnounce_bytes : parseNodeAnnounce a.bytes =
    readAnnounce timebase enabled transfer sync costs metadata := by
  have hlen : ¬(a.iterator 0).len < 7 := by
    rw [ItemArray.len_start, hi]
    simp only [List.length_cons]
    omega
  rw [parseNodeAnnounce, arrayItems_bytes, ok, ok_bind, rejectIf_bind, if_neg hlen, readAnnounce]
  simp only [a.next_item (i := 0) (by rw [hi]; rfl), a.next_item (i := 1) (by rw [hi]; rfl),
    a.next_item (i := 2) (by rw [hi]; rfl), a.next_item (i := 3) (by rw [hi]; rfl),
    a.next_item (i := 4) (by rw [hi]; rfl), a.next_item (i := 5) (by rw [hi]; rfl),
    a.next_item (i := 6) (by rw [hi]; rfl), ok_bind, Nat.reduceAdd, readCosts, readName, bind_assoc,
    pure_eq_ok]
  rfl

end Items

theorem exists_seven {items : List Bytes} (h : 7 ≤ items.length) :
    ∃ legacy timebase enabled transfer sync costs metadata more,
      items = legacy :: timebase :: enabled :: transfer :: sync :: costs :: metadata :: more := by
  match items, h with
  | i0 :: i1 :: i2 :: i3 :: i4 :: i5 :: i6 :: more, _ => exact ⟨i0, i1, i2, i3, i4, i5, i6, more, rfl⟩

theorem parseNodeAnnounce_eq_ok {data : Bytes} {a : NodeAnnounce} : parseNodeAnnounce data = .ok a ↔
    ∃ array : ItemArray, data = array.bytes ∧ Announces array.items a := by
  have hseven {array : ItemArray} (hl : 7 ≤ array.items.length) :
      parseNodeAnnounce array.bytes = .ok a ↔ Announces array.items a := by
    obtain ⟨legacy, timebase, enabled, transfer, sync, costs, metadata, more, hi⟩ := exists_seven hl
    rw [parseNodeAnnounce_bytes hi, readAnnounce_eq_ok, hi, announces_cons]
  constructor
  · intro h
    rcases arrayItems_cases data with ⟨array, rfl⟩ | ⟨-, hf⟩
    · refine ⟨array, rfl, (hseven ?_).mp h⟩
      by_contra hl
      rw [parseNodeAnnounce, arrayItems_bytes, ok, ok_bind, rejectIf_bind, ItemArray.len_start,
        if_pos (Nat.lt_of_not_le hl)] at h
      exact absurd h (fail_ne_ok _ _)
    · rw [parseNodeAnnounce, hf] at h
      exact absurd h (fail_ne_ok _ _)
  · rintro ⟨array, rfl, h⟩
    exact (hseven h.le_length).mpr h

/-- Another encoding of a number: of an integer, or of what unsigned makes of a
float. -/
inductive Reencoded : Bytes → Bytes → Prop
  | integer {item item' : Bytes} {n : Int} (h : Integer item n) (h' : Integer item' n) :
      Reencoded item item'
  | number {item item' : Bytes} {u : Nat} (h : unsigned item = .ok u) (h' : Integer item' u) :
      Reencoded item item'

/-- The changes to the items of an announce that are none to its meaning. -/
inductive Tolerated (items : List Bytes) : List Bytes → Prop
  | legacy (item : Bytes) : Tolerated items (items.set 0 item)
  | number {i : Nat} {item item' : Bytes} (hi : i = 1 ∨ i = 3 ∨ i = 4) (h : items[i]? = some item)
      (hr : Reencoded item item') : Tolerated items (items.set i item')
  | more {items' : List Bytes} (hl : 7 ≤ items.length) (h : items'.take 7 = items.take 7) :
      Tolerated items items'
  | cost {costs costs' : ItemArray} {j : Nat} {item item' : Bytes} (h : items[5]? = some costs.bytes)
      (hj : costs.items[j]? = some item) (hr : Reencoded item item')
      (hc : costs'.items = costs.items.set j item') : Tolerated items (items.set 5 costs'.bytes)
  | moreCosts {costs costs' : ItemArray} (h : items[5]? = some costs.bytes)
      (hl : 3 ≤ costs.items.length) (hc : costs'.items.take 3 = costs.items.take 3) :
      Tolerated items (items.set 5 costs'.bytes)
  | entries {m m' : OuterMap} {extra : List (Pair Integer Complete)} (h : items[6]? = some m.bytes)
      (hp : m'.pairs.Perm (m.pairs ++ extra)) (hid : ∀ p ∈ extra, p.id ≠ 1) :
      Tolerated items (items.set 6 m'.bytes)

section Tolerance

variable {items : List Bytes} {a : NodeAnnounce}

theorem unsigned_integer {enc : Bytes} {n : Int} (h : Integer enc n) {u : Nat} :
    unsigned enc = .ok u ↔ n = u := by
  have hmark : enc[0]? ≠ some 0xca ∧ enc[0]? ≠ some 0xcb := by
    obtain ⟨m, tail, rfl⟩ := List.exists_cons_of_ne_nil h.ne_nil
    have hm := integer_marker h
    rw [IntegerMarker] at hm
    constructor
    · rintro ⟨⟩
      revert hm
      decide
    · rintro ⟨⟩
      revert hm
      decide
  rw [unsigned_eq_ok hmark]
  constructor
  · rintro ⟨enc', ⟨r, hr⟩, hi⟩
    obtain ⟨-, hn, -⟩ := integer_readable enc' enc u n r [] hi h (by rw [hr, List.append_nil])
    exact hn.symm
  · rintro rfl
    exact ⟨enc, List.prefix_rfl, h⟩

theorem Reencoded.unsigned_iff {item item' : Bytes} (h : Reencoded item item') (u : Nat) :
    unsigned item = .ok u ↔ unsigned item' = .ok u := by
  cases h with
  | integer h h' => rw [unsigned_integer h, unsigned_integer h']
  | number h h' =>
      rw [unsigned_integer h', h, Except.ok.injEq]
      exact Int.ofNat_inj.symm

theorem says_number {i : Nat} {item item' : Bytes} (hi : i = 1 ∨ i = 3 ∨ i = 4)
    (h : Reencoded item item') : Says i item a ↔ Says i item' a := by
  rcases hi with rfl | rfl | rfl
  all_goals exact and_congr_left' (h.unsigned_iff _)

theorem costs_bytes {costs : ItemArray} : Costs costs.bytes a ↔
    Itemwise 3 (fun j cost => unsigned cost = .ok (costAt a j).toNat) costs.items := by
  constructor
  · rintro ⟨costs', hb, h⟩
    rw [ItemArray.eq_of_bytes hb]
    exact h
  · intro h
    exact ⟨costs, rfl, h⟩

theorem named_entries {m m' : OuterMap} {extra : List (Pair Integer Complete)}
    (hp : m'.pairs.Perm (m.pairs ++ extra)) (hid : ∀ p ∈ extra, p.id ≠ 1) {name : Option Bytes} :
    Named m.bytes name ↔ Named m'.bytes name := by
  have hpairs (n : OuterMap) (b : Bytes) : (∃ n' : OuterMap, n.bytes = n'.bytes ∧
      ∃ p ∈ n'.pairs, p.id = 1 ∧ Blob p.value b) ↔ ∃ p ∈ n.pairs, p.id = 1 ∧ Blob p.value b := by
    constructor
    · rintro ⟨n', hb, h⟩
      exact outerMap_unique hb ▸ h
    · intro h
      exact ⟨n, rfl, h⟩
  apply forall_congr'
  intro b
  rw [hpairs, hpairs]
  apply iff_congr Iff.rfl
  constructor
  · rintro ⟨p, hm, h⟩
    exact ⟨p, hp.mem_iff.mpr (List.mem_append_left _ hm), h⟩
  · rintro ⟨p, hm, h1, hb⟩
    rcases List.mem_append.mp (hp.mem_iff.mp hm) with hm | hm
    · exact ⟨p, hm, h1, hb⟩
    · exact absurd h1 (hid p hm)

theorem outerMap_marker (m : OuterMap) : ∃ b, m.bytes[0]? = some b ∧ MapMarker b := by
  obtain ⟨b, tail, hh⟩ := List.exists_cons_of_ne_nil (KeyedMap.MapHeader.ne_nil m.counted)
  have hc := m.counted
  rw [hh] at hc
  exact ⟨b, by rw [PairMap.bytes, hh]; rfl, KeyedMap.MapHeader.marker hc⟩

theorem Tolerated.announces_iff {items' : List Bytes} (h : Tolerated items items') :
    Announces items a ↔ Announces items' a := by
  cases h with
  | legacy item =>
      cases hget : items[0]? with
      | none =>
          rw [List.getElem?_eq_none_iff, Nat.le_zero, List.length_eq_zero_iff] at hget
          rw [hget]
          rfl
      | some old => exact itemwise_set hget Iff.rfl
  | number hi hget hr => exact itemwise_set hget (says_number hi hr)
  | more hl ht => exact itemwise_take ht
  | cost hget hj hr hc =>
      apply itemwise_set hget
      refine costs_bytes.trans (Iff.trans ?_ costs_bytes.symm)
      rw [hc]
      exact itemwise_set hj (hr.unsigned_iff _)
  | moreCosts hget hl hc =>
      apply itemwise_set hget
      exact costs_bytes.trans ((itemwise_take hc).trans costs_bytes.symm)
  | @entries m m' extra hget hp hid =>
      apply itemwise_set hget
      have hmark := iff_of_true (outerMap_marker m) (outerMap_marker m')
      exact and_congr hmark (named_entries hp hid)

end Tolerance

/-- An announce is decoded from what its items say, and from nothing else. -/
theorem parseNodeAnnounce_exact :
    (∀ data a, parseNodeAnnounce data = .ok a ↔
      ∃ array : ItemArray, data = array.bytes ∧ Announces array.items a) ∧
    ∀ array array' : ItemArray, Tolerated array.items array'.items →
      parseNodeAnnounce array'.bytes = parseNodeAnnounce array.bytes := by
  refine ⟨fun data a => parseNodeAnnounce_eq_ok, ?_⟩
  intro array array' h
  have hok (data : Bytes) : OkOr () (parseNodeAnnounce data) :=
    okOr_of_ensures (Totality.ensures_parseNodeAnnounce data)
  have hbytes (n : ItemArray) (a : NodeAnnounce) :
      parseNodeAnnounce n.bytes = .ok a ↔ Announces n.items a := by
    rw [parseNodeAnnounce_eq_ok]
    constructor
    · rintro ⟨n', hb, ha⟩
      rw [ItemArray.eq_of_bytes hb]
      exact ha
    · intro ha
      exact ⟨n, rfl, ha⟩
  apply OkOr.ext (hok _) (hok _)
  intro a
  rw [hbytes, hbytes]
  exact h.announces_iff.symm

end LxmfLite.NodeAnnounces
