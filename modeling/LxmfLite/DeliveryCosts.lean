import LxmfLite.NodeAnnounces

namespace LxmfLite.DeliveryCosts

open ByteString Execution SelfDelimiting MessagePack Message Reader Skipping FieldReading Bounds
  FieldLookup Replies Arrays ReplyDecoding IntegerDecoders NodeAnnounces

/-- What the second item of an announce says that delivery costs: nothing, or a
stamp of as many bits. No float is a cost: it is refused, whatever its value. -/
inductive Asks : Bytes → Option UInt8 → Prop
  | nil : Asks [0xc0] none
  | bits {enc} {b : UInt8} (h : Integer enc b.toNat) : Asks enc (some b)

inductive Alike : Option Bytes → Option Bytes → Prop
  | same {item} : Alike item item
  | integer {enc enc'} {n : Int} (h : Integer enc n) (h' : Integer enc' n) : Alike (some enc) (some enc')

section Item

variable {item : Bytes}

theorem integer_not_nil {n : Int} : ¬Integer [0xc0] n := by
  intro h
  have hm := integer_marker h
  rw [IntegerMarker] at hm
  revert hm
  decide

theorem asks_integer {enc : Bytes} {n : Int} (h : Integer enc n) (c : Option UInt8) :
    Asks enc c ↔ ∃ b : UInt8, c = some b ∧ n = b.toNat := by
  constructor
  · intro ha
    cases ha with
    | nil => exact absurd h integer_not_nil
    | @bits _ b h' =>
        obtain ⟨-, hn, -⟩ := integer_readable enc enc n b.toNat [] [] h h' rfl
        exact ⟨b, rfl, hn⟩
  · rintro ⟨b, rfl, rfl⟩
    exact .bits h

theorem unsigned_complete (hc : Complete item) (hf : item[0]? ≠ some 0xca ∧ item[0]? ≠ some 0xcb)
    {u : Nat} : unsigned item = .ok u ↔ Integer item u := by
  rw [unsigned_eq_ok hf]
  constructor
  · rintro ⟨enc, ⟨rest, hr⟩, hi⟩
    have hu := (hi.value (Nat.zero_le 8)).unique (complete_iff.mp hc) (r := rest) (s := [])
      (by rw [hr, List.append_nil])
    exact hu ▸ hi
  · intro hi
    exact ⟨item, List.prefix_rfl, hi⟩

def readCost (cost : Bytes) : Maybe (Option UInt8) :=
  if cost = [0xc0] then pure none
  else do
    rejectIf (cost[0]? = some 0xca ∨ cost[0]? = some 0xcb) ()
    let cost ← unsigned cost
    let cost ← orFail (toU8 cost) ()
    pure (some cost)

theorem readCost_eq_ok (hc : Complete item) {c : Option UInt8} : readCost item = .ok c ↔ Asks item c := by
  rw [readCost]
  split
  next hnil =>
    subst hnil
    constructor
    · intro h
      cases h
      exact .nil
    · intro h
      cases h with
      | nil => rfl
      | bits h => exact absurd h integer_not_nil
  next hnil =>
    rw [rejectIf_bind]
    split
    next hfloat =>
      refine iff_of_false (fail_ne_ok _ _) fun h => ?_
      cases h with
      | nil => exact hnil rfl
      | bits h =>
          obtain ⟨m, tail, rfl⟩ := List.exists_cons_of_ne_nil h.ne_nil
          have hm := integer_marker h
          rw [IntegerMarker] at hm
          rcases hfloat with hfloat | hfloat
          all_goals
            obtain rfl := Option.some.inj hfloat
            revert hm
            decide
    next hfloat =>
      rw [not_or] at hfloat
      rw [cost_eq_ok]
      simp only [unsigned_complete hc hfloat]
      constructor
      · rintro ⟨b, hi, h⟩
        cases h
        exact .bits hi
      · intro h
        cases h with
        | nil => exact absurd rfl hnil
        | @bits _ b hi => exact ⟨b, hi, rfl⟩

end Item

section Announce

variable {a : ItemArray}

theorem next_eq_ok {i : Nat} (hi : i ≤ a.items.length) {r : Bytes × ArrayItems} :
    (a.iterator i).next = .ok r ↔ ∃ item, a.items[i]? = some item ∧ r = (item, a.iterator (i + 1)) := by
  constructor
  · intro h
    rcases Nat.lt_or_eq_of_le hi with hlt | rfl
    · have hget := List.getElem?_eq_getElem hlt
      rw [ItemArray.next_item hget] at h
      exact ⟨_, hget, (Except.ok.inj h).symm⟩
    · rw [ItemArray.next_end] at h
      exact absurd h (fail_ne_ok _ _)
  · rintro ⟨item, hget, rfl⟩
    exact ItemArray.next_item hget

theorem deliveryStampCost_bytes (a : ItemArray) {c : Option UInt8} :
    deliveryStampCost a.bytes = .ok c ↔ ∃ item, a.items[1]? = some item ∧ Asks item c := by
  rw [deliveryStampCost, arrayItems_bytes]
  change ((a.iterator 0).next >>= fun r => r.2.next >>= fun r => readCost r.1) = .ok c ↔ _
  rw [bind_eq_ok]
  constructor
  · rintro ⟨r, h0, h⟩
    obtain ⟨first, hfirst, rfl⟩ := (next_eq_ok (Nat.zero_le _)).mp h0
    have hlen := (List.getElem?_eq_some_iff.mp hfirst).1
    obtain ⟨r, h1, h⟩ := bind_eq_ok.mp h
    obtain ⟨item, hitem, rfl⟩ := (next_eq_ok hlen).mp h1
    exact ⟨item, hitem, (readCost_eq_ok (complete_getElem? hitem)).mp h⟩
  · rintro ⟨item, hitem, hasks⟩
    have hlen := (List.getElem?_eq_some_iff.mp hitem).1
    have hfirst := List.getElem?_eq_getElem (Nat.lt_of_succ_lt hlen)
    refine ⟨_, ItemArray.next_item hfirst, ?_⟩
    rw [ItemArray.next_item hitem, ok_bind]
    exact (readCost_eq_ok (complete_getElem? hitem)).mpr hasks

theorem Alike.asks_iff {item item' : Option Bytes} (h : Alike item item') (c : Option UInt8) :
    (∃ enc, item = some enc ∧ Asks enc c) ↔ ∃ enc, item' = some enc ∧ Asks enc c := by
  cases h with
  | same => exact Iff.rfl
  | integer h h' =>
      simp only [Option.some.injEq, exists_eq_left', asks_integer h, asks_integer h']

/-- An announced delivery cost is read from a complete array alone, from its
second item alone, and from the whole of that item: it is no cost just where the
item is nil, and a number of bits just where the item is an integer in a byte. -/
theorem deliveryStampCost_exact :
    (∀ data, OkOr () (deliveryStampCost data)) ∧
    (∀ data c, deliveryStampCost data = .ok c ↔
      ∃ a : ItemArray, data = a.bytes ∧ ∃ item, a.items[1]? = some item ∧ Asks item c) ∧
    ∀ a a' : ItemArray, Alike a.items[1]? a'.items[1]? →
      deliveryStampCost a'.bytes = deliveryStampCost a.bytes := by
  have hok (data : Bytes) : OkOr () (deliveryStampCost data) :=
    okOr_of_ensures (Totality.ensures_deliveryStampCost data)
  refine ⟨hok, fun data c => ?_, fun a a' h => ?_⟩
  · constructor
    · intro h
      rcases arrayItems_cases data with ⟨a, rfl⟩ | ⟨-, hf⟩
      · exact ⟨a, rfl, (deliveryStampCost_bytes a).mp h⟩
      · rw [deliveryStampCost, hf] at h
        exact absurd h (fail_ne_ok _ _)
    · rintro ⟨a, rfl, h⟩
      exact (deliveryStampCost_bytes a).mpr h
  · apply OkOr.ext (hok _) (hok _)
    intro c
    rw [deliveryStampCost_bytes, deliveryStampCost_bytes]
    exact (h.asks_iff c).symm

end Announce

end LxmfLite.DeliveryCosts
