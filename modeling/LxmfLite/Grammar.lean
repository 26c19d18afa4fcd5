import LxmfLite.Skipping

namespace LxmfLite.Grammar

open ByteString Execution SelfDelimiting MessagePack Message Reader Skipping

inductive Tree
  | nil
  | bool (b : Bool)
  | int (n : Int)
  | float32 (bits : Nat)
  | float64 (bits : Nat)
  | bin (payload : Bytes)
  | str (payload : Bytes)
  | array (items : List Tree)
  | map (pairs : List (Tree × Tree))

inductive Encodes : Tree → Bytes → Prop
  | nil : Encodes .nil [0xc0]
  | no : Encodes (.bool false) [0xc2]
  | yes : Encodes (.bool true) [0xc3]
  | int {n} {enc : Bytes} (h : Integer enc n) : Encodes (.int n) enc
  | float32 {body : Bytes} (hb : body.length = 4) : Encodes (.float32 (ofBe body)) (0xca :: body)
  | float64 {body : Bytes} (hb : body.length = 8) : Encodes (.float64 (ofBe body)) (0xcb :: body)
  | bin {enc payload : Bytes} (h : Binary enc payload) : Encodes (.bin payload) enc
  | str {enc payload : Bytes} (h : Text enc payload) : Encodes (.str payload) enc
  | array {header : Bytes} {items : List (Tree × Bytes)} (hh : ArrayHeader header items.length)
      (hi : ∀ item ∈ items, Encodes item.1 item.2) :
      Encodes (.array (items.map Prod.fst)) (header ++ (items.map Prod.snd).flatten)
  | map {header : Bytes} {pairs : List ((Tree × Bytes) × (Tree × Bytes))}
      (hh : MapHeader header pairs.length) (hk : ∀ pair ∈ pairs, Encodes pair.1.1 pair.1.2)
      (hv : ∀ pair ∈ pairs, Encodes pair.2.1 pair.2.2) :
      Encodes (.map (pairs.map fun pair => (pair.1.1, pair.2.1)))
        (header ++ (pairs.map fun pair => pair.1.2 ++ pair.2.2).flatten)

/-- The depths of the nodes of a tree, its root at the depth given first. -/
inductive NodeAt : Nat → Tree → Nat → Prop
  | root {depth t} : NodeAt depth t depth
  | item {depth n} {items : List Tree} {t} (ht : t ∈ items) (h : NodeAt (depth + 1) t n) :
      NodeAt depth (.array items) n
  | key {depth n} {pairs : List (Tree × Tree)} {pair} (hp : pair ∈ pairs)
      (h : NodeAt (depth + 1) pair.1 n) : NodeAt depth (.map pairs) n
  | value {depth n} {pairs : List (Tree × Tree)} {pair} (hp : pair ∈ pairs)
      (h : NodeAt (depth + 1) pair.2 n) : NodeAt depth (.map pairs) n

def Within (limit depth : Nat) (t : Tree) : Prop := ∀ n, NodeAt depth t n → n ≤ limit

variable {limit depth : Nat}

theorem Within.root {t : Tree} (h : Within limit depth t) : depth ≤ limit := h depth .root

theorem within_array {items : List Tree} : Within limit depth (.array items) ↔
    depth ≤ limit ∧ ∀ t ∈ items, Within limit (depth + 1) t := by
  constructor
  · intro h
    exact ⟨h.root, fun t ht n hn => h n (.item ht hn)⟩
  · rintro ⟨hd, hi⟩ n hn
    cases hn with
    | root => exact hd
    | item ht hn => exact hi _ ht n hn

theorem within_map {pairs : List (Tree × Tree)} : Within limit depth (.map pairs) ↔
    depth ≤ limit ∧ ∀ pair ∈ pairs, Within limit (depth + 1) pair.1 ∧ Within limit (depth + 1) pair.2 := by
  constructor
  · intro h
    exact ⟨h.root, fun pair hp => ⟨fun n hn => h n (.key hp hn), fun n hn => h n (.value hp hn)⟩⟩
  · rintro ⟨hd, hi⟩ n hn
    cases hn with
    | root => exact hd
    | key hp hn => exact (hi _ hp).1 n hn
    | value hp hn => exact (hi _ hp).2 n hn

def Tree.isLeaf : Tree → Bool
  | .array _ => false
  | .map _ => false
  | _ => true

theorem within_leaf {t : Tree} (h : t.isLeaf = true) (hd : depth ≤ limit) : Within limit depth t := by
  intro n hn
  cases hn with
  | root => exact hd
  | item => cases h
  | key => cases h
  | value => cases h

theorem flatten_interleave (pairs : List ((Tree × Bytes) × (Tree × Bytes))) :
    (pairs.map fun pair => pair.1.2 ++ pair.2.2).flatten =
      (pairs.flatMap fun pair => [pair.1.2, pair.2.2]).flatten := by
  induction pairs with
  | nil => rfl
  | cons pair pairs ih =>
      rw [List.map_cons, List.flatten_cons, ih, List.flatMap_cons, List.flatten_append]
      simp

theorem length_interleave (pairs : List ((Tree × Bytes) × (Tree × Bytes))) :
    (pairs.flatMap fun pair => [pair.1.2, pair.2.2]).length = 2 * pairs.length := by
  induction pairs with
  | nil => rfl
  | cons pair pairs ih =>
      rw [List.flatMap_cons, List.length_append, ih, List.length_cons]
      simp only [List.length_cons, List.length_nil]
      omega

theorem value_array {header : Bytes} {items : List Bytes} (hd : depth ≤ limit)
    (hh : ArrayHeader header items.length) (hi : ∀ item ∈ items, Value limit (depth + 1) item) :
    Value limit depth (header ++ items.flatten) := by
  generalize hl : items.length = n at hh
  cases hh with
  | fix hn hm => exact .nested hd (layout_fixarray hm hn) hl hi
  | counted hk hm hs =>
      exact .counted hd (layout_array hk hm) hs (by rw [hl, Nat.one_mul]; rfl) hi

theorem value_map {header : Bytes} {items : List Bytes} {n : Nat} (hd : depth ≤ limit)
    (hh : MapHeader header n) (hl : items.length = 2 * n)
    (hi : ∀ item ∈ items, Value limit (depth + 1) item) : Value limit depth (header ++ items.flatten) := by
  cases hh with
  | fix hn hm => exact .nested hd (layout_fixmap hm hn) hl hi
  | counted hk hm hs => exact .counted hd (layout_map hk hm) hs hl hi

theorem Encodes.value {t : Tree} {enc : Bytes} (h : Encodes t enc) (ht : Within limit depth t) :
    Value limit depth enc := by
  induction h generalizing depth with
  | nil => exact .inline (n := 0) ht.root (by rfl) rfl
  | no => exact .inline (n := 0) ht.root (by rfl) rfl
  | yes => exact .inline (n := 0) ht.root (by rfl) rfl
  | int h => exact h.value ht.root
  | float32 hb => exact .inline ht.root (by rfl) hb
  | float64 hb => exact .inline ht.root (by rfl) hb
  | bin h => exact h.blob.value ht.root
  | str h => exact h.blob.value ht.root
  | array hh _ ih =>
      obtain ⟨hd, hc⟩ := within_array.mp ht
      apply value_array hd (by rw [List.length_map]; exact hh)
      intro item hm
      obtain ⟨x, hx, rfl⟩ := List.mem_map.mp hm
      exact ih x hx (hc _ (List.mem_map_of_mem hx))
  | map hh _ _ ihk ihv =>
      obtain ⟨hd, hc⟩ := within_map.mp ht
      rw [flatten_interleave]
      apply value_map hd hh (length_interleave _)
      intro item hm
      obtain ⟨pair, hp, hm⟩ := List.mem_flatMap.mp hm
      have hw := hc _ (List.mem_map_of_mem hp)
      rcases List.mem_cons.mp hm with rfl | hm
      · exact ihk pair hp hw.1
      · obtain rfl := List.mem_singleton.mp hm
        exact ihv pair hp hw.2

inductive Marker (m : UInt8) : Option Layout → Prop
  | scalar (hm : m.toNat ≤ 0x7f ∨ 0xe0 ≤ m.toNat ∨ m.toNat = 0xc0 ∨ m.toNat = 0xc2 ∨ m.toNat = 0xc3) :
      Marker m (some (.inline 0))
  | fixmap {n : Nat} (hn : n < 16) (hm : m.toNat = 0x80 + n) : Marker m (some (.nested (2 * n)))
  | fixarray {n : Nat} (hn : n < 16) (hm : m.toNat = 0x90 + n) : Marker m (some (.nested n))
  | fixstr {n : Nat} (hn : n < 32) (hm : m.toNat = 0xa0 + n) : Marker m (some (.inline n))
  | blob {k : Nat} (hk : k < 3) (hm : m.toNat = 0xc4 + k ∨ m.toNat = 0xd9 + k) :
      Marker m (some (.sized (2 ^ k)))
  | integer {k : Nat} (hk : k < 4) (hm : m.toNat = 0xcc + k ∨ m.toNat = 0xd0 + k) :
      Marker m (some (.inline (2 ^ k)))
  | float32 (hm : m.toNat = 0xca) : Marker m (some (.inline 4))
  | float64 (hm : m.toNat = 0xcb) : Marker m (some (.inline 8))
  | array {k : Nat} (hk : k < 2) (hm : m.toNat = 0xdc + k) : Marker m (some (.counted (2 ^ (k + 1)) 1))
  | map {k : Nat} (hk : k < 2) (hm : m.toNat = 0xde + k) : Marker m (some (.counted (2 ^ (k + 1)) 2))
  | other : Marker m none

theorem marker_class (m : UInt8) : Marker m (layout m) := by
  have hlt := toNat_lt m
  by_cases hs : m.toNat ≤ 0x7f ∨ 0xe0 ≤ m.toNat ∨ m.toNat = 0xc0 ∨ m.toNat = 0xc2 ∨ m.toNat = 0xc3
  · rw [layout_scalar hs]
    exact .scalar hs
  by_cases hmap : m.toNat < 0x90
  · rw [layout_fixmap (n := m.toNat - 0x80) (by omega) (by omega)]
    exact .fixmap (by omega) (by omega)
  by_cases harray : m.toNat < 0xa0
  · rw [layout_fixarray (n := m.toNat - 0x90) (by omega) (by omega)]
    exact .fixarray (by omega) (by omega)
  by_cases hstr : m.toNat < 0xc0
  · rw [layout_fixstr (n := m.toNat - 0xa0) (by omega) (by omega)]
    exact .fixstr (by omega) (by omega)
  by_cases hbin : 0xc4 ≤ m.toNat ∧ m.toNat ≤ 0xc6
  · have hm : m.toNat = 0xc4 + (m.toNat - 0xc4) := by omega
    rw [layout_blob (by omega) (.inl hm)]
    exact .blob (by omega) (.inl hm)
  by_cases htext : 0xd9 ≤ m.toNat ∧ m.toNat ≤ 0xdb
  · have hm : m.toNat = 0xd9 + (m.toNat - 0xd9) := by omega
    rw [layout_blob (by omega) (.inr hm)]
    exact .blob (by omega) (.inr hm)
  by_cases hunsigned : 0xcc ≤ m.toNat ∧ m.toNat ≤ 0xcf
  · have hm : m.toNat = 0xcc + (m.toNat - 0xcc) := by omega
    rw [layout_integer (by omega) (.inl hm)]
    exact .integer (by omega) (.inl hm)
  by_cases hsigned : 0xd0 ≤ m.toNat ∧ m.toNat ≤ 0xd3
  · have hm : m.toNat = 0xd0 + (m.toNat - 0xd0) := by omega
    rw [layout_integer (by omega) (.inr hm)]
    exact .integer (by omega) (.inr hm)
  by_cases hlong : 0xdc ≤ m.toNat ∧ m.toNat ≤ 0xdd
  · have hm : m.toNat = 0xdc + (m.toNat - 0xdc) := by omega
    rw [layout_array (by omega) hm]
    exact .array (by omega) hm
  by_cases hwide : 0xde ≤ m.toNat ∧ m.toNat ≤ 0xdf
  · have hm : m.toNat = 0xde + (m.toNat - 0xde) := by omega
    rw [layout_map (by omega) hm]
    exact .map (by omega) hm
  by_cases hsingle : m.toNat = 0xca
  · rw [layout, hsingle]
    exact .float32 hsingle
  by_cases hdouble : m.toNat = 0xcb
  · rw [layout, hdouble]
    exact .float64 hdouble
  have hnone : layout m = none := by
    rw [layout]
    generalize m.toNat = b at *
    have hb : b = 0xc1 ∨ 0xc7 ≤ b ∧ b ≤ 0xc9 ∨ 0xd4 ≤ b ∧ b ≤ 0xd8 := by omega
    rcases hb with rfl | hb | hb
    · rfl
    · obtain ⟨hlo, hhi⟩ := hb
      interval_cases b <;> rfl
    · obtain ⟨hlo, hhi⟩ := hb
      interval_cases b <;> rfl
  rw [hnone]
  exact .other

theorem exists_inline {m : UInt8} {n : Nat} {body : Bytes} (h : layout m = some (.inline n))
    (hb : body.length = n) : ∃ t : Tree, t.isLeaf = true ∧ Encodes t (m :: body) := by
  have hc := marker_class m
  rw [h] at hc
  cases hc with
  | scalar hm =>
      obtain rfl := List.length_eq_zero_iff.mp hb
      rcases hm with hm | hm | hm | hm | hm
      · exact ⟨.int _, rfl, .int (.fix hm)⟩
      · exact ⟨.int _, rfl, .int (.negative hm)⟩
      · obtain rfl : m = 0xc0 := byte_ext hm
        exact ⟨.nil, rfl, .nil⟩
      · obtain rfl : m = 0xc2 := byte_ext hm
        exact ⟨.bool _, rfl, .no⟩
      · obtain rfl : m = 0xc3 := byte_ext hm
        exact ⟨.bool _, rfl, .yes⟩
  | fixstr hn hm => exact ⟨.str body, rfl, .str (.fix (by omega) (by omega))⟩
  | integer hk hm =>
      rcases hm with hm | hm
      · exact ⟨.int _, rfl, .int (.unsigned hk hm hb)⟩
      · exact ⟨.int _, rfl, .int (.signed hk hm hb)⟩
  | float32 hm =>
      obtain rfl : m = 0xca := byte_ext hm
      exact ⟨.float32 _, rfl, .float32 hb⟩
  | float64 hm =>
      obtain rfl : m = 0xcb := byte_ext hm
      exact ⟨.float64 _, rfl, .float64 hb⟩

theorem exists_sized {m : UInt8} {w : Nat} {size body : Bytes} (h : layout m = some (.sized w))
    (hs : size.length = w) (hb : body.length = ofBe size) :
    ∃ t : Tree, t.isLeaf = true ∧ Encodes t (m :: (size ++ body)) := by
  have hc := marker_class m
  rw [h] at hc
  cases hc with
  | blob hk hm =>
      rcases hm with hm | hm
      · exact ⟨.bin body, rfl, .bin (.mk hk hm hs hb)⟩
      · exact ⟨.str body, rfl, .str (.sized hk hm hs hb)⟩

theorem exists_labels {τ : Type} {P : τ → Bytes → Prop} {items : List Bytes}
    (h : ∀ item ∈ items, ∃ t, P t item) :
    ∃ xs : List (τ × Bytes), xs.map Prod.snd = items ∧ ∀ x ∈ xs, P x.1 x.2 := by
  induction items with
  | nil => exact ⟨[], rfl, nofun⟩
  | cons item items ih =>
      rw [List.forall_mem_cons] at h
      obtain ⟨t, ht⟩ := h.1
      obtain ⟨xs, rfl, hxs⟩ := ih h.2
      exact ⟨(t, item) :: xs, rfl, List.forall_mem_cons.mpr ⟨ht, hxs⟩⟩

theorem exists_interleave {n : Nat} {xs : List (Tree × Bytes)} (h : xs.length = 2 * n) :
    ∃ pairs : List ((Tree × Bytes) × (Tree × Bytes)), pairs.length = n ∧
      xs = pairs.flatMap fun pair => [pair.1, pair.2] := by
  induction n generalizing xs with
  | zero => exact ⟨[], rfl, List.length_eq_zero_iff.mp h⟩
  | succ n ih =>
      obtain ⟨x, y, xs, rfl⟩ : ∃ x y tail, xs = x :: y :: tail := by
        match xs, h with
        | x :: y :: tail, _ => exact ⟨x, y, tail, rfl⟩
      have hlen : xs.length = 2 * n := by
        simp only [List.length_cons] at h
        omega
      obtain ⟨pairs, hl, rfl⟩ := ih hlen
      exact ⟨(x, y) :: pairs, by rw [List.length_cons, hl], rfl⟩

section Trees

variable {items : List Bytes} {header : Bytes} (hd : depth ≤ limit)
  (h : ∀ item ∈ items, ∃ t, Encodes t item ∧ Within limit (depth + 1) t)
include hd h

theorem exists_array (hh : ArrayHeader header items.length) :
    ∃ ts, Encodes (.array ts) (header ++ items.flatten) ∧ Within limit depth (.array ts) := by
  obtain ⟨xs, rfl, hx⟩ := exists_labels h
  rw [List.length_map] at hh
  refine ⟨_, .array hh (fun x hm => (hx x hm).1), within_array.mpr ⟨hd, ?_⟩⟩
  intro t ht
  obtain ⟨x, hm, rfl⟩ := List.mem_map.mp ht
  exact (hx x hm).2

theorem exists_map {n : Nat} (hh : MapHeader header n) (hl : items.length = 2 * n) :
    ∃ t, Encodes t (header ++ items.flatten) ∧ Within limit depth t := by
  obtain ⟨xs, rfl, hx⟩ := exists_labels h
  rw [List.length_map] at hl
  obtain ⟨pairs, rfl, rfl⟩ := exists_interleave hl
  have hkey : ∀ pair ∈ pairs, Encodes pair.1.1 pair.1.2 ∧ Within limit (depth + 1) pair.1.1 :=
    fun pair hp => hx pair.1 (List.mem_flatMap.mpr ⟨pair, hp, by simp⟩)
  have hvalue : ∀ pair ∈ pairs, Encodes pair.2.1 pair.2.2 ∧ Within limit (depth + 1) pair.2.1 :=
    fun pair hp => hx pair.2 (List.mem_flatMap.mpr ⟨pair, hp, by simp⟩)
  have hflat : ((pairs.flatMap fun pair => [pair.1, pair.2]).map Prod.snd).flatten =
      (pairs.map fun pair => pair.1.2 ++ pair.2.2).flatten := by
    rw [flatten_interleave, List.map_flatMap]
    rfl
  rw [hflat]
  refine ⟨_, .map hh (fun pair hp => (hkey pair hp).1) (fun pair hp => (hvalue pair hp).1),
    within_map.mpr ⟨hd, ?_⟩⟩
  intro pair hp
  obtain ⟨pair, hm, rfl⟩ := List.mem_map.mp hp
  exact ⟨(hkey pair hm).2, (hvalue pair hm).2⟩

end Trees

/-- Every value within the limit is the encoding of a tree. -/
theorem exists_tree {enc : Bytes} (h : Value limit depth enc) :
    ∃ t, Encodes t enc ∧ Within limit depth t := by
  induction h with
  | inline hd hm hb =>
      obtain ⟨t, hl, ht⟩ := exists_inline hm hb
      exact ⟨t, ht, within_leaf hl hd⟩
  | sized hd hm hs hb =>
      obtain ⟨t, hl, ht⟩ := exists_sized hm hs hb
      exact ⟨t, ht, within_leaf hl hd⟩
  | @nested depth n m items hd hm hn _ ih =>
      have hc := marker_class m
      rw [messagePack_layout] at hm
      rw [hm] at hc
      cases hc with
      | fixarray hlt he =>
          have hh : ArrayHeader [m] items.length := by
            rw [hn]
            exact .fix hlt he
          obtain ⟨ts, ht⟩ := exists_array hd ih hh
          exact ⟨.array ts, ht⟩
      | fixmap hlt he =>
          have hh := MapHeader.fix hlt he
          exact exists_map hd ih hh hn
  | @counted depth w k m size items hd hm hs hn _ ih =>
      have hc := marker_class m
      rw [messagePack_layout] at hm
      rw [hm] at hc
      cases hc with
      | array hlt he =>
          have hh : ArrayHeader (m :: size) items.length := by
            rw [hn, Nat.one_mul]
            exact .counted hlt he hs
          obtain ⟨ts, ht⟩ := exists_array hd ih hh
          exact ⟨.array ts, ht⟩
      | map hlt he =>
          have hh := MapHeader.counted hlt he hs
          exact exists_map hd ih hh hn

theorem value_iff_tree {enc : Bytes} :
    Value limit depth enc ↔ ∃ t, Encodes t enc ∧ Within limit depth t := by
  constructor
  · exact exists_tree
  · rintro ⟨t, ht, hw⟩
    exact ht.value hw

/-- From pos to e stands the encoding of a tree, its root at the depth given,
none of whose nodes lies deeper than 8. -/
def Spells (data : Bytes) (pos depth e : Nat) : Prop :=
  pos ≤ e ∧ e ≤ data.length ∧ ∃ t, Encodes t (data.extract pos e) ∧ Within 8 depth t

variable {data : Bytes} {pos e : Nat}

theorem skipValue_eq_ok_iff_spells : skipValue data pos depth = .ok e ↔ Spells data pos depth e := by
  rw [skipValue_eq_ok]
  constructor
  · rintro ⟨enc, hp, hv, rfl⟩
    refine ⟨Nat.le_add_right _ _, prefix_end_of_ne_nil hp hv.ne_nil, ?_⟩
    rw [prefix_extract hp]
    exact value_iff_tree.mp hv
  · rintro ⟨hle, hlen, ht⟩
    obtain ⟨n, rfl⟩ := Nat.exists_eq_add_of_le hle
    refine ⟨data.extract pos (pos + n), extract_prefix_drop, value_iff_tree.mpr ht, ?_⟩
    rw [extract_length hlen, Nat.add_sub_cancel_left]

theorem Spells.unique {d e' : Nat} (h : Spells data pos depth e) (h' : Spells data pos d e') :
    e = e' := by
  obtain ⟨enc, ⟨r, hr⟩, hv, rfl⟩ := skipValue_eq_ok.mp (skipValue_eq_ok_iff_spells.mpr h)
  obtain ⟨enc', ⟨s, hs⟩, hv', rfl⟩ := skipValue_eq_ok.mp (skipValue_eq_ok_iff_spells.mpr h')
  rw [hv.unique hv' (hr.trans hs.symm)]

/-- Only the bytes of the value itself decide. -/
theorem Spells.elsewhere (h : Spells data pos depth e) (before after : Bytes) :
    Spells (before ++ (data.extract pos e ++ after)) before.length depth (before.length + (e - pos)) := by
  obtain ⟨hle, hlen, t, ht, hw⟩ := h
  have hl : (data.extract pos e).length = e - pos := extract_length hlen
  refine ⟨Nat.le_add_right _ _, ?_, t, ?_, hw⟩
  · simp only [List.length_append, hl]
    omega
  · have hx : (before ++ (data.extract pos e ++ after)).extract before.length
        (before.length + (e - pos)) = data.extract pos e := by
      rw [List.extract_eq_take_drop, List.drop_left, Nat.add_sub_cancel_left, ← hl, List.take_left]
    rw [hx]
    exact ht

theorem Spells.shallower (h : Spells data pos (depth + 1) e) : Spells data pos depth e := by
  obtain ⟨enc, hp, hv, he⟩ := skipValue_eq_ok.mp (skipValue_eq_ok_iff_spells.mpr h)
  exact skipValue_eq_ok_iff_spells.mp
    (skipValue_eq_ok.mpr ⟨enc, hp, hv.shallower (Nat.le_succ depth), he⟩)

/-- skip_value recognizes exactly the value trees of depth at most 8, by their
own bytes alone, and answers everything else with one error. -/
theorem skipValue_grammar (data : Bytes) (pos depth : Nat) :
    (∀ e, skipValue data pos depth = .ok e ↔ Spells data pos depth e) ∧
    (∀ e e', Spells data pos depth e → Spells data pos depth e' → e = e') ∧
    (∀ e before after, skipValue data pos depth = .ok e →
      skipValue (before ++ (data.extract pos e ++ after)) before.length depth =
        .ok (before.length + (e - pos))) ∧
    (∀ e, skipValue data pos (depth + 1) = .ok e → skipValue data pos depth = .ok e) ∧
    ((∀ e, ¬Spells data pos depth e) → skipValue data pos depth = fail .malformedPayload) := by
  refine ⟨fun e => skipValue_eq_ok_iff_spells, fun e e' h h' => h.unique h', ?_, ?_, ?_⟩
  · intro e before after h
    exact skipValue_eq_ok_iff_spells.mpr ((skipValue_eq_ok_iff_spells.mp h).elsewhere before after)
  · intro e h
    exact skipValue_eq_ok_iff_spells.mpr (skipValue_eq_ok_iff_spells.mp h).shallower
  · intro hno
    rcases malformed_skipValue data pos depth with ⟨e, he⟩ | hf
    · exact absurd (skipValue_eq_ok_iff_spells.mp he) (hno e)
    · exact hf

end LxmfLite.Grammar
