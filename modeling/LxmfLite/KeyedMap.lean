import LxmfLite.MessagePack

namespace LxmfLite.KeyedMap

open ByteString SelfDelimiting MessagePack

variable {limit depth : Nat} {bs : Bytes} {entries : List (Int × Bytes)}

inductive Entries (limit depth : Nat) : Bytes → List (Int × Bytes) → Prop
  | nil : Entries limit depth [] []
  | cons {key value rest : Bytes} {n : Int} {entries : List (Int × Bytes)} (hk : Integer key n)
      (hv : Value limit depth value) (hr : Entries limit depth rest entries) :
      Entries limit depth (key ++ (value ++ rest)) ((n, value) :: entries)

def keys (entries : List (Int × Bytes)) : List Int := entries.map Prod.fst

@[simp] theorem keys_nil : keys [] = [] := rfl

@[simp] theorem keys_cons (n : Int) (value : Bytes) :
    keys ((n, value) :: entries) = n :: keys entries := rfl

@[simp] theorem keys_append (more : List (Int × Bytes)) :
    keys (entries ++ more) = keys entries ++ keys more := List.map_append

/-- With distinct keys a lookup finds each entry, and nothing else. -/
theorem lookup_eq_some_iff_mem (hn : (keys entries).Nodup) {n : Int} {value : Bytes} :
    entries.lookup n = some value ↔ (n, value) ∈ entries := by
  induction entries with
  | nil => simp
  | cons entry entries ih =>
      obtain ⟨k, v⟩ := entry
      rw [keys_cons, List.nodup_cons] at hn
      rw [List.lookup_cons, List.mem_cons, Prod.mk.injEq]
      by_cases h : n = k
      · subst h
        have hfresh : (n, value) ∉ entries := fun hm => hn.1 (List.mem_map_of_mem hm)
        rw [beq_self_eq_true]
        simp [hfresh, eq_comm]
      · rw [beq_eq_false_iff_ne.mpr h]
        simp [h, ih hn.2]

theorem Entries.two_mul_length_le (h : Entries limit depth bs entries) :
    2 * entries.length ≤ bs.length := by
  induction h with
  | nil => exact Nat.le_refl 0
  | cons hk hv _ ih =>
      have hkey := List.length_pos_iff.mpr hk.ne_nil
      have hvalue := hv.length_pos
      simp only [List.length_append, List.length_cons]
      omega

theorem Entries.append {more : Bytes} {after : List (Int × Bytes)}
    (h : Entries limit depth bs entries) (h' : Entries limit depth more after) :
    Entries limit depth (bs ++ more) (entries ++ after) := by
  induction h with
  | nil => exact h'
  | cons hk hv _ ih =>
      rw [List.append_assoc, List.append_assoc, List.cons_append]
      exact .cons hk hv ih

theorem Entries.shallower (h : Entries limit depth bs entries) {d : Nat} (hd : d ≤ depth) :
    Entries limit d bs entries := by
  induction h with
  | nil => exact .nil
  | cons hk hv _ ih => exact .cons hk (hv.shallower hd) ih

/-- Keys and values of a run of entries are a run of twice as many values. -/
theorem Entries.items (h : Entries limit depth bs entries) :
    ∃ items : List Bytes, bs = items.flatten ∧ items.length = 2 * entries.length ∧
      ∀ item ∈ items, Value limit depth item := by
  induction h with
  | nil => exact ⟨[], rfl, rfl, nofun⟩
  | @cons key value _ _ _ hk hv _ ih =>
      obtain ⟨items, rfl, hl, hi⟩ := ih
      refine ⟨key :: value :: items, rfl, ?_, ?_⟩
      · simp only [List.length_cons, hl]
        omega
      · intro item hm
        rcases List.mem_cons.mp hm with rfl | hm
        · exact hk.value hv.depth_le
        · rcases List.mem_cons.mp hm with rfl | hm
          · exact hv
          · exact hi item hm

/-- Read as a run of values at another depth, a run of entries has its own
values at that depth. -/
theorem Entries.value_of_items {limit' depth' : Nat} (h : Entries limit' depth' bs entries)
    {items : List Bytes} (hb : bs = items.flatten) (hl : items.length = 2 * entries.length)
    (hi : ∀ item ∈ items, Value limit depth item) :
    ∀ entry ∈ entries, Value limit depth entry.2 := by
  induction h generalizing items with
  | nil => exact nofun
  | @cons key value rest n entries hk hv _ ih =>
      obtain ⟨a, b, items, rfl⟩ : ∃ a b tail, items = a :: b :: tail := by
        match items, hl with
        | a :: b :: tail, _ => exact ⟨a, b, tail, rfl⟩
      simp only [List.flatten_cons] at hb
      have ha : Value limit depth a := hi a (by simp)
      have hv' : Value limit depth b := hi b (by simp)
      obtain ⟨rfl, hrest⟩ := (hk.value (Nat.zero_le limit)).rest_unique ha hb
      obtain ⟨rfl, hitems⟩ := hv.rest_unique hv' hrest
      intro entry hm
      rcases List.mem_cons.mp hm with rfl | hm
      · exact hv'
      · refine ih hitems ?_ (fun item hitem => hi item (by simp [hitem])) entry hm
        simp only [List.length_cons] at hl
        omega

theorem MapHeader.ne_nil {header : Bytes} {n : Nat} (h : MapHeader header n) : header ≠ [] := by
  cases h <;> exact List.cons_ne_nil _ _

theorem MapHeader.marker {m : UInt8} {tail : Bytes} {n : Nat} (h : MapHeader (m :: tail) n) :
    MapMarker m := by
  rw [MapMarker]
  cases h <;> omega

theorem MapHeader.rest_unique {a b r s : Bytes} {n k : Nat} (ha : MapHeader a n)
    (hb : MapHeader b k) (h : a ++ r = b ++ s) : n = k ∧ a = b ∧ r = s :=
  Header.rest_unique (by decide) ha.header hb.header h

inductive Keyed (limit depth : Nat) : Bytes → List (Int × Bytes) → Prop
  | mk {header body : Bytes} {entries : List (Int × Bytes)}
      (hh : MapHeader header entries.length) (he : Entries limit depth body entries)
      (hn : (keys entries).Nodup) : Keyed limit depth (header ++ body) entries

theorem Keyed.shallower (h : Keyed limit depth bs entries) {d : Nat} (hd : d ≤ depth) :
    Keyed limit d bs entries := by
  obtain ⟨hh, he, hn⟩ := h
  exact ⟨hh, he.shallower hd, hn⟩

/-- How deep a map nests is how deep its values do. -/
theorem Keyed.value_iff {limit' depth' : Nat} (h : Keyed limit' depth' bs entries) :
    Value limit depth bs ↔ depth ≤ limit ∧ ∀ entry ∈ entries, Value limit (depth + 1) entry.2 := by
  obtain @⟨header, body, entries, hh, he, hn⟩ := h
  obtain ⟨m, tail, rfl⟩ := List.exists_cons_of_ne_nil (MapHeader.ne_nil hh)
  rw [List.cons_append, map_value_iff (MapHeader.marker hh)]
  apply and_congr_right
  intro hd
  constructor
  · rintro ⟨header', n, items, hh', hb, hl, hi⟩
    obtain ⟨rfl, -, hb⟩ := MapHeader.rest_unique hh hh' hb
    exact he.value_of_items hb hl hi
  · intro hv
    have he' : Entries limit (depth + 1) body entries := by
      clear hn hh
      induction he with
      | nil => exact .nil
      | cons hk _ _ ih =>
          rw [List.forall_mem_cons] at hv
          exact .cons hk hv.1 (ih hv.2)
    obtain ⟨items, hb, hl, hi⟩ := he'.items
    exact ⟨m :: tail, _, items, hh, by rw [hb, List.cons_append], hl, hi⟩

end LxmfLite.KeyedMap
