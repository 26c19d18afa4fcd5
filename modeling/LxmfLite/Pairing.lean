import LxmfLite.KeyedMap

namespace LxmfLite.Pairing

open ByteString SelfDelimiting MessagePack KeyedMap

variable {κ : Type} {K : Bytes → κ → Prop} {V : Bytes → Prop} {most : Nat}

/-- One pair of a map as it stands in the bytes: its key, in a language K that
gives the key a meaning, and its value, in a language V. -/
structure Pair (K : Bytes → κ → Prop) (V : Bytes → Prop) where
  key : Bytes
  id : κ
  value : Bytes
  isKey : K key id
  isValue : V value

def Pair.bytes (p : Pair K V) : Bytes := p.key ++ p.value

theorem Pair.ext {p q : Pair K V} (hk : p.key = q.key) (hi : p.id = q.id) (hv : p.value = q.value) :
    p = q := by
  cases p
  cases q
  cases hk
  cases hi
  cases hv
  rfl

def bytesOf (pairs : List (Pair K V)) : Bytes := (pairs.map Pair.bytes).flatten

@[simp] theorem bytesOf_nil : bytesOf ([] : List (Pair K V)) = [] := rfl

theorem bytesOf_cons (p : Pair K V) (pairs : List (Pair K V)) :
    bytesOf (p :: pairs) = p.key ++ (p.value ++ bytesOf pairs) := by
  rw [bytesOf, List.map_cons, List.flatten_cons, Pair.bytes, List.append_assoc, bytesOf]

theorem bytesOf_append (ps qs : List (Pair K V)) : bytesOf (ps ++ qs) = bytesOf ps ++ bytesOf qs := by
  rw [bytesOf, List.map_append, List.flatten_append, bytesOf, bytesOf]

/-- A map of at most so many pairs, its keys distinct in meaning. -/
structure PairMap (K : Bytes → κ → Prop) (V : Bytes → Prop) (most : Nat) where
  header : Bytes
  pairs : List (Pair K V)
  counted : MapHeader header pairs.length
  atMost : pairs.length ≤ most
  distinct : (pairs.map Pair.id).Nodup

def PairMap.bytes (m : PairMap K V most) : Bytes := m.header ++ bytesOf m.pairs

theorem PairMap.ext {m m' : PairMap K V most} (hh : m.header = m'.header) (hp : m.pairs = m'.pairs) :
    m = m' := by
  cases m
  cases m'
  cases hh
  cases hp
  rfl

def PairMap.start (m : PairMap K V most) (i : Nat) : Nat :=
  m.header.length + (bytesOf (m.pairs.take i)).length

theorem PairMap.start_end (m : PairMap K V most) : m.start m.pairs.length = m.bytes.length := by
  rw [start, List.take_length, bytes, List.length_append]

/-- A language in which a string starts with at most one word, of one meaning. -/
def Readable (K : Bytes → κ → Prop) : Prop :=
  ∀ a b n k r s, K a n → K b k → a ++ r = b ++ s → a = b ∧ n = k ∧ r = s

section Unique

variable (hK : Readable K) (hV : ∀ a b r s, V a → V b → a ++ r = b ++ s → a = b ∧ r = s)
include hK hV

theorem pairs_unique {ps qs : List (Pair K V)} (hl : ps.length = qs.length) {r s : Bytes}
    (h : bytesOf ps ++ r = bytesOf qs ++ s) : ps = qs ∧ r = s := by
  induction ps generalizing qs with
  | nil =>
      obtain rfl := List.length_eq_zero_iff.mp hl.symm
      exact ⟨rfl, h⟩
  | cons p ps ih =>
      cases qs with
      | nil => exact absurd hl (by simp)
      | cons q qs =>
          simp only [bytesOf_cons, List.append_assoc] at h
          obtain ⟨hkey, hid, hrest⟩ := hK _ _ _ _ _ _ p.isKey q.isKey h
          obtain ⟨hvalue, hrest⟩ := hV _ _ _ _ p.isValue q.isValue hrest
          obtain ⟨rfl, hr⟩ := ih (Nat.succ.inj hl) hrest
          exact ⟨by rw [Pair.ext hkey hid hvalue], hr⟩

/-- No two maps start one string. -/
theorem PairMap.unique {m m' : PairMap K V most} {r s : Bytes} (h : m.bytes ++ r = m'.bytes ++ s) :
    m = m' ∧ r = s := by
  simp only [bytes, List.append_assoc] at h
  obtain ⟨hl, hh, hrest⟩ := MapHeader.rest_unique m.counted m'.counted h
  obtain ⟨hp, hr⟩ := pairs_unique hK hV hl hrest
  exact ⟨PairMap.ext hh hp, hr⟩

end Unique

theorem PairMap.split (m : PairMap K V most) {i : Nat} {p : Pair K V} (h : m.pairs[i]? = some p) :
    m.bytes = (m.header ++ bytesOf (m.pairs.take i)) ++ (p.key ++ (p.value ++
      bytesOf (m.pairs.drop (i + 1)))) := by
  obtain ⟨hi, rfl⟩ := List.getElem?_eq_some_iff.mp h
  have hs : m.pairs = m.pairs.take i ++ m.pairs[i] :: m.pairs.drop (i + 1) := by
    rw [List.getElem_cons_drop, List.take_append_drop]
  rw [bytes, List.append_assoc, ← bytesOf_cons, ← bytesOf_append, ← hs]

theorem PairMap.start_succ (m : PairMap K V most) {i : Nat} {p : Pair K V}
    (h : m.pairs[i]? = some p) : m.start (i + 1) = m.start i + p.key.length + p.value.length := by
  obtain ⟨hi, rfl⟩ := List.getElem?_eq_some_iff.mp h
  rw [start, start, List.take_succ_eq_append_getElem hi, bytesOf_append, bytesOf_cons]
  simp only [List.length_append, bytesOf_nil, List.append_nil]
  omega

theorem PairMap.drop_start (m : PairMap K V most) {i : Nat} {p : Pair K V}
    (h : m.pairs[i]? = some p) :
    m.bytes.drop (m.start i) = p.key ++ (p.value ++ bytesOf (m.pairs.drop (i + 1))) := by
  rw [m.split h, start, ← List.length_append, List.drop_left]

theorem PairMap.drop_value (m : PairMap K V most) {i : Nat} {p : Pair K V}
    (h : m.pairs[i]? = some p) :
    m.bytes.drop (m.start i + p.key.length) = p.value ++ bytesOf (m.pairs.drop (i + 1)) := by
  rw [← List.drop_drop, m.drop_start h, List.drop_left]

end LxmfLite.Pairing
