import Mathlib.Data.List.Induction
import Mathlib.Data.List.TakeDrop
import Mathlib.Tactic.IntervalCases
import Mathlib.Tactic.Ring

namespace LxmfLite.ByteString

abbrev Bytes := List UInt8

abbrev Block (n : Nat) := {bytes : Bytes // bytes.length = n}

def ofBe (bs : Bytes) : Nat := bs.foldl (fun v b => v * 256 + b.toNat) 0

def toBe : Nat → Nat → Bytes
  | 0, _ => []
  | width + 1, n => toBe width (n / 256) ++ [UInt8.ofNat n]

theorem toNat_lt (b : UInt8) : b.toNat < 256 := UInt8.toNat_lt b

theorem toNat_ofNat_of_lt {n : Nat} (h : n < 256) : (UInt8.ofNat n).toNat = n := by
  rw [UInt8.toNat_ofNat', Nat.mod_eq_of_lt h]

theorem byte_ext {a b : UInt8} (h : a.toNat = b.toNat) : a = b := UInt8.toNat_inj.mp h

@[simp] theorem ofBe_nil : ofBe [] = 0 := rfl

@[simp] theorem ofBe_append_singleton (bs : Bytes) (b : UInt8) :
    ofBe (bs ++ [b]) = ofBe bs * 256 + b.toNat := by
  simp [ofBe, List.foldl_append]

@[simp] theorem ofBe_singleton (b : UInt8) : ofBe [b] = b.toNat := by
  simp [ofBe]

theorem foldl_digits (bs : Bytes) (seed : Int) :
    bs.foldl (fun v b => v * 256 + (b.toNat : Int)) seed = seed * 256 ^ bs.length + ofBe bs := by
  induction bs using List.reverseRecOn with
  | nil => simp
  | append_singleton bs b ih =>
      rw [List.foldl_append, ih, ofBe_append_singleton, List.length_append]
      simp only [List.foldl_cons, List.foldl_nil, List.length_cons, List.length_nil]
      push_cast
      ring

theorem ofBe_cons (b : UInt8) (bs : Bytes) :
    ofBe (b :: bs) = b.toNat * 256 ^ bs.length + ofBe bs := by
  have h := foldl_digits (b :: bs) 0
  rw [List.foldl_cons, foldl_digits] at h
  have hc : (ofBe (b :: bs) : Int) = b.toNat * 256 ^ bs.length + ofBe bs := by
    rw [Int.zero_mul, Int.zero_mul, Int.zero_add, Int.zero_add] at h
    exact h.symm
  exact_mod_cast hc

@[simp] theorem toBe_length (width n : Nat) : (toBe width n).length = width := by
  induction width generalizing n with
  | zero => rfl
  | succ width ih => simp [toBe, ih]

theorem ofBe_toBe (width n : Nat) : ofBe (toBe width n) = n % 256 ^ width := by
  induction width generalizing n with
  | zero => simp [toBe, Nat.mod_one]
  | succ width ih =>
      have hsplit : n % 256 ^ (width + 1) = n % 256 + 256 * (n / 256 % 256 ^ width) := by
        rw [Nat.pow_succ', Nat.mod_mul]
      rw [toBe, ofBe_append_singleton, ih, UInt8.toNat_ofNat', hsplit]
      omega

theorem ofBe_toBe_of_lt {width n : Nat} (h : n < 256 ^ width) :
    ofBe (toBe width n) = n := by
  rw [ofBe_toBe, Nat.mod_eq_of_lt h]

theorem ofBe_lt (bs : Bytes) : ofBe bs < 256 ^ bs.length := by
  induction bs using List.reverseRecOn with
  | nil => simp
  | append_singleton bs b ih =>
      have hb := toNat_lt b
      rw [ofBe_append_singleton, List.length_append, List.length_singleton, Nat.pow_succ]
      omega

theorem toBe_ofBe (bs : Bytes) : toBe bs.length (ofBe bs) = bs := by
  induction bs using List.reverseRecOn with
  | nil => rfl
  | append_singleton bs b ih =>
      have hb := toNat_lt b
      have hdiv : (ofBe bs * 256 + b.toNat) / 256 = ofBe bs := by omega
      have hmod : UInt8.ofNat (ofBe bs * 256 + b.toNat) = b := by
        apply byte_ext
        rw [UInt8.toNat_ofNat']
        omega
      rw [List.length_append, List.length_singleton, toBe, ofBe_append_singleton,
        hdiv, hmod, ih]

section Prefix

variable {data a b enc : Bytes} {pos : Nat}

theorem prefix_append_iff :
    a ++ b <+: data.drop pos ↔ a <+: data.drop pos ∧ b <+: data.drop (pos + a.length) := by
  constructor
  · rintro ⟨rest, h⟩
    rw [List.append_assoc] at h
    refine ⟨⟨_, h⟩, rest, ?_⟩
    rw [← List.drop_drop, ← h, List.drop_left]
  · rintro ⟨⟨rest, h⟩, rest', h'⟩
    refine ⟨rest', ?_⟩
    rw [← List.drop_drop, ← h, List.drop_left] at h'
    rw [List.append_assoc, h', h]

theorem prefix_cons_iff {m : UInt8} {tail : Bytes} :
    m :: tail <+: data.drop pos ↔ data[pos]? = some m ∧ tail <+: data.drop (pos + 1) := by
  have h : [m] <+: data.drop pos ↔ data[pos]? = some m := by
    by_cases hp : pos < data.length
    · rw [List.drop_eq_getElem_cons hp, List.cons_prefix_cons, List.getElem?_eq_getElem hp]
      simp [eq_comm]
    · rw [List.drop_of_length_le (by omega), List.getElem?_eq_none (by omega)]
      simp
  rw [← List.singleton_append, prefix_append_iff, h, List.length_singleton]

theorem getElem?_of_drop {m : UInt8} {tail : Bytes} (h : data.drop pos = m :: tail) :
    data[pos]? = some m := by
  have hp : m :: tail <+: data.drop pos := ⟨[], by rw [List.append_nil, h]⟩
  exact (prefix_cons_iff.mp hp).1

theorem marker_at {m : UInt8} (hm : data[pos]? = some m) (hp : enc <+: data.drop pos) (hne : enc ≠ []) :
    ∃ tail, enc = m :: tail ∧ tail <+: data.drop (pos + 1) := by
  obtain ⟨m', tail, rfl⟩ := List.exists_cons_of_ne_nil hne
  rw [prefix_cons_iff, hm, Option.some.injEq] at hp
  obtain ⟨rfl, ht⟩ := hp
  exact ⟨tail, rfl, ht⟩

theorem prefix_past (hm : data[pos]? = none) (hp : enc <+: data.drop pos) : enc = [] := by
  rw [List.drop_of_length_le (List.getElem?_eq_none_iff.mp hm)] at hp
  exact List.prefix_nil.mp hp

theorem prefix_marker {m : UInt8} {tail : Bytes} (hp : enc <+: m :: tail) (hne : enc ≠ []) :
    ∃ body, enc = m :: body ∧ body <+: tail := by
  obtain ⟨m', body, rfl⟩ := List.exists_cons_of_ne_nil hne
  obtain ⟨rfl, hb⟩ := List.cons_prefix_cons.mp hp
  exact ⟨body, rfl, hb⟩

theorem prefix_end (h : enc <+: data.drop pos) (hp : pos ≤ data.length) :
    pos + enc.length ≤ data.length := by
  have := h.length_le
  rw [List.length_drop] at this
  omega

theorem prefix_end_of_ne_nil (h : enc <+: data.drop pos) (hne : enc ≠ []) :
    pos + enc.length ≤ data.length := by
  have hl := List.length_pos_iff.mpr hne
  have := h.length_le
  rw [List.length_drop] at this
  omega

theorem prefix_extract (h : enc <+: data.drop pos) :
    data.extract pos (pos + enc.length) = enc := by
  obtain ⟨rest, h⟩ := h
  rw [List.extract_eq_take_drop, ← h, List.take_left' (by omega)]

theorem extract_prefix_drop {n : Nat} : data.extract pos (pos + n) <+: data.drop pos := by
  rw [List.extract_eq_take_drop]
  exact List.take_prefix _ _

theorem extract_length {i j : Nat} (hj : j ≤ data.length) :
    (data.extract i j).length = j - i := by
  rw [List.extract_eq_take_drop, List.length_take, List.length_drop]
  omega

end Prefix

/-- The buffer after writing src at the given offset; nothing else moves. -/
def overwrite (buf : Bytes) (offset : Nat) (src : Bytes) : Bytes :=
  buf.take offset ++ src ++ buf.drop (offset + src.length)

theorem overwrite_length {buf src : Bytes} {offset : Nat} (h : offset + src.length ≤ buf.length) :
    (overwrite buf offset src).length = buf.length := by
  simp only [overwrite, List.length_append, List.length_take, List.length_drop]
  omega

theorem overwrite_take {buf : Bytes} (src : Bytes) {offset : Nat} (h : offset ≤ buf.length) :
    (overwrite buf offset src).take offset = buf.take offset := by
  rw [overwrite, List.append_assoc, List.take_left' (by simp [h])]

theorem overwrite_take_end {buf : Bytes} (src : Bytes) {offset : Nat} (h : offset ≤ buf.length) :
    (overwrite buf offset src).take (offset + src.length) = buf.take offset ++ src := by
  rw [overwrite, List.take_left' (by simp [h])]

theorem overwrite_drop_end {buf : Bytes} (src : Bytes) {offset : Nat} (h : offset ≤ buf.length) :
    (overwrite buf offset src).drop (offset + src.length) = buf.drop (offset + src.length) := by
  rw [overwrite, List.drop_left' (by simp [h])]

theorem overwrite_outside {buf src : Bytes} {offset i : Nat} (h : offset + src.length ≤ buf.length)
    (hout : i < offset ∨ offset + src.length ≤ i) : (overwrite buf offset src)[i]? = buf[i]? := by
  have hoffset : offset ≤ buf.length := by omega
  rcases hout with hout | hout
  · rw [← List.getElem?_take_of_lt hout, overwrite_take src hoffset, List.getElem?_take_of_lt hout]
  · have hdrop := congrArg (fun l => l[i - (offset + src.length)]?) (overwrite_drop_end src hoffset)
    simp only [List.getElem?_drop, Nat.add_sub_cancel' hout] at hdrop
    exact hdrop

theorem overwrite_start (buf src : Bytes) : (overwrite buf 0 src).take src.length = src := by
  have h := overwrite_take_end src (Nat.zero_le buf.length)
  rwa [Nat.zero_add, List.take_zero, List.nil_append] at h

theorem overwrite_extract {buf : Bytes} (src : Bytes) {offset : Nat} (h : offset ≤ buf.length) :
    (overwrite buf offset src).extract offset (offset + src.length) = src := by
  rw [overwrite, List.append_assoc, List.extract_eq_take_drop, List.drop_left' (by simp [h]),
    List.take_left' (by omega)]

theorem overwrite_extract_inside {buf src : Bytes} {offset k n : Nat} (h : offset ≤ buf.length)
    (hn : k + n ≤ src.length) : (overwrite buf offset src).extract (offset + k) (offset + k + n) =
      src.extract k (k + n) := by
  have hdrop : (overwrite buf offset src).drop offset = src ++ buf.drop (offset + src.length) := by
    rw [overwrite, List.append_assoc, List.drop_left' (by simp [h])]
  rw [List.extract_eq_take_drop, List.extract_eq_take_drop, ← List.drop_drop, hdrop,
    List.drop_append_of_le_length (by omega), Nat.add_sub_cancel_left, Nat.add_sub_cancel_left,
    List.take_append_of_le_length (by rw [List.length_drop]; omega)]

theorem overwrite_overwrite {buf a : Bytes} (b : Bytes) {offset : Nat}
    (h : offset + a.length ≤ buf.length) :
    overwrite (overwrite buf offset a) (offset + a.length) b = overwrite buf offset (a ++ b) := by
  have hdrop : (overwrite buf offset a).drop (offset + a.length + b.length) =
      buf.drop (offset + (a ++ b).length) := by
    rw [← List.drop_drop, overwrite_drop_end _ (by omega), List.drop_drop, List.length_append]
    congr 1
    omega
  rw [overwrite, overwrite_take_end _ (by omega), hdrop, overwrite]
  simp only [List.append_assoc]

theorem overwrite_inside {buf a b c : Bytes} (b' : Bytes) {offset : Nat}
    (h : offset + (a ++ (b ++ c)).length ≤ buf.length) (hb : b'.length = b.length) :
    overwrite (overwrite buf offset (a ++ (b ++ c))) (offset + a.length) b' =
      overwrite buf offset (a ++ (b' ++ c)) := by
  have hlen : offset ≤ buf.length := by omega
  have hsplit : overwrite buf offset (a ++ (b ++ c)) =
      (buf.take offset ++ a) ++ (b ++ (c ++ buf.drop (offset + (a ++ (b ++ c)).length))) := by
    simp only [overwrite, List.append_assoc]
  have hpos : (buf.take offset ++ a).length = offset + a.length := by
    rw [List.length_append, List.length_take_of_le hlen]
  rw [hsplit, overwrite, ← hpos, List.take_left, ← List.drop_drop, List.drop_left, hb, List.drop_left,
    overwrite]
  simp only [List.append_assoc, List.length_append, hb]

theorem overwrite_before {buf a b : Bytes} {offset : Nat}
    (h : offset + a.length + b.length ≤ buf.length) :
    overwrite (overwrite buf (offset + a.length) b) offset a = overwrite buf offset (a ++ b) := by
  have htake : (overwrite buf (offset + a.length) b).take offset = buf.take offset := by
    have htwo (bs : Bytes) : (bs.take (offset + a.length)).take offset = bs.take offset := by
      rw [List.take_take, Nat.min_eq_left (Nat.le_add_right _ _)]
    rw [← htwo, overwrite_take _ (by omega), htwo]
  have hdrop : (overwrite buf (offset + a.length) b).drop (offset + a.length) =
      b ++ buf.drop (offset + a.length + b.length) := by
    rw [overwrite, List.append_assoc,
      List.drop_left' (List.length_take_of_le (show offset + a.length ≤ buf.length by omega))]
  rw [overwrite, htake, hdrop, overwrite, List.length_append, ← Nat.add_assoc]
  simp only [List.append_assoc]

theorem overwrite_piece {buf src : Bytes} {i j : Nat} (hi : i + src.length ≤ j)
    (hj : j ≤ buf.length) : overwrite buf i (overwrite (buf.extract i j) 0 src) = overwrite buf i src := by
  have hpiece : overwrite (buf.extract i j) 0 src =
      src ++ (buf.drop (i + src.length)).take (j - (i + src.length)) := by
    rw [overwrite, List.take_zero, List.nil_append, Nat.zero_add, List.extract_eq_take_drop,
      List.drop_take, List.drop_drop, Nat.sub_sub]
  have hlen : (src ++ (buf.drop (i + src.length)).take (j - (i + src.length))).length = j - i := by
    rw [List.length_append, List.length_take_of_le (by rw [List.length_drop]; omega)]
    omega
  have hrest : (buf.drop (i + src.length)).take (j - (i + src.length)) ++ buf.drop j =
      buf.drop (i + src.length) := by
    have hj' : buf.drop j = (buf.drop (i + src.length)).drop (j - (i + src.length)) := by
      rw [List.drop_drop, Nat.add_sub_cancel' hi]
    rw [hj', List.take_append_drop]
  rw [hpiece, overwrite, hlen, Nat.add_sub_cancel' (by omega), overwrite]
  simp only [List.append_assoc, hrest]

theorem overwrite_nil (buf : Bytes) (offset : Nat) : overwrite buf offset [] = buf := by
  simp [overwrite]

section Shortest

variable {α : Type} {Encodes : Bytes → α → Prop} {enc canon : Bytes} {a : α}

def Shortest (Encodes : Bytes → α → Prop) (enc : Bytes) (a : α) : Prop :=
  Encodes enc a ∧ ∀ other, Encodes other a → enc.length ≤ other.length

/-- An encoding that every other one of its length or less equals is the
shortest, and the only one. -/
theorem shortest_iff (h : Encodes canon a) (hmin : ∀ other, Encodes other a → canon.length ≤ other.length)
    (huniq : ∀ other, Encodes other a → other.length ≤ canon.length → other = canon) :
    Shortest Encodes enc a ↔ enc = canon := by
  constructor
  · rintro ⟨henc, hle⟩
    exact huniq enc henc (hle canon h)
  · rintro rfl
    exact ⟨h, hmin⟩

end Shortest

end LxmfLite.ByteString
