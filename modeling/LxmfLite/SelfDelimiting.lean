import Mathlib.Data.List.Basic
import Mathlib.Tactic.Common

namespace LxmfLite.SelfDelimiting

variable {α : Type}

/-- What the marker of a value announces about the symbols behind it. The
lengths of sized and counted are themselves written in width symbols. -/
inductive Layout
  | inline (symbols : Nat)
  | sized (width : Nat)
  | nested (values : Nat)
  | counted (width perCount : Nat)
  deriving DecidableEq

structure Format (α : Type) where
  layout : α → Option Layout
  number : List α → Nat

/-- The strings that spell one value whose root lies at the given depth and
none of whose nodes lies deeper than the limit. -/
inductive Encoded (F : Format α) (limit : Nat) : Nat → List α → Prop
  | inline {depth n} {m} {body : List α} (hd : depth ≤ limit)
      (hm : F.layout m = some (.inline n)) (hb : body.length = n) :
      Encoded F limit depth (m :: body)
  | sized {depth w} {m} {size body : List α} (hd : depth ≤ limit)
      (hm : F.layout m = some (.sized w)) (hs : size.length = w)
      (hb : body.length = F.number size) : Encoded F limit depth (m :: (size ++ body))
  | nested {depth n} {m} {items : List (List α)} (hd : depth ≤ limit)
      (hm : F.layout m = some (.nested n)) (hn : items.length = n)
      (hi : ∀ item ∈ items, Encoded F limit (depth + 1) item) :
      Encoded F limit depth (m :: items.flatten)
  | counted {depth w k} {m} {size : List α} {items : List (List α)} (hd : depth ≤ limit)
      (hm : F.layout m = some (.counted w k)) (hs : size.length = w)
      (hn : items.length = k * F.number size)
      (hi : ∀ item ∈ items, Encoded F limit (depth + 1) item) :
      Encoded F limit depth (m :: (size ++ items.flatten))

variable {F : Format α} {limit depth : Nat} {bs : List α}

theorem Encoded.depth_le (h : Encoded F limit depth bs) : depth ≤ limit := by
  cases h <;> assumption

theorem Encoded.ne_nil (h : Encoded F limit depth bs) : bs ≠ [] := by
  cases h <;> exact List.cons_ne_nil _ _

theorem Encoded.length_pos (h : Encoded F limit depth bs) : 0 < bs.length :=
  List.length_pos_iff.mpr h.ne_nil

/-- A value stays readable when its root moves closer to the surface. -/
theorem Encoded.shallower (h : Encoded F limit depth bs) {d : Nat} (hd : d ≤ depth) :
    Encoded F limit d bs := by
  induction h generalizing d with
  | inline hl hm hb => exact .inline (Nat.le_trans hd hl) hm hb
  | sized hl hm hs hb => exact .sized (Nat.le_trans hd hl) hm hs hb
  | nested hl hm hn _ ih =>
      exact .nested (Nat.le_trans hd hl) hm hn (fun item hi => ih item hi (Nat.succ_le_succ hd))
  | counted hl hm hs hn _ ih =>
      exact .counted (Nat.le_trans hd hl) hm hs hn (fun item hi => ih item hi (Nat.succ_le_succ hd))

def Follows (F : Format α) (limit depth : Nat) : Option Layout → List α → Prop
  | none, _ => False
  | some (.inline n), tail => tail.length = n
  | some (.sized w), tail => ∃ size body, tail = size ++ body ∧ size.length = w ∧
      body.length = F.number size
  | some (.nested n), tail => ∃ items : List (List α), tail = items.flatten ∧ items.length = n ∧
      ∀ item ∈ items, Encoded F limit (depth + 1) item
  | some (.counted w k), tail => ∃ (size : List α) (items : List (List α)),
      tail = size ++ items.flatten ∧ size.length = w ∧ items.length = k * F.number size ∧
      ∀ item ∈ items, Encoded F limit (depth + 1) item

theorem encoded_cons_iff {m : α} {tail : List α} :
    Encoded F limit depth (m :: tail) ↔ depth ≤ limit ∧ Follows F limit depth (F.layout m) tail := by
  constructor
  · intro h
    refine ⟨h.depth_le, ?_⟩
    cases h with
    | inline _ hm hb => simpa only [hm, Follows] using hb
    | sized _ hm hs hb => simpa only [hm] using ⟨_, _, rfl, hs, hb⟩
    | nested _ hm hn hi => simpa only [hm] using ⟨_, rfl, hn, hi⟩
    | counted _ hm hs hn hi => simpa only [hm] using ⟨_, _, rfl, hs, hn, hi⟩
  · rintro ⟨hd, h⟩
    cases hm : F.layout m with
    | none => simp only [hm, Follows] at h
    | some l =>
        simp only [hm] at h
        cases l with
        | inline n => exact .inline hd hm h
        | sized w =>
            obtain ⟨size, body, rfl, hs, hb⟩ := h
            exact .sized hd hm hs hb
        | nested n =>
            obtain ⟨items, rfl, hn, hi⟩ := h
            exact .nested hd hm hn hi
        | counted w k =>
            obtain ⟨size, items, rfl, hs, hn, hi⟩ := h
            exact .counted hd hm hs hn hi

/-- A run of values splits in one way once it is known how many there are.
The first hypothesis is unique readability of the values of the left run. -/
theorem flatten_unique {P : List α → Prop} {xs ys : List (List α)} {r s : List α}
    (hx : ∀ x ∈ xs, ∀ y r s, P y → x ++ r = y ++ s → x = y) (hy : ∀ y ∈ ys, P y)
    (hl : xs.length = ys.length) (h : xs.flatten ++ r = ys.flatten ++ s) : xs = ys := by
  induction xs generalizing ys with
  | nil => exact (List.length_eq_zero_iff.mp hl.symm).symm
  | cons x xs ih =>
      cases ys with
      | nil => simp at hl
      | cons y ys =>
          simp only [List.flatten_cons, List.append_assoc] at h
          have he : x = y := hx x (by simp) y _ _ (hy y (by simp)) h
          subst he
          rw [ih (fun z hz => hx z (by simp [hz])) (fun z hz => hy z (by simp [hz]))
            (by simpa using hl) (List.append_cancel_left h)]

theorem Encoded.cons_of_append {m : α} {tail b r s : List α} (hb : Encoded F limit depth b)
    (h : m :: tail ++ r = b ++ s) :
    ∃ rest, b = m :: rest ∧ tail ++ r = rest ++ s ∧ Follows F limit depth (F.layout m) rest := by
  obtain ⟨m', rest, rfl⟩ := List.exists_cons_of_ne_nil hb.ne_nil
  simp only [List.cons_append, List.cons.injEq] at h
  obtain ⟨rfl, ht⟩ := h
  exact ⟨rest, rfl, ht, (encoded_cons_iff.mp hb).2⟩

/-- Unique readability: of two values that start one string, neither is a
proper prefix of the other, whatever depth and limit each was read at. -/
theorem Encoded.unique {limit' depth' : Nat} {a b r s : List α} (ha : Encoded F limit depth a)
    (hb : Encoded F limit' depth' b) (h : a ++ r = b ++ s) : a = b := by
  induction ha generalizing limit' depth' b r s with
  | inline _ hm hl =>
      obtain ⟨rest, rfl, ht, hf⟩ := hb.cons_of_append h
      rw [hm] at hf
      rw [(List.append_inj ht (hl.trans hf.symm)).1]
  | sized _ hm hs hl =>
      obtain ⟨rest, rfl, ht, hf⟩ := hb.cons_of_append h
      rw [hm] at hf
      obtain ⟨size, body, rfl, hs', hl'⟩ := hf
      simp only [List.append_assoc] at ht
      obtain ⟨rfl, hr⟩ := List.append_inj ht (hs.trans hs'.symm)
      rw [(List.append_inj hr (hl.trans hl'.symm)).1]
  | nested _ hm hn _ ih =>
      obtain ⟨rest, rfl, ht, hf⟩ := hb.cons_of_append h
      rw [hm] at hf
      obtain ⟨items, rfl, hn', hi⟩ := hf
      rw [flatten_unique (fun x hx y r s hy h => ih x hx hy h) hi (hn.trans hn'.symm) ht]
  | counted _ hm hs hn _ ih =>
      obtain ⟨rest, rfl, ht, hf⟩ := hb.cons_of_append h
      rw [hm] at hf
      obtain ⟨size, items, rfl, hs', hn', hi⟩ := hf
      simp only [List.append_assoc] at ht
      obtain ⟨rfl, hr⟩ := List.append_inj ht (hs.trans hs'.symm)
      rw [flatten_unique (fun x hx y r s hy h => ih x hx hy h) hi (hn.trans hn'.symm) hr]

theorem Encoded.rest_unique {limit' depth' : Nat} {a b r s : List α}
    (ha : Encoded F limit depth a) (hb : Encoded F limit' depth' b) (h : a ++ r = b ++ s) :
    a = b ∧ r = s := by
  have he := ha.unique hb h
  subst he
  exact ⟨rfl, List.append_cancel_left h⟩

def PrefixFree (L : List α → Prop) : Prop := ∀ a b, L a → L b → a <+: b → a = b

section Cuts

variable {L : List α → Prop} (h : PrefixFree L) {word : List α} (hw : L word)
include h hw

theorem PrefixFree.not_take {n : Nat} (hn : n < word.length) : ¬L (word.take n) := by
  intro ht
  have he := h _ _ ht hw (List.take_prefix n word)
  have hl := congrArg List.length he
  rw [List.length_take_of_le (Nat.le_of_lt hn)] at hl
  exact absurd hl (Nat.ne_of_lt hn)

theorem PrefixFree.not_append {suffix : List α} (hs : suffix ≠ []) : ¬L (word ++ suffix) := by
  intro ha
  have he := h _ _ hw ha (List.prefix_append word suffix)
  exact hs (List.append_right_eq_self.mp he.symm)

end Cuts

theorem prefixFree_encoded : PrefixFree (Encoded F limit depth) := by
  rintro a b ha hb ⟨r, hr⟩
  refine ha.unique hb (r := r) (s := []) ?_
  rw [hr, List.append_nil]

end LxmfLite.SelfDelimiting
