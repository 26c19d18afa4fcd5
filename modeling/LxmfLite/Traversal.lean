import LxmfLite.Amortized
import LxmfLite.Skipping
import LxmfLite.FieldMaps
import Mathlib.Tactic.Linarith

namespace LxmfLite.Traversal

open ByteString Execution SelfDelimiting MessagePack Message Reader Skipping FieldReading
  FieldMaps Amortized

variable {data : Bytes}

/-- What a decoder did: the position and the depth of every call of skip_value,
and how many pairs of keys it compared. -/
structure Work where
  visits : List (Nat × Nat)
  compared : Nat
  deriving DecidableEq

def Work.none : Work := ⟨[], 0⟩

def Work.visited (work : Work) : Nat := work.visits.length

def enter (pos depth : Nat) : Exec LxmfError Work Unit := do
  let work ← Exec.get
  Exec.set { work with visits := work.visits ++ [(pos, depth)] }

def compare {ε : Type} : Exec ε Work Unit := do
  let work ← Exec.get
  Exec.set { work with compared := work.compared + 1 }

def tracedValue (data : Bytes) (pos depth : Nat) : Exec LxmfError Work Nat := skipValueIn enter data pos depth

/-- Calls from low on, one behind the other, none past the end of the data, and
between the depths; on a value they all stand in front of its end. -/
structure Ascends (data : Bytes) (depth deepest low : Nat) (result : Result Nat)
    (visits : List (Nat × Nat)) : Prop where
  ascending : visits.Pairwise (fun a b => a.1 < b.1)
  inside : ∀ a ∈ visits, low ≤ a.1 ∧ a.1 ≤ data.length ∧ depth ≤ a.2 ∧ a.2 ≤ deepest
  before : ∀ e, result = .ok e → low ≤ e ∧ e ≤ data.length ∧ ∀ a ∈ visits, a.1 < e

namespace Ascends

variable {depth deepest low : Nat} {result : Result Nat} {visits visits' : List (Nat × Nat)}

theorem leaf (h : ∀ e, result = .ok e → low ≤ e ∧ e ≤ data.length) :
    Ascends data depth deepest low result [] :=
  ⟨.nil, fun _ ha => absurd ha List.not_mem_nil,
    fun e he => ⟨(h e he).1, (h e he).2, fun _ ha => absurd ha List.not_mem_nil⟩⟩

theorem earlier (h : Ascends data depth deepest low result visits) {low' : Nat} (hl : low' ≤ low) :
    Ascends data depth deepest low' result visits := by
  refine ⟨h.ascending, fun a ha => ?_, fun e he => ?_⟩
  · obtain ⟨h1, h2⟩ := h.inside a ha
    exact ⟨Nat.le_trans hl h1, h2⟩
  · obtain ⟨h1, h2⟩ := h.before e he
    exact ⟨Nat.le_trans hl h1, h2⟩

theorem append {mid : Nat} (h : Ascends data depth deepest low (.ok mid) visits)
    (h' : Ascends data depth deepest mid result visits') :
    Ascends data depth deepest low result (visits ++ visits') := by
  obtain ⟨hmid, -, hlt⟩ := h.before mid rfl
  refine ⟨List.pairwise_append.mpr ⟨h.ascending, h'.ascending, fun a ha b hb => ?_⟩, fun a ha => ?_,
    fun e he => ?_⟩
  · exact Nat.lt_of_lt_of_le (hlt a ha) (h'.inside b hb).1
  · rcases List.mem_append.mp ha with ha | ha
    · exact h.inside a ha
    · exact (h'.earlier hmid).inside a ha
  · obtain ⟨hle, hend, hlt'⟩ := h'.before e he
    refine ⟨Nat.le_trans hmid hle, hend, fun a ha => ?_⟩
    rcases List.mem_append.mp ha with ha | ha
    · exact Nat.lt_of_lt_of_le (hlt a ha) hle
    · exact hlt' a ha

theorem enter {pos : Nat} (h : Ascends data (depth + 1) deepest (pos + 1) result visits)
    (hpos : pos ≤ data.length) (hd : depth ≤ deepest) :
    Ascends data depth deepest pos result ((pos, depth) :: visits) := by
  refine ⟨List.pairwise_cons.mpr ⟨fun a ha => (h.inside a ha).1, h.ascending⟩, fun a ha => ?_,
    fun e he => ?_⟩
  · rcases List.mem_cons.mp ha with rfl | ha
    · exact ⟨Nat.le_refl _, hpos, Nat.le_refl _, hd⟩
    · obtain ⟨h1, h2, h3, h4⟩ := h.inside a ha
      exact ⟨Nat.le_of_succ_le h1, h2, Nat.le_of_succ_le h3, h4⟩
  · obtain ⟨h1, h2, h3⟩ := h.before e he
    refine ⟨Nat.le_of_succ_le h1, h2, fun a ha => ?_⟩
    rcases List.mem_cons.mp ha with rfl | ha
    · exact h1
    · exact h3 a ha

end Ascends

def Walks (x : Exec LxmfError Work Nat) (result : Result Nat) (Q : List (Nat × Nat) → Prop) : Prop :=
  ∀ work, ∃ visits, x.run work = (result, { work with visits := work.visits ++ visits }) ∧ Q visits

section Walks

variable {depth deepest : Nat} {traced : Nat → Exec LxmfError Work Nat} {skip : Nat → Result Nat}

theorem walks_leaf {result : Result Nat} {Q : List (Nat × Nat) → Prop} (h : Q []) :
    Walks (liftM result) result Q :=
  fun work => ⟨[], by rw [List.append_nil]; rfl, h⟩

theorem skipN_walks (h : ∀ pos ≤ data.length,
      Walks (traced pos) (skip pos) (Ascends data depth deepest pos (skip pos)))
    (count : Nat) {pos : Nat} (hpos : pos ≤ data.length) :
    Walks (skipN traced count pos) (skipN skip count pos)
      (Ascends data depth deepest pos (skipN skip count pos)) := by
  induction count generalizing pos with
  | zero => exact walks_leaf (.leaf (fun e he => by cases he; exact ⟨Nat.le_refl _, hpos⟩))
  | succ count ih =>
      intro work
      obtain ⟨visits, hr, hv⟩ := h pos hpos work
      rw [skipN, Exec.run_bind, hr, skipN]
      cases hs : skip pos with
      | error e =>
          rw [hs] at hv
          exact ⟨visits, rfl, hv.ascending, hv.inside, fun _ he => by cases he⟩
      | ok mid =>
          rw [hs] at hv
          obtain ⟨visits', hr', hv'⟩ := ih (hv.before mid rfl).2.1 { work with visits := work.visits ++ visits }
          refine ⟨visits ++ visits', ?_, hv.append hv'⟩
          rw [← List.append_assoc]
          exact hr'

theorem skipLayout_walks (h : ∀ pos ≤ data.length,
      Walks (traced pos) (skip pos) (Ascends data depth deepest pos (skip pos)))
    {p : Nat} (hp : p ≤ data.length) (l : Option Layout) :
    Walks (skipLayout data traced p l) (skipLayout data skip p l)
      (Ascends data depth deepest p (skipLayout data skip p l)) := by
  rcases l with _ | (n | w | n | ⟨w, k⟩)
  · exact walks_leaf (.leaf (fun e he => by cases he))
  · refine walks_leaf (.leaf (fun e he => ?_))
    obtain ⟨hle, rfl⟩ := body_eq_ok.mp he
    exact ⟨Nat.le_add_right _ _, hle⟩
  · rw [skipLayout, skipLayout]
    cases hn : (lenAt data p w : Result Nat) with
    | error e => exact walks_leaf (.leaf (fun e he => by cases he))
    | ok n =>
        refine walks_leaf (.leaf (fun e he => ?_))
        obtain ⟨hle, rfl⟩ := body_eq_ok.mp he
        exact ⟨by omega, hle⟩
  · exact skipN_walks h n hp
  · rw [skipLayout, skipLayout]
    cases hn : (lenAt data p w : Result Nat) with
    | error e => exact walks_leaf (.leaf (fun e he => by cases he))
    | ok n =>
        intro work
        obtain ⟨visits, hr, hv⟩ := skipN_walks h (k * n) (lenAt_eq_ok.mp hn).1 work
        exact ⟨visits, hr, hv.earlier (Nat.le_add_right p w)⟩

end Walks

theorem skipLevelsIn_enter_past {levels depth pos : Nat} (h : data[pos]? = none) (work : Work) :
    (skipLevelsIn enter data levels depth pos).run work =
      (fail .malformedPayload, { work with visits := work.visits ++ [(pos, depth)] }) := by
  cases levels with
  | zero => rfl
  | succ levels =>
      have houtside : (rejectIf (pos ≥ data.length) .malformedPayload : Result Unit) =
          fail .malformedPayload := if_pos (List.getElem?_eq_none_iff.mp h)
      rw [skipLevelsIn, houtside]
      rfl

theorem skipLevelsIn_walks (levels : Nat) {depth pos : Nat} (hpos : pos ≤ data.length) :
    Walks (skipLevelsIn enter data levels depth pos) (skipLevels data levels pos)
      (Ascends data depth (depth + levels) pos (skipLevels data levels pos)) := by
  induction levels generalizing depth pos with
  | zero =>
      intro work
      refine ⟨[(pos, depth)], rfl, ?_⟩
      exact .enter (.leaf (fun e he => by cases he)) hpos (Nat.le_refl _)
  | succ levels ih =>
      intro work
      cases hm : data[pos]? with
      | none =>
          rw [skipLevelsIn_enter_past hm, skipLevels_past hm]
          exact ⟨_, rfl, .enter (.leaf (fun e he => by cases he)) hpos (by omega)⟩
      | some b =>
          have hlt := (List.getElem?_eq_some_iff.mp hm).1
          have hnested : ∀ pos ≤ data.length, Walks (skipLevelsIn enter data levels (depth + 1) pos)
              (skipLevels data levels pos) (Ascends data (depth + 1) (depth + (levels + 1)) pos
                (skipLevels data levels pos)) := by
            intro pos hpos
            rw [show depth + (levels + 1) = depth + 1 + levels by omega]
            exact ih hpos
          rw [skipLevelsIn_step _ hm, skipLevels_step hm, enter, Exec.bind_assoc, Exec.run_get_bind,
            Exec.run_set_bind]
          obtain ⟨visits, hr, hv⟩ := skipLayout_walks hnested hlt (layout b)
            { work with visits := work.visits ++ [(pos, depth)] }
          refine ⟨(pos, depth) :: visits, ?_, hv.enter hpos (by omega)⟩
          rw [hr, List.append_assoc]
          rfl

/-- Calls one behind the other from low to below high are at most as many as
there are positions between. -/
theorem ascending_length {visits : List (Nat × Nat)} (h : visits.Pairwise (fun a b => a.1 < b.1))
    {low high : Nat} (hin : ∀ a ∈ visits, low ≤ a.1 ∧ a.1 < high) : visits.length ≤ high - low := by
  induction h generalizing low with
  | nil => exact Nat.zero_le _
  | @cons a visits ha _ ih =>
      obtain ⟨h1, h2⟩ := hin a List.mem_cons_self
      have hrest := @ih (a.1 + 1) (fun b hb => ⟨ha b hb, (hin b (List.mem_cons_of_mem a hb)).2⟩)
      rw [List.length_cons]
      omega

theorem tracedValue_walks (depth : Nat) {pos : Nat} (hpos : pos ≤ data.length) :
    Walks (tracedValue data pos depth) (skipValue data pos depth)
      (Ascends data depth (max depth 9) pos (skipValue data pos depth)) := by
  have h := @skipLevelsIn_walks data (9 - depth) depth pos hpos
  rwa [show depth + (9 - depth) = max depth 9 by omega, ← skipValue_levels] at h

/-- skip_value and the calls it makes of itself: they go through the data once,
one behind the other, never past the ninth level below the start. On a value they
all stand in front of its end. -/
theorem skipValue_visits (data : Bytes) (pos depth : Nat) :
    ∃ visits, (tracedValue data pos depth).run .none = (skipValue data pos depth, ⟨visits, 0⟩) ∧
      visits.Pairwise (fun a b => a.1 < b.1) ∧
      (∀ a ∈ visits, pos ≤ a.1 ∧ a.1 ≤ max pos data.length ∧ depth ≤ a.2 ∧ a.2 ≤ max depth 9) ∧
      visits.length ≤ data.length - pos + 1 ∧
      ∀ e, skipValue data pos depth = .ok e →
        e ≤ data.length ∧ (∀ a ∈ visits, a.1 < e) ∧ visits.length ≤ e - pos := by
  by_cases hpos : pos ≤ data.length
  · obtain ⟨visits, hr, hv⟩ := tracedValue_walks depth hpos .none
    refine ⟨visits, hr, hv.ascending, fun a ha => ?_, ?_, fun e he => ?_⟩
    · obtain ⟨hlow, hend, hdepth⟩ := hv.inside a ha
      exact ⟨hlow, by omega, hdepth⟩
    · have hlen := ascending_length hv.ascending (fun a ha =>
        ⟨(hv.inside a ha).1, Nat.lt_succ_of_le (hv.inside a ha).2.1⟩)
      omega
    · obtain ⟨-, hend, hlt⟩ := hv.before e he
      exact ⟨hend, hlt, ascending_length hv.ascending (fun a ha => ⟨(hv.inside a ha).1, hlt a ha⟩)⟩
  · have hm : data[pos]? = none := List.getElem?_eq_none_iff.mpr (by omega)
    have hfails : skipValue data pos depth = fail .malformedPayload := by
      rw [skipValue_levels, skipLevels_past hm]
    refine ⟨[(pos, depth)], ?_, List.pairwise_singleton _ _, fun a ha => ?_, ?_, fun e he => ?_⟩
    · rw [tracedValue, skipValueIn, skipLevelsIn_enter_past hm, hfails]
      rfl
    · rw [List.mem_singleton.mp ha]
      exact ⟨Nat.le_refl _, by omega, Nat.le_refl _, by omega⟩
    · rw [List.length_singleton]
      omega
    · rw [hfails] at he
      cases he

example : (tracedValue [0x92, 0x91, 0xc0, 0x01] 0 0).run .none =
    (.ok 4, ⟨[(0, 0), (1, 1), (2, 2), (3, 1)], 0⟩) := by decide

section Scans

def tracedPrior (fields : Bytes) (key : FieldId) (count prior : Nat) : Exec LxmfError Work Unit :=
  priorEntriesIn (tracedValue fields · 0) compare fields key count prior

def tracedEntries (fields : Bytes) (first count position pos : Nat) : Exec LxmfError Work Nat :=
  entriesIn (tracedValue fields · 0) compare fields first count position pos

def tracedValidation (fields : Bytes) : Exec LxmfError Work Unit :=
  validateFieldsIn (tracedValue fields · 0) compare fields

def pairs : Nat → Nat → Nat
  | 0, _ => 0
  | count + 1, position => position + pairs count (position + 1)

theorem pairs_eq (count position : Nat) :
    2 * pairs count position + count = count * (2 * position + count) := by
  induction count generalizing position with
  | zero => rw [pairs, Nat.zero_mul]
  | succ count ih =>
      have h := ih (position + 1)
      rw [pairs]
      linarith

theorem pairs_le {count : Nat} (h : count ≤ 64) : pairs count 0 ≤ 2016 := by
  have hp := pairs_eq count 0
  rw [Nat.mul_zero, Nat.zero_add] at hp
  have hc : count * count ≤ 63 * count + count := by
    rw [← Nat.succ_mul]
    exact Nat.mul_le_mul_right count h
  omega

variable {fields : Bytes}

theorem tracedValue_visits {pos : Nat} (depth : Nat) (h : pos ≤ data.length) :
    Spends Work.visited (tracedValue data pos depth) (skipValue data pos depth)
      (data.length + 1 - pos) (fun e => data.length + 1 - e) := by
  intro work
  obtain ⟨visits, hr, hv⟩ := tracedValue_walks depth h work
  refine ⟨_, hr, ?_⟩
  simp only [Work.visited, List.length_append, Nat.add_assoc]
  refine Nat.add_le_add_left ?_ _
  cases hs : skipValue data pos depth with
  | error e =>
      exact ascending_length hv.ascending (fun a ha =>
        ⟨(hv.inside a ha).1, Nat.lt_succ_of_le (hv.inside a ha).2.1⟩)
  | ok e =>
      obtain ⟨hle, hend, hlt⟩ := hv.before e hs
      have hlen := ascending_length hv.ascending (fun a ha => ⟨(hv.inside a ha).1, hlt a ha⟩)
      simp only [left]
      omega

theorem tracedValue_compared {pos : Nat} (depth : Nat) (h : pos ≤ data.length) (n : Nat) :
    Spends Work.compared (tracedValue data pos depth) (skipValue data pos depth) n (fun _ => n) := by
  intro work
  obtain ⟨visits, hr, -⟩ := tracedValue_walks depth h work
  refine ⟨_, hr, Nat.add_le_add_left ?_ _⟩
  cases skipValue data pos depth with
  | error e => exact Nat.zero_le n
  | ok e => exact Nat.le_refl n

theorem compare_visits {ε : Type} (n : Nat) :
    Spends Work.visited (compare : Exec ε Work Unit) (.ok ()) n (fun _ => n) :=
  fun work => ⟨{ work with compared := work.compared + 1 }, rfl, Nat.le_refl _⟩

theorem compare_compared {ε : Type} (n : Nat) :
    Spends Work.compared (compare : Exec ε Work Unit) (.ok ()) (n + 1) (fun _ => n) :=
  fun work => ⟨{ work with compared := work.compared + 1 }, rfl, by simp only [left]; omega⟩

theorem readFieldId_bounds {pos last : Nat} {id : FieldId} (h : readFieldId fields pos = .ok (id, last)) :
    pos ≤ last ∧ last ≤ fields.length := by
  obtain ⟨enc, hp, hi, rfl⟩ := readFieldId_eq_ok.mp h
  exact ⟨Nat.le_add_right _ _, prefix_end_of_ne_nil hp hi.ne_nil⟩

theorem read_visits {ε α : Type} {read : Outcome ε (α × Nat)} {pos : Nat}
    (h : ∀ r, read = .ok r → pos ≤ r.2) : Spends Work.visited (liftM read) read
      (fields.length + 1 - pos) (fun r => fields.length + 1 - r.2) := by
  refine .lift (fun r hr => ?_)
  have := h r hr
  omega

theorem le_of_not_rejected {count bound : Nat} {e : LxmfError} {u : Unit}
    (h : (rejectIf (count > bound) e : Result Unit) = .ok u) : count ≤ bound := by
  rw [rejectIf] at h
  split at h
  · cases h
  · omega

/-- One walk over the entries before a key. -/
theorem tracedPrior_visits (key : FieldId) (count prior : Nat) :
    Spends Work.visited (tracedPrior fields key count prior) (priorEntries fields key count prior)
      (fields.length + 1 - prior) (fun _ => 0) := by
  induction count generalizing prior with
  | zero => exact .pure () (Nat.zero_le _)
  | succ count ih =>
      rw [tracedPrior, priorEntriesIn, priorEntries_succ]
      refine .bind (read_visits (fun r hr => (readFieldId_bounds (okOr_eq_ok.mp hr)).1)) (fun r hr => ?_)
      have hlast := (readFieldId_bounds (okOr_eq_ok.mp hr)).2
      refine .ok_bind (compare_visits _) ?_
      refine .bind (.lift (fun _ _ => Nat.le_refl _)) (fun _ _ => ?_)
      exact .bind (tracedValue_visits 0 hlast) (fun next _ => ih next)

theorem tracedPrior_compared (key : FieldId) (count prior : Nat) :
    Spends Work.compared (tracedPrior fields key count prior) (priorEntries fields key count prior) count
      (fun _ => 0) := by
  induction count generalizing prior with
  | zero => exact .pure () (Nat.zero_le _)
  | succ count ih =>
      rw [tracedPrior, priorEntriesIn, priorEntries_succ]
      refine .bind (.lift (fun _ _ => Nat.le_refl _)) (fun r hr => ?_)
      have hlast := (readFieldId_bounds (okOr_eq_ok.mp hr)).2
      refine .ok_bind (compare_compared count) ?_
      refine .bind (.lift (fun _ _ => Nat.le_refl _)) (fun _ _ => ?_)
      exact .bind (tracedValue_compared 0 hlast count) (fun next _ => ih next)

/-- Each entry costs one walk over those before it, and its own part of the map. -/
theorem tracedEntries_visits (first count position pos : Nat) :
    Spends Work.visited (tracedEntries fields first count position pos)
      (entriesWithoutScratch fields first count position pos)
      (fields.length + 1 - pos + count * (fields.length + 1)) (fun _ => 0) := by
  induction count generalizing position pos with
  | zero => exact .pure pos (Nat.zero_le _)
  | succ count ih =>
      rw [tracedEntries, entriesIn, entriesWithoutScratch_succ]
      refine .bind ((read_visits (fun r hr => (readFieldId_bounds (okOr_eq_ok.mp hr)).1)).frame _)
        (fun r hr => ?_)
      have hlast := (readFieldId_bounds (okOr_eq_ok.mp hr)).2
      refine .bind (((tracedPrior_visits r.1 position first).frame
        (fields.length + 1 - r.2 + count * (fields.length + 1))).mono ?_ (fun _ _ => Nat.le_refl _)) (fun _ _ => ?_)
      · rw [Nat.succ_mul]
        omega
      · exact .bind (((tracedValue_visits 0 hlast).frame (count * (fields.length + 1))).mono (by omega)
          (fun _ _ => Nat.le_refl _)) (fun next _ => ih (position + 1) next)

theorem tracedEntries_compared (first count position pos : Nat) :
    Spends Work.compared (tracedEntries fields first count position pos)
      (entriesWithoutScratch fields first count position pos) (pairs count position) (fun _ => 0) := by
  induction count generalizing position pos with
  | zero => exact .pure pos (Nat.zero_le _)
  | succ count ih =>
      rw [tracedEntries, entriesIn, entriesWithoutScratch_succ, pairs]
      refine .bind (.lift (fun _ _ => Nat.le_refl _)) (fun r hr => ?_)
      have hlast := (readFieldId_bounds (okOr_eq_ok.mp hr)).2
      refine .bind ((tracedPrior_compared r.1 position first).frame (pairs count (position + 1)))
        (fun _ _ => ?_)
      refine .bind ((tracedValue_compared 0 hlast (pairs count (position + 1))).mono (by omega)
        (fun _ _ => Nat.le_refl _)) (fun next _ => ih (position + 1) next)

theorem tracedValidation_visits (fields : Bytes) :
    Spends Work.visited (tracedValidation fields) (validateFieldsWithoutScratch fields)
      (65 * (fields.length + 1)) (fun _ => 0) := by
  refine .bind (.lift (fun _ _ => Nat.le_refl _)) (fun r _ => ?_)
  refine .bind (.lift (fun _ _ => Nat.le_refl _)) (fun _ hcount => ?_)
  have hle := le_of_not_rejected hcount
  have hmul := Nat.mul_le_mul_right (fields.length + 1) hle
  exact .bind ((tracedEntries_visits r.1 r.2 0 r.1).mono (by omega) (fun _ _ => Nat.le_refl _))
    (fun _ _ => .lift (fun _ _ => Nat.le_refl _))

theorem tracedValidation_compared (fields : Bytes) :
    Spends Work.compared (tracedValidation fields) (validateFieldsWithoutScratch fields) 2016
      (fun _ => 0) := by
  refine .bind (.lift (fun _ _ => Nat.le_refl _)) (fun r _ => ?_)
  refine .bind (.lift (fun _ _ => Nat.le_refl _)) (fun _ hcount => ?_)
  exact .bind ((tracedEntries_compared r.1 r.2 0 r.1).mono (pairs_le (le_of_not_rejected hcount))
    (fun _ _ => Nat.le_refl _)) (fun _ _ => .lift (fun _ _ => Nat.le_refl _))

def silently {α : Type} (x : Exec LxmfError Work α) : Exec Unit Work α := fun work =>
  let (result, work) := x.run work
  (ok result, work)

theorem silently_spends {α : Type} {measure : Work → Nat} {x : Exec LxmfError Work α} {result : Result α}
    {before : Nat} {after : α → Nat} (h : Spends measure x result before after) :
    Spends measure (silently x) (ok result) before after := by
  intro work
  obtain ⟨work', hr, hle⟩ := h work
  refine ⟨work', by rw [Exec.run, silently, hr], ?_⟩
  rcases result with (_ | e) | a <;> exact hle

def tracedLookup (fields : Bytes) (key : FieldId) (count pos : Nat) : Exec Unit Work Bytes :=
  lookupEntriesIn (fun pos => silently (tracedValue fields pos 0)) compare fields key count pos

def tracedFieldValueId (fields : Bytes) (key : FieldId) : Exec Unit Work Bytes :=
  fieldValueIn (fun pos => silently (tracedValue fields pos 0)) compare fields key
    (silently (tracedValidation fields))

theorem tracedLookup_visits (key : FieldId) (count pos : Nat) :
    Spends Work.visited (tracedLookup fields key count pos) (lookupEntries fields key count pos)
      (fields.length + 1 - pos) (fun _ => 0) := by
  induction count generalizing pos with
  | zero => exact .lift (fun _ _ => Nat.zero_le _)
  | succ count ih =>
      rw [tracedLookup, lookupEntriesIn, lookupEntries_succ]
      refine .bind (read_visits (fun r hr => (readFieldId_bounds hr).1)) (fun r hr => ?_)
      have hlast := (readFieldId_bounds hr).2
      refine .bind (silently_spends (tracedValue_visits 0 hlast)) (fun next _ => ?_)
      refine .ok_bind (compare_visits _) ?_
      split
      · exact .lift (fun _ _ => Nat.zero_le _)
      · exact ih next

theorem tracedLookup_compared (key : FieldId) (count pos : Nat) :
    Spends Work.compared (tracedLookup fields key count pos) (lookupEntries fields key count pos) count
      (fun _ => 0) := by
  induction count generalizing pos with
  | zero => exact .lift (fun _ _ => Nat.zero_le _)
  | succ count ih =>
      rw [tracedLookup, lookupEntriesIn, lookupEntries_succ]
      refine .bind (.lift (fun _ _ => Nat.le_refl _)) (fun r hr => ?_)
      have hlast := (readFieldId_bounds hr).2
      refine .bind (silently_spends (tracedValue_compared 0 hlast (count + 1))) (fun next _ => ?_)
      refine .ok_bind (compare_compared count) ?_
      split
      · exact .lift (fun _ _ => Nat.zero_le _)
      · exact ih next

theorem tracedFieldValueId_visits (fields : Bytes) (key : FieldId) :
    Spends Work.visited (tracedFieldValueId fields key) (fieldValueId fields key)
      (66 * (fields.length + 1)) (fun _ => 0) := by
  refine .bind (((silently_spends (tracedValidation_visits fields)).frame (fields.length + 1)).mono
    (by omega) (fun _ _ => Nat.le_refl _)) (fun _ _ => ?_)
  refine .bind (.lift (fun _ _ => Nat.le_refl _)) (fun r _ => ?_)
  exact (tracedLookup_visits key r.2 r.1).mono (by omega) (fun _ _ => Nat.le_refl _)

theorem count_of_validated {u : Unit} {r : Nat × Nat} (h : validateFieldsWithoutScratch fields = .ok u)
    (hr : readMapHeader fields = .ok r) : r.2 ≤ 64 := by
  rw [validateFieldsWithoutScratch_def, okOr_eq_ok.mpr hr, ok_bind] at h
  obtain ⟨_, hcount, -⟩ := bind_eq_ok.mp h
  exact le_of_not_rejected hcount

theorem tracedFieldValueId_compared (fields : Bytes) (key : FieldId) :
    Spends Work.compared (tracedFieldValueId fields key) (fieldValueId fields key) 2080 (fun _ => 0) := by
  refine .bind (((silently_spends (tracedValidation_compared fields)).frame 64).mono (Nat.le_refl _)
    (fun _ _ => Nat.le_refl _)) (fun _ hv => ?_)
  refine .bind (.lift (fun _ _ => Nat.le_refl _)) (fun r hr => ?_)
  have hle := count_of_validated (ok_eq_ok.mp hv) hr
  exact (tracedLookup_compared key r.2 r.1).mono (by omega) (fun _ _ => Nat.le_refl _)

theorem work_of_spends {ε α : Type} {x : Exec ε Work α} {result : Outcome ε α} {n m : Nat}
    (hc : Spends Work.compared x result n (fun _ => 0)) (hv : Spends Work.visited x result m (fun _ => 0)) :
    ∃ work, x.run .none = (result, work) ∧ work.compared ≤ n ∧ work.visited ≤ m := by
  obtain ⟨work, hr, hn⟩ := hc .none
  obtain ⟨work', hr', hm⟩ := hv .none
  rw [hr] at hr'
  cases hr'
  refine ⟨work, hr, ?_, ?_⟩
  · exact Nat.le_trans (Nat.le_add_right _ _) (Nat.le_trans hn (Nat.le_of_eq (Nat.zero_add n)))
  · exact Nat.le_trans (Nat.le_add_right _ _) (Nat.le_trans hm (Nat.le_of_eq (Nat.zero_add m)))

/-- Whatever count the header of a map gives, its validation compares 2,016
pairs of keys at most and a lookup 64 more, and the calls of skip_value that they
make are linear in the bytes. -/
theorem fieldValueId_work (fields : Bytes) (key : FieldId) :
    (∃ work, (tracedValidation fields).run .none = (validateFieldsWithoutScratch fields, work) ∧
      work.compared ≤ 2016 ∧ work.visited ≤ 65 * (fields.length + 1)) ∧
    ∃ work, (tracedFieldValueId fields key).run .none = (fieldValueId fields key, work) ∧
      work.compared ≤ 2016 + 64 ∧ work.visited ≤ 66 * (fields.length + 1) :=
  ⟨work_of_spends (tracedValidation_compared fields) (tracedValidation_visits fields),
    work_of_spends (tracedFieldValueId_compared fields key) (tracedFieldValueId_visits fields key)⟩

example : ((tracedValidation ([0xde, 0, 64] ++ (List.range 64).flatMap (fun key =>
    [UInt8.ofNat key, 0xc0]))).run .none).2.compared = 2016 := by decide +kernel

end Scans

end LxmfLite.Traversal
