import LxmfLite.MessagePack
import LxmfLite.Reader

namespace LxmfLite.Skipping

open ByteString Execution SelfDelimiting MessagePack Message Reader

variable {data : Bytes}

theorem body_eq_ok {start n e : Nat} :
    body data start n = .ok e ↔ start + n ≤ data.length ∧ e = start + n := by
  rw [body]
  split
  · simp [*, eq_comm]
  · simp [*]

theorem lenAt_eq {start nb : Nat} :
    lenAt data start nb = if start + nb ≤ data.length then
      .ok (ofBe (data.extract start (start + nb))) else fail .malformedPayload := by
  by_cases h : start + nb ≤ data.length
  · simp only [lenAt, rejectIf_bind, slice_eq (Nat.le_add_right _ _) h, if_neg (Nat.not_lt.mpr h),
      ok_bind, pure_eq_ok, if_pos h]
  · simp only [lenAt, rejectIf_bind, if_pos (Nat.lt_of_not_le h), if_neg h]

section Layout

variable {m : Type → Type} [Monad m] [MonadLiftT Result m]

/-- The match of skip_value, told by the layout of the marker. -/
def skipLayout (data : Bytes) (skip : Nat → m Nat) (p : Nat) : Option Layout → m Nat
  | none => liftM (fail .malformedPayload : Result Nat)
  | some (.inline n) => liftM (body data p n)
  | some (.sized w) => do
      let n ← lenAt data p w
      liftM (body data (p + w) n)
  | some (.nested n) => skipN skip n p
  | some (.counted w k) => do
      let n ← lenAt data p w
      skipN skip (k * n) (p + w)

theorem and_fifteen (n : Nat) : n &&& 0x0f = n % 16 := Nat.and_two_pow_sub_one_eq_mod n 4

theorem and_thirtyone (n : Nat) : n &&& 0x1f = n % 32 := Nat.and_two_pow_sub_one_eq_mod n 5

/-- skip_value dispatches on the marker as the format's table does. -/
theorem skipMarker_layout [LawfulMonadLiftT Result m] (skip : Nat → m Nat) {b : UInt8} {p : Nat}
    (hp : p ≤ data.length) : skipMarker data skip b.toNat p = skipLayout data skip p (layout b) := by
  by_cases hs : b.toNat ≤ 0x7f ∨ 0xe0 ≤ b.toNat ∨ b.toNat = 0xc0 ∨ b.toNat = 0xc2 ∨ b.toNat = 0xc3
  · rw [skipMarker, if_pos hs, layout_scalar hs]
    have hbody : body data p 0 = pure p := if_pos hp
    rw [skipLayout, hbody]
    exact (monadLift_pure p).symm
  by_cases hstr : 0xa0 ≤ b.toNat ∧ b.toNat ≤ 0xbf
  · rw [layout_fixstr (n := b.toNat - 0xa0) (by omega) (by omega), skipMarker, if_neg hs]
    iterate 7 rw [if_neg (by omega)]
    rw [if_pos hstr, and_thirtyone, show b.toNat % 32 = b.toNat - 0xa0 by omega]
    rfl
  by_cases harray : 0x90 ≤ b.toNat ∧ b.toNat ≤ 0x9f
  · rw [layout_fixarray (n := b.toNat - 0x90) (by omega) (by omega), skipMarker, if_neg hs]
    iterate 8 rw [if_neg (by omega)]
    rw [if_pos harray, and_fifteen, show b.toNat % 16 = b.toNat - 0x90 by omega]
    rfl
  by_cases hmap : 0x80 ≤ b.toNat ∧ b.toNat ≤ 0x8f
  · rw [layout_fixmap (n := b.toNat - 0x80) (by omega) (by omega), skipMarker, if_neg hs]
    iterate 9 rw [if_neg (by omega)]
    rw [if_pos hmap, and_fifteen, show b.toNat % 16 = b.toNat - 0x80 by omega]
    rfl
  -- the markers that are left stand for themselves
  have hlo : 0xc0 ≤ b.toNat := by omega
  have hhi : b.toNat < 0xe0 := by omega
  rw [layout]
  generalize b.toNat = n at *
  interval_cases n
  all_goals first
    | exact absurd (by decide) hs
    | rfl
    | simp [skipMarker, skipLayout, layoutOf, Nat.mul_comm]

end Layout

/-- A reader that accepts exactly the encodings in P and ends behind them. -/
def Accepts (data : Bytes) (skip : Nat → Result Nat) (P : Bytes → Prop) : Prop :=
  ∀ pos e, skip pos = .ok e ↔ ∃ enc, enc <+: data.drop pos ∧ P enc ∧ e = pos + enc.length

theorem skipN_eq_ok {skip : Nat → Result Nat} {P : Bytes → Prop} (h : Accepts data skip P)
    (count pos e : Nat) :
    skipN skip count pos = .ok e ↔ ∃ items : List Bytes, items.length = count ∧
      items.flatten <+: data.drop pos ∧ (∀ item ∈ items, P item) ∧
      e = pos + items.flatten.length := by
  induction count generalizing pos with
  | zero =>
      constructor
      · intro he
        cases he
        exact ⟨[], rfl, List.nil_prefix, by simp, by simp⟩
      · rintro ⟨items, hl, -, -, rfl⟩
        rw [List.length_eq_zero_iff.mp hl]
        rfl
  | succ count ih =>
      rw [skipN, bind_eq_ok]
      constructor
      · rintro ⟨mid, hs, hr⟩
        obtain ⟨enc, hp, hP, rfl⟩ := (h pos mid).mp hs
        obtain ⟨items, hl, hps, hPs, rfl⟩ := (ih _).mp hr
        refine ⟨enc :: items, by simp [hl], ?_, by simpa using ⟨hP, hPs⟩, ?_⟩
        · rw [List.flatten_cons, prefix_append_iff]
          exact ⟨hp, hps⟩
        · rw [List.flatten_cons, List.length_append, Nat.add_assoc]
      · rintro ⟨items, hl, hp, hP, rfl⟩
        obtain ⟨enc, items, rfl⟩ := List.exists_cons_of_length_eq_add_one hl
        rw [List.flatten_cons, prefix_append_iff] at hp
        refine ⟨pos + enc.length, (h _ _).mpr ⟨enc, hp.1, hP enc (by simp), rfl⟩, ?_⟩
        refine (ih _).mpr ⟨items, by simpa using hl, hp.2, fun item hi => hP item (by simp [hi]), ?_⟩
        rw [List.flatten_cons, List.length_append, Nat.add_assoc]

theorem lenAt_eq_ok {start nb n : Nat} : lenAt data start nb = .ok n ↔
    start + nb ≤ data.length ∧ n = ofBe (data.extract start (start + nb)) := by
  rw [lenAt_eq]
  split
  · simp [*, eq_comm]
  · simp [*]

theorem lenAt_bind_eq_ok {p w e : Nat} {f : Nat → Result Nat} {Q : Nat → Bytes → Prop}
    (hf : p + w ≤ data.length → ∀ n, f n = .ok e ↔ ∃ tail, tail <+: data.drop (p + w) ∧ Q n tail ∧
      e = p + w + tail.length) (hp : p ≤ data.length) :
    lenAt data p w >>= f = .ok e ↔ ∃ size tail, size ++ tail <+: data.drop p ∧ size.length = w ∧
      Q (ofBe size) tail ∧ e = p + (size ++ tail).length := by
  rw [bind_eq_ok]
  constructor
  · rintro ⟨n, hn, he⟩
    obtain ⟨hle, rfl⟩ := lenAt_eq_ok.mp hn
    obtain ⟨tail, ht, hQ, rfl⟩ := (hf hle _).mp he
    have hl : (data.extract p (p + w)).length = w := by rw [extract_length hle]; omega
    refine ⟨_, tail, prefix_append_iff.mpr ⟨extract_prefix_drop, ?_⟩, hl, hQ, ?_⟩
    · rw [hl]; exact ht
    · rw [List.length_append, hl, Nat.add_assoc]
  · rintro ⟨size, tail, ht, hl, hQ, rfl⟩
    rw [prefix_append_iff, hl] at ht
    have hle : p + w ≤ data.length := by
      have := prefix_end ht.1 hp
      omega
    refine ⟨ofBe size, lenAt_eq_ok.mpr ⟨hle, ?_⟩, (hf hle _).mpr ⟨tail, ht.2, hQ, ?_⟩⟩
    · rw [← hl, prefix_extract ht.1]
    · rw [List.length_append, hl, Nat.add_assoc]

theorem body_eq_ok_prefix {p n e : Nat} (hp : p ≤ data.length) :
    body data p n = .ok e ↔ ∃ tail, tail <+: data.drop p ∧ tail.length = n ∧ e = p + tail.length := by
  rw [body_eq_ok]
  constructor
  · rintro ⟨hle, rfl⟩
    have hl : (data.extract p (p + n)).length = n := by rw [extract_length hle]; omega
    exact ⟨_, extract_prefix_drop, hl, by rw [hl]⟩
  · rintro ⟨tail, ht, rfl, rfl⟩
    exact ⟨prefix_end ht hp, rfl⟩

theorem skipLayout_eq_ok {skip : Nat → Result Nat} (limit depth : Nat) {p e : Nat} (l : Option Layout)
    (hs : Accepts data skip (Value limit (depth + 1))) (hp : p ≤ data.length) :
    skipLayout data skip p l = .ok e ↔ ∃ tail, tail <+: data.drop p ∧
      Follows messagePack limit depth l tail ∧ e = p + tail.length := by
  cases l with
  | none => simp [skipLayout, Follows]
  | some l =>
      cases l with
      | inline n => exact body_eq_ok_prefix hp
      | sized w =>
          refine (lenAt_bind_eq_ok (Q := fun n tail => tail.length = n)
            (fun hle n => body_eq_ok_prefix hle) hp).trans ?_
          constructor
          · rintro ⟨size, tail, ht, hl, hb, he⟩
            exact ⟨_, ht, ⟨size, tail, rfl, hl, hb⟩, he⟩
          · rintro ⟨_, ht, ⟨size, tail, rfl, hl, hb⟩, he⟩
            exact ⟨size, tail, ht, hl, hb, he⟩
      | nested n =>
          apply (skipN_eq_ok hs n p e).trans
          constructor
          · rintro ⟨items, hn, ht, hi, he⟩
            exact ⟨_, ht, ⟨items, rfl, hn, hi⟩, he⟩
          · rintro ⟨_, ht, ⟨items, rfl, hn, hi⟩, he⟩
            exact ⟨items, hn, ht, hi, he⟩
      | counted w k =>
          refine (lenAt_bind_eq_ok (Q := fun n tail => ∃ items : List Bytes, tail = items.flatten ∧
            items.length = k * n ∧ ∀ item ∈ items, Value limit (depth + 1) item)
            (fun _ n => (skipN_eq_ok hs (k * n) (p + w) e).trans ?_) hp).trans ?_
          · constructor
            · rintro ⟨items, hn, ht, hi, he⟩
              exact ⟨_, ht, ⟨items, rfl, hn, hi⟩, he⟩
            · rintro ⟨_, ht, ⟨items, rfl, hn, hi⟩, he⟩
              exact ⟨items, hn, ht, hi, he⟩
          · constructor
            · rintro ⟨size, _, ht, hl, ⟨items, rfl, hn, hi⟩, he⟩
              exact ⟨_, ht, ⟨size, items, rfl, hl, hn, hi⟩, he⟩
            · rintro ⟨_, ht, ⟨size, items, rfl, hl, hn, hi⟩, he⟩
              exact ⟨size, _, ht, hl, ⟨items, rfl, hn, hi⟩, he⟩

theorem skipLevelsIn_step {m : Type → Type} [Monad m] [MonadLiftT Result m] [LawfulMonad m]
    [LawfulMonadLiftT Result m] (enter : Nat → Nat → m Unit) {levels depth pos : Nat} {b : UInt8}
    (h : data[pos]? = some b) : skipLevelsIn enter data (levels + 1) depth pos =
      enter pos depth >>= fun _ =>
        skipLayout data (skipLevelsIn enter data levels (depth + 1)) (pos + 1) (layout b) := by
  have hlt := (List.getElem?_eq_some_iff.mp h).1
  have hindex : (index data pos : Result UInt8) = pure b := by
    rw [index, h]
    rfl
  have hinside : (rejectIf (pos ≥ data.length) .malformedPayload : Result Unit) = pure () :=
    if_neg (Nat.not_le.mpr hlt)
  rw [skipLevelsIn, hindex, hinside]
  simp only [liftM, monadLift_pure, pure_bind]
  rw [skipMarker_layout _ hlt]

section Levels

def skipLevels (data : Bytes) (levels pos : Nat) : Result Nat :=
  skipLevelsIn (fun _ _ => pure ()) data levels 0 pos

theorem skipLevelsIn_past {levels depth pos : Nat} (h : data[pos]? = none) :
    skipLevelsIn (fun _ _ => pure ()) data levels depth pos = (fail .malformedPayload : Result Nat) := by
  cases levels with
  | zero => rfl
  | succ levels =>
      have houtside : (rejectIf (pos ≥ data.length) .malformedPayload : Result Unit) =
          fail .malformedPayload := if_pos (List.getElem?_eq_none_iff.mp h)
      rw [skipLevelsIn, houtside]
      rfl

theorem skipLevelsIn_eq (levels depth pos : Nat) :
    skipLevelsIn (fun _ _ => pure ()) data levels depth pos = skipLevels data levels pos := by
  have hdepth (depth depth' : Nat) : (skipLevelsIn (fun _ _ => pure ()) data levels depth pos : Result Nat) =
      skipLevelsIn (fun _ _ => pure ()) data levels depth' pos := by
    induction levels generalizing depth depth' pos with
    | zero => rfl
    | succ levels ih =>
        cases hm : data[pos]? with
        | none => rw [skipLevelsIn_past hm, skipLevelsIn_past hm]
        | some b =>
            rw [skipLevelsIn_step _ hm, skipLevelsIn_step _ hm, funext fun pos => ih pos (depth + 1) (depth' + 1)]
  exact hdepth depth 0

theorem skipValue_levels (pos depth : Nat) : skipValue data pos depth = skipLevels data (9 - depth) pos :=
  skipLevelsIn_eq _ _ _

theorem skipLevels_step {levels pos : Nat} {b : UInt8} (h : data[pos]? = some b) :
    skipLevels data (levels + 1) pos =
      skipLayout data (skipLevels data levels) (pos + 1) (layout b) := by
  rw [skipLevels, skipLevelsIn_step _ h, funext (skipLevelsIn_eq levels (0 + 1))]
  rfl

theorem skipLevels_zero (pos : Nat) : skipLevels data 0 pos = fail .malformedPayload := rfl

theorem skipLevels_past {levels pos : Nat} (h : data[pos]? = none) :
    skipLevels data levels pos = fail .malformedPayload := skipLevelsIn_past h

end Levels

/-- The walk accepts exactly the encodings that fit in the levels it has left. -/
theorem skipLevels_accepts {limit levels depth : Nat} (h : depth + levels = limit + 1) :
    Accepts data (skipLevels data levels) (Value limit depth) := by
  induction levels generalizing depth with
  | zero =>
      intro pos e
      constructor
      · intro he
        exact absurd he (by rw [skipLevels_zero]; simp)
      · rintro ⟨enc, -, hv, -⟩
        have := hv.depth_le
        omega
  | succ levels ih =>
      intro pos e
      cases hm : data[pos]? with
      | none =>
          rw [skipLevels_past hm]
          constructor
          · intro he
            exact absurd he (by simp)
          · rintro ⟨enc, hp, hv, -⟩
            exact absurd (prefix_past hm hp) hv.ne_nil
      | some m =>
          have hlt := (List.getElem?_eq_some_iff.mp hm).1
          rw [skipLevels_step hm, skipLayout_eq_ok limit depth (layout m) (ih (by omega))
            (by omega)]
          constructor
          · rintro ⟨tail, ht, hf, rfl⟩
            refine ⟨m :: tail, prefix_cons_iff.mpr ⟨hm, ht⟩,
              encoded_cons_iff.mpr ⟨by omega, hf⟩, ?_⟩
            rw [List.length_cons]
            omega
          · rintro ⟨enc, hp, hv, rfl⟩
            obtain ⟨tail, rfl, ht⟩ := marker_at hm hp hv.ne_nil
            refine ⟨tail, ht, (encoded_cons_iff.mp hv).2, ?_⟩
            rw [List.length_cons]
            omega

/-- skip_value returns the end of the one value that starts at pos. -/
theorem skipValue_eq_ok {pos depth e : Nat} : skipValue data pos depth = .ok e ↔
    ∃ enc, enc <+: data.drop pos ∧ Value 8 depth enc ∧ e = pos + enc.length := by
  rw [skipValue_levels]
  by_cases hd : depth ≤ 8
  · exact skipLevels_accepts (by omega) pos e
  · rw [show 9 - depth = 0 by omega, skipLevels_zero]
    constructor
    · intro he
      exact absurd he (by simp)
    · rintro ⟨enc, -, hv, -⟩
      exact absurd hv.depth_le hd

abbrev Malformed {α : Type} (x : Result α) : Prop := OkOr LxmfError.malformedPayload x

theorem malformed_body (p n : Nat) : Malformed (body data p n) := by
  rw [body]
  split
  · exact .inl ⟨_, rfl⟩
  · exact .inr rfl

theorem malformed_lenAt (p n : Nat) : Malformed (lenAt data p n) := by
  rw [lenAt_eq]
  split
  · exact .inl ⟨_, rfl⟩
  · exact .inr rfl

theorem malformed_skipN {skip : Nat → Result Nat} (h : ∀ pos, Malformed (skip pos))
    (count pos : Nat) : Malformed (skipN skip count pos) := by
  induction count generalizing pos with
  | zero => exact .inl ⟨pos, rfl⟩
  | succ count ih => exact (h pos).bind ih

theorem malformed_skipLevels (levels pos : Nat) : Malformed (skipLevels data levels pos) := by
  induction levels generalizing pos with
  | zero => exact .inr rfl
  | succ levels ih =>
      cases hm : data[pos]? with
      | none => exact .inr (skipLevels_past hm)
      | some m =>
          rw [skipLevels_step hm]
          cases layout m with
          | none => exact .inr rfl
          | some l =>
              cases l with
              | inline n => exact malformed_body _ n
              | sized w => exact (malformed_lenAt _ w).bind (malformed_body _)
              | nested n => exact malformed_skipN ih n _
              | counted w k => exact (malformed_lenAt _ w).bind (fun n => malformed_skipN ih (k * n) _)

theorem malformed_skipValue (data : Bytes) (pos depth : Nat) : Malformed (skipValue data pos depth) := by
  rw [skipValue_levels]
  exact malformed_skipLevels _ _

theorem skipValue_whole (data : Bytes) (pos depth : Nat) (h : pos ≤ data.length) :
    skipValue data pos depth = .ok data.length ↔ Value 8 depth (data.drop pos) := by
  rw [skipValue_eq_ok]
  constructor
  · rintro ⟨enc, hp, hv, he⟩
    have hl : enc.length = (data.drop pos).length := by
      rw [List.length_drop]
      omega
    rw [← hp.eq_of_length hl]
    exact hv
  · intro hv
    refine ⟨data.drop pos, List.prefix_rfl, hv, ?_⟩
    rw [List.length_drop]
    omega

section Framing

variable {σ β : Type} {buffer : Bytes} {start n : Nat} (hstart : start ≤ n) (hn : n ≤ buffer.length)
include hstart hn

/-- The framing check passes when the bytes up to n are one value from start on. -/
theorem run_whole_bind (hv : Value 8 0 ((buffer.take n).drop start)) (rest : Exec LxmfError σ β) (s : σ) :
    (do let packed ← (slice buffer 0 n : Result Bytes)
        let last ← skipValue packed start 0
        Exec.rejectIf (last ≠ n) .malformedPayload
        rest : Exec LxmfError σ β).run s = rest.run s := by
  have hlen : (buffer.take n).length = n := List.length_take_of_le hn
  have hskip := (skipValue_whole (buffer.take n) start 0 (by rw [hlen]; exact hstart)).mpr hv
  rw [hlen] at hskip
  rw [slice_take hn, Exec.run_ok_bind, hskip, Exec.run_ok_bind, Exec.run_rejectIf_bind,
    if_neg (not_not_intro rfl)]

theorem run_notWhole_bind (hv : ¬Value 8 0 ((buffer.take n).drop start)) (rest : Exec LxmfError σ β)
    (s : σ) :
    (do let packed ← (slice buffer 0 n : Result Bytes)
        let last ← skipValue packed start 0
        Exec.rejectIf (last ≠ n) .malformedPayload
        rest : Exec LxmfError σ β).run s = (fail .malformedPayload, s) := by
  have hlen : (buffer.take n).length = n := List.length_take_of_le hn
  have hskip := skipValue_whole (buffer.take n) start 0 (by rw [hlen]; exact hstart)
  rw [hlen] at hskip
  rw [slice_take hn, Exec.run_ok_bind]
  rcases malformed_skipValue (buffer.take n) start 0 with ⟨last, hs⟩ | hs
  · rw [hs, Exec.run_ok_bind, Exec.run_rejectIf_bind, if_pos]
    rintro rfl
    exact hv (hskip.mp hs)
  · rw [hs]
    rfl

end Framing

end LxmfLite.Skipping
