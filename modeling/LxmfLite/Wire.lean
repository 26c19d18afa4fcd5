import LxmfLite.Encoder

namespace LxmfLite.Wire

open ByteString Execution Message Reader Writer Encoder

def bytesOf : Step Bytes → Except LxmfError Bytes
  | .write bytes => .ok bytes
  | .field bytes => .ok bytes
  | .reject e => .error e

def wire : List (Step Bytes) → Option Bytes
  | [] => some []
  | step :: steps =>
      match bytesOf step with
      | .ok bytes => (wire steps).map (bytes ++ ·)
      | .error _ => none

theorem wire_cons_ok {step : Step Bytes} {steps : List (Step Bytes)} {bytes : Bytes}
    (h : bytesOf step = .ok bytes) : wire (step :: steps) = (wire steps).map (bytes ++ ·) := by
  rw [wire, h]

theorem wire_cons_error {step : Step Bytes} {steps : List (Step Bytes)} {e : LxmfError}
    (h : bytesOf step = .error e) : wire (step :: steps) = none := by
  rw [wire, h]

theorem wire_append {a b : List (Step Bytes)} {x : Bytes} (ha : wire a = some x) :
    wire (a ++ b) = (wire b).map (x ++ ·) := by
  induction a generalizing x with
  | nil =>
      cases ha
      simp
  | cons step a ih =>
      cases h : bytesOf step with
      | error e => exact absurd ha (by simp [wire_cons_error h])
      | ok bytes =>
          rw [wire_cons_ok h] at ha
          obtain ⟨y, hy, rfl⟩ := Option.map_eq_some_iff.mp ha
          rw [List.cons_append, wire_cons_ok h, ih hy, Option.map_map]
          congr 1
          funext z
          exact (List.append_assoc bytes y z).symm

theorem wire_append_none {a b : List (Step Bytes)} (ha : wire a = none) : wire (a ++ b) = none := by
  induction a with
  | nil => exact absurd ha (by simp [wire])
  | cons step a ih =>
      cases h : bytesOf step with
      | error e => exact wire_cons_error h
      | ok bytes =>
          rw [wire_cons_ok h, Option.map_eq_none_iff] at ha
          rw [List.cons_append, wire_cons_ok h, ih ha, Option.map_none]

def lengthOf : Step Nat → Except LxmfError Nat
  | .write bytes => .ok bytes.length
  | .field length => .ok length
  | .reject e => .error e

def wireLen : List (Step Nat) → Option Nat
  | [] => some 0
  | step :: steps =>
      match lengthOf step with
      | .ok length => (wireLen steps).map (length + ·)
      | .error _ => none

def mapStep {α β : Type} (g : α → β) : Step α → Step β
  | .write bytes => .write bytes
  | .field f => .field (g f)
  | .reject e => .reject e

theorem wireLen_map (steps : List (Step Bytes)) :
    wireLen (steps.map (mapStep List.length)) = (wire steps).map List.length := by
  induction steps with
  | nil => rfl
  | cons step steps ih =>
      have h : lengthOf (mapStep List.length step) = (bytesOf step).map List.length := by
        cases step <;> rfl
      rw [List.map_cons, wireLen, wire, h]
      cases bytesOf step with
      | error e => rfl
      | ok bytes =>
          simp only [Except.map, ih, Option.map_map]
          congr 1
          funext z
          exact List.length_append.symm

section Writers

variable {usizeMax : Nat}

theorem sliceWrite_run (bytes : Bytes) (w : SliceWriter) :
    (SliceWriter.write usizeMax bytes).run w =
      if w.position + bytes.length ≤ usizeMax then
        if w.position + bytes.length ≤ w.output.length then
          (.ok (), ⟨overwrite w.output w.position bytes, w.position + bytes.length⟩)
        else (fail .outputTooSmall, w)
      else (fail .tooLong, w) := by
  rw [SliceWriter.write, Exec.run_get_bind, checkedAdd]
  by_cases h : w.position + bytes.length ≤ usizeMax
  · rw [if_pos h, if_pos h, orFail_some, Exec.run_lift_bind]
    simp only [Exec.run_rejectIf_bind]
    by_cases hl : w.position + bytes.length ≤ w.output.length
    · rw [if_neg (by omega), if_pos hl, copyFromSlice_eq rfl hl, Exec.run_lift_bind]
      rfl
    · rw [if_pos (by omega), if_neg hl]
  · rw [if_neg h, if_neg h]
    rfl

theorem sizeField_run (length size : Nat) : (SizeWriter.field usizeMax length).run size =
    if size + length ≤ usizeMax then (.ok (), size + length) else (fail .tooLong, size) := by
  rw [SizeWriter.field, Exec.run_get_bind, checkedAdd]
  split <;> rfl

theorem replay_slice_cons (step : Step Bytes) (steps : List (Step Bytes)) :
    replay (sliceWriter usizeMax) (step :: steps) = match bytesOf step with
      | .ok bytes => SliceWriter.write usizeMax bytes >>= fun _ => replay (sliceWriter usizeMax) steps
      | .error e => liftM (fail e : Result Unit) := by
  cases step <;> rfl

theorem replay_size_cons (step : Step Nat) (steps : List (Step Nat)) :
    replay (sizeWriter usizeMax) (step :: steps) = match lengthOf step with
      | .ok length => SizeWriter.field usizeMax length >>= fun _ => replay (sizeWriter usizeMax) steps
      | .error e => liftM (fail e : Result Unit) := by
  cases step <;> rfl

theorem replay_slice (usizeMax : Nat) {steps : List (Step Bytes)} {bytes : Bytes} (w : SliceWriter)
    (h : wire steps = some bytes) (hmax : w.position + bytes.length ≤ usizeMax)
    (hout : w.position + bytes.length ≤ w.output.length) :
    (replay (sliceWriter usizeMax) steps).run w =
      (.ok (), ⟨overwrite w.output w.position bytes, w.position + bytes.length⟩) := by
  induction steps generalizing bytes w with
  | nil =>
      cases h
      rw [replay, overwrite_nil]
      rfl
  | cons step steps ih =>
      cases hs : bytesOf step with
      | error e => exact absurd h (by simp [wire_cons_error hs])
      | ok first =>
          rw [wire_cons_ok hs] at h
          obtain ⟨rest, hr, rfl⟩ := Option.map_eq_some_iff.mp h
          rw [List.length_append, ← Nat.add_assoc] at hmax hout
          rw [replay_slice_cons, hs]
          simp only
          rw [Exec.run_bind, sliceWrite_run, if_pos (by omega), if_pos (by omega)]
          simp only
          rw [ih _ hr hmax (by rw [overwrite_length (by omega)]; exact hout),
            overwrite_overwrite _ (by omega), List.length_append, Nat.add_assoc]

theorem replay_slice_fails (usizeMax : Nat) {steps : List (Step Bytes)} (w : SliceWriter)
    (hw : w.position ≤ usizeMax ∧ w.position ≤ w.output.length)
    (h : ∀ bytes, wire steps = some bytes →
      ¬(w.position + bytes.length ≤ usizeMax ∧ w.position + bytes.length ≤ w.output.length)) :
    ∃ e w', (replay (sliceWriter usizeMax) steps).run w = (fail e, w') ∧
      w'.output.length = w.output.length ∧ (e = .tooLong ∨ e = .outputTooSmall ∨ .reject e ∈ steps) := by
  induction steps generalizing w with
  | nil => exact absurd hw (h [] rfl)
  | cons step steps ih =>
      rw [replay_slice_cons]
      cases hs : bytesOf step with
      | error e =>
          obtain rfl : step = .reject e := by
            cases step <;> cases hs
            rfl
          exact ⟨e, w, rfl, rfl, .inr (.inr List.mem_cons_self)⟩
      | ok first =>
          simp only
          rw [Exec.run_bind, sliceWrite_run]
          by_cases hmax : w.position + first.length ≤ usizeMax
          · by_cases hout : w.position + first.length ≤ w.output.length
            · rw [if_pos hmax, if_pos hout]
              simp only
              have hl := overwrite_length hout
              obtain ⟨e, w', hr, hlen, he⟩ := ih
                ⟨overwrite w.output w.position first, w.position + first.length⟩
                ⟨hmax, by rw [hl]; exact hout⟩ (fun rest hrest hfit => by
                  refine h (first ++ rest) (by rw [wire_cons_ok hs, hrest, Option.map_some]) ?_
                  rw [List.length_append, ← Nat.add_assoc]
                  rw [hl] at hfit
                  exact hfit)
              exact ⟨e, w', hr, hlen.trans hl, he.imp_right (Or.imp_right (List.mem_cons_of_mem _))⟩
            · rw [if_pos hmax, if_neg hout]
              exact ⟨_, w, rfl, rfl, .inr (.inl rfl)⟩
          · rw [if_neg hmax]
            exact ⟨_, w, rfl, rfl, .inl rfl⟩

theorem replay_size {steps : List (Step Nat)} {length size : Nat} (h : wireLen steps = some length)
    (hmax : size + length ≤ usizeMax) :
    (replay (sizeWriter usizeMax) steps).run size = (.ok (), size + length) := by
  induction steps generalizing length size with
  | nil =>
      cases h
      rfl
  | cons step steps ih =>
      rw [replay_size_cons]
      rw [wireLen] at h
      cases hs : lengthOf step with
      | error e => exact absurd h (by simp [hs])
      | ok first =>
          simp only [hs] at h ⊢
          obtain ⟨rest, hr, rfl⟩ := Option.map_eq_some_iff.mp h
          rw [Exec.run_bind, sizeField_run, if_pos (by omega)]
          simp only
          rw [ih hr (by omega), Nat.add_assoc]

theorem replay_size_fails (steps : List (Step Nat)) {size : Nat} (hsize : size ≤ usizeMax)
    (h : ∀ length, wireLen steps = some length → ¬size + length ≤ usizeMax) :
    ∃ e size', (replay (sizeWriter usizeMax) steps).run size = (fail e, size') ∧
      (e = .tooLong ∨ .reject e ∈ steps) := by
  induction steps generalizing size with
  | nil => exact absurd hsize (h 0 rfl)
  | cons step steps ih =>
      rw [replay_size_cons]
      cases hs : lengthOf step with
      | error e =>
          obtain rfl : step = .reject e := by
            cases step <;> cases hs
            rfl
          exact ⟨e, size, rfl, .inr List.mem_cons_self⟩
      | ok first =>
          simp only
          rw [Exec.run_bind, sizeField_run]
          by_cases hmax : size + first ≤ usizeMax
          · rw [if_pos hmax]
            simp only
            obtain ⟨e, size', hr, he⟩ := ih hmax (fun rest hrest hfit => by
              apply h (first + rest) (by rw [wireLen, hs]; simp only [hrest, Option.map_some])
              rw [← Nat.add_assoc]
              exact hfit)
            exact ⟨e, size', hr, he.imp_right (List.mem_cons_of_mem _)⟩
          · rw [if_neg hmax]
            exact ⟨_, size, rfl, .inl rfl⟩

end Writers

end LxmfLite.Wire
