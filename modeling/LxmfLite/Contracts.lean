import LxmfLite.Execution

namespace LxmfLite.Contracts

open ByteString Execution

variable {ε σ α β : Type}

/-- The call does not panic, and what it returns satisfies Q. -/
def Ensures (x : Outcome ε α) (Q : α → Prop) : Prop :=
  match x with
  | .ok a => Q a
  | .error (.error _) => True
  | .error .panic => False

section Outcomes

variable {x : Outcome ε α} {f : α → Outcome ε β} {Q R : α → Prop} {S : β → Prop}

theorem Ensures.mono (h : Ensures x Q) (hq : ∀ a, Q a → R a) : Ensures x R := by
  rcases x with (_ | _) | a
  · exact h
  · trivial
  · exact hq a h

theorem Ensures.bind (h : Ensures x Q) (hf : ∀ a, Q a → Ensures (f a) S) : Ensures (x >>= f) S := by
  rcases x with (_ | _) | a
  · exact h
  · trivial
  · exact hf a h

theorem Ensures.not_panic (h : Ensures x Q) : x ≠ panic := by
  rintro rfl
  exact h

theorem Ensures.of_eq_ok (h : Ensures x Q) {a : α} (ha : x = .ok a) : Q a := by
  rw [ha] at h
  exact h

theorem ensures_fail (e : ε) : Ensures (fail e : Outcome ε α) Q := trivial

theorem ensures_ite {c : Prop} [Decidable c] {y : Outcome ε α} (hx : c → Ensures x Q)
    (hy : ¬c → Ensures y Q) : Ensures (if c then x else y) Q := by
  split
  · exact hx (by assumption)
  · exact hy (by assumption)

theorem ensures_rejectIf_bind {c : Prop} [Decidable c] {e : ε} {g : Unit → Outcome ε α}
    (h : ¬c → Ensures (g ()) Q) : Ensures (rejectIf c e >>= g) Q := by
  rw [rejectIf_bind]
  exact ensures_ite (fun _ => ensures_fail e) h

theorem ensures_orFail {o : Option α} (e : ε) (h : ∀ a, o = some a → Q a) :
    Ensures (orFail o e) Q := by
  cases o with
  | none => exact ensures_fail e
  | some a => exact h a rfl

theorem ensures_index {bs : Bytes} {i : Nat} (h : i < bs.length) :
    Ensures (index bs i : Outcome ε UInt8) (fun b => b = bs[i]) := by
  rw [index_of_lt h]
  exact rfl

theorem ensures_slice {bs : Bytes} {i j : Nat} (h : i ≤ j) (hj : j ≤ bs.length) :
    Ensures (slice bs i j : Outcome ε Bytes) (fun s => s = bs.extract i j) := by
  rw [slice_eq h hj]
  exact rfl

theorem ensures_copyFromSlice {buf src : Bytes} {i j : Nat} (h : j = i + src.length)
    (hj : j ≤ buf.length) :
    Ensures (copyFromSlice buf i j src : Outcome ε Bytes) (fun s => s.length = buf.length) := by
  rw [copyFromSlice_eq h hj]
  exact overwrite_length (h ▸ hj)

/-- A call with one error returns or fails. -/
theorem ensures_of_okOr {e : ε} (h : OkOr e x) (hq : ∀ a, x = .ok a → Q a) : Ensures x Q := by
  rcases h with ⟨a, ha⟩ | h
  · rw [ha]
    exact hq a ha
  · rw [h]
    trivial

def Fails (x : Outcome ε α) (E : ε → Prop) : Prop := ∀ e, x = fail e → E e

variable {E : ε → Prop}

theorem Fails.bind (h : Fails x E) (hf : ∀ a, Fails (f a) E) : Fails (x >>= f) E := by
  intro e he
  rcases x with (_ | e') | a
  · cases he
  · cases he
    exact h e rfl
  · exact hf a e he

theorem fails_ok (a : α) : Fails (.ok a : Outcome ε α) E := by
  intro e he
  cases he

theorem fails_fail {e : ε} (h : E e) : Fails (fail e : Outcome ε α) E := by
  intro e' he
  cases he
  exact h

theorem fails_of_okOr {e : ε} (hx : OkOr e x) (he : E e) : Fails x E := by
  rcases hx with ⟨a, rfl⟩ | rfl
  · exact fails_ok a
  · exact fails_fail he

theorem fails_rejectIf {c : Prop} [Decidable c] {e : ε} (h : E e) :
    Fails (rejectIf c e : Outcome ε Unit) E := by
  rw [rejectIf]
  split
  · exact fails_fail h
  · exact fails_ok ()

theorem fails_orFail {o : Option α} {e : ε} (h : E e) : Fails (orFail o e) E := by
  cases o with
  | none => exact fails_fail h
  | some a => exact fails_ok a

end Outcomes

namespace Exec

def OnError (x : Exec ε σ α) (s : σ) (E : σ → Prop) : Prop := ∀ e t, x.run s = (fail e, t) → E t

variable {x : Exec ε σ α} {s : σ} {E : σ → Prop}

theorem onError_pure (a : α) : OnError (pure a : Exec ε σ α) s E := by
  intro e t h
  cases h

theorem onError_lift_bind {y : Outcome ε β} {g : β → Exec ε σ α} (he : ∀ e, y = fail e → E s)
    (h : ∀ b, y = .ok b → OnError (g b) s E) : OnError (liftM y >>= g) s E := by
  rcases y with (_ | e) | b
  · intro e t hr
    cases hr
  · intro e' t hr
    cases hr
    exact he e rfl
  · exact h b rfl

theorem onError_rejectIf_bind {c : Prop} [Decidable c] {e : ε} {g : Unit → Exec ε σ α} (he : c → E s)
    (h : ¬c → OnError (g ()) s E) : OnError (Exec.rejectIf c e >>= g) s E := by
  by_cases hc : c
  · intro e' t hr
    rw [Exec.run_rejectIf_bind, if_pos hc] at hr
    cases hr
    exact he hc
  · intro e' t hr
    rw [Exec.run_rejectIf_bind, if_neg hc] at hr
    exact h hc e' t hr

theorem onError_get_bind {g : σ → Exec ε σ α} (h : OnError (g s) s E) :
    OnError (Exec.get >>= g) s E := h

theorem onError_set_bind {t : σ} {g : Unit → Exec ε σ α} (h : OnError (g ()) t E) :
    OnError (Exec.set t >>= g) s E := h

theorem onError_update_bind {write : σ → Outcome ε σ} {g : Unit → Exec ε σ α}
    (he : ∀ e, write s = fail e → E s) (h : ∀ t, write s = .ok t → OnError (g ()) t E) :
    OnError (Exec.update write >>= g) s E := by
  intro e t hr
  rw [Exec.update, Exec.bind_assoc, Exec.run_get_bind, Exec.bind_assoc] at hr
  exact onError_lift_bind he (fun u hu => onError_set_bind (h u hu)) e t hr

end Exec

end LxmfLite.Contracts
