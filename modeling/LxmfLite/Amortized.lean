import LxmfLite.Execution

namespace LxmfLite.Amortized

open Execution

variable {ε σ α β : Type} {measure : σ → Nat}

def left (after : α → Nat) : Outcome ε α → Nat
  | .ok a => after a
  | .error _ => 0

/-- The call returns the result, and the measure grows by no more than the
potential goes down. -/
def Spends (measure : σ → Nat) (x : Exec ε σ α) (result : Outcome ε α) (before : Nat)
    (after : α → Nat) : Prop :=
  ∀ s, ∃ s', x.run s = (result, s') ∧ measure s' + left after result ≤ measure s + before

namespace Spends

theorem lift {result : Outcome ε α} {before : Nat} {after : α → Nat}
    (h : ∀ a, result = .ok a → after a ≤ before) : Spends measure (liftM result) result before after := by
  intro s
  refine ⟨s, rfl, Nat.add_le_add_left ?_ _⟩
  cases result with
  | error e => exact Nat.zero_le _
  | ok a => exact h a rfl

theorem pure (a : α) {before : Nat} {after : α → Nat} (h : after a ≤ before) :
    Spends measure (Pure.pure a : Exec ε σ α) (.ok a) before after :=
  fun s => ⟨s, rfl, Nat.add_le_add_left h _⟩

theorem bind {x : Exec ε σ α} {f : α → Exec ε σ β} {result : Outcome ε α} {g : α → Outcome ε β}
    {before : Nat} {after : α → Nat} {after' : β → Nat} (h : Spends measure x result before after)
    (hf : ∀ a, result = .ok a → Spends measure (f a) (g a) (after a) after') :
    Spends measure (x >>= f) (result >>= g) before after' := by
  intro s
  obtain ⟨t, hr, ht⟩ := h s
  rw [Exec.run_bind, hr]
  cases result with
  | error e => exact ⟨t, rfl, ht⟩
  | ok a =>
      obtain ⟨u, hu, hle⟩ := hf a rfl t
      exact ⟨u, hu, Nat.le_trans hle ht⟩

theorem ok_bind {x : Exec ε σ α} {f : α → Exec ε σ β} {a : α} {result : Outcome ε β}
    {before : Nat} {after : α → Nat} {after' : β → Nat} (h : Spends measure x (.ok a) before after)
    (hf : Spends measure (f a) result (after a) after') : Spends measure (x >>= f) result before after' := by
  intro s
  obtain ⟨t, hr, ht⟩ := h s
  obtain ⟨u, hu, hle⟩ := hf t
  exact ⟨u, by rw [Exec.run_bind, hr]; exact hu, Nat.le_trans hle ht⟩

theorem mono {x : Exec ε σ α} {result : Outcome ε α} {before before' : Nat} {after after' : α → Nat}
    (h : Spends measure x result before after) (hbefore : before ≤ before')
    (hafter : ∀ a, result = .ok a → after' a ≤ after a) : Spends measure x result before' after' := by
  intro s
  obtain ⟨t, hr, ht⟩ := h s
  refine ⟨t, hr, Nat.le_trans ?_ (Nat.le_trans ht (Nat.add_le_add_left hbefore _))⟩
  cases result with
  | error e => exact Nat.le_refl _
  | ok a => exact Nat.add_le_add_left (hafter a rfl) _

theorem frame {x : Exec ε σ α} {result : Outcome ε α} {before : Nat} {after : α → Nat}
    (h : Spends measure x result before after) (spare : Nat) :
    Spends measure x result (before + spare) (fun a => after a + spare) := by
  intro s
  obtain ⟨t, hr, ht⟩ := h s
  refine ⟨t, hr, ?_⟩
  cases result with
  | error e => exact Nat.le_trans ht (Nat.add_le_add_left (Nat.le_add_right _ _) _)
  | ok a =>
      simp only [left] at ht ⊢
      omega

end Spends

end LxmfLite.Amortized
