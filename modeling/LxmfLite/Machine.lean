import LxmfLite.Execution

namespace LxmfLite.Machine

open Execution

variable {ε σ κ : Type} {call : κ → σ → Outcome ε σ} {s : σ}

def run (call : κ → σ → Outcome ε σ) : List κ → σ → Outcome ε σ
  | [], s => .ok s
  | c :: cs, s => do
      let s ← call c s
      run call cs s

/-- What every single call keeps, a whole run keeps. -/
theorem run_invariant (call : κ → σ → Outcome ε σ) (cs : List κ) (Inv : σ → Prop)
    (hstep : ∀ c ∈ cs, ∀ s, Inv s → ∃ s', call c s = .ok s' ∧ Inv s') (h : Inv s) :
    ∃ s', run call cs s = .ok s' ∧ Inv s' := by
  induction cs generalizing s with
  | nil => exact ⟨s, rfl, h⟩
  | cons c cs ih =>
      obtain ⟨s', hc, hs'⟩ := hstep c List.mem_cons_self s h
      obtain ⟨t, hr, ht⟩ := ih (fun d hd => hstep d (List.mem_cons_of_mem c hd)) hs'
      exact ⟨t, by rw [run, hc, ok_bind, hr], ht⟩

def count (call : κ → σ → Outcome ε σ) (p : κ → σ → Bool) : List κ → σ → Nat
  | [], _ => 0
  | c :: cs, s => (if p c s then 1 else 0) + match call c s with
      | .ok s => count call p cs s
      | .error _ => 0

theorem count_le (Inv : σ → Prop) (measure : σ → Nat) {p : κ → σ → Bool}
    (hstep : ∀ c s, Inv s → ∃ s', call c s = .ok s' ∧ Inv s' ∧
      measure s' + (if p c s then 1 else 0) ≤ measure s) (cs : List κ) (h : Inv s) :
    count call p cs s ≤ measure s := by
  induction cs generalizing s with
  | nil => exact Nat.zero_le _
  | cons c cs ih =>
      obtain ⟨s', hc, hs', hle⟩ := hstep c s h
      have hrest := ih hs'
      rw [count, hc]
      simp only
      omega

/-- Calls that each bring a measure down, for as long as the state is active,
leave an active state only when they are at most as many as the measure. -/
theorem run_descends (call : κ → σ → Outcome ε σ) (cs : List κ) (Inv : σ → Prop) (active : σ → Bool)
    (measure : σ → Nat) (hstep : ∀ c ∈ cs, ∀ s, Inv s → ∃ s', call c s = .ok s' ∧ Inv s' ∧
      (active s' = true → active s = true ∧ measure s' < measure s)) (h : Inv s) :
    ∃ s', run call cs s = .ok s' ∧ Inv s' ∧
      (active s' = true → active s = true ∧ measure s' + cs.length ≤ measure s) := by
  induction cs generalizing s with
  | nil => exact ⟨s, rfl, h, fun ha => ⟨ha, Nat.le_refl _⟩⟩
  | cons c cs ih =>
      obtain ⟨s', hc, hs', hdown⟩ := hstep c List.mem_cons_self s h
      obtain ⟨t, hr, ht, hmeasure⟩ := ih (fun d hd => hstep d (List.mem_cons_of_mem c hd)) hs'
      refine ⟨t, by rw [run, hc, ok_bind, hr], ht, fun hactive => ?_⟩
      obtain ⟨hactive', hle⟩ := hmeasure hactive
      obtain ⟨hstart, hlt⟩ := hdown hactive'
      rw [List.length_cons]
      exact ⟨hstart, by omega⟩

end LxmfLite.Machine
