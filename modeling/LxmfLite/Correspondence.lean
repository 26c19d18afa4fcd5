import Mathlib.Data.List.Basic

namespace LxmfLite.Correspondence

/-- What a run leaves behind: what was begun, and what was ended, each with the
number of beginnings before it. -/
structure Log (β ε : Type) where
  begun : List β
  ended : List (Nat × ε)

variable {β ε κ : Type} {Begin : β → Prop} {Refers : List β → ε → Prop} {log : Log β ε}

namespace Log

def empty : Log β ε := ⟨[], []⟩

def add (log : Log β ε) : Option (β ⊕ ε) → Log β ε
  | none => log
  | some (.inl b) => { log with begun := log.begun ++ [b] }
  | some (.inr e) => { log with ended := log.ended ++ [(log.begun.length, e)] }

end Log

def recordFrom (event : κ → Option (β ⊕ ε)) : List κ → Log β ε → Log β ε
  | [], log => log
  | c :: cs, log => recordFrom event cs (log.add (event c))

def record (event : κ → Option (β ⊕ ε)) (calls : List κ) : Log β ε := recordFrom event calls .empty

/-- Every beginning is well founded, and every end refers to the beginnings before it. -/
structure Corresponds (Begin : β → Prop) (Refers : List β → ε → Prop) (log : Log β ε) : Prop where
  begun : ∀ b ∈ log.begun, Begin b
  ended : ∀ n e, (n, e) ∈ log.ended → n ≤ log.begun.length ∧ Refers (log.begun.take n) e

namespace Corresponds

theorem empty : Corresponds Begin Refers .empty :=
  ⟨fun _ h => absurd h List.not_mem_nil, fun _ _ h => absurd h List.not_mem_nil⟩

theorem begin (h : Corresponds Begin Refers log) {b : β} (hb : Begin b) :
    Corresponds Begin Refers (log.add (some (.inl b))) := by
  refine ⟨fun c hc => ?_, fun n e he => ?_⟩
  · rcases List.mem_append.mp hc with hc | hc
    · exact h.begun c hc
    · rw [List.mem_singleton.mp hc]
      exact hb
  · obtain ⟨hn, hr⟩ := h.ended n e he
    rw [Log.add, List.length_append, List.take_append_of_le_length hn]
    exact ⟨Nat.le_add_right_of_le hn, hr⟩

theorem finish (h : Corresponds Begin Refers log) {e : ε} (he : Refers log.begun e) :
    Corresponds Begin Refers (log.add (some (.inr e))) := by
  refine ⟨h.begun, fun n d hd => ?_⟩
  rcases List.mem_append.mp hd with hd | hd
  · exact h.ended n d hd
  · cases List.mem_singleton.mp hd
    rw [Log.add, List.take_length]
    exact ⟨Nat.le_refl _, he⟩

end Corresponds

variable {event : κ → Option (β ⊕ ε)}

/-- Where each end refers to well founded beginnings, a run keeps the correspondence. -/
theorem recordFrom_corresponds (hbegin : ∀ c b, event c = some (.inl b) → Begin b)
    (hend : ∀ c e, event c = some (.inr e) → ∀ bs, (∀ b ∈ bs, Begin b) → Refers bs e)
    (calls : List κ) (h : Corresponds Begin Refers log) :
    Corresponds Begin Refers (recordFrom event calls log) := by
  induction calls generalizing log with
  | nil => exact h
  | cons c cs ih =>
      apply ih
      cases hc : event c with
      | none => exact h
      | some happened =>
          cases happened with
          | inl b => exact h.begin (hbegin c b hc)
          | inr e => exact h.finish (hend c e hc log.begun h.begun)

theorem record_corresponds (hbegin : ∀ c b, event c = some (.inl b) → Begin b)
    (hend : ∀ c e, event c = some (.inr e) → ∀ bs, (∀ b ∈ bs, Begin b) → Refers bs e)
    (calls : List κ) : Corresponds Begin Refers (record event calls) :=
  recordFrom_corresponds hbegin hend calls .empty

end LxmfLite.Correspondence
