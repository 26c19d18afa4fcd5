import LxmfLite.Execution

namespace LxmfLite.Word

open ByteString Execution

variable {ε : Type} {w a b n : Nat}

def checkedAdd (w a b : Nat) : Option Nat := if a + b < 2 ^ w then some (a + b) else none

def checkedMul (w a b : Nat) : Option Nat := if a * b < 2 ^ w then some (a * b) else none

/-- The amount of the shift is checked; bits that leave the word are lost. -/
def checkedShl (w a amount : Nat) : Option Nat :=
  if amount < w then some (a * 2 ^ amount % 2 ^ w) else none

/-- A sum that is not checked panics when it leaves the w bits. -/
def add (w a b : Nat) : Outcome ε Nat := if a + b < 2 ^ w then .ok (a + b) else panic

def mul (w a b : Nat) : Outcome ε Nat := if a * b < 2 ^ w then .ok (a * b) else panic

def truncate (w a : Nat) : Nat := a % 2 ^ w

def shiftIn (w : Nat) : Bytes → Nat → Option Nat
  | [], v => some v
  | x :: bytes, v => ((checkedShl w v 8).bind (checkedAdd w · x.toNat)).bind (shiftIn w bytes)

theorem add_eq (h : a + b < 2 ^ w) : (add w a b : Outcome ε Nat) = .ok (a + b) := if_pos h

theorem mul_eq (h : a * b < 2 ^ w) : (mul w a b : Outcome ε Nat) = .ok (a * b) := if_pos h

theorem truncate_eq (h : a < 2 ^ w) : truncate w a = a := Nat.mod_eq_of_lt h

theorem checkedAdd_eq (h : a + b < 2 ^ w) : checkedAdd w a b = some (a + b) := if_pos h

theorem checkedMul_eq (h : a * b < 2 ^ w) : checkedMul w a b = some (a * b) := if_pos h

theorem checkedMul_none (h : 2 ^ w ≤ a * b) : checkedMul w a b = none := if_neg (Nat.not_lt.mpr h)

/-- Against a bound inside the word it does not matter why a sum is refused. -/
theorem checkedAdd_filter (h : n < 2 ^ w) :
    (checkedAdd w a b).filter (· ≤ n) = if a + b ≤ n then some (a + b) else none := by
  by_cases hab : a + b < 2 ^ w
  · rw [checkedAdd_eq hab, Option.filter]
    simp only [decide_eq_true_eq]
  · rw [checkedAdd, if_neg hab, if_neg (by omega)]
    rfl

/-- Nothing is lost while the digits fit the word. -/
theorem shiftIn_eq {bytes : Bytes} {v : Nat} (hw : 8 < w) (h : (v + 1) * 256 ^ bytes.length ≤ 2 ^ w) :
    shiftIn w bytes v = some (bytes.foldl (fun v b => v * 256 + b.toNat) v) := by
  induction bytes generalizing v with
  | nil => rfl
  | cons x bytes ih =>
      have hx := toNat_lt x
      rw [List.length_cons, Nat.pow_succ, Nat.mul_comm _ 256, ← Nat.mul_assoc] at h
      have hle : (v + 1) * 256 ≤ 2 ^ w := Nat.le_trans (Nat.le_mul_of_pos_right _ (by positivity)) h
      have hshl : checkedShl w v 8 = some (v * 256) := by
        rw [checkedShl, if_pos hw, show 2 ^ 8 = 256 from rfl, Nat.mod_eq_of_lt (by omega)]
      have hnext : (v * 256 + x.toNat + 1) * 256 ^ bytes.length ≤ 2 ^ w :=
        Nat.le_trans (Nat.mul_le_mul_right _ (by omega)) h
      rw [shiftIn, hshl, Option.bind_some, checkedAdd_eq (by omega), Option.bind_some, ih hnext]
      rfl

end LxmfLite.Word
