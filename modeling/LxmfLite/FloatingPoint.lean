import Mathlib.Algebra.Order.Ring.Rat

namespace LxmfLite.FloatingPoint

structure Format where
  exponentBits : Nat
  fractionBits : Nat

def binary32 : Format := ⟨8, 23⟩

def binary64 : Format := ⟨11, 52⟩

inductive Datum
  | nan
  | infinite (negative : Bool)
  | finite (value : ℚ)
  deriving DecidableEq

namespace Datum

def le : Datum → Datum → Bool
  | finite x, finite y => decide (x ≤ y)
  | finite _, infinite negative => !negative
  | infinite negative, finite _ => negative
  | infinite negative, infinite negative' => negative || !negative'
  | _, _ => false

def lt (x y : Datum) : Bool := x.le y && !y.le x

theorem le_eq_false_iff {x : Datum} {v : ℚ} (hx : x ≠ .nan) :
    (finite v).le x = false ↔ x.lt (finite v) = true := by
  cases x with
  | nan => exact absurd rfl hx
  | infinite negative => cases negative <;> simp [le, lt]
  | finite u =>
      have hle : ¬v ≤ u → u ≤ v := fun h => (not_le.mp h).le
      simpa [le, lt] using hle

theorem le_nan (x : Datum) : x.le nan = false := by cases x <;> rfl

theorem nan_lt (x : Datum) : nan.lt x = false := rfl

end Datum

namespace Format

variable (f : Format)

def signBit : Nat := 2 ^ (f.exponentBits + f.fractionBits)

def fraction (bits : Nat) : Nat := bits % 2 ^ f.fractionBits

def exponent (bits : Nat) : Nat := bits / 2 ^ f.fractionBits % 2 ^ f.exponentBits

def negative (bits : Nat) : Bool := bits / f.signBit % 2 = 1

def topExponent : Nat := 2 ^ f.exponentBits - 1

/-- The smallest positive number is 2 ^ -scale, and every finite number is a
whole number of these steps. -/
def scale : Nat := 2 ^ (f.exponentBits - 1) - 2 + f.fractionBits

def steps (bits : Nat) : Nat :=
  if f.exponent bits = 0 then f.fraction bits
  else (2 ^ f.fractionBits + f.fraction bits) * 2 ^ (f.exponent bits - 1)

def isFinite (bits : Nat) : Bool := f.exponent bits ≠ f.topExponent

def decode (bits : Nat) : Datum :=
  if f.isFinite bits then
    .finite ((if f.negative bits then -1 else 1) * f.steps bits / 2 ^ f.scale)
  else if f.fraction bits = 0 then .infinite (f.negative bits)
  else .nan

theorem decode_of_isFinite {bits : Nat} (h : f.isFinite bits = true) :
    ∃ v, f.decode bits = .finite v := ⟨_, if_pos h⟩

def infinity : Nat := f.topExponent * 2 ^ f.fractionBits

def quietNan : Nat := f.infinity + 2 ^ (f.fractionBits - 1)

def withSign (negative : Bool) (bits : Nat) : Nat := if negative then f.signBit + bits else bits

def nearestEven (a b : Nat) : Nat :=
  if 2 * (a % b) < b ∨ 2 * (a % b) = b ∧ a / b % 2 = 0 then a / b else a / b + 1

/-- The pattern of the number nearest to a / b steps. Above the fraction bits
the steps are counted in multiples of a power of two; the patterns follow one
another as the numbers do. -/
def nearest (a b : Nat) : Nat :=
  let shift := (a / b).log2 - f.fractionBits
  min f.infinity (shift * 2 ^ f.fractionBits + nearestEven a (b * 2 ^ shift))

def round (negative : Bool) (magnitude : ℚ) : Nat :=
  f.withSign negative (f.nearest (magnitude.num.natAbs * 2 ^ f.scale) magnitude.den)

def ofInt (n : Int) : Nat := f.round (n < 0) n.natAbs

def convert (g : Format) (bits : Nat) : Nat :=
  match g.decode bits with
  | .nan => f.withSign (g.negative bits) f.quietNan
  | .infinite negative => f.withSign negative f.infinity
  | .finite value => f.round (g.negative bits) |value|

def divide (x y : Nat) : Nat :=
  let negative := f.negative x != f.negative y
  match f.decode x, f.decode y with
  | .finite a, .finite b =>
      if b ≠ 0 then f.round negative |a / b|
      else if a ≠ 0 then f.withSign negative f.infinity
      else f.quietNan
  | .finite _, .infinite _ => f.withSign negative 0
  | .infinite _, .finite _ => f.withSign negative f.infinity
  | _, _ => f.quietNan

example : binary64.divide (binary64.ofInt 1) (binary64.ofInt 10) = 0x3fb999999999999a := by
  decide +kernel

end Format

end LxmfLite.FloatingPoint
