import LxmfLite.FloatingPoint
import Mathlib.Algebra.Order.Field.Basic
import Mathlib.Algebra.Order.Field.Rat
import Mathlib.Data.Nat.Log
import Mathlib.Tactic.Linarith
import Mathlib.Tactic.Ring

namespace LxmfLite.FloatingPoint.Format

section NearestEven

variable {a b a' b' k : Nat}

/-- Rounding stays at or below a whole number up to the half above it, which
belongs to the even one. -/
theorem nearestEven_le_iff (hb : 0 < b) :
    nearestEven a b ≤ k ↔ 2 * a < (2 * k + 1) * b ∨ 2 * a = (2 * k + 1) * b ∧ k % 2 = 0 := by
  have ha := Nat.div_add_mod a b
  have hr := Nat.mod_lt a hb
  rw [nearestEven]
  generalize a / b = q at ha ⊢
  generalize a % b = r at ha hr ⊢
  subst ha
  have hk : (2 * k + 1) * b = 2 * (b * k) + b := by ring
  rw [hk]
  rcases Nat.lt_trichotomy k q with hlt | rfl | hlt
  · have hle : b * k + b ≤ b * q := by
      rw [← Nat.mul_succ]
      exact Nat.mul_le_mul_left b hlt
    split <;> omega
  · split <;> omega
  · have hle : b * q + b ≤ b * k := by
      rw [← Nat.mul_succ]
      exact Nat.mul_le_mul_left b hlt
    split <;> omega

theorem nearestEven_le_of_le (hb : 0 < b) (h : a ≤ k * b) : nearestEven a b ≤ k := by
  refine (nearestEven_le_iff hb).mpr (.inl ?_)
  have hk : (2 * k + 1) * b = 2 * (k * b) + b := by ring
  omega

theorem le_nearestEven_of_le (hb : 0 < b) (h : k * b ≤ a) : k ≤ nearestEven a b := by
  by_contra hlt
  have hk : (2 * (k - 1) + 1) * b + b = 2 * (k * b) := by
    obtain ⟨j, rfl⟩ : ∃ j, k = j + 1 := ⟨k - 1, by omega⟩
    rw [Nat.add_sub_cancel]
    ring
  have hle := (nearestEven_le_iff hb).mp (Nat.le_sub_one_of_lt (Nat.lt_of_not_le hlt))
  omega

theorem nearestEven_mul (hb : 0 < b) (k : Nat) : nearestEven (k * b) b = k :=
  Nat.le_antisymm (nearestEven_le_of_le hb le_rfl) (le_nearestEven_of_le hb le_rfl)

theorem nearestEven_mono (hb : 0 < b) (hb' : 0 < b') (h : a * b' ≤ a' * b) :
    nearestEven a b ≤ nearestEven a' b' := by
  refine (nearestEven_le_iff hb).mpr ?_
  have hself := (nearestEven_le_iff hb').mp (le_refl (nearestEven a' b'))
  generalize nearestEven a' b' = k at hself ⊢
  rcases hself with hlt | ⟨heq, heven⟩
  · left
    have hmul := Nat.mul_lt_mul_of_pos_right hlt hb
    refine Nat.lt_of_mul_lt_mul_right (a := b') ?_
    calc 2 * a * b' = 2 * (a * b') := by ring
      _ ≤ 2 * (a' * b) := Nat.mul_le_mul_left 2 h
      _ = 2 * a' * b := by ring
      _ < (2 * k + 1) * b' * b := hmul
      _ = (2 * k + 1) * b * b' := by ring
  · have hle : 2 * a * b' ≤ (2 * k + 1) * b * b' := by
      calc 2 * a * b' = 2 * (a * b') := by ring
        _ ≤ 2 * (a' * b) := Nat.mul_le_mul_left 2 h
        _ = 2 * a' * b := by ring
        _ = (2 * k + 1) * b * b' := by rw [heq]; ring
    rcases Nat.lt_or_eq_of_le (Nat.le_of_mul_le_mul_right hle hb') with hlt | heq'
    · exact .inl hlt
    · exact .inr ⟨heq', heven⟩

/-- The rounding is off by a half at most. -/
theorem nearestEven_error (hb : 0 < b) :
    2 * a ≤ 2 * (nearestEven a b * b) + b ∧ 2 * (nearestEven a b * b) ≤ 2 * a + b := by
  have hupper := (nearestEven_le_iff hb).mp (le_refl (nearestEven a b))
  have hk : (2 * nearestEven a b + 1) * b = 2 * (nearestEven a b * b) + b := by ring
  refine ⟨by omega, ?_⟩
  by_contra hlt
  have hpos : 0 < nearestEven a b := by
    by_contra hz
    rw [Nat.eq_zero_of_not_pos hz, Nat.zero_mul] at hlt
    omega
  have hprev : (2 * (nearestEven a b - 1) + 1) * b + b = 2 * (nearestEven a b * b) := by
    obtain ⟨j, hj⟩ : ∃ j, nearestEven a b = j + 1 := ⟨nearestEven a b - 1, by omega⟩
    rw [hj, Nat.add_sub_cancel]
    ring
  have hle : nearestEven a b ≤ nearestEven a b - 1 := (nearestEven_le_iff hb).mpr (.inl (by omega))
  omega

end NearestEven

variable {f : Format}

section Patterns

variable {p q s : Nat}

theorem infinity_eq (f : Format) : f.infinity + 2 ^ f.fractionBits = f.signBit := by
  have hpos : 0 < 2 ^ f.exponentBits := Nat.two_pow_pos _
  rw [infinity, topExponent, signBit, Nat.pow_add, ← Nat.succ_mul]
  congr 1
  omega

theorem exponent_of_lt (h : p < f.infinity) : f.exponent p = p / 2 ^ f.fractionBits := by
  refine Nat.mod_eq_of_lt (Nat.div_lt_of_lt_mul (Nat.lt_of_lt_of_le h ?_))
  rw [← Nat.pow_add, Nat.add_comm, ← signBit, ← infinity_eq]
  exact Nat.le_add_right _ _

/-- A significand in steps of a power of two, put together as a pattern. A
significand that fills the fraction bits to the full is the next power. -/
theorem steps_pattern (hq : q ≤ 2 ^ (f.fractionBits + 1)) (hs : s = 0 ∨ 2 ^ f.fractionBits ≤ q)
    (h : s * 2 ^ f.fractionBits + q < f.infinity) :
    f.steps (s * 2 ^ f.fractionBits + q) = q * 2 ^ s := by
  have hpos : 0 < 2 ^ f.fractionBits := Nat.two_pow_pos _
  rw [steps, exponent_of_lt h, fraction, Nat.mul_add_mod', Nat.add_comm (s * _),
    Nat.add_mul_div_right _ _ hpos]
  rw [Nat.pow_succ] at hq
  rcases Nat.lt_or_ge q (2 ^ f.fractionBits) with hlt | hge
  · obtain rfl : s = 0 := hs.resolve_right (Nat.not_le.mpr hlt)
    rw [Nat.div_eq_of_lt hlt, Nat.mod_eq_of_lt hlt, if_pos rfl, Nat.pow_zero, Nat.mul_one]
  rcases Nat.lt_or_ge q (2 ^ f.fractionBits * 2) with hlt | hfull
  · have hdiv : q / 2 ^ f.fractionBits = 1 := Nat.div_eq_of_lt_le (by omega) (by omega)
    have hmod : q % 2 ^ f.fractionBits = q - 2 ^ f.fractionBits := by
      rw [Nat.mod_eq_sub_mod hge, Nat.mod_eq_of_lt (by omega)]
    rw [hdiv, hmod, if_neg (by omega), Nat.add_sub_cancel_left, Nat.add_sub_cancel' hge]
  · obtain rfl : q = 2 ^ f.fractionBits * 2 := Nat.le_antisymm hq hfull
    rw [Nat.mul_div_cancel_left 2 hpos, Nat.mul_mod_right, if_neg (by omega), Nat.add_zero,
      show 2 + s - 1 = s + 1 by omega, Nat.pow_succ]
    ring

end Patterns

section Nearest

variable {a b a' b' : Nat}

def shift (f : Format) (a b : Nat) : Nat := (a / b).log2 - f.fractionBits

def significand (f : Format) (a b : Nat) : Nat := nearestEven a (b * 2 ^ f.shift a b)

theorem nearest_eq (a b : Nat) : f.nearest a b =
    min f.infinity (f.shift a b * 2 ^ f.fractionBits + f.significand a b) := rfl

theorem significand_le (hb : 0 < b) : f.significand a b ≤ 2 ^ (f.fractionBits + 1) := by
  refine nearestEven_le_of_le (Nat.mul_pos hb (Nat.two_pow_pos _)) ?_
  have hlog : a / b < 2 ^ (f.fractionBits + 1 + f.shift a b) := by
    refine Nat.lt_of_lt_of_le Nat.lt_log2_self (Nat.pow_le_pow_right (by omega) ?_)
    rw [shift]
    omega
  have hlt := (Nat.div_lt_iff_lt_mul hb).mp hlog
  rw [Nat.pow_add] at hlt
  refine Nat.le_of_lt (Nat.lt_of_lt_of_eq hlt ?_)
  ring

theorem pow_shift_le (hb : 0 < b) (hs : 0 < f.shift a b) :
    2 ^ (f.fractionBits + f.shift a b) * b ≤ a := by
  have hlog : (a / b).log2 = f.fractionBits + f.shift a b := by
    rw [shift] at hs ⊢
    omega
  have hne : a / b ≠ 0 := by
    intro hz
    rw [hz, Nat.log2_zero] at hlog
    omega
  have hle := Nat.log2_self_le hne
  rw [hlog] at hle
  exact (Nat.le_div_iff_mul_le hb).mp hle

theorem le_significand (hb : 0 < b) (hs : 0 < f.shift a b) :
    2 ^ f.fractionBits ≤ f.significand a b := by
  refine le_nearestEven_of_le (Nat.mul_pos hb (Nat.two_pow_pos _)) ?_
  have hmul := pow_shift_le hb hs
  rw [Nat.pow_add] at hmul
  refine Nat.le_trans (Nat.le_of_eq ?_) hmul
  ring

theorem shift_mono (hb : 0 < b) (hb' : 0 < b') (h : a * b' ≤ a' * b) : f.shift a b ≤ f.shift a' b' := by
  have hdiv : a / b ≤ a' / b' := by
    rw [Nat.le_div_iff_mul_le hb']
    refine Nat.le_of_mul_le_mul_right ?_ hb
    calc a / b * b' * b = a / b * b * b' := by ring
      _ ≤ a * b' := Nat.mul_le_mul_right b' (Nat.div_mul_le_self a b)
      _ ≤ a' * b := h
  rw [shift, shift]
  have hlog : (a / b).log2 ≤ (a' / b').log2 := by
    by_cases hz : a / b = 0
    · rw [hz, Nat.log2_zero]
      exact Nat.zero_le _
    · have hpos := Nat.lt_of_lt_of_le (Nat.pos_of_ne_zero hz) hdiv
      exact (Nat.le_log2 (Nat.ne_of_gt hpos)).mpr (Nat.le_trans (Nat.log2_self_le hz) hdiv)
  omega

/-- The larger number has the larger pattern, and as many steps. -/
theorem nearest_mono (hb : 0 < b) (hb' : 0 < b') (h : a * b' ≤ a' * b) :
    f.shift a b * 2 ^ f.fractionBits + f.significand a b ≤
      f.shift a' b' * 2 ^ f.fractionBits + f.significand a' b' ∧
    f.significand a b * 2 ^ f.shift a b ≤ f.significand a' b' * 2 ^ f.shift a' b' := by
  rcases Nat.lt_or_eq_of_le (shift_mono hb hb' h) with hlt | heq
  · have hq := significand_le (f := f) (a := a) hb
    have hq' := le_significand (f := f) hb' (Nat.lt_of_le_of_lt (Nat.zero_le _) hlt)
    constructor
    · have hmul := Nat.mul_le_mul_right (2 ^ f.fractionBits) (Nat.succ_le_of_lt hlt)
      rw [Nat.succ_mul] at hmul
      rw [Nat.pow_succ] at hq
      omega
    · calc f.significand a b * 2 ^ f.shift a b
          ≤ 2 ^ (f.fractionBits + 1) * 2 ^ f.shift a b := Nat.mul_le_mul_right _ hq
        _ = 2 ^ f.fractionBits * 2 ^ (f.shift a b + 1) := by ring
        _ ≤ f.significand a' b' * 2 ^ f.shift a' b' :=
            Nat.mul_le_mul hq' (Nat.pow_le_pow_right (by omega) hlt)
  · have hpos : 0 < 2 ^ f.shift a' b' := Nat.two_pow_pos _
    have hq : f.significand a b ≤ f.significand a' b' := by
      rw [significand, significand, heq]
      refine nearestEven_mono (Nat.mul_pos hb hpos) (Nat.mul_pos hb' hpos) ?_
      rw [← Nat.mul_assoc, ← Nat.mul_assoc]
      exact Nat.mul_le_mul_right _ h
    rw [heq]
    exact ⟨Nat.add_le_add_left hq _, Nat.mul_le_mul_right _ hq⟩

theorem steps_nearest (hb : 0 < b) (h : f.nearest a b < f.infinity) :
    f.steps (f.nearest a b) = f.significand a b * 2 ^ f.shift a b := by
  rw [nearest_eq] at h ⊢
  have hlt : f.shift a b * 2 ^ f.fractionBits + f.significand a b < f.infinity := by omega
  rw [Nat.min_eq_right (Nat.le_of_lt hlt)]
  refine steps_pattern (significand_le hb) ?_ hlt
  rcases Nat.eq_zero_or_pos (f.shift a b) with hz | hpos
  · exact .inl hz
  · exact .inr (le_significand hb hpos)

theorem shift_le {t : Nat} (hb : 0 < b) (h : a < 2 ^ (f.fractionBits + t + 1) * b) :
    f.shift a b ≤ t := by
  have hdiv := (Nat.div_lt_iff_lt_mul hb).mpr h
  rw [shift]
  by_cases hz : a / b = 0
  · rw [hz, Nat.log2_zero]
    omega
  · have hlog := (Nat.log2_lt hz).mpr hdiv
    omega

theorem nearest_lt_infinity {t : Nat} (hb : 0 < b) (h : a < 2 ^ (f.fractionBits + t + 1) * b)
    (ht : t + 2 < f.topExponent) : f.nearest a b < f.infinity := by
  have hshift := Nat.mul_le_mul_right (2 ^ f.fractionBits) (shift_le hb h)
  have hq := significand_le (f := f) (a := a) hb
  have hpos : 0 < 2 ^ f.fractionBits := Nat.two_pow_pos _
  have htop : (t + 2 + 1) * 2 ^ f.fractionBits ≤ f.topExponent * 2 ^ f.fractionBits :=
    Nat.mul_le_mul_right _ ht
  rw [Nat.pow_succ] at hq
  rw [nearest_eq, infinity]
  refine Nat.lt_of_le_of_lt (Nat.min_le_right _ _) ?_
  rw [Nat.add_mul, Nat.add_mul] at htop
  omega

section Exact

variable {m j : Nat} (hb : 0 < b) (hm : m < 2 ^ (f.fractionBits + 1)) (ha : a = m * 2 ^ j * b)
include hb hm ha

theorem shift_le_of_exact : f.shift a b ≤ j := by
  refine shift_le hb ?_
  rw [ha, show f.fractionBits + j + 1 = f.fractionBits + 1 + j by omega, Nat.pow_add]
  exact Nat.mul_lt_mul_of_pos_right (Nat.mul_lt_mul_of_pos_right hm (Nat.two_pow_pos _)) hb

theorem significand_exact : f.significand a b * 2 ^ f.shift a b = m * 2 ^ j := by
  obtain ⟨i, hi⟩ := Nat.exists_eq_add_of_le (shift_le_of_exact hb hm ha)
  have hsplit : a = m * 2 ^ i * (b * 2 ^ f.shift a b) := by
    conv_lhs => rw [ha, hi]
    rw [Nat.pow_add]
    ring
  have hq : f.significand a b = m * 2 ^ i := by
    have hmul := nearestEven_mul (Nat.mul_pos hb (Nat.two_pow_pos (f.shift a b))) (m * 2 ^ i)
    rwa [← hsplit] at hmul
  rw [hq]
  conv_rhs => rw [hi]
  rw [Nat.pow_add]
  ring

theorem nearest_lt_infinity_of_exact (hj : j + 2 ≤ f.topExponent) : f.nearest a b < f.infinity := by
  have hshift := shift_le_of_exact hb hm ha
  have hexact := significand_exact hb hm ha
  have hdiv : a / b = m * 2 ^ j := by rw [ha, Nat.mul_div_cancel _ hb]
  have hlt : f.significand a b < 2 ^ (f.fractionBits + 1) := by
    refine Nat.lt_of_mul_lt_mul_right (a := 2 ^ f.shift a b) ?_
    rw [hexact, ← hdiv, ← Nat.pow_add]
    refine Nat.lt_of_lt_of_le Nat.lt_log2_self (Nat.pow_le_pow_right (by omega) ?_)
    rw [shift]
    omega
  have hmul := Nat.mul_le_mul_right (2 ^ f.fractionBits) hshift
  have htop := Nat.mul_le_mul_right (2 ^ f.fractionBits) hj
  rw [Nat.add_mul] at htop
  rw [Nat.pow_succ] at hlt
  rw [nearest_eq, infinity]
  refine Nat.lt_of_le_of_lt (Nat.min_le_right _ _) ?_
  omega

end Exact

end Nearest

section Signs

variable {p : Nat}

theorem exponent_signBit_add (p : Nat) : f.exponent (f.signBit + p) = f.exponent p := by
  rw [exponent, exponent, signBit, Nat.pow_add, Nat.mul_comm, Nat.mul_add_div (Nat.two_pow_pos _),
    Nat.add_mod_left]

theorem fraction_signBit_add (p : Nat) : f.fraction (f.signBit + p) = f.fraction p := by
  rw [fraction, fraction, signBit, Nat.pow_add, Nat.mul_comm, Nat.mul_add_mod]

theorem signBit_pos (f : Format) : 0 < f.signBit := Nat.two_pow_pos _

theorem decode_withSign (negative : Bool) (h : p < f.infinity) :
    f.decode (f.withSign negative p) =
      .finite ((if negative then -1 else 1) * f.steps p / 2 ^ f.scale) := by
  have hlt : p < f.signBit := by
    rw [← infinity_eq]
    exact Nat.lt_add_right _ h
  have hfinite : f.isFinite p = true := by
    rw [isFinite, decide_eq_true_eq, exponent_of_lt h]
    exact Nat.ne_of_lt (Nat.div_lt_of_lt_mul (by rwa [Nat.mul_comm]))
  cases negative with
  | false =>
      have hsign : f.negative p = false := by
        rw [Format.negative, Nat.div_eq_of_lt hlt]
        rfl
      rw [withSign, if_neg Bool.false_ne_true, decode, if_pos hfinite, hsign]
  | true =>
      have hsign : f.negative (f.signBit + p) = true := by
        rw [Format.negative, Nat.add_div_left _ (signBit_pos f), Nat.div_eq_of_lt hlt]
        rfl
      have hsame : f.isFinite (f.signBit + p) = f.isFinite p := by
        rw [isFinite, isFinite, exponent_signBit_add]
      have hsteps : f.steps (f.signBit + p) = f.steps p := by
        rw [steps, steps, exponent_signBit_add, fraction_signBit_add]
      rw [withSign, if_pos rfl, decode, hsame, if_pos hfinite, hsign, hsteps]

end Signs

section Numbers

variable {x y : ℚ}

/-- The number that a magnitude rounds to, were there no largest one. -/
def magnitude (f : Format) (x : ℚ) : ℚ :=
  (f.significand (x.num.natAbs * 2 ^ f.scale) x.den *
    2 ^ f.shift (x.num.natAbs * 2 ^ f.scale) x.den : ℕ) / 2 ^ f.scale

def rounded (f : Format) (x : ℚ) : ℚ := (if x < 0 then -1 else 1) * f.magnitude |x|

theorem natAbs_num (hx : 0 ≤ x) : (x.num.natAbs : ℚ) = x * x.den := by
  have hnum : (x.num.natAbs : ℤ) = x.num := Int.natAbs_of_nonneg (Rat.num_nonneg.mpr hx)
  rw [Rat.mul_den_eq_num, ← hnum, Int.cast_natCast, Int.natAbs_natCast]

theorem den_pos (x : ℚ) : (0 : ℚ) < x.den := Nat.cast_pos.mpr x.den_pos

theorem scale_pos (f : Format) : (0 : ℚ) < 2 ^ f.scale := pow_pos (by norm_num) _

theorem magnitude_nonneg (x : ℚ) : 0 ≤ f.magnitude x :=
  div_nonneg (Nat.cast_nonneg _) (scale_pos f).le

theorem magnitude_mono (hx : 0 ≤ x) (h : x ≤ y) : f.magnitude x ≤ f.magnitude y := by
  have hcross : x.num.natAbs * 2 ^ f.scale * y.den ≤ y.num.natAbs * 2 ^ f.scale * x.den := by
    have hq : (x.num.natAbs : ℚ) * y.den ≤ y.num.natAbs * x.den := by
      rw [natAbs_num hx, natAbs_num (hx.trans h)]
      calc x * x.den * y.den = x * (x.den * y.den) := by ring
        _ ≤ y * (x.den * y.den) := mul_le_mul_of_nonneg_right h (mul_pos (den_pos x) (den_pos y)).le
        _ = y * y.den * x.den := by ring
    have hn : x.num.natAbs * y.den ≤ y.num.natAbs * x.den := by exact_mod_cast hq
    calc x.num.natAbs * 2 ^ f.scale * y.den = x.num.natAbs * y.den * 2 ^ f.scale := by ring
      _ ≤ y.num.natAbs * x.den * 2 ^ f.scale := Nat.mul_le_mul_right _ hn
      _ = y.num.natAbs * 2 ^ f.scale * x.den := by ring
  refine div_le_div_of_nonneg_right ?_ (scale_pos f).le
  exact Nat.cast_le.mpr (nearest_mono x.den_pos y.den_pos hcross).2

theorem rounded_mono (h : x ≤ y) : f.rounded x ≤ f.rounded y := by
  rw [rounded, rounded]
  by_cases hy : y < 0
  · have hx : x < 0 := lt_of_le_of_lt h hy
    rw [if_pos hx, if_pos hy, neg_one_mul, neg_one_mul]
    refine neg_le_neg (magnitude_mono (abs_nonneg y) ?_)
    rw [abs_of_neg hx, abs_of_neg hy]
    exact neg_le_neg h
  · rw [if_neg hy, one_mul]
    by_cases hx : x < 0
    · rw [if_pos hx, neg_one_mul]
      exact (neg_nonpos.mpr (magnitude_nonneg _)).trans (magnitude_nonneg _)
    · rw [if_neg hx, one_mul, abs_of_nonneg (not_lt.mp hx), abs_of_nonneg (not_lt.mp hy)]
      exact magnitude_mono (not_lt.mp hx) h

theorem steps_eq (bits : Nat) (h2 : 2 ≤ f.topExponent) (h : f.isFinite bits = true) :
    ∃ m j, f.steps bits = m * 2 ^ j ∧ m < 2 ^ (f.fractionBits + 1) ∧ j + 2 ≤ f.topExponent := by
  have hfraction : f.fraction bits < 2 ^ f.fractionBits := Nat.mod_lt _ (Nat.two_pow_pos _)
  have hpow := Nat.pow_succ (n := 2) (m := f.fractionBits)
  rw [isFinite, decide_eq_true_eq] at h
  rw [steps]
  split
  case isTrue hz => exact ⟨f.fraction bits, 0, by rw [Nat.pow_zero, Nat.mul_one], by omega, h2⟩
  case isFalse hz =>
    have hlt : f.exponent bits < 2 ^ f.exponentBits := Nat.mod_lt _ (Nat.two_pow_pos _)
    refine ⟨_, f.exponent bits - 1, rfl, by omega, ?_⟩
    rw [topExponent] at h ⊢
    omega

def Fits (f : Format) (x : ℚ) : Prop := f.nearest (x.num.natAbs * 2 ^ f.scale) x.den < f.infinity

theorem fits_of_lt {t : Nat} (hx : 0 ≤ x) (h : x * 2 ^ f.scale < 2 ^ (f.fractionBits + t + 1))
    (ht : t + 2 < f.topExponent) : f.Fits x := by
  refine nearest_lt_infinity x.den_pos ?_ ht
  have hq : (x.num.natAbs : ℚ) * 2 ^ f.scale < 2 ^ (f.fractionBits + t + 1) * x.den := by
    rw [natAbs_num hx, mul_right_comm]
    exact mul_lt_mul_of_pos_right h (den_pos x)
  exact_mod_cast hq

section Exact

variable {m j : Nat} (hx : 0 ≤ x) (h : x = (m * 2 ^ j : ℕ) / 2 ^ f.scale)
include hx h

theorem steps_of_exact : x.num.natAbs * 2 ^ f.scale = m * 2 ^ j * x.den := by
  have hmul : ((m * 2 ^ j : ℕ) : ℚ) = x * 2 ^ f.scale := (div_eq_iff (scale_pos f).ne').mp h.symm
  have hq : (x.num.natAbs : ℚ) * 2 ^ f.scale = (m * 2 ^ j : ℕ) * x.den := by
    rw [natAbs_num hx, mul_right_comm, hmul]
  exact_mod_cast hq

theorem magnitude_exact (hm : m < 2 ^ (f.fractionBits + 1)) : f.magnitude x = x := by
  rw [magnitude, significand_exact x.den_pos hm (steps_of_exact hx h), ← h]

theorem fits_of_exact (hm : m < 2 ^ (f.fractionBits + 1)) (hj : j + 2 ≤ f.topExponent) : f.Fits x :=
  nearest_lt_infinity_of_exact x.den_pos hm (steps_of_exact hx h) hj

end Exact

/-- Rounding is off by half of the last bit, or by half of the smallest step. -/
theorem magnitude_error (hx : 0 ≤ x) :
    |f.magnitude x - x| ≤ max (x / 2 ^ (f.fractionBits + 1)) (1 / 2 ^ (f.scale + 1)) := by
  have hscale := scale_pos f
  have hden := den_pos x
  obtain ⟨a, ha⟩ : ∃ a, a = x.num.natAbs * 2 ^ f.scale := ⟨_, rfl⟩
  have haq : (a : ℚ) = x * x.den * 2 ^ f.scale := by
    rw [ha, Nat.cast_mul, natAbs_num hx, Nat.cast_pow, Nat.cast_ofNat]
  have herror := nearestEven_error (a := a) (Nat.mul_pos x.den_pos (Nat.two_pow_pos (f.shift a x.den)))
  rw [magnitude, ← ha]
  rw [← significand] at herror
  generalize hq : f.significand a x.den = q at herror
  generalize hs : f.shift a x.den = s at herror
  have hpow : (0 : ℚ) < 2 ^ s := pow_pos (by norm_num) _
  -- the error in steps, and then in the unit of the format
  have hsteps : |((q * 2 ^ s : ℕ) : ℚ) - x * 2 ^ f.scale| ≤ 2 ^ s / 2 := by
    obtain ⟨hlow, hhigh⟩ := herror
    have hlow' : 2 * (a : ℚ) ≤ 2 * (q * (x.den * 2 ^ s)) + x.den * 2 ^ s := by exact_mod_cast hlow
    have hhigh' : 2 * ((q : ℚ) * (x.den * 2 ^ s)) ≤ 2 * a + x.den * 2 ^ s := by exact_mod_cast hhigh
    rw [haq] at hlow' hhigh'
    rw [abs_le, Nat.cast_mul, Nat.cast_pow, Nat.cast_ofNat]
    constructor
    · refine le_of_mul_le_mul_right ?_ hden
      linarith
    · refine le_of_mul_le_mul_right ?_ hden
      linarith
  have hunit : |((q * 2 ^ s : ℕ) : ℚ) / 2 ^ f.scale - x| ≤ 2 ^ s / 2 / 2 ^ f.scale := by
    have hfactor : ((q * 2 ^ s : ℕ) : ℚ) / 2 ^ f.scale - x =
        (((q * 2 ^ s : ℕ) : ℚ) - x * 2 ^ f.scale) / 2 ^ f.scale := by
      rw [sub_div, mul_div_cancel_right₀ _ hscale.ne']
    rw [hfactor, abs_div, abs_of_pos hscale]
    exact div_le_div_of_nonneg_right hsteps hscale.le
  refine hunit.trans ?_
  rcases Nat.eq_zero_or_pos s with rfl | hpos
  · refine le_max_of_le_right (le_of_eq ?_)
    rw [pow_zero, pow_succ, div_div, mul_comm]
  · refine le_max_of_le_left ?_
    have hlarge := pow_shift_le (f := f) (a := a) x.den_pos (by rw [hs]; exact hpos)
    rw [hs] at hlarge
    have hlarge' : (2 : ℚ) ^ (f.fractionBits + s) * x.den ≤ a := by exact_mod_cast hlarge
    have hx' : (2 : ℚ) ^ (f.fractionBits + s) ≤ x * 2 ^ f.scale := by
      refine le_of_mul_le_mul_right ?_ hden
      linarith
    rw [div_div, div_le_div_iff₀ (by positivity) (by positivity)]
    calc (2 : ℚ) ^ s * 2 ^ (f.fractionBits + 1) = 2 ^ (f.fractionBits + s) * 2 := by ring
      _ ≤ x * 2 ^ f.scale * 2 := mul_le_mul_of_nonneg_right hx' (by norm_num)
      _ = x * (2 * 2 ^ f.scale) := by ring

end Numbers

section Decoding

variable {x v : ℚ} {bits : Nat}

theorem decode_round (negative : Bool) (h : f.Fits x) :
    f.decode (f.round negative x) = .finite ((if negative then -1 else 1) * f.magnitude x) := by
  have hsteps := steps_nearest x.den_pos h
  rw [round, decode_withSign negative h, hsteps, magnitude, mul_div_assoc]

theorem decode_eq_finite (h : f.decode bits = .finite v) : f.isFinite bits = true ∧
    v = (if f.negative bits then -1 else 1) * |v| ∧ |v| = (f.steps bits : ℚ) / 2 ^ f.scale := by
  rw [decode] at h
  split at h
  case isFalse => split at h <;> cases h
  case isTrue hfinite =>
    cases h
    have hnonneg : (0 : ℚ) ≤ (f.steps bits : ℚ) / 2 ^ f.scale :=
      div_nonneg (Nat.cast_nonneg _) (scale_pos f).le
    refine ⟨hfinite, ?_⟩
    rw [mul_div_assoc, abs_mul, abs_of_nonneg hnonneg]
    split
    · rw [abs_neg, abs_one, one_mul]
      exact ⟨rfl, rfl⟩
    · simp only [abs_one, one_mul, and_self]

theorem rounded_exact {m j : Nat} (h : |v| = (m * 2 ^ j : ℕ) / 2 ^ f.scale)
    (hm : m < 2 ^ (f.fractionBits + 1)) : f.rounded v = v := by
  rw [rounded, magnitude_exact (abs_nonneg v) h hm]
  split
  next hv => rw [abs_of_neg hv, neg_one_mul, neg_neg]
  next hv => rw [abs_of_nonneg (not_lt.mp hv), one_mul]

theorem rounded_of_decode (h2 : 2 ≤ f.topExponent) (h : f.decode bits = .finite v) :
    f.rounded v = v := by
  obtain ⟨hfinite, -, habs⟩ := decode_eq_finite h
  obtain ⟨m, j, hsteps, hm, -⟩ := steps_eq bits h2 hfinite
  rw [hsteps] at habs
  exact rounded_exact habs hm

theorem rounded_intCast {n : Int} {m j : Nat} (h : n.natAbs = m * 2 ^ j)
    (hm : m < 2 ^ (f.fractionBits + 1)) : f.rounded n = n := by
  refine rounded_exact (j := j + f.scale) ?_ hm
  have hcast : |(n : ℚ)| = (m * 2 ^ j : ℕ) := by rw [← h, Nat.cast_natAbs, Int.cast_abs]
  rw [hcast, pow_add, ← Nat.mul_assoc, Nat.cast_mul (m * 2 ^ j), Nat.cast_pow, Nat.cast_ofNat,
    mul_div_cancel_right₀ _ (scale_pos f).ne']

theorem decode_ofInt {n : Int} (h : f.Fits |(n : ℚ)|) :
    f.decode (f.ofInt n) = .finite (f.rounded n) := by
  have hcast : ((n.natAbs : Nat) : ℚ) = |(n : ℚ)| := by rw [Nat.cast_natAbs, Int.cast_abs]
  rw [ofInt, hcast, decode_round _ h, rounded]
  simp only [decide_eq_true_eq, Int.cast_lt_zero]

theorem negative_of_pos (h : f.decode bits = .finite v) (hv : 0 < v) : f.negative bits = false := by
  obtain ⟨-, hsign, -⟩ := decode_eq_finite h
  by_contra hne
  rw [Bool.not_eq_false] at hne
  rw [hne, if_pos rfl, abs_of_pos hv] at hsign
  linarith

theorem decode_divide {x y : Nat} {a b : ℚ} (hx : f.decode x = .finite a) (hy : f.decode y = .finite b)
    (ha : 0 < a) (hb : 0 < b) (hfits : f.Fits (a / b)) :
    f.decode (f.divide x y) = .finite (f.magnitude (a / b)) := by
  have habs : |a / b| = a / b := abs_of_pos (div_pos ha hb)
  rw [divide, negative_of_pos hx ha, negative_of_pos hy hb, hx, hy]
  simp only
  rw [if_pos hb.ne', habs, decode_round _ hfits, if_neg (by decide), one_mul]

structure Widens (g f : Format) : Prop where
  fractionBits : g.fractionBits ≤ f.fractionBits
  scale : g.scale ≤ f.scale
  topExponent : g.topExponent + (f.scale - g.scale) ≤ f.topExponent

theorem binary32_widens : Widens binary32 binary64 := ⟨by decide, by decide, by decide⟩

/-- Widening is exact, and keeps the infinities and nan. -/
theorem decode_convert {g : Format} (hw : Widens g f) (h2 : 2 ≤ g.topExponent)
    (h : g.decode bits = .finite v) : f.decode (f.convert g bits) = .finite v := by
  obtain ⟨hfinite, hsign, habs⟩ := decode_eq_finite h
  obtain ⟨m, j, hsteps, hm, hj⟩ := steps_eq bits h2 hfinite
  have hunit : |v| = (m * 2 ^ (j + (f.scale - g.scale)) : ℕ) / 2 ^ f.scale := by
    rw [habs, hsteps, eq_div_iff (scale_pos f).ne', div_mul_eq_mul_div, div_eq_iff (scale_pos g).ne']
    have hsplit : f.scale = f.scale - g.scale + g.scale := (Nat.sub_add_cancel hw.scale).symm
    conv_lhs => rw [hsplit]
    push_cast
    rw [pow_add, pow_add]
    ring
  have hm' : m < 2 ^ (f.fractionBits + 1) :=
    Nat.lt_of_lt_of_le hm (Nat.pow_le_pow_right (by omega) (Nat.add_le_add_right hw.fractionBits 1))
  have htop := hw.topExponent
  rw [convert, h]
  simp only
  rw [decode_round _ (fits_of_exact (abs_nonneg v) hunit hm' (by omega)),
    magnitude_exact (abs_nonneg v) hunit hm', ← hsign]

end Decoding

end LxmfLite.FloatingPoint.Format
