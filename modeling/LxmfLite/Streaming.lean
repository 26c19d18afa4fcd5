import LxmfLite.Search
import Mathlib.Data.Nat.Size

namespace LxmfLite.Streaming

open ByteString Execution Machine Stamp Search

section ZeroBits

/-- The zeros before the first one of a string, read as a number of 8 bits a byte. -/
def zeroBits (bs : Bytes) : Nat := 8 * bs.length - (ofBe bs).size

theorem size_ofBe_le (bs : Bytes) : (ofBe bs).size ≤ 8 * bs.length := by
  rw [Nat.size_le, Nat.pow_mul]
  exact ofBe_lt bs

theorem size_shift_add {a k r : Nat} (ha : a ≠ 0) (hr : r < 2 ^ k) :
    (a * 2 ^ k + r).size = a.size + k := by
  apply Nat.le_antisymm
  · rw [Nat.size_le]
    have hlt := Nat.lt_size_self a
    calc a * 2 ^ k + r < (a + 1) * 2 ^ k := by rw [Nat.succ_mul]; omega
      _ ≤ 2 ^ a.size * 2 ^ k := Nat.mul_le_mul_right _ hlt
      _ = 2 ^ (a.size + k) := (Nat.pow_add 2 a.size k).symm
  · have hpos := Nat.size_pos.mpr (Nat.pos_of_ne_zero ha)
    have htop : 2 ^ (a.size - 1) ≤ a := Nat.lt_size.mp (by omega)
    rw [show a.size + k = a.size - 1 + k + 1 by omega, Nat.succ_le_iff, Nat.lt_size, Nat.pow_add]
    exact Nat.le_trans (Nat.mul_le_mul_right _ htop) (Nat.le_add_right _ r)

theorem leadingZeros_eq (b : UInt8) : leadingZeros b = 8 - b.toNat.size := by
  rw [leadingZeros]
  split
  case isTrue h =>
    rw [h]
    rfl
  case isFalse h =>
    have hb : b.toNat ≠ 0 := fun hz => h (byte_ext hz)
    have hsize : b.toNat.size = b.toNat.log2 + 1 := by
      apply Nat.le_antisymm
      · exact Nat.size_le.mpr Nat.lt_log2_self
      · exact Nat.lt_size.mpr (Nat.log2_self_le hb)
    omega

theorem leadingZeroBits_eq (bs : Bytes) : leadingZeroBits bs = zeroBits bs := by
  induction bs with
  | nil => rfl
  | cons b bs ih =>
      have hle := size_ofBe_le bs
      have hlt : ofBe bs < 2 ^ (8 * bs.length) := Nat.size_le.mp hle
      rw [leadingZeroBits, leadingZeros_eq, zeroBits, List.length_cons, ofBe_cons,
        show 256 ^ bs.length = 2 ^ (8 * bs.length) from (Nat.pow_mul 2 8 bs.length).symm]
      by_cases hb : b = 0
      · have hzero : (8 : Nat) - (0 : UInt8).toNat.size = 8 := rfl
        rw [if_neg (not_not.mpr hb), hb, hzero, ih, zeroBits, UInt8.toNat_zero, Nat.zero_mul, Nat.zero_add]
        omega
      · rw [if_pos hb, size_shift_add (fun hz => hb (byte_ext hz)) hlt]
        omega

end ZeroBits

section Rounds

inductive Unsigned : Bytes → Nat → Prop
  | fix {m} (hm : m.toNat ≤ 0x7f) : Unsigned [m] m.toNat
  | wide {m} {k : Nat} {body : Bytes} (hk : k < 4) (hm : m.toNat = 0xcc + k)
      (hb : body.length = 2 ^ k) : Unsigned (m :: body) (ofBe body)

variable {n : Nat} {enc : Bytes}

theorem packRound_length (n : Nat) : n ≤ 0x7f ∧ (packRound n).length = 1 ∨
    (0x7f < n ∧ n ≤ 0xff) ∧ (packRound n).length = 2 ∨ 0xff < n ∧ (packRound n).length = 3 := by
  rw [packRound]
  split
  case isTrue hf => exact .inl ⟨hf, rfl⟩
  case isFalse hf =>
    split
    case isTrue hb => exact .inr (.inl ⟨⟨by omega, hb⟩, rfl⟩)
    case isFalse hb => exact .inr (.inr ⟨by omega, rfl⟩)

theorem unsigned_packRound (h : n < 0x10000) : Unsigned (packRound n) n := by
  rw [packRound]
  split
  case isTrue hf =>
    have hn : (UInt8.ofNat n).toNat = n := toNat_ofNat_of_lt (by omega)
    have henc : Unsigned [UInt8.ofNat n] (UInt8.ofNat n).toNat := .fix (by omega)
    rwa [hn] at henc
  case isFalse hf =>
    split
    case isTrue hb =>
      have henc : Unsigned [0xcc, UInt8.ofNat n] (ofBe [UInt8.ofNat n]) :=
        .wide (k := 0) (by omega) rfl rfl
      rwa [ofBe_singleton, toNat_ofNat_of_lt (by omega)] at henc
    case isFalse hb =>
      have henc : Unsigned (0xcd :: toBe 2 n) (ofBe (toBe 2 n)) :=
        .wide (k := 1) (by omega) rfl (toBe_length 2 n)
      rwa [ofBe_toBe_of_lt h] at henc

theorem packRound_length_le (h : Unsigned enc n) : (packRound n).length ≤ enc.length := by
  have hlen := packRound_length n
  cases h with
  | fix hm =>
      rw [List.length_singleton]
      omega
  | @wide m k body hk hm hb =>
      have hlt := ofBe_lt body
      rw [List.length_cons, hb]
      rw [hb] at hlt
      interval_cases k <;> omega

theorem Unsigned.eq_packRound (h : Unsigned enc n) (hl : enc.length ≤ (packRound n).length) :
    enc = packRound n := by
  have hlen := packRound_length n
  cases h with
  | @fix m hm => rw [packRound, if_pos hm, UInt8.ofNat_toNat]
  | @wide m k body hk hm hb =>
      rw [List.length_cons, hb] at hl
      obtain rfl | rfl | hk : k = 0 ∨ k = 1 ∨ 2 ≤ k := by omega
      · obtain rfl : m = 0xcc := byte_ext hm
        obtain ⟨b, rfl⟩ := List.length_eq_one_iff.mp hb
        have hlt := toNat_lt b
        rw [ofBe_singleton] at hl hlen ⊢
        rw [packRound, if_neg (by omega), if_pos (by omega), UInt8.ofNat_toNat]
      · obtain rfl : m = 0xcd := byte_ext hm
        have hback := toBe_ofBe body
        rw [show body.length = 2 from hb] at hback
        rw [packRound, if_neg (by omega), if_neg (by omega), hback]
      · have hwide : 2 ^ 2 ≤ 2 ^ k := Nat.pow_le_pow_right (by omega) hk
        omega

/-- pack_round writes the shortest encoding of every round number. -/
theorem shortest_packRound (h : n < 0x10000) : Shortest Unsigned enc n ↔ enc = packRound n :=
  shortest_iff (unsigned_packRound h) (fun _ ho => packRound_length_le ho) (fun _ ho => ho.eq_packRound)

end Rounds

section Calls

inductive Call
  | advance (budget : UInt16)
  | value (stamp : Block 32)

def Call.budget : Call → Nat
  | .advance budget => budget.toNat
  | .value _ => 0

/-- The state that a call leaves; value borrows it. -/
def call (H : Hashing) : Call → Workblock → Total Workblock
  | .advance budget, workblock => do
      let (_, workblock) ← workblock.advance H budget
      pure workblock
  | .value _, workblock => pure workblock

def allowed (calls : List Call) : Nat := (calls.map Call.budget).sum

variable {H : Hashing} {material : Block 32} {kind : StampKind}

theorem ready_workblockAt (total : Nat) :
    (workblockAt H material kind (min kind.rounds total)).ready = decide (kind.rounds ≤ total) := by
  rw [Bool.eq_iff_iff, decide_eq_true_eq, Workblock.ready, beq_iff_eq]
  exact min_eq_left_iff

/-- One advance adds its budget to the total, and answers for the new total. -/
theorem advance_total (total : Nat) (budget : UInt16) :
    (workblockAt H material kind (min kind.rounds total)).advance H budget =
      .ok (decide (kind.rounds ≤ total + budget.toNat),
        workblockAt H material kind (min kind.rounds (total + budget.toNat))) := by
  have hsum : min kind.rounds total + roundsAdded kind (min kind.rounds total) budget =
      min kind.rounds (total + budget.toNat) := by
    rw [roundsAdded]
    omega
  rw [advance_workblockAt material (Nat.min_le_left _ _), hsum, ← @ready_workblockAt H material]
  rfl

theorem value_total (total : Nat) (stamp : Block 32) :
    (workblockAt H material kind (min kind.rounds total)).value H stamp =
      if kind.rounds ≤ total then some (stampValue H material kind stamp) else none := by
  split
  case isTrue h => rw [Nat.min_eq_left h, value_workblockAt]
  case isFalse h => exact if_neg (by rw [ready_workblockAt, decide_eq_true_eq]; exact h)

theorem call_workblockAt (c : Call) (total : Nat) :
    call H c (workblockAt H material kind (min kind.rounds total)) =
      .ok (workblockAt H material kind (min kind.rounds (total + c.budget))) := by
  cases c with
  | value stamp => rfl
  | advance budget =>
      rw [call, advance_total, ok_bind]
      rfl

theorem run_workblockAt (calls : List Call) (total : Nat) :
    run (call H) calls (workblockAt H material kind (min kind.rounds total)) =
      .ok (workblockAt H material kind (min kind.rounds (total + allowed calls))) := by
  induction calls generalizing total with
  | nil => rfl
  | cons c calls ih =>
      rw [run, call_workblockAt, ok_bind, ih, allowed, allowed, List.map_cons, List.sum_cons, Nat.add_assoc]

theorem new_eq_workblockAt (material : Block 32) (kind : StampKind) :
    Workblock.new material kind = workblockAt H material kind (min kind.rounds 0) := by
  rw [Nat.min_zero]
  rfl

/-- The bytes that a peer with the whole workblock hashes before the stamp. -/
def oneShot (H : Hashing) (material : Block 32) (kind : StampKind) : Bytes :=
  (List.range kind.rounds).flatMap
    fun round => (H.hkdf (H.sha256 (material.val ++ packRound round)) material).val

/-- However the rounds are sliced, and whatever is asked in between, the state
knows how many are done, and answers as one pass over all of them would. -/
theorem streamed_workblock (H : Hashing) (material : Block 32) (kind : StampKind) (calls : List Call) :
    (∀ round < kind.rounds, ∀ enc, Shortest Unsigned enc round ↔ enc = packRound round) ∧
    ∃ workblock, run (call H) calls (.new material kind) = .ok workblock ∧
      workblock.completed = min kind.rounds (allowed calls) ∧
      (workblock.ready = true ↔ kind.rounds ≤ allowed calls) ∧
      (∀ stamp, workblock.value H stamp =
        if kind.rounds ≤ allowed calls then
          some (zeroBits (H.sha256 (oneShot H material kind ++ stamp.val)).val)
        else none) ∧
      (∀ budget, ∃ next, workblock.advance H budget =
        .ok (decide (kind.rounds ≤ allowed calls + budget.toNat), next)) ∧
      (kind.rounds ≤ allowed calls → ∀ more, run (call H) more workblock = .ok workblock) := by
  have hmax := rounds_lt kind
  refine ⟨fun round hr enc => shortest_packRound (by omega),
    workblockAt H material kind (min kind.rounds (allowed calls)), ?_, rfl, ?_, ?_, ?_, ?_⟩
  · rw [new_eq_workblockAt, run_workblockAt, Nat.zero_add]
  · rw [ready_workblockAt, decide_eq_true_eq]
  · intro stamp
    rw [value_total, stampValue, leadingZeroBits_eq]
    rfl
  · exact fun budget => ⟨_, advance_total (allowed calls) budget⟩
  · intro hdone more
    rw [run_workblockAt, Nat.min_eq_left hdone, Nat.min_eq_left (Nat.le_add_right_of_le hdone)]

end Calls

end LxmfLite.Streaming
