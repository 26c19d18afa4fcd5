import LxmfLite.Machine
import LxmfLite.Stamp

namespace LxmfLite.Search

open ByteString Execution Machine Stamp

section Nonce

theorem ofBe_carry (bs : Bytes) :
    ofBe (carry bs).reverse = (ofBe bs.reverse + 1) % 256 ^ bs.length := by
  induction bs with
  | nil => rfl
  | cons b bs ih =>
      have hlt := ofBe_lt bs.reverse
      rw [List.length_reverse] at hlt
      rw [List.reverse_cons, ofBe_append_singleton, List.length_cons, Nat.pow_succ, carry]
      by_cases hb : b.toNat + 1 > 0xff
      · have hmax : b.toNat = 255 := by
          have := toNat_lt b
          omega
        have hzero : (b + 1).toNat = 0 := by
          rw [UInt8.toNat_add, hmax]
          rfl
        rw [if_pos hb, List.reverse_cons, ofBe_append_singleton, ih, hzero, hmax,
          show ofBe bs.reverse * 256 + 255 + 1 = (ofBe bs.reverse + 1) * 256 by omega,
          Nat.mul_mod_mul_right, Nat.add_zero]
      · have hsucc : (b + 1).toNat = b.toNat + 1 := by
          rw [UInt8.toNat_add, UInt8.toNat_one, Nat.mod_eq_of_lt (by omega)]
        rw [if_neg hb, List.reverse_cons, ofBe_append_singleton, hsucc, Nat.mod_eq_of_lt (by omega)]
        omega

/-- The nonce k steps behind the seed, as a 256-bit number. -/
def nonceAt (seed : Block 32) (k : Nat) : Block 32 :=
  ⟨toBe 32 ((ofBe seed.val + k) % 2 ^ 256), toBe_length 32 _⟩

theorem ofBe_nonceAt (seed : Block 32) (k : Nat) :
    ofBe (nonceAt seed k).val = (ofBe seed.val + k) % 2 ^ 256 :=
  ofBe_toBe_of_lt (Nat.lt_of_lt_of_le (Nat.mod_lt _ (by norm_num)) (by norm_num))

theorem block_ext {n : Nat} {a b : Block n} (h : ofBe a.val = ofBe b.val) : a = b := by
  apply Subtype.ext
  rw [← toBe_ofBe a.val, ← toBe_ofBe b.val, h, a.2, b.2]

theorem ofBe_block_lt (a : Block 32) : ofBe a.val < 2 ^ 256 := by
  have hlt := ofBe_lt a.val
  rw [a.2] at hlt
  exact Nat.lt_of_lt_of_le hlt (by norm_num)

theorem nonceAt_zero (seed : Block 32) : nonceAt seed 0 = seed := by
  apply block_ext
  rw [ofBe_nonceAt, Nat.add_zero, Nat.mod_eq_of_lt (ofBe_block_lt seed)]

theorem increment_nonceAt (seed : Block 32) (k : Nat) :
    increment (nonceAt seed k) = nonceAt seed (k + 1) := by
  apply block_ext
  have h := ofBe_carry (nonceAt seed k).val.reverse
  rw [List.reverse_reverse, List.length_reverse, (nonceAt seed k).2, ofBe_nonceAt] at h
  rw [ofBe_nonceAt, increment, h, show (256 : Nat) ^ 32 = 2 ^ 256 by norm_num, Nat.mod_add_mod,
    Nat.add_assoc]

theorem nonceAt_injOn {seed : Block 32} {j k : Nat} (hj : j < 2 ^ 256) (hk : k < 2 ^ 256)
    (h : nonceAt seed j = nonceAt seed k) : j = k := by
  have hval := congrArg (fun nonce : Block 32 => ofBe nonce.val) h
  simp only [ofBe_nonceAt] at hval
  omega

end Nonce

section Workblock

variable {H : Hashing} {material : Block 32} {kind : StampKind}

def workblockBytes (H : Hashing) (material : Block 32) (rounds : Nat) : Bytes :=
  (List.range rounds).flatMap (fun round => (Workblock.chunk H material round).val)

def workblockAt (H : Hashing) (material : Block 32) (kind : StampKind) (completed : Nat) : Workblock :=
  ⟨material, workblockBytes H material completed, completed, kind.rounds⟩

theorem rounds_lt (kind : StampKind) : kind.rounds < 0xffff := by
  cases kind <;> decide

theorem rounds_pos (kind : StampKind) : 0 < kind.rounds := by
  cases kind <;> decide

theorem advanceRound_workblockAt {completed : Nat} (h : completed < kind.rounds) :
    Workblock.advanceRound H (workblockAt H material kind completed) =
      .ok (workblockAt H material kind (completed + 1)) := by
  have hmax := rounds_lt kind
  have hbytes : workblockBytes H material (completed + 1) = workblockBytes H material completed ++
      (Workblock.chunk H material completed).val := by
    rw [workblockBytes, List.range_succ, List.flatMap_append, List.flatMap_singleton]
    rfl
  have hsucc : checkedSucc 0xffff completed = .ok (completed + 1) := if_pos (by omega)
  simp only [Workblock.advanceRound, workblockAt, hsucc, ok_bind, hbytes, pure_eq_ok]

theorem advanceRounds_workblockAt {n completed : Nat} (h : completed + n ≤ kind.rounds) :
    Workblock.advanceRounds H n (workblockAt H material kind completed) =
      .ok (workblockAt H material kind (completed + n)) := by
  induction n generalizing completed with
  | zero => rfl
  | succ n ih =>
      rw [Workblock.advanceRounds, advanceRound_workblockAt (by omega), ok_bind, ih (by omega),
        Nat.add_assoc, Nat.add_comm 1]

def roundsAdded (kind : StampKind) (completed : Nat) (budget : UInt16) : Nat :=
  min budget.toNat (kind.rounds - completed)

theorem advance_workblockAt (material : Block 32) {completed : Nat} (h : completed ≤ kind.rounds)
    (budget : UInt16) :
    (workblockAt H material kind completed).advance H budget =
      .ok (completed + roundsAdded kind completed budget == kind.rounds,
        workblockAt H material kind (completed + roundsAdded kind completed budget)) := by
  have hsub : checkedSub kind.rounds completed = .ok (kind.rounds - completed) := if_pos h
  simp only [Workblock.advance]
  rw [show (workblockAt H material kind completed).rounds = kind.rounds from rfl,
    show (workblockAt H material kind completed).completed = completed from rfl, hsub, ok_bind,
    advanceRounds_workblockAt (by omega), ok_bind]
  rfl

/-- The value of a stamp: the leading zero bits of the hash over the whole
workblock and the stamp. -/
def stampValue (H : Hashing) (material : Block 32) (kind : StampKind) (stamp : Block 32) : Nat :=
  leadingZeroBits (H.sha256 (workblockBytes H material kind.rounds ++ stamp.val)).val

theorem value_workblockAt (stamp : Block 32) : (workblockAt H material kind kind.rounds).value H stamp =
    some (stampValue H material kind stamp) :=
  if_pos (beq_self_eq_true kind.rounds)

end Workblock

end LxmfLite.Search
