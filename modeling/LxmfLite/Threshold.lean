import LxmfLite.Schedule
import LxmfLite.Streaming

namespace LxmfLite.Threshold

open ByteString Execution Machine Stamp Search Schedule
open Streaming (zeroBits size_ofBe_le leadingZeroBits_eq)

section Count

variable {bs : Bytes} {c n w : Nat}

/-- The zeros in front of a number are what its size leaves of the width. -/
theorem clz_eq_sub_size (h : n < 2 ^ w) : (BitVec.ofNat w n).clz.toNat = w - n.size := by
  have hn : (BitVec.ofNat w n).toNat = n := by rw [BitVec.toNat_ofNat, Nat.mod_eq_of_lt h]
  have hsize : n.size ≤ w := Nat.size_le.mpr h
  have hupper : n.size ≤ w - (BitVec.ofNat w n).clz.toNat := by
    have hlt := BitVec.toNat_lt_two_pow_sub_clz (x := BitVec.ofNat w n)
    rw [hn] at hlt
    exact Nat.size_le.mpr hlt
  have hle : (BitVec.ofNat w n).clz.toNat ≤ w := by
    have hclz := BitVec.le_def.mp (BitVec.clz_le (x := BitVec.ofNat w n))
    exact Nat.le_trans hclz (Nat.mod_le w (2 ^ w))
  by_cases hzero : n = 0
  · have hw : (BitVec.ofNat w n).clz = w := BitVec.clz_eq_iff_eq_zero.mpr (by rw [hzero])
    rw [hw, hzero, Nat.size_zero]
    exact Nat.mod_eq_of_lt Nat.lt_two_pow_self
  · have hpos : 0 < w := by
      have := Nat.size_pos.mpr (Nat.pos_of_ne_zero hzero)
      omega
    have hne : BitVec.ofNat w n ≠ 0#w := by
      intro h0
      rw [h0, BitVec.toNat_ofNat, Nat.zero_mod] at hn
      exact hzero hn.symm
    have hlower : w - 1 - (BitVec.ofNat w n).clz.toNat < n.size := by
      have hbound := BitVec.two_pow_sub_clz_le_toNat_of_ne_zero hpos hne
      rw [hn] at hbound
      exact Nat.lt_size.mpr hbound
    omega

theorem zeroBits_eq_clz (bs : Bytes) :
    zeroBits bs = (BitVec.ofNat (8 * bs.length) (ofBe bs)).clz.toNat := by
  rw [clz_eq_sub_size (Nat.size_le.mp (size_ofBe_le bs)), zeroBits]

theorem le_zeroBits_iff (hc : c ≤ 8 * bs.length) :
    c ≤ zeroBits bs ↔ ofBe bs < 2 ^ (8 * bs.length - c) := by
  have hle := size_ofBe_le bs
  rw [zeroBits, ← Nat.size_le]
  omega

theorem zeroBits_eq_all_iff (bs : Bytes) : zeroBits bs = 8 * bs.length ↔ ofBe bs = 0 := by
  have hle := size_ofBe_le bs
  rw [zeroBits, ← Nat.size_eq_zero]
  omega

/-- The loop over the bytes stops at the first that is not zero. -/
theorem leadingZeroBits_zeros (zeros : Nat) {b : UInt8} (hb : b ≠ 0) (rest : Bytes) :
    leadingZeroBits (List.replicate zeros 0 ++ b :: rest) = 8 * zeros + leadingZeros b := by
  induction zeros with
  | zero =>
      rw [List.replicate_zero, List.nil_append, leadingZeroBits, if_pos hb, Nat.mul_zero, Nat.zero_add,
        Nat.add_zero]
  | succ zeros ih =>
      have hzero : leadingZeros 0 = 8 := rfl
      rw [List.replicate_succ, List.cons_append, leadingZeroBits, if_neg (not_not.mpr rfl), ih, hzero]
      omega

end Count

section Digest

variable {H : Hashing}

def digest (H : Hashing) (workblock : Workblock) (stamp : Block 32) : Nat :=
  ofBe (H.sha256 (workblock.absorbed ++ stamp.val)).val

theorem zeroBits_sha256 (bytes : Bytes) :
    zeroBits (H.sha256 bytes).val =
      (BitVec.ofNat 256 (ofBe (H.sha256 bytes).val)).clz.toNat := by
  have h := zeroBits_eq_clz (H.sha256 bytes).val
  rwa [(H.sha256 bytes).2] at h

theorem le_leadingZeroBits_sha256 {cost : Nat} (hc : cost ≤ 256) (bytes : Bytes) :
    cost ≤ leadingZeroBits (H.sha256 bytes).val ↔ ofBe (H.sha256 bytes).val < 2 ^ (256 - cost) := by
  have hlen := (H.sha256 bytes).2
  rw [leadingZeroBits_eq, le_zeroBits_iff (by omega), hlen]

theorem leadingZeroBits_sha256_eq_all (bytes : Bytes) :
    leadingZeroBits (H.sha256 bytes).val = 256 ↔ ofBe (H.sha256 bytes).val = 0 := by
  have h := zeroBits_eq_all_iff (H.sha256 bytes).val
  rwa [(H.sha256 bytes).2, ← leadingZeroBits_eq] at h

/-- One attempt ends the search when the digest of its nonce is below the threshold. -/
theorem attempt_below {search : StampSearch} (hready : search.workblock.ready = true)
    (hcost : search.cost < 256) (hattempts : search.attempts < 0xffffffffffffffff) :
    ∃ done next, StampSearch.attempt H search = .ok (done, next) ∧
      (done = true ↔ digest H search.workblock search.nonce < 2 ^ (256 - search.cost)) ∧
      (done = true → ∃ value, next.progress = .complete search.nonce value) := by
  have hvalue : search.workblock.value H search.nonce =
      some (leadingZeroBits (H.sha256 (search.workblock.absorbed ++ search.nonce.val)).val) :=
    if_pos hready
  have hsucc : checkedSucc 0xffffffffffffffff search.attempts = .ok (search.attempts + 1) :=
    if_pos hattempts
  have hiff := le_leadingZeroBits_sha256 (H := H) (Nat.le_of_lt hcost)
    (search.workblock.absorbed ++ search.nonce.val)
  simp only [StampSearch.attempt, hvalue, expect, ok_bind, hsucc]
  by_cases hbelow : digest H search.workblock search.nonce < 2 ^ (256 - search.cost)
  · rw [if_pos (hiff.mpr hbelow)]
    exact ⟨true, _, rfl, iff_of_true rfl hbelow, fun _ => ⟨_, rfl⟩⟩
  · rw [if_neg (fun hge => hbelow (hiff.mp hge))]
    exact ⟨false, _, rfl, iff_of_false Bool.false_ne_true hbelow, fun h => absurd h Bool.false_ne_true⟩

end Digest

section Runs

variable {H : Hashing} {job : Job} {search : StampSearch}

def Below (H : Hashing) (job : Job) (nonce : Block 32) : Prop :=
  digest H (workblockAt H job.material job.kind job.kind.rounds) nonce < 2 ^ (256 - job.cost.toNat)

theorem qualifies_iff_below (k : Nat) : job.Qualifies H k ↔ Below H job (job.nonce k) :=
  le_leadingZeroBits_sha256 (by have := job.cost.toNat_lt; omega) _

/-- Nothing that an unfinished search has tried is below its threshold. -/
theorem Active.above (h : Active H job search) {k : Nat} (hk : k < search.attempts) :
    ¬Below H job (job.nonce k) := by
  cases h with
  | preparing hl h => exact absurd hk (Nat.not_lt_zero k)
  | searching h hno => exact fun hb => hno k hk ((qualifies_iff_below k).mpr hb)

theorem Active.cancel_attempts (h : Active H job search) : search.cancel.attempts = search.attempts := by
  cases h <;> rfl

theorem stage_below_iff (h : Stage H job search) {k : Nat} (hk : k < search.attempts) :
    Below H job (job.nonce k) ↔ ∃ value, search.progress = .complete (job.nonce k) value := by
  cases h with
  | active h =>
      refine iff_of_false (Active.above h hk) ?_
      rintro ⟨value, hp⟩
      have ha := Active.progress h
      rw [hp] at ha
      exact absurd ha Bool.false_ne_true
  | @found first hfirst hq hno =>
      constructor
      · intro hb
        have hnot : ¬k < first := fun hlt => hno k hlt ((qualifies_iff_below k).mpr hb)
        obtain rfl : k = first := Nat.le_antisymm (Nat.le_of_lt_succ hk) (Nat.le_of_not_lt hnot)
        exact ⟨_, rfl⟩
      · rintro ⟨value, hp⟩
        obtain ⟨hnonce, -⟩ := Progress.complete.inj hp
        rw [← hnonce]
        exact (qualifies_iff_below first).mp hq
  | exhausted hno =>
      refine iff_of_false (fun hb => hno k hk ((qualifies_iff_below k).mpr hb)) ?_
      rintro ⟨value, hp⟩
      cases hp
  | cancelled h =>
      rw [Active.cancel_attempts h] at hk
      refine iff_of_false (Active.above h hk) ?_
      rintro ⟨value, hp⟩
      rw [cancel_progress h] at hp
      cases hp
  | settled h => exact absurd hk (Nat.not_lt_zero k)

/-- A search completes only on what is below its threshold, and but for the cost
zero on what it has tried. -/
theorem stage_complete (h : Stage H job search) {stamp : Block 32} {value : Nat}
    (hp : search.progress = .complete stamp value) :
    Below H job stamp ∧ (job.cost ≠ 0 → ∃ k < search.attempts, stamp = job.nonce k) := by
  cases h with
  | active h =>
      have ha := Active.progress h
      rw [hp] at ha
      exact absurd ha Bool.false_ne_true
  | @found first hfirst hq hno =>
      obtain ⟨rfl, -⟩ := Progress.complete.inj hp
      exact ⟨(qualifies_iff_below first).mp hq, fun _ => ⟨first, Nat.lt_succ_self first, rfl⟩⟩
  | exhausted hno => cases hp
  | cancelled h =>
      rw [cancel_progress h] at hp
      cases hp
  | settled h =>
      have hzero : job.cost = 0 := by
        by_contra hc
        rw [Job.start, StampSearch.new, if_neg hc, if_pos (h.resolve_left hc)] at hp
        cases hp
      refine ⟨?_, fun hc => absurd hzero hc⟩
      rw [Below, hzero]
      exact ofBe_block_lt _

/-- A run comes to a stage, having hashed the nonces from the seed on, one for each
attempt it counts. -/
theorem run_tried (calls : List Call) :
    ∃ search, run (call H) calls job.start = .ok search ∧ Stage H job search ∧
      ∀ nonce, nonce ∈ triedOver H calls job.start ↔ ∃ k < search.attempts, nonce = job.nonce k := by
  obtain ⟨search, hrun, hstage, -, htried⟩ := run_stage (H := H) calls (stage_start job)
  refine ⟨search, hrun, hstage, fun nonce => ?_⟩
  rw [htried, show job.start.attempts = 0 from rfl, Nat.sub_zero, ← List.range_eq_range', List.mem_map]
  constructor
  · rintro ⟨k, hk, rfl⟩
    exact ⟨k, List.mem_range.mp hk, rfl⟩
  · rintro ⟨k, hk, rfl⟩
    exact ⟨k, List.mem_range.mpr hk, rfl⟩

end Runs

/-- The value of a stamp tells the thresholds that its digest is below, and a search
completes on the nonces whose digests are below its own. -/
theorem value_threshold (H : Hashing) :
    (∀ (workblock : Workblock) (stamp : Block 32), workblock.ready = true →
      ∃ value, workblock.value H stamp = some value ∧
        (∀ cost : UInt8, cost.toNat ≤ value ↔ digest H workblock stamp < 2 ^ (256 - cost.toNat)) ∧
        (value = 256 ↔ digest H workblock stamp = 0) ∧
        value = (BitVec.ofNat 256 (digest H workblock stamp)).clz.toNat) ∧
    (∀ bs, leadingZeroBits bs = (BitVec.ofNat (8 * bs.length) (ofBe bs)).clz.toNat) ∧
    (∀ zeros b rest, b ≠ 0 →
      leadingZeroBits (List.replicate zeros 0 ++ b :: rest) = 8 * zeros + leadingZeros b) ∧
    (∀ search : StampSearch, search.workblock.ready = true → search.cost < 256 →
      search.attempts < 0xffffffffffffffff → ∃ done next,
        StampSearch.attempt H search = .ok (done, next) ∧
        (done = true ↔ digest H search.workblock search.nonce < 2 ^ (256 - search.cost)) ∧
        (done = true → ∃ value, next.progress = .complete search.nonce value)) ∧
    ∀ (job : Job) (calls : List Call), ∃ search, run (call H) calls job.start = .ok search ∧
      (∀ nonce ∈ triedOver H calls job.start,
        Below H job nonce ↔ ∃ value, search.progress = .complete nonce value) ∧
      ∀ stamp value, search.progress = .complete stamp value →
        Below H job stamp ∧ (job.cost ≠ 0 → stamp ∈ triedOver H calls job.start) := by
  refine ⟨?_, fun bs => ?_, fun zeros b rest hb => leadingZeroBits_zeros zeros hb rest,
    fun search hready hcost hattempts => attempt_below hready hcost hattempts, fun job calls => ?_⟩
  · intro workblock stamp hready
    refine ⟨leadingZeroBits (H.sha256 (workblock.absorbed ++ stamp.val)).val, if_pos hready,
      fun cost => le_leadingZeroBits_sha256 ?_ _, leadingZeroBits_sha256_eq_all _, ?_⟩
    · have := cost.toNat_lt
      omega
    · rw [leadingZeroBits_eq, zeroBits_sha256]
      rfl
  · rw [leadingZeroBits_eq, zeroBits_eq_clz]
  · obtain ⟨search, hrun, hstage, hmem⟩ := run_tried (H := H) calls
    refine ⟨search, hrun, ?_, ?_⟩
    · intro nonce hnonce
      obtain ⟨k, hk, rfl⟩ := (hmem nonce).mp hnonce
      exact stage_below_iff hstage hk
    · intro stamp value hp
      obtain ⟨hbelow, hnonce⟩ := stage_complete hstage hp
      exact ⟨hbelow, fun hc => (hmem stamp).mpr (hnonce hc)⟩

end LxmfLite.Threshold
