import LxmfLite.Search
import LxmfLite.Vectors
import Mathlib.Data.List.Nodup

namespace LxmfLite.Schedule

open ByteString Execution Machine Stamp Search

structure Job where
  material : Block 32
  kind : StampKind
  cost : UInt8
  seed : Block 32
  limit : UInt64

variable {H : Hashing} {job : Job}

namespace Job

def start (job : Job) : StampSearch := .new job.material job.kind job.cost job.seed job.limit

def nonce (job : Job) (k : Nat) : Block 32 := nonceAt job.seed k

def value (H : Hashing) (job : Job) (k : Nat) : Nat :=
  stampValue H job.material job.kind (job.nonce k)

def Qualifies (H : Hashing) (job : Job) (k : Nat) : Prop := job.cost.toNat ≤ job.value H k

def preparing (H : Hashing) (job : Job) (completed : Nat) : StampSearch :=
  ⟨workblockAt H job.material job.kind completed, job.seed, job.cost.toNat, 0, job.limit.toNat,
    .preparing completed job.kind.rounds⟩

def attempted (H : Hashing) (job : Job) (attempts : Nat) (progress : Progress) : StampSearch :=
  ⟨workblockAt H job.material job.kind job.kind.rounds, job.nonce attempts, job.cost.toNat, attempts,
    job.limit.toNat, progress⟩

def found (H : Hashing) (job : Job) (k : Nat) : StampSearch :=
  ⟨workblockAt H job.material job.kind job.kind.rounds, job.nonce k, job.cost.toNat, k + 1,
    job.limit.toNat, .complete (job.nonce k) (job.value H k)⟩

theorem limit_lt (job : Job) : job.limit.toNat ≤ 0xffffffffffffffff := by
  have := job.limit.toNat_lt
  omega

end Job

section Attempts

theorem attempt_found {k : Nat} {progress : Progress} (hk : k < job.limit.toNat)
    (hq : job.Qualifies H k) :
    StampSearch.attempt H (job.attempted H k progress) = .ok (true, job.found H k) := by
  have hmax := job.limit_lt
  have hsucc : checkedSucc 0xffffffffffffffff k = .ok (k + 1) := if_pos (by omega)
  simp only [StampSearch.attempt, Job.attempted, value_workblockAt, expect, ok_bind, hsucc]
  exact if_pos hq

theorem attempt_missed {k : Nat} {progress : Progress} (hk : k < job.limit.toNat)
    (hq : ¬job.Qualifies H k) :
    StampSearch.attempt H (job.attempted H k progress) = .ok (false, job.attempted H (k + 1) progress) := by
  have hmax := job.limit_lt
  have hsucc : checkedSucc 0xffffffffffffffff k = .ok (k + 1) := if_pos (by omega)
  simp only [StampSearch.attempt, Job.attempted, value_workblockAt, expect, ok_bind, hsucc]
  apply (if_neg hq).trans
  rw [Job.nonce, increment_nonceAt]
  rfl

/-- The nonces that the loop of step hashes, in order. -/
def tried (H : Hashing) : Nat → StampSearch → List (Block 32)
  | 0, _ => []
  | n + 1, search => search.nonce :: match StampSearch.attempt H search with
      | .ok (false, search) => tried H n search
      | _ => []

def Job.missed (H : Hashing) (job : Job) (attempts : Nat) : StampSearch :=
  job.attempted H attempts (if attempts = job.limit.toNat then .exhausted else .searching attempts)

/-- The loop stops behind the first nonce that qualifies. -/
theorem tries_run {n a : Nat} (progress : Progress) (h : a + n ≤ job.limit.toNat) :
    (∃ k, a ≤ k ∧ k < a + n ∧ job.Qualifies H k ∧ (∀ j, a ≤ j → j < k → ¬job.Qualifies H j) ∧
      StampSearch.tries H n (job.attempted H a progress) = .ok (job.found H k) ∧
      tried H n (job.attempted H a progress) = (List.range' a (k + 1 - a)).map job.nonce) ∨
    ((∀ j, a ≤ j → j < a + n → ¬job.Qualifies H j) ∧
      StampSearch.tries H n (job.attempted H a progress) = .ok (job.missed H (a + n)) ∧
      tried H n (job.attempted H a progress) = (List.range' a n).map job.nonce) := by
  induction n generalizing a with
  | zero => exact .inr ⟨fun j hj hlt => absurd hlt (by omega), rfl, rfl⟩
  | succ n ih =>
      have hcons (m : Nat) : (List.range' a (m + 1)).map job.nonce =
          job.nonce a :: (List.range' (a + 1) m).map job.nonce := by
        rw [List.range'_succ, List.map_cons]
      by_cases hq : job.Qualifies H a
      · refine .inl ⟨a, Nat.le_refl a, by omega, hq, fun j hj hlt => absurd hlt (by omega), ?_, ?_⟩
        · rw [StampSearch.tries, attempt_found (by omega) hq, ok_bind]
          rfl
        · rw [tried, attempt_found (by omega) hq, show a + 1 - a = 0 + 1 by omega, hcons]
          rfl
      · have htries : StampSearch.tries H (n + 1) (job.attempted H a progress) =
            StampSearch.tries H n (job.attempted H (a + 1) progress) := by
          rw [StampSearch.tries, attempt_missed (by omega) hq, ok_bind]
          rfl
        have htried : tried H (n + 1) (job.attempted H a progress) =
            job.nonce a :: tried H n (job.attempted H (a + 1) progress) := by
          rw [tried, attempt_missed (by omega) hq]
          rfl
        have hfirst {j : Nat} (hj : a ≤ j) (hno : a + 1 ≤ j → ¬job.Qualifies H j) : ¬job.Qualifies H j := by
          rcases Nat.eq_or_lt_of_le hj with rfl | hlt
          · exact hq
          · exact hno hlt
        rw [htries, htried]
        rcases ih (a := a + 1) (by omega) with ⟨k, hk, hlt, hqk, hno, hr, ht⟩ | ⟨hno, hr, ht⟩
        · refine .inl ⟨k, by omega, by omega, hqk,
            fun j hj hjk => hfirst hj (fun hj' => hno j hj' hjk), hr, ?_⟩
          rw [ht, show k + 1 - a = k + 1 - (a + 1) + 1 by omega, hcons]
        · refine .inr ⟨fun j hj hjn => hfirst hj (fun hj' => hno j hj' (by omega)), ?_, ?_⟩
          · rw [hr, Nat.add_assoc, Nat.add_comm 1]
          · rw [ht, hcons]

end Attempts

section Calls

inductive Call
  | step (roundBudget : UInt16) (attemptBudget : UInt32)
  | cancel

def call (H : Hashing) : Call → StampSearch → Total StampSearch
  | .step roundBudget attemptBudget, search => search.step H roundBudget attemptBudget
  | .cancel, search => pure search.cancel

def triedBy (H : Hashing) : Call → StampSearch → List (Block 32)
  | .step _ attemptBudget, search =>
      match search.progress with
      | .searching _ => tried H (min attemptBudget.toNat (search.limit - search.attempts)) search
      | _ => []
  | .cancel, _ => []

def triedOver (H : Hashing) : List Call → StampSearch → List (Block 32)
  | [], _ => []
  | c :: cs, search => triedBy H c search ++ match call H c search with
      | .ok search => triedOver H cs search
      | .error _ => []

def active : Progress → Bool
  | .preparing _ _ => true
  | .searching _ => true
  | _ => false

def busy : Call → StampSearch → Bool
  | .step roundBudget attemptBudget, search =>
      decide (1 ≤ roundBudget.toNat) && decide (1 ≤ attemptBudget.toNat) && active search.progress
  | .cancel, _ => false

def left (search : StampSearch) : Nat :=
  (search.workblock.rounds - search.workblock.completed) + (search.limit - search.attempts)

inductive Active (H : Hashing) (job : Job) : StampSearch → Prop
  | preparing {completed : Nat} (hl : 0 < job.limit.toNat) (h : completed < job.kind.rounds) :
      Active H job (job.preparing H completed)
  | searching {attempts : Nat} (h : attempts < job.limit.toNat)
      (hno : ∀ k, k < attempts → ¬job.Qualifies H k) :
      Active H job (job.attempted H attempts (.searching attempts))

inductive Stage (H : Hashing) (job : Job) : StampSearch → Prop
  | active {search : StampSearch} (h : Active H job search) : Stage H job search
  | found {k : Nat} (h : k < job.limit.toNat) (hq : job.Qualifies H k)
      (hno : ∀ j, j < k → ¬job.Qualifies H j) : Stage H job (job.found H k)
  | exhausted (hno : ∀ k, k < job.limit.toNat → ¬job.Qualifies H k) :
      Stage H job (job.attempted H job.limit.toNat .exhausted)
  | cancelled {search : StampSearch} (h : Active H job search) : Stage H job search.cancel
  | settled (h : job.cost = 0 ∨ job.limit = 0) : Stage H job job.start

structure Move (H : Hashing) (job : Job) (c : Call) (search search' : StampSearch) : Prop where
  stage : Stage H job search'
  apart : search'.workblock.completed = search.workblock.completed ∨ search'.attempts = search.attempts
  grows : search.attempts ≤ search'.attempts
  traced : triedBy H c search =
    (List.range' search.attempts (search'.attempts - search.attempts)).map job.nonce
  descends : left search' + (if busy c search then 1 else 0) ≤ left search
  uncancelled : c ≠ .cancel → search'.progress = .cancelled → search.progress = .cancelled

theorem triedBy_of_unmoved {c : Call} {search : StampSearch} (h : triedBy H c search = []) :
    triedBy H c search = (List.range' search.attempts (search.attempts - search.attempts)).map job.nonce := by
  rw [h, Nat.sub_self]
  rfl

theorem call_inactive {search : StampSearch} (h : active search.progress = false) (c : Call) :
    call H c search = .ok search ∧ triedBy H c search = [] ∧ busy c search = false := by
  obtain ⟨workblock, nonce, cost, attempts, limit, progress⟩ := search
  cases progress with
  | preparing completed total => exact absurd h (by simp [active])
  | searching attempts => exact absurd h (by simp [active])
  | complete stamp value => cases c <;> exact ⟨rfl, rfl, by simp [busy, active]⟩
  | exhausted => cases c <;> exact ⟨rfl, rfl, by simp [busy, active]⟩
  | cancelled => cases c <;> exact ⟨rfl, rfl, by simp [busy, active]⟩

theorem cancel_move {search : StampSearch} (h : Active H job search) :
    call H .cancel search = .ok search.cancel ∧ Move H job .cancel search search.cancel := by
  refine ⟨rfl, ?_⟩
  have hsame : search.cancel.workblock = search.workblock ∧ search.cancel.attempts = search.attempts ∧
      search.cancel.limit = search.limit := by
    cases h <;> exact ⟨rfl, rfl, rfl⟩
  obtain ⟨hw, ha, hl⟩ := hsame
  refine ⟨.cancelled h, .inl (by rw [hw]), Nat.le_of_eq ha.symm, ?_, ?_, ?_⟩
  · rw [ha]
    exact triedBy_of_unmoved rfl
  · rw [left, left, hw, ha, hl]
    exact Nat.le_refl _
  · exact fun h => absurd rfl h

theorem step_preparing {completed : Nat} (hl : 0 < job.limit.toNat) (h : completed < job.kind.rounds)
    (roundBudget : UInt16) (attemptBudget : UInt32) :
    ∃ search', call H (.step roundBudget attemptBudget) (job.preparing H completed) = .ok search' ∧
      Move H job (.step roundBudget attemptBudget) (job.preparing H completed) search' := by
  have hadvance := advance_workblockAt (H := H) job.material (Nat.le_of_lt h) roundBudget
  have hadded : roundsAdded job.kind completed roundBudget ≤ job.kind.rounds - completed :=
    Nat.min_le_right _ _
  have hone : 1 ≤ roundBudget.toNat → 1 ≤ roundsAdded job.kind completed roundBudget :=
    fun hb => Nat.le_min.mpr ⟨hb, by omega⟩
  have hstep : call H (.step roundBudget attemptBudget) (job.preparing H completed) =
      .ok { job.preparing H completed with
        workblock := workblockAt H job.material job.kind
          (completed + roundsAdded job.kind completed roundBudget),
        progress := if completed + roundsAdded job.kind completed roundBudget == job.kind.rounds then
            .searching 0
          else .preparing (completed + roundsAdded job.kind completed roundBudget) job.kind.rounds } := by
    simp only [call, StampSearch.step, Job.preparing, hadvance, ok_bind]
    rfl
  generalize roundsAdded job.kind completed roundBudget = added at hstep hadded hone
  refine ⟨_, hstep, ?_, .inr rfl, Nat.le_refl _, triedBy_of_unmoved rfl, ?_, ?_⟩
  · by_cases hready : completed + added = job.kind.rounds
    · rw [hready, if_pos (beq_self_eq_true _)]
      have hstart := Active.searching (H := H) hl (fun k hk => absurd hk (Nat.not_lt_zero k))
      rw [Job.attempted, Job.nonce, nonceAt_zero] at hstart
      exact .active hstart
    · rw [if_neg (by simpa using hready)]
      exact .active (.preparing hl (by omega))
  · simp only [left, busy, active, Job.preparing, workblockAt, Bool.and_true]
    split
    next hb =>
      have := hone (of_decide_eq_true (Bool.and_eq_true_iff.mp hb).1)
      omega
    next => omega
  · intro _ hp
    simp only at hp
    split at hp <;> exact absurd hp (by simp)

theorem step_searching {attempts : Nat} (h : attempts < job.limit.toNat)
    (hno : ∀ k, k < attempts → ¬job.Qualifies H k) (roundBudget : UInt16) (attemptBudget : UInt32) :
    ∃ search', call H (.step roundBudget attemptBudget) (job.attempted H attempts (.searching attempts)) =
        .ok search' ∧
      Move H job (.step roundBudget attemptBudget) (job.attempted H attempts (.searching attempts))
        search' := by
  have hsub : checkedSub job.limit.toNat attempts = .ok (job.limit.toNat - attempts) :=
    if_pos (Nat.le_of_lt h)
  have hstep : call H (.step roundBudget attemptBudget) (job.attempted H attempts (.searching attempts)) =
      StampSearch.tries H (min attemptBudget.toNat (job.limit.toNat - attempts))
        (job.attempted H attempts (.searching attempts)) := by
    simp only [call, StampSearch.step, Job.attempted, hsub, ok_bind]
  have htraced : triedBy H (.step roundBudget attemptBudget)
      (job.attempted H attempts (.searching attempts)) =
      tried H (min attemptBudget.toNat (job.limit.toNat - attempts))
        (job.attempted H attempts (.searching attempts)) := rfl
  have hone : 1 ≤ attemptBudget.toNat → 1 ≤ min attemptBudget.toNat (job.limit.toNat - attempts) :=
    fun hb => Nat.le_min.mpr ⟨hb, by omega⟩
  have hfit : min attemptBudget.toNat (job.limit.toNat - attempts) ≤ job.limit.toNat - attempts :=
    Nat.min_le_right _ _
  generalize min attemptBudget.toNat (job.limit.toNat - attempts) = n at hstep htraced hone hfit
  have hleft (k : Nat) (progress : Progress) :
      left (job.attempted H k progress) = job.limit.toNat - k := by
    simp only [left, Job.attempted, workblockAt, Nat.sub_self, Nat.zero_add]
  have hbusy (m : Nat) (hm : 1 ≤ attemptBudget.toNat → 1 ≤ m) :
      (if busy (.step roundBudget attemptBudget) (job.attempted H attempts (.searching attempts)) then 1
        else 0) ≤ m := by
    split
    next hb =>
      simp only [busy, Bool.and_eq_true, decide_eq_true_eq] at hb
      exact hm hb.1.2
    next => exact Nat.zero_le m
  rcases tries_run (H := H) (.searching attempts) (show attempts + n ≤ job.limit.toNat by omega)
    with ⟨k, hk, hlt, hq, hnone, hr, ht⟩ | ⟨hnone, hr, ht⟩
  · refine ⟨_, hstep.trans hr, ?_, .inl rfl, ?_, htraced.trans ht, ?_, ?_⟩
    · refine .found (by omega) hq (fun j hj => ?_)
      by_cases hja : j < attempts
      · exact hno j hja
      · exact hnone j (by omega) hj
    · exact Nat.le_succ_of_le hk
    · have hfound : left (job.found H k) = job.limit.toNat - (k + 1) := by
        simp only [left, Job.found, workblockAt, Nat.sub_self, Nat.zero_add]
      rw [hfound, hleft]
      have := hbusy (k + 1 - attempts) (fun _ => by omega)
      omega
    · intro _ hp
      cases hp
  · refine ⟨_, hstep.trans hr, ?_, .inl rfl, Nat.le_add_right _ _, ?_, ?_, ?_⟩
    · have hnever (k : Nat) (hk : k < attempts + n) : ¬job.Qualifies H k := by
        by_cases hka : k < attempts
        · exact hno k hka
        · exact hnone k (by omega) hk
      rw [Job.missed]
      by_cases hend : attempts + n = job.limit.toNat
      · rw [if_pos hend, hend]
        exact .exhausted (fun k hk => hnever k (by omega))
      · rw [if_neg hend]
        exact .active (.searching (by omega) hnever)
    · rw [htraced, ht, show (job.missed H (attempts + n)).attempts - (job.attempted H attempts
        (.searching attempts)).attempts = n from Nat.add_sub_cancel_left attempts n]
      rfl
    · rw [Job.missed, hleft, hleft]
      have := hbusy n hone
      omega
    · intro _ hp
      simp only [Job.missed, Job.attempted] at hp
      split at hp <;> exact absurd hp (by simp)

theorem Active.progress {search : StampSearch} (h : Active H job search) :
    active search.progress = true := by
  cases h <;> rfl

theorem cancel_progress {search : StampSearch} (h : Active H job search) :
    search.cancel.progress = .cancelled := by
  cases h <;> rfl

theorem start_settled (h : job.cost = 0 ∨ job.limit = 0) : active job.start.progress = false := by
  rw [Job.start, StampSearch.new]
  by_cases hc : job.cost = 0
  · simp only [if_pos hc]
    rfl
  · simp only [if_neg hc, if_pos (h.resolve_left hc)]
    rfl

theorem stage_active_iff {search : StampSearch} (h : Stage H job search) :
    active search.progress = true ↔ Active H job search := by
  refine ⟨fun ha => ?_, Active.progress⟩
  cases h with
  | active h => exact h
  | found => exact absurd ha (by simp [Job.found, active])
  | exhausted => exact absurd ha (by simp [Job.attempted, active])
  | cancelled h =>
      rw [cancel_progress h] at ha
      exact absurd ha (by simp [active])
  | settled h =>
      rw [start_settled h] at ha
      exact absurd ha (by simp)

theorem stage_start (job : Job) : Stage H job job.start := by
  by_cases hset : job.cost = 0 ∨ job.limit = 0
  · exact .settled hset
  · rw [not_or] at hset
    have hl : 0 < job.limit.toNat := by
      refine Nat.pos_of_ne_zero (fun h => hset.2 ?_)
      exact UInt64.toNat_inj.mp h
    have hstart : job.start = job.preparing H 0 := by
      rw [Job.start, StampSearch.new, if_neg hset.1, if_neg hset.2]
      rfl
    rw [hstart]
    exact .active (.preparing hl (rounds_pos job.kind))

/-- Every call takes a search from stage to stage, and none changes one that
is over. -/
theorem call_stage {search : StampSearch} (h : Stage H job search) (c : Call) :
    ∃ search', call H c search = .ok search' ∧ Move H job c search search' ∧
      (active search.progress = false → search' = search) := by
  cases ha : active search.progress with
  | true =>
      have hmove : ∃ search', call H c search = .ok search' ∧ Move H job c search search' := by
        have hactive := (stage_active_iff h).mp ha
        cases c with
        | cancel => exact ⟨_, cancel_move hactive⟩
        | step roundBudget attemptBudget =>
            cases hactive with
            | preparing hl hlt => exact step_preparing hl hlt roundBudget attemptBudget
            | searching hlt hno => exact step_searching hlt hno roundBudget attemptBudget
      obtain ⟨search', hc, hm⟩ := hmove
      exact ⟨search', hc, hm, nofun⟩
  | false =>
      obtain ⟨hc, ht, hb⟩ := call_inactive ha c
      refine ⟨search, hc, ⟨h, .inl rfl, Nat.le_refl _, triedBy_of_unmoved ht, ?_, fun _ hp => hp⟩,
        fun _ => rfl⟩
      rw [hb]
      exact Nat.le_refl _

end Calls

section Runs

/-- Over a whole run the nonces hashed are successive, with none left out. -/
theorem run_stage (calls : List Call) {search : StampSearch} (h : Stage H job search) :
    ∃ final, run (call H) calls search = .ok final ∧ Stage H job final ∧
      search.attempts ≤ final.attempts ∧ triedOver H calls search =
        (List.range' search.attempts (final.attempts - search.attempts)).map job.nonce := by
  induction calls generalizing search with
  | nil =>
      refine ⟨search, rfl, h, Nat.le_refl _, ?_⟩
      rw [Nat.sub_self]
      rfl
  | cons c calls ih =>
      obtain ⟨search', hc, hm, -⟩ := call_stage h c
      obtain ⟨final, hr, hf, hle, ht⟩ := ih hm.stage
      have hgrows := hm.grows
      refine ⟨final, by rw [run, hc, ok_bind, hr], hf, by omega, ?_⟩
      have hsplit := List.range'_append_1 (s := search.attempts)
        (m := search'.attempts - search.attempts) (n := final.attempts - search'.attempts)
      rw [show search.attempts + (search'.attempts - search.attempts) = search'.attempts by omega,
        show search'.attempts - search.attempts + (final.attempts - search'.attempts) =
          final.attempts - search.attempts by omega] at hsplit
      rw [triedOver, hc, hm.traced]
      simp only
      rw [ht, ← List.map_append, hsplit]

structure Verdict (H : Hashing) (job : Job) (search : StampSearch) : Prop where
  complete : ∀ stamp value, search.progress = .complete stamp value → ∃ k, k < job.limit.toNat ∧
    stamp = job.nonce k ∧ value = job.value H k ∧ job.cost.toNat ≤ job.value H k ∧
    (∀ j, j < k → job.value H j < job.cost.toNat) ∧ search.attempts = k + 1
  exhausted : search.progress = .exhausted → search.attempts = job.limit.toNat ∧
    ∀ k, k < job.limit.toNat → job.value H k < job.cost.toNat
  active : active search.progress = true →
    (∀ k, k < search.attempts → job.value H k < job.cost.toNat) ∧
      search.nonce = job.nonce search.attempts
  uncancelled : search.progress ≠ .cancelled

theorem verdict_of_stage (hcost : 1 ≤ job.cost.toNat) {search : StampSearch} (h : Stage H job search)
    (hu : search.progress ≠ .cancelled) : Verdict H job search := by
  cases h with
  | active h =>
      cases h with
      | preparing hl h =>
          refine ⟨nofun, nofun, fun _ => ⟨fun k hk => absurd hk (Nat.not_lt_zero k), ?_⟩, hu⟩
          exact (nonceAt_zero job.seed).symm
      | searching h hno => exact ⟨nofun, nofun, fun _ => ⟨fun k hk => Nat.not_le.mp (hno k hk), rfl⟩, hu⟩
  | @found k h hq hno =>
      refine ⟨fun stamp value hp => ?_, nofun, nofun, hu⟩
      obtain ⟨rfl, rfl⟩ := Progress.complete.inj hp
      exact ⟨k, h, rfl, rfl, hq, fun j hj => Nat.not_le.mp (hno j hj), rfl⟩
  | exhausted hno => exact ⟨nofun, fun _ => ⟨rfl, fun k hk => Nat.not_le.mp (hno k hk)⟩, nofun, hu⟩
  | cancelled h => exact absurd (cancel_progress h) hu
  | settled h =>
      have hc : job.cost ≠ 0 := by
        intro hc
        rw [hc] at hcost
        exact absurd hcost (by decide)
      have hl := h.resolve_left hc
      have hzero : job.limit.toNat = 0 := by
        rw [hl]
        rfl
      have hprogress : job.start.progress = .exhausted := by
        rw [Job.start, StampSearch.new, if_neg hc, if_pos hl]
      refine ⟨fun stamp value hp => ?_, fun _ => ⟨hzero.symm, fun k hk => absurd hk (by omega)⟩,
        fun hp => ?_, hu⟩
      · rw [hprogress] at hp
        cases hp
      · rw [hprogress] at hp
        cases hp

theorem verdict_unique {search search' : StampSearch} (h : Verdict H job search)
    (h' : Verdict H job search') (hover : active search.progress = false)
    (hover' : active search'.progress = false) :
    search'.progress = search.progress ∧ search'.attempts = search.attempts := by
  cases hp : search.progress with
  | preparing completed total => exact absurd hover (by simp [hp, active])
  | searching attempts => exact absurd hover (by simp [hp, active])
  | cancelled => exact absurd hp h.uncancelled
  | complete stamp value =>
      obtain ⟨k, hk, rfl, rfl, hq, hno, ha⟩ := h.complete stamp value hp
      cases hp' : search'.progress with
      | preparing completed total => exact absurd hover' (by simp [hp', active])
      | searching attempts => exact absurd hover' (by simp [hp', active])
      | cancelled => exact absurd hp' h'.uncancelled
      | exhausted => exact absurd ((h'.exhausted hp').2 k hk) (Nat.not_lt.mpr hq)
      | complete stamp' value' =>
          obtain ⟨k', -, rfl, rfl, hq', hno', ha'⟩ := h'.complete stamp' value' hp'
          obtain rfl : k' = k := by
            rcases Nat.lt_trichotomy k' k with hlt | heq | hlt
            · exact absurd (hno k' hlt) (Nat.not_lt.mpr hq')
            · exact heq
            · exact absurd (hno' k hlt) (Nat.not_lt.mpr hq)
          exact ⟨rfl, ha'.trans ha.symm⟩
  | exhausted =>
      obtain ⟨ha, hnone⟩ := h.exhausted hp
      cases hp' : search'.progress with
      | preparing completed total => exact absurd hover' (by simp [hp', active])
      | searching attempts => exact absurd hover' (by simp [hp', active])
      | cancelled => exact absurd hp' h'.uncancelled
      | complete stamp' value' =>
          obtain ⟨k, hk, -, -, hq, -⟩ := h'.complete stamp' value' hp'
          exact absurd (hnone k hk) (Nat.not_lt.mpr hq)
      | exhausted => exact ⟨rfl, (h'.exhausted hp').1.trans ha.symm⟩

def steps (schedule : List (UInt16 × UInt32)) : List Call :=
  schedule.map (fun budgets => .step budgets.1 budgets.2)

theorem run_steps (hcost : 1 ≤ job.cost.toNat) (schedule : List (UInt16 × UInt32)) :
    ∃ search, run (call H) (steps schedule) job.start = .ok search ∧ Verdict H job search := by
  have hstart : job.start.progress ≠ .cancelled := by
    rw [Job.start, StampSearch.new]
    split
    · exact nofun
    · split <;> exact nofun
  obtain ⟨search, hr, hs, hu⟩ := run_invariant (call H) (steps schedule)
    (fun search => Stage H job search ∧ search.progress ≠ .cancelled)
    (fun c hc search hs => by
      obtain ⟨budgets, -, rfl⟩ := List.mem_map.mp hc
      obtain ⟨search', hcall, hm, -⟩ := call_stage hs.1 (.step budgets.1 budgets.2)
      exact ⟨search', hcall, hm.stage, fun hp => hs.2 (hm.uncancelled nofun hp)⟩)
    ⟨stage_start job, hstart⟩
  exact ⟨search, hr, verdict_of_stage hcost hs hu⟩

theorem stage_bounds {search : StampSearch} (h : Stage H job search) :
    search.workblock.completed ≤ search.workblock.rounds ∧ search.attempts ≤ search.limit ∧
      search.limit = job.limit.toNat := by
  have hactive {search : StampSearch} (h : Active H job search) :
      search.workblock.completed ≤ search.workblock.rounds ∧ search.attempts ≤ search.limit ∧
        search.limit = job.limit.toNat := by
    cases h with
    | preparing hl h => exact ⟨Nat.le_of_lt h, Nat.zero_le _, rfl⟩
    | searching h hno => exact ⟨Nat.le_refl _, Nat.le_of_lt h, rfl⟩
  cases h with
  | active h => exact hactive h
  | found h hq hno => exact ⟨Nat.le_refl _, h, rfl⟩
  | exhausted hno => exact ⟨Nat.le_refl _, Nat.le_refl _, rfl⟩
  | cancelled h =>
      have hsame : ∀ search, (StampSearch.cancel search).workblock = search.workblock ∧
          search.cancel.attempts = search.attempts ∧ search.cancel.limit = search.limit := by
        intro search
        rw [StampSearch.cancel]
        split <;> exact ⟨rfl, rfl, rfl⟩
      obtain ⟨hw, ha, hl⟩ := hsame ‹_›
      rw [hw, ha, hl]
      exact hactive h
  | settled h => exact ⟨Nat.zero_le _, Nat.zero_le _, rfl⟩

/-- The search finds the first nonce that qualifies, whatever the schedule. -/
theorem search_first (H : Hashing) (job : Job) (hcost : 1 ≤ job.cost.toNat)
    (schedule : List (UInt16 × UInt32)) :
    ∃ search, run (call H) (steps schedule) job.start = .ok search ∧ Verdict H job search ∧
      triedOver H (steps schedule) job.start = (List.range search.attempts).map job.nonce ∧
      ((List.range search.attempts).map job.nonce).Nodup ∧ search.attempts ≤ job.limit.toNat ∧
      ∀ schedule' search', run (call H) (steps schedule') job.start = .ok search' →
        active search.progress = false → active search'.progress = false →
        search'.progress = search.progress ∧ search'.attempts = search.attempts := by
  obtain ⟨search, hr, hv⟩ := run_steps (H := H) hcost schedule
  obtain ⟨final, hr', hs, -, ht⟩ := run_stage (H := H) (steps schedule) (stage_start job)
  rw [hr] at hr'
  cases hr'
  obtain ⟨-, hle, hlimit⟩ := stage_bounds hs
  have hmax := job.limit_lt
  refine ⟨search, hr, hv, ?_, ?_, by omega, fun schedule' search' hrun hover hover' => ?_⟩
  · rw [ht, List.range_eq_range']
    rfl
  · apply (List.nodup_map_iff_inj_on List.nodup_range).mpr
    intro j hj k hk heq
    have hj := List.mem_range.mp hj
    have hk := List.mem_range.mp hk
    exact nonceAt_injOn (by omega) (by omega) heq
  · obtain ⟨other, ho, hv'⟩ := run_steps (H := H) hcost schedule'
    rw [hrun] at ho
    cases ho
    exact verdict_unique hv hv' hover hover'

theorem search_hello : ∃ search,
    run (call Vectors.hashing) (steps [(20, 0), (9, 0), (0, 1000)])
      (Job.start ⟨Vectors.hello.messageId, .peering, 16, Vectors.block 32 0, 3⟩) = .ok search ∧
    Verdict Vectors.hashing ⟨Vectors.hello.messageId, .peering, 16, Vectors.block 32 0, 3⟩ search ∧
    triedOver Vectors.hashing (steps [(20, 0), (9, 0), (0, 1000)])
      (Job.start ⟨Vectors.hello.messageId, .peering, 16, Vectors.block 32 0, 3⟩) = [Vectors.block 32 0] := by
  obtain ⟨search, hr, hv, -⟩ := search_first Vectors.hashing
    ⟨Vectors.hello.messageId, .peering, 16, Vectors.block 32 0, 3⟩ (by decide) [(20, 0), (9, 0), (0, 1000)]
  exact ⟨search, hr, hv, by decide +kernel⟩

/-- What holds of a search between any two calls. -/
structure Safe (search : StampSearch) : Prop where
  rounds : search.workblock.completed ≤ search.workblock.rounds
  attempts : search.attempts ≤ search.limit
  preparing : ∀ completed total, search.progress = .preparing completed total →
    completed = search.workblock.completed ∧ total = search.workblock.rounds
  searching : ∀ attempts, search.progress = .searching attempts → attempts = search.attempts ∧
    search.workblock.ready = true ∧ search.attempts < search.limit

theorem safe_of_stage {search : StampSearch} (h : Stage H job search) : Safe search := by
  obtain ⟨hrounds, hattempts, -⟩ := stage_bounds h
  cases ha : active search.progress with
  | true =>
      cases (stage_active_iff h).mp ha with
      | preparing hl hlt =>
          refine ⟨hrounds, hattempts, fun completed total hp => ?_, nofun⟩
          obtain ⟨rfl, rfl⟩ := Progress.preparing.inj hp
          exact ⟨rfl, rfl⟩
      | searching hlt hno =>
          refine ⟨hrounds, hattempts, nofun, fun attempts hp => ?_⟩
          obtain rfl := Progress.searching.inj hp
          exact ⟨rfl, beq_self_eq_true _, hlt⟩
  | false =>
      refine ⟨hrounds, hattempts, fun completed total hp => ?_, fun attempts hp => ?_⟩
      · rw [hp] at ha
        exact absurd ha (by simp [active])
      · rw [hp] at ha
        exact absurd ha (by simp [active])

/-- No run of steps and cancels panics, a search that is over stays as it is,
and every step with both budgets takes it closer to its end. -/
theorem search_safe (H : Hashing) (job : Job) (calls : List Call) :
    ∃ search, run (call H) calls job.start = .ok search ∧ Safe search ∧
      (∀ c, ∃ search', call H c search = .ok search' ∧
        (search'.workblock.completed = search.workblock.completed ∨
          search'.attempts = search.attempts) ∧
        (busy c search = true → active search'.progress = false ∨ left search' < left search)) ∧
      (active search.progress = false → ∀ more, ∃ final, run (call H) more search = .ok final ∧
        final.progress = search.progress ∧ final.attempts = search.attempts) ∧
      count (call H) busy calls job.start ≤ job.kind.rounds + job.limit.toNat := by
  obtain ⟨search, hr, hs, -⟩ := run_stage (H := H) calls (stage_start job)
  refine ⟨search, hr, safe_of_stage hs, fun c => ?_, fun hover more => ?_, ?_⟩
  · obtain ⟨search', hc, hm, -⟩ := call_stage hs c
    refine ⟨search', hc, hm.apart, fun hb => .inr ?_⟩
    have := hm.descends
    rw [if_pos hb] at this
    omega
  · obtain ⟨final, hf, rfl⟩ := run_invariant (call H) more (· = search)
      (fun c _ search' hs' => by
        obtain rfl := hs'
        obtain ⟨search'', hc, -, hsame⟩ := call_stage hs c
        exact ⟨search'', hc, hsame hover⟩) rfl
    exact ⟨final, hf, rfl, rfl⟩
  · exact count_le (Stage H job) left (fun c search hs => by
      obtain ⟨search', hc, hm, -⟩ := call_stage hs c
      exact ⟨search', hc, hm.stage, hm.descends⟩) calls (stage_start job)

end Runs

end LxmfLite.Schedule
