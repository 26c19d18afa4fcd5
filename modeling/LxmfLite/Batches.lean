import LxmfLite.ProofOfWork
import Mathlib.Data.List.Forall2

namespace LxmfLite.Batches

open ByteString Execution Machine Stamp Search Schedule ProofOfWork

variable {H : Hashing} {job : Job}

section Report

inductive Reports (H : Hashing) (job : Job) (n : Nat) : Progress → Nat → Prop
  | found {k} (hk : k < n) (hq : job.Qualifies H k) (hno : ∀ j < k, ¬job.Qualifies H j) :
      Reports H job n (.complete (job.nonce k) (job.value H k)) (k + 1)
  | exhausted (hno : ∀ j < n, ¬job.Qualifies H j) : Reports H job n .exhausted n

theorem Reports.unique {n attempts attempts' : Nat} {progress progress' : Progress}
    (h : Reports H job n progress attempts) (h' : Reports H job n progress' attempts') :
    (progress, attempts) = (progress', attempts') := by
  cases h with
  | @found k hk hq hno =>
      cases h' with
      | @found k' hk' hq' hno' =>
          obtain rfl : k = k' := by
            rcases Nat.lt_trichotomy k k' with hlt | heq | hlt
            · exact absurd hq (hno' k hlt)
            · exact heq
            · exact absurd hq' (hno k' hlt)
          rfl
      | exhausted hno' => exact absurd hq (hno' k hk)
  | exhausted hno =>
      cases h' with
      | found hk' hq' hno' => exact absurd hq' (hno _ hk')
      | exhausted => rfl

theorem nonceAt_nonceAt (seed : Block 32) (m k : Nat) : nonceAt (nonceAt seed m) k = nonceAt seed (m + k) := by
  apply block_ext
  rw [ofBe_nonceAt, ofBe_nonceAt, ofBe_nonceAt, Nat.mod_add_mod, Nat.add_assoc]

def goOn (job : Job) (m : Nat) : Job := { job with seed := job.nonce m }

theorem goOn_nonce (m k : Nat) : (goOn job m).nonce k = job.nonce (m + k) := nonceAt_nonceAt job.seed m k

theorem goOn_value (m k : Nat) : (goOn job m).value H k = job.value H (m + k) := by
  rw [Job.value, goOn_nonce, Job.value, goOn]

theorem goOn_qualifies (m k : Nat) : (goOn job m).Qualifies H k ↔ job.Qualifies H (m + k) := by
  rw [Job.Qualifies, goOn_value, Job.Qualifies, goOn]

/-- The limit of the job itself does not matter to what its nonces hold. -/
theorem Reports.of_limit {n attempts : Nat} {progress : Progress} {limit : UInt64}
    (h : Reports H { job with limit := limit } n progress attempts) : Reports H job n progress attempts := by
  cases h with
  | found hk hq hno => exact .found hk hq hno
  | exhausted hno => exact .exhausted hno

theorem Reports.none {n attempts : Nat} (h : Reports H job n .exhausted attempts) :
    attempts = n ∧ ∀ j < n, ¬job.Qualifies H j := by
  cases h with
  | exhausted hno => exact ⟨rfl, hno⟩

theorem Reports.longer {m n attempts : Nat} {progress : Progress} (h : Reports H job m progress attempts)
    (hp : progress ≠ .exhausted) (hmn : m ≤ n) : Reports H job n progress attempts := by
  cases h with
  | found hk hq hno => exact .found (Nat.lt_of_lt_of_le hk hmn) hq hno
  | exhausted => exact absurd rfl hp

/-- Where the first nonces hold none, what the rest reports is what the whole does. -/
theorem Reports.behind {m n attempts : Nat} {progress : Progress} (hno : ∀ j < m, ¬job.Qualifies H j)
    (h : Reports H (goOn job m) n progress attempts) : Reports H job (m + n) progress (m + attempts) := by
  have hnone {k : Nat} (hrest : ∀ j < k, ¬(goOn job m).Qualifies H j) : ∀ j < m + k, ¬job.Qualifies H j := by
    intro j hj hq
    by_cases hm : j < m
    · exact hno j hm hq
    · obtain ⟨i, rfl⟩ := Nat.exists_eq_add_of_le (Nat.not_lt.mp hm)
      exact hrest i (Nat.lt_of_add_lt_add_left hj) ((goOn_qualifies m i).mpr hq)
  cases h with
  | @found k hk hq hrest =>
      rw [goOn_nonce, goOn_value, ← Nat.add_assoc]
      exact .found (Nat.add_lt_add_left hk m) ((goOn_qualifies m k).mp hq) (hnone hrest)
  | exhausted hrest => exact .exhausted (hnone hrest)

end Report

def Settled (H : Hashing) (job : Job) (search : StampSearch) : Prop :=
  ∃ schedule, run (call H) (steps schedule) job.start = .ok search ∧ active search.progress = false

theorem exists_settled (H : Hashing) (job : Job) : ∃ search, Settled H job search := by
  obtain ⟨search, hr, -, -, hover⟩ := run_settles H job
    (List.replicate (job.kind.rounds + job.limit.toNat) (1, 1)) (fun budgets hb => by
      rw [List.eq_of_mem_replicate hb]
      decide) (by rw [List.length_replicate])
  exact ⟨search, _, hr, hover⟩

theorem Settled.reports {search : StampSearch} (h : Settled H job search) (hcost : job.cost ≠ 0) :
    Reports H job job.limit.toNat search.progress search.attempts := by
  obtain ⟨schedule, hr, hover⟩ := h
  obtain ⟨search', hr', hv⟩ := run_steps (H := H) (one_le_cost hcost) schedule
  rw [hr] at hr'
  cases hr'
  cases hp : search.progress with
  | preparing completed total => exact absurd hover (by simp [hp, active])
  | searching attempts => exact absurd hover (by simp [hp, active])
  | cancelled => exact absurd hp hv.uncancelled
  | complete stamp value =>
      obtain ⟨k, hk, rfl, rfl, hq, hno, ha⟩ := hv.complete stamp value hp
      rw [ha]
      exact .found hk hq (fun j hj => Nat.not_le.mpr (hno j hj))
  | exhausted =>
      obtain ⟨ha, hno⟩ := hv.exhausted hp
      rw [ha]
      exact .exhausted (fun j hj => Nat.not_le.mpr (hno j hj))

def batches (job : Job) : List UInt64 → List Job
  | [] => []
  | limit :: limits => { job with limit := limit } :: batches (goOn job limit.toNat) limits

/-- What searches one after another come to: the stamp of the first that is not
exhausted, and the attempts up to it. -/
def outcome : List StampSearch → Progress × Nat
  | [] => (.exhausted, 0)
  | search :: searches =>
      if search.progress = .exhausted then
        ((outcome searches).1, search.attempts + (outcome searches).2)
      else (search.progress, search.attempts)

/-- The batches one after another report what one search of all their nonces does. -/
theorem reports_outcome (hcost : job.cost ≠ 0) {limits : List UInt64} {searches : List StampSearch}
    (h : List.Forall₂ (Settled H) (batches job limits) searches) :
    Reports H job (limits.map UInt64.toNat).sum (outcome searches).1 (outcome searches).2 := by
  induction limits generalizing job searches with
  | nil =>
      cases h
      exact .exhausted (fun j hj => absurd hj (Nat.not_lt_zero j))
  | cons limit limits ih =>
      obtain ⟨search, rest, hsearch, hrest, rfl⟩ := List.forall₂_cons_left_iff.mp h
      have hfirst : Reports H job limit.toNat search.progress search.attempts :=
        (hsearch.reports hcost).of_limit
      rw [List.map_cons, List.sum_cons, outcome]
      split
      next hp =>
        rw [hp] at hfirst
        obtain ⟨ha, hno⟩ := hfirst.none
        rw [ha]
        have hgo : (goOn job limit.toNat).cost ≠ 0 := by rwa [goOn]
        exact (ih hgo hrest).behind hno
      next hp => exact hfirst.longer hp (Nat.le_add_right _ _)

theorem Settled.free {search : StampSearch} (h : Settled H job search) (hcost : job.cost = 0) :
    (search.progress, search.attempts) =
      (.complete ⟨List.replicate 32 0, List.length_replicate⟩ 0, 0) := by
  obtain ⟨schedule, hr, -⟩ := h
  obtain ⟨search', hr', rfl⟩ := run_invariant (call H) (steps schedule) (· = job.start)
    (fun c _ s hs => by
      subst hs
      exact ⟨_, (call_inactive (start_settled (.inl hcost)) c).1, rfl⟩) rfl
  rw [hr] at hr'
  cases hr'
  simp only [Job.start, StampSearch.new, if_pos hcost]

theorem outcome_free (hcost : job.cost = 0) {limits : List UInt64} (hlimits : limits ≠ [])
    {searches : List StampSearch} (h : List.Forall₂ (Settled H) (batches job limits) searches) :
    outcome searches = (.complete ⟨List.replicate 32 0, List.length_replicate⟩ 0, 0) := by
  obtain ⟨limit, rest, rfl⟩ := List.exists_cons_of_ne_nil hlimits
  obtain ⟨search, searches', hsearch, -, rfl⟩ := List.forall₂_cons_left_iff.mp h
  have hfree := hsearch.free hcost
  have hp := congrArg Prod.fst hfree
  simp only at hp
  rw [outcome, if_neg (by rw [hp]; exact Progress.noConfusion), hfree]

/-- A search may be had in batches: whatever the limits of the batches, as long
as they sum up to its own, and whatever the schedules, it comes to the same stamp
with the same number of attempts. A stamp that costs nothing takes one batch. -/
theorem search_batches (H : Hashing) (job : Job) (limits : List UInt64)
    (hlimits : job.cost ≠ 0 ∨ limits ≠ [])
    (hsum : (limits.map UInt64.toNat).sum = job.limit.toNat) {searches : List StampSearch}
    (h : List.Forall₂ (Settled H) (batches job limits) searches) {whole : StampSearch}
    (hwhole : Settled H job whole) : (whole.progress, whole.attempts) = outcome searches := by
  by_cases hcost : job.cost = 0
  · exact (hwhole.free hcost).trans (outcome_free hcost (hlimits.resolve_left (not_not_intro hcost)) h).symm
  · have hbatches := reports_outcome hcost h
    rw [hsum] at hbatches
    exact (hwhole.reports hcost).unique hbatches

theorem smallJob_batches : ∃ first second whole : StampSearch,
    Settled Vectors.hashing smallJob whole ∧
      (whole.progress, whole.attempts) = outcome [first, second] := by
  obtain ⟨first, hf⟩ := exists_settled Vectors.hashing { smallJob with limit := 1 }
  obtain ⟨second, hs⟩ := exists_settled Vectors.hashing
    { goOn smallJob (1 : UInt64).toNat with limit := 2 }
  obtain ⟨whole, hw⟩ := exists_settled Vectors.hashing smallJob
  exact ⟨first, second, whole, hw, search_batches Vectors.hashing smallJob [1, 2] (.inl (by decide)) (by decide)
    (.cons hf (.cons hs .nil)) hw⟩

end LxmfLite.Batches
