import LxmfLite.Threshold

namespace LxmfLite.ProofOfWork

open ByteString Execution Machine Stamp Search Schedule

variable {H : Hashing} {job : Job} {search : StampSearch}

section Settling

theorem job_start_uncancelled (job : Job) : job.start.progress ≠ .cancelled := by
  rw [Job.start, StampSearch.new]
  intro h
  split at h
  · cases h
  · split at h <;> cases h

theorem step_descends (h : Stage H job search) {roundBudget : UInt16} {attemptBudget : UInt32}
    (hr : 1 ≤ roundBudget.toNat) (ha : 1 ≤ attemptBudget.toNat) :
    ∃ search', call H (.step roundBudget attemptBudget) search = .ok search' ∧ Stage H job search' ∧
      (search.progress ≠ .cancelled → search'.progress ≠ .cancelled) ∧
      (active search'.progress = true → active search.progress = true ∧ left search' < left search) := by
  obtain ⟨search', hc, hm, hsame⟩ := call_stage h (.step roundBudget attemptBudget)
  refine ⟨search', hc, hm.stage, fun hu hp => hu (hm.uncancelled nofun hp), fun hactive => ?_⟩
  cases hs : active search.progress with
  | false =>
      rw [hsame hs, hs] at hactive
      exact absurd hactive Bool.false_ne_true
  | true =>
      have hbusy : busy (.step roundBudget attemptBudget) search = true := by
        simp only [busy, hs, decide_eq_true hr, decide_eq_true ha, Bool.and_self]
      have hdown := hm.descends
      rw [if_pos hbusy] at hdown
      exact ⟨rfl, by omega⟩

theorem left_start (job : Job) : left job.start = job.kind.rounds + job.limit.toNat := rfl

theorem left_pos (h : Stage H job search) (hactive : active search.progress = true) : 0 < left search := by
  cases (stage_active_iff h).mp hactive with
  | preparing hl hlt => exact Nat.add_pos_right _ hl
  | searching hlt hno => exact Nat.add_pos_right _ (Nat.sub_pos_of_lt hlt)

/-- A search that is over, and that nobody cancelled, has found a stamp or tried all. -/
theorem verdict_settled (h : Verdict H job search)
    (hover : active search.progress = false) :
    ((∃ stamp value, search.progress = .complete stamp value) ↔
      ∃ k < job.limit.toNat, job.Qualifies H k) ∧
    (search.progress = .exhausted ↔ ∀ k < job.limit.toNat, ¬job.Qualifies H k) := by
  cases hp : search.progress with
  | preparing completed total => exact absurd hover (by simp [hp, active])
  | searching attempts => exact absurd hover (by simp [hp, active])
  | cancelled => exact absurd hp h.uncancelled
  | complete stamp value =>
      obtain ⟨k, hk, -, -, hq, -, -⟩ := h.complete stamp value hp
      refine ⟨iff_of_true ⟨_, _, rfl⟩ ⟨k, hk, hq⟩, iff_of_false ?_ (fun hno => hno k hk hq)⟩
      exact Progress.noConfusion
  | exhausted =>
      have hno := (h.exhausted hp).2
      refine ⟨iff_of_false ?_ ?_, iff_of_true rfl (fun k hk => Nat.not_le.mpr (hno k hk))⟩
      · rintro ⟨stamp, value, hc⟩
        cases hc
      · rintro ⟨k, hk, hq⟩
        exact absurd (hno k hk) (Nat.not_lt.mpr hq)

/-- Steps with both budgets, as many as there is work, bring every search to an end. -/
theorem run_settles (H : Hashing) (job : Job) (schedule : List (UInt16 × UInt32))
    (hbudgets : ∀ budgets ∈ schedule, 1 ≤ budgets.1.toNat ∧ 1 ≤ budgets.2.toNat)
    (hlong : job.kind.rounds + job.limit.toNat ≤ schedule.length) :
    ∃ search, run (call H) (steps schedule) job.start = .ok search ∧ Stage H job search ∧
      search.progress ≠ .cancelled ∧ active search.progress = false := by
  obtain ⟨search, hr, ⟨hs, hu⟩, hdown⟩ := run_descends (call H) (steps schedule)
    (fun search => Stage H job search ∧ search.progress ≠ .cancelled) (fun search => active search.progress)
    left (fun c hc search hs => by
      obtain ⟨budgets, hb, rfl⟩ := List.mem_map.mp hc
      obtain ⟨hrounds, hattempts⟩ := hbudgets budgets hb
      obtain ⟨search', hcall, hstage, hu, hdown⟩ := step_descends hs.1 hrounds hattempts
      exact ⟨search', hcall, ⟨hstage, hu hs.2⟩, hdown⟩)
    ⟨stage_start job, job_start_uncancelled job⟩
  refine ⟨search, hr, hs, hu, ?_⟩
  cases hactive : active search.progress with
  | false => rfl
  | true =>
      have hpos := left_pos hs hactive
      have hle := (hdown hactive).2
      rw [left_start, steps, List.length_map] at hle
      omega

theorem one_le_cost (h : job.cost ≠ 0) : 1 ≤ job.cost.toNat :=
  Nat.pos_of_ne_zero (fun hz => h (UInt8.toNat_inj.mp hz))

/-- Steps with both budgets come to an end, as many as there is work: with a
stamp where the attempts hold one, and without one where they do not. -/
theorem search_settles (H : Hashing) (job : Job) (schedule : List (UInt16 × UInt32)) (hcost : job.cost ≠ 0)
    (hbudgets : ∀ budgets ∈ schedule, 1 ≤ budgets.1.toNat ∧ 1 ≤ budgets.2.toNat)
    (hlong : job.kind.rounds + job.limit.toNat ≤ schedule.length) :
    ∃ search, run (call H) (steps schedule) job.start = .ok search ∧
      ((∃ stamp value, search.progress = .complete stamp value) ↔
        ∃ k < job.limit.toNat, job.Qualifies H k) ∧
      (search.progress = .exhausted ↔ ∀ k < job.limit.toNat, ¬job.Qualifies H k) := by
  obtain ⟨search, hr, hs, hu, hover⟩ := run_settles H job schedule hbudgets hlong
  exact ⟨search, hr, verdict_settled (verdict_of_stage (one_le_cost hcost) hs hu) hover⟩

def smallJob : Job := ⟨Vectors.hello.messageId, .peering, 16, Vectors.block 32 0, 3⟩

theorem smallJob_settles : ∃ search,
    run (call Vectors.hashing) (steps (List.replicate 28 (1, 1))) smallJob.start = .ok search ∧
      ((∃ stamp value, search.progress = .complete stamp value) ↔
        ∃ k < smallJob.limit.toNat, smallJob.Qualifies Vectors.hashing k) ∧
      (search.progress = .exhausted ↔ ∀ k < smallJob.limit.toNat, ¬smallJob.Qualifies Vectors.hashing k) := by
  refine search_settles Vectors.hashing smallJob (List.replicate 28 (1, 1)) (by decide) (fun budgets hb => ?_) ?_
  · rw [List.eq_of_mem_replicate hb]
    decide
  · rw [List.length_replicate]
    decide

end Settling

section Validating

theorem stage_value (h : Stage H job search) {stamp : Block 32} {value : Nat}
    (hp : search.progress = .complete stamp value) :
    job.cost.toNat ≤ stampValue H job.material job.kind stamp ∧
      (job.cost ≠ 0 → value = stampValue H job.material job.kind stamp) := by
  cases h with
  | active h =>
      have hactive := Active.progress h
      rw [hp] at hactive
      exact absurd hactive Bool.false_ne_true
  | found hk hq hno =>
      obtain ⟨rfl, rfl⟩ := Progress.complete.inj hp
      exact ⟨hq, fun _ => rfl⟩
  | exhausted hno => cases hp
  | cancelled h =>
      rw [cancel_progress h] at hp
      cases hp
  | settled h =>
      have hzero : job.cost = 0 := by
        by_contra hc
        rw [Job.start, StampSearch.new, if_neg hc, if_pos (h.resolve_left hc)] at hp
        cases hp
      rw [hzero]
      exact ⟨Nat.zero_le _, fun hc => absurd rfl hc⟩

/-- However a peer slices the rounds over the same material, it has a value for
the stamp once it is ready and not before, and the same as any other peer. -/
theorem peer_value (material : Block 32) (kind : StampKind) (peer : List Streaming.Call) :
    ∃ workblock, run (Streaming.call H) peer (.new material kind) = .ok workblock ∧
      (workblock.ready = true ↔ kind.rounds ≤ Streaming.allowed peer) ∧
      ∀ stamp, workblock.value H stamp =
        if workblock.ready then some (stampValue H material kind stamp) else none := by
  have hrun : run (Streaming.call H) peer (workblockAt H material kind (min kind.rounds 0)) = _ :=
    Streaming.run_workblockAt peer 0
  rw [← Streaming.new_eq_workblockAt, Nat.zero_add] at hrun
  refine ⟨_, hrun, ?_, fun stamp => ?_⟩
  · rw [Streaming.ready_workblockAt, decide_eq_true_eq]
  · rw [Streaming.value_total, Streaming.ready_workblockAt]
    exact if_congr decide_eq_true_iff.symm rfl rfl

/-- Whatever calls made a search complete, the stamp is worth its cost to every
peer that has the whole workblock, and worth what the search reported; to a peer
that has less it has no worth. -/
theorem search_validates (H : Hashing) (job : Job) (calls : List Schedule.Call) :
    ∃ search, run (call H) calls job.start = .ok search ∧
      ∀ stamp value, search.progress = .complete stamp value → ∀ peer : List Streaming.Call,
        ∃ workblock, run (Streaming.call H) peer (.new job.material job.kind) = .ok workblock ∧
          (workblock.ready = true ↔ job.kind.rounds ≤ Streaming.allowed peer) ∧
          (workblock.ready = false → workblock.value H stamp = none) ∧
          (workblock.ready = true → ∃ worth, workblock.value H stamp = some worth ∧
            job.cost.toNat ≤ worth ∧ (job.cost ≠ 0 → worth = value)) := by
  obtain ⟨search, hr, hs, -⟩ := run_stage (H := H) calls (stage_start job)
  refine ⟨search, hr, fun stamp value hp peer => ?_⟩
  obtain ⟨hworth, hvalue⟩ := stage_value hs hp
  obtain ⟨workblock, hw, hready, hpeer⟩ := peer_value (H := H) job.material job.kind peer
  refine ⟨workblock, hw, hready, fun h => ?_, fun h => ?_⟩
  · rw [hpeer, h, if_neg Bool.false_ne_true]
  · exact ⟨_, (hpeer stamp).trans (if_pos h), hworth, fun hc => (hvalue hc).symm⟩

example : (run (call Vectors.hashing) (steps (List.replicate 28 (1, 1))) smallJob.start).map (·.progress) =
    .ok (.complete (Vectors.block 32 0) 256) := by decide +kernel

end Validating

end LxmfLite.ProofOfWork
