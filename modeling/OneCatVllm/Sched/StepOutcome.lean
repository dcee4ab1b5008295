import OneCatVllm.Sched.Placement

/-!
# What a scheduling step does to one request

`schedule` is two nested loops over queues. For a single request it comes down to a few outcomes
(`StepOutcome`): the request is left alone, preempted, promoted, sent to load its cache, admitted,
or scheduled while running. `StepInv` ties the state of the loops to these outcomes, request by
request, together with the placement invariant. `RunningInv` and `WaitingInv` add what each of the
two loops needs besides.
-/

namespace OneCatVllm

open Dict Option Prod StepState

variable {H E : Type}

/-! ### Outcomes -/

/-- A waiting request at the head of its queue: not blocked, or unblocked in this step. -/
inductive Promoted (env : ScheduleEnv) (id : ℕ) (r : Request H E) : Request H E → Prop
  | refl : isBlockedWaitingStatus r.status = false → Promoted env id r r
  | promote {r' : Request H E} : tryPromoteBlockedWaitingRequest env id r = some (true, r') →
      Promoted env id r r'

/-- **The worker has nothing of the request**: it waits to be sent for the first time, or with the
next input of a session. -/
def Request.Unsent (r : Request H E) : Prop :=
  r.status.place = .waiting ∧ r.status ≠ .waitingForStreamingReq ∧ (r.numPreemptions = 0 ∨
    r.status = .waiting ∨ r.status = .waitingForStructuredOutputGrammar)

/-- What is scheduled for a request: tokens, draft tokens, and the tokens that the worker gets it
with, if it gets it in this step. -/
structure ScheduledTokens where
  numTokens : ℤ
  specTokenIds : List ℤ
  sent : Option ℤ

/-- What a step does to a request `r`: the request before `_update_after_schedule`, and what is
scheduled for it. -/
inductive StepOutcome (cfg : SchedulerConfig H E) (env : ScheduleEnv) (id : ℕ) (r : Request H E) :
    Request H E → Option ScheduledTokens → Prop
  | untouched : StepOutcome cfg env id r r none
  | preempted : r.status = .running → StepOutcome cfg env id r r.preempt none
  | promoted {r' : Request H E} : r.status.place = .waiting → Promoted env id r r' →
      StepOutcome cfg env id r r' none
  | loads {r' : Request H E} {computed : ℤ} {external : ℕ} : r.status.place = .waiting →
      Promoted env id r r' → computedTokens env id r' = some (some (computed, external, true)) →
      StepOutcome cfg env id r (r'.load computed) none
  | admitted {r' : Request H E} {computed n threshold budget : ℤ} {external : ℕ} :
      r.status.place = .waiting → Promoted env id r r' →
      computedTokens env id r' = some (some (computed, external, false)) → 0 < budget →
      numNewTokensWaiting cfg env threshold budget id r' computed = some (some n) →
      StepOutcome cfg env id r (r'.admitted computed) (some ⟨n, [], r'.numTokensSent cfg⟩)
  | runs {n threshold budget : ℤ} : r.status = .running → 0 < budget →
      n = numNewTokensRunning cfg env threshold budget id r → n ≠ 0 →
      StepOutcome cfg env id r { r with specTokenIds := [] } (some ⟨n, draftsScheduled r n, none⟩)

/-- The outcome at an id of the dictionary. -/
inductive OutcomeAt (cfg : SchedulerConfig H E) (env : ScheduleEnv) (id : ℕ) :
    Option (Request H E) → Option (Request H E) → Option ScheduledTokens → Prop
  | absent : OutcomeAt cfg env id none none none
  | live {r r' : Request H E} {t : Option ScheduledTokens} : StepOutcome cfg env id r r' t →
      OutcomeAt cfg env id (some r) (some r') t

/-- What is scheduled for an id so far. -/
def StepState.scheduled (a : StepState H E) (id : ℕ) : Option ScheduledTokens :=
  (get? a.numScheduledTokens id).map fun n ↦ ⟨n, a.specOf id, get? a.scheduledNewReqs id⟩

variable {env : ScheduleEnv} {id : ℕ} {cfg : SchedulerConfig H E}

section

variable {r r' : Request H E} {t : Option ScheduledTokens}

/-- A promoted request still waits, and can be scheduled. -/
theorem Promoted.status_place (h : Promoted env id r r') (hr : r.status.place = .waiting) :
    r'.status.place = .waiting := by
  cases h with
  | refl => exact hr
  | promote h =>
    unfold tryPromoteBlockedWaitingRequest at h
    rcases hs : r.status <;> simp only [hs, reduceCtorEq] at h
    · split_ifs at h
      · obtain rfl := (mk.inj (some.inj h)).2
        rfl
      · simp at h
    · split_ifs at h
      · obtain rfl := (mk.inj (some.inj h)).2
        rfl
      · obtain rfl := (mk.inj (some.inj h)).2
        rfl
      · simp at h
    · split_ifs at h
      simp at h

/-- A promoted request differs in its status, and perhaps in its computed tokens. It does not become
one that the worker has nothing of. -/
theorem Promoted.spec (h : Promoted env id r r') (hr : r.status.place = .waiting) :
    ∃ st c, r' = { r with status := st, numComputedTokens := c } ∧ st ≠ .running ∧
      st ≠ .waitingForStreamingReq ∧ (c = r.numComputedTokens ∨ c = r.numTokens - 1) ∧
      (({ r with status := st } : Request H E).Unsent → r.Unsent) := by
  have hne : r'.status ≠ .running := fun hrun ↦ by
    have hplace := h.status_place hr
    rw [hrun] at hplace
    cases hplace
  cases h with
  | refl h =>
    refine ⟨r.status, r.numComputedTokens, rfl, hne, fun hst ↦ ?_, .inl rfl, fun h ↦ h⟩
    rw [hst] at h
    cases h
  | promote h =>
    unfold tryPromoteBlockedWaitingRequest at h
    rcases hs : r.status <;> simp only [hs, reduceCtorEq] at h
    · split_ifs at h
      · obtain rfl := (mk.inj (some.inj h)).2
        exact ⟨_, r.numComputedTokens, rfl, hne, nofun, .inl rfl,
          fun _ ↦ ⟨hr, by rw [hs]; nofun, .inr (.inr hs)⟩⟩
      · simp at h
    · split_ifs at h with _ hpre
      · obtain rfl := (mk.inj (some.inj h)).2
        have hsent : ¬ ({ r with status := .preempted } : Request H E).Unsent := by
          rintro ⟨-, -, h | ⟨⟨⟩⟩ | ⟨⟨⟩⟩⟩
          exact hpre h
        unfold updateWaitingForRemoteKv
        split_ifs
        · exact ⟨.preempted, _, rfl, nofun, nofun, .inr rfl, fun h ↦ absurd h hsent⟩
        · exact ⟨.preempted, _, rfl, nofun, nofun, .inl rfl, fun h ↦ absurd h hsent⟩
      · obtain rfl := (mk.inj (some.inj h)).2
        have hunsent : r.Unsent := ⟨hr, by rw [hs]; nofun, .inl (not_not.1 hpre)⟩
        unfold updateWaitingForRemoteKv
        split_ifs
        · exact ⟨.waiting, _, rfl, nofun, nofun, .inr rfl, fun _ ↦ hunsent⟩
        · exact ⟨.waiting, _, rfl, nofun, nofun, .inl rfl, fun _ ↦ hunsent⟩
      · simp at h
    · split_ifs at h
      simp at h

/-- A request that runs after the step without being scheduled was left alone. -/
theorem StepOutcome.eq_of_running (h : StepOutcome cfg env id r r' none)
    (hr' : r'.status = .running) : r' = r := by
  cases h with
  | untouched => rfl
  | preempted => cases hr'
  | promoted hr hp =>
    have := hp.status_place hr
    rw [hr'] at this
    cases this
  | loads => cases hr'

/-- Preempting a running request undoes what the step has done to it so far. -/
theorem StepOutcome.preempt (h : StepOutcome cfg env id r r' t) (hr : r.status = .running)
    (hr' : r'.status = .running) : StepOutcome cfg env id r r'.preempt none := by
  have hne : r.status.place ≠ .waiting := by
    rw [hr]
    exact fun h ↦ nomatch h
  cases h with
  | untouched => exact .preempted hr
  | preempted => cases hr'
  | promoted hp => exact absurd hp hne
  | loads hp => exact absurd hp hne
  | admitted hp => exact absurd hp hne
  | runs => exact .preempted hr

/-- **A step changes the status and the counters of a request only**; it does not revive a finished
request, nor does it make one wait for input. -/
theorem StepOutcome.eq_with (h : StepOutcome cfg env id r r' t) :
    ∃ st c spec n, r' = { r with
        status := st, numComputedTokens := c, specTokenIds := spec, numPreemptions := n } ∧
      (st = .waitingForStreamingReq → r.status = .waitingForStreamingReq) ∧
      (st.isFinished = false → r.isFinished = false) := by
  have hwaiting (hr : r.status.place = .waiting) : r.isFinished = false :=
    (RequestStatus.place_eq_waiting_iff.1 hr).2
  have hrunning (hr : r.status = .running) : r.isFinished = false := by
    rw [Request.isFinished, hr]
    rfl
  cases h with
  | untouched => exact ⟨_, _, _, _, rfl, fun h ↦ h, fun h ↦ h⟩
  | preempted hr => exact ⟨_, _, _, _, rfl, nofun, fun _ ↦ hrunning hr⟩
  | promoted hr hp =>
    obtain ⟨st, c, rfl, -, hst, -⟩ := hp.spec hr
    exact ⟨_, _, _, _, rfl, fun h ↦ absurd h hst, fun _ ↦ hwaiting hr⟩
  | loads hr hp =>
    obtain ⟨st, c, rfl, -⟩ := hp.spec hr
    exact ⟨_, _, _, _, rfl, nofun, fun _ ↦ hwaiting hr⟩
  | admitted hr hp =>
    obtain ⟨st, c, rfl, -⟩ := hp.spec hr
    exact ⟨_, _, _, _, rfl, nofun, fun _ ↦ hwaiting hr⟩
  | runs hr => exact ⟨_, _, _, _, rfl, fun h ↦ h, fun _ ↦ hrunning hr⟩

theorem StepOutcome.unsent (h : StepOutcome cfg env id r r' t) (hr' : r'.Unsent) : r.Unsent := by
  have ⟨hplace, _, hnew⟩ := hr'
  cases h with
  | untouched => exact hr'
  | preempted => exact hnew.elim nofun (·.elim nofun nofun)
  | promoted hr hp =>
    obtain ⟨st, c, rfl, -, -, -, hunsent⟩ := hp.spec hr
    exact hunsent hr'
  | loads hr hp =>
    obtain ⟨st, c, rfl, -, hst, -, hunsent⟩ := hp.spec hr
    exact hunsent ⟨hp.status_place hr, hst, .inl (hnew.resolve_right (·.elim nofun nofun))⟩
  | admitted => cases hplace
  | runs hr =>
    rw [show _ = r.status from rfl, hr] at hplace
    cases hplace

end

/-! ### The invariant of the loops -/

section

variable (cfg : SchedulerConfig H E) (env : ScheduleEnv) (s₀ : Scheduler H E) (a : StepState H E)

/-- **The invariant of a scheduling step** that started from `s₀`. -/
structure StepInv : Prop where
  outcome : ∀ id, OutcomeAt cfg env id (s₀.requests id) (a.sched.requests id) (a.scheduled id)
  placed : AllPlaced a.sched a.stepSkippedWaiting
  nodup : (Dict.keys a.numScheduledTokens).Nodup
  unscheduled : ∀ id, get? a.numScheduledTokens id = none →
    get? a.scheduledSpecDecodeTokens id = none ∧ get? a.scheduledNewReqs id = none
  currentStep : a.sched.currentStep = s₀.currentStep

/-- **The invariant of the loop over the running requests**, at index `idx`. -/
structure RunningInv (idx : ℕ) : Prop extends StepInv cfg env s₀ a where
  stepSkippedWaiting : a.stepSkippedWaiting = []
  scheduledNewReqs : a.scheduledNewReqs = []
  scheduledRunningReqs : a.scheduledRunningReqs = Dict.keys a.numScheduledTokens
  mem_take : ∀ id ∈ a.scheduledRunningReqs, id ∈ a.sched.running.take idx
  subset : a.sched.running ⊆ s₀.running
  untouched : ∀ id ∉ s₀.running, a.sched.requests id = s₀.requests id ∧ a.scheduled id = none
  queues : a.preemptedReqs = [] → a.sched.running = s₀.running ∧ a.sched.waiting = s₀.waiting ∧
    a.sched.skippedWaiting = s₀.skippedWaiting

/-- **The invariant of the loop over the waiting requests**: what is still queued was not
touched. -/
structure WaitingInv : Prop extends StepInv cfg env s₀ a where
  untouched : ∀ q, ∀ id ∈ a.sched.queue q,
    a.sched.requests id = s₀.requests id ∧ a.scheduled id = none

end

/-- Two states of a step agree about a request. -/
structure StepState.SameAt (a b : StepState H E) (j : ℕ) : Prop where
  requests : b.sched.requests j = a.sched.requests j
  numScheduledTokens : get? b.numScheduledTokens j = get? a.numScheduledTokens j
  specTokens : get? b.scheduledSpecDecodeTokens j = get? a.scheduledSpecDecodeTokens j
  new_eq : get? b.scheduledNewReqs j = get? a.scheduledNewReqs j

theorem StepState.SameAt.scheduled_eq {a b : StepState H E} {j : ℕ} (h : a.SameAt b j) :
    b.scheduled j = a.scheduled j := by
  simp only [scheduled, specOf, h.numScheduledTokens, h.specTokens, h.new_eq]

section StepInv

variable {s₀ : Scheduler H E} {a b : StepState H E}

theorem StepState.scheduled_eq_none_iff :
    a.scheduled id = none ↔ get? a.numScheduledTokens id = none := by
  rw [scheduled, map_eq_none_iff]

/-- A change to one request, seen from the outcomes of all. -/
theorem StepInv.outcome_of_sameAt (h : StepInv cfg env s₀ a) (hother : ∀ j ≠ id, a.SameAt b j)
    (hid : OutcomeAt cfg env id (s₀.requests id) (b.sched.requests id) (b.scheduled id)) (j : ℕ) :
    OutcomeAt cfg env j (s₀.requests j) (b.sched.requests j) (b.scheduled j) := by
  rcases eq_or_ne j id with rfl | hj
  · exact hid
  · rw [(hother j hj).requests, (hother j hj).scheduled_eq]
    exact h.outcome j

/-- A change to one request, seen from what is not scheduled. -/
theorem StepInv.unscheduled_of_sameAt (h : StepInv cfg env s₀ a) (hother : ∀ j ≠ id, a.SameAt b j)
    (hid : get? b.numScheduledTokens id = none →
      get? b.scheduledSpecDecodeTokens id = none ∧ get? b.scheduledNewReqs id = none) (j : ℕ)
    (hj : get? b.numScheduledTokens j = none) :
    get? b.scheduledSpecDecodeTokens j = none ∧ get? b.scheduledNewReqs j = none := by
  rcases eq_or_ne j id with rfl | hne
  · exact hid hj
  · rw [(hother j hne).numScheduledTokens] at hj
    rw [(hother j hne).specTokens, (hother j hne).new_eq]
    exact h.unscheduled j hj

end StepInv

end OneCatVllm
