import OneCatVllm.Sched.RunningLoop

/-!
# The specification of a scheduling step

The second loop of `schedule` takes requests out of the waiting queues; `WaitingInv` says that those
still queued were not touched yet, and is kept by every iteration (`waitingLoop_inv`).

`schedule_spec` states what the whole call does, request by request (`RequestStep`): the request
after the call, the worker's record of its tokens, and its entries in the output. What the rest of
the development needs of `schedule` follows from it.
-/

namespace OneCatVllm

open Dict List Option Scheduler StepState

variable {H E : Type}

/-! ### Waiting requests -/

variable {cfg : SchedulerConfig H E} {env : ScheduleEnv} {a : StepState H E} {r : Request H E}

section

variable {s₀ : Scheduler H E} {b : StepState H E} {q : WaitingQueue} {id : ℕ} {r' : Request H E}
  {threshold : ℤ} {res : LoopStep (StepState H E)}

/-- The second loop starts only if nothing was preempted; the waiting queues are then as the step
found them. -/
theorem RunningInv.waitingInv {idx : ℕ} (h : RunningInv cfg env s₀ a idx) (hs₀ : AllPlaced s₀ [])
    (hnil : a.preemptedReqs = []) (loras : List ℕ) :
    WaitingInv cfg env s₀ { a with scheduledLoras := loras } := by
  refine ⟨{ h with }, fun q id hid ↦ ?_⟩
  obtain ⟨-, hwaiting, hskipped⟩ := h.queues hnil
  have hqueue : id ∈ s₀.queue q := by
    cases q
    · exact (hwaiting ▸ hid : id ∈ s₀.waiting)
    · exact (hskipped ▸ hid : id ∈ s₀.skippedWaiting)
  obtain ⟨r, hr, hplace⟩ := hs₀.of_waitingCount_pos (waitingCount_pos_of_mem hqueue [])
  refine h.untouched id fun hrun ↦ ?_
  obtain ⟨r', hr', hrun'⟩ := hs₀.of_mem_running hrun
  cases hr.symm.trans hr'
  rw [hrun'] at hplace
  cases hplace

section

variable (h : WaitingInv cfg env s₀ a) (hid : id ∈ a.sched.queue q)
  (hr : a.sched.requests id = some r)

include h hid hr

/-- What is known of a request at the head of a waiting queue. -/
theorem WaitingInv.head : s₀.requests id = some r ∧
      r.status.place = .waiting ∧ a.sched.running.count id = 0 ∧
      a.sched.waitingCount a.stepSkippedWaiting id = 1 ∧
      get? a.numScheduledTokens id = none := by
  obtain ⟨huntouched, hnone⟩ := h.untouched q id hid
  obtain ⟨r', hr', hplace⟩ := h.placed.of_waitingCount_pos
    (waitingCount_pos_of_mem hid a.stepSkippedWaiting)
  cases hr.symm.trans hr'
  have hholds := h.placed id
  rw [hr, placeOf, hplace] at hholds
  exact ⟨huntouched ▸ hr, hplace, hholds.1, hholds.2, scheduled_eq_none_iff.1 hnone⟩

/-- A request leaves its queue: the others are still untouched. -/
theorem WaitingInv.leave (hb : StepInv cfg env s₀ b) (hother : ∀ j ≠ id, a.SameAt b j)
    (hqueue : ∀ q', b.sched.queue q' = (a.sched.popRequest q id).queue q') :
    WaitingInv cfg env s₀ b := by
  refine ⟨hb, fun q' j hj ↦ ?_⟩
  rw [hqueue] at hj
  obtain ⟨-, -, -, hcount, -⟩ := h.head hid hr
  have hne : j ≠ id := by
    rintro rfl
    have hpop := popRequest_waitingCount hid a.stepSkippedWaiting j
    have hpos := waitingCount_pos_of_mem hj a.stepSkippedWaiting
    rw [if_pos rfl] at hpop
    omega
  rw [(hother j hne).requests, (hother j hne).scheduled_eq]
  exact h.untouched q' j (mem_queue_popRequest hj)

/-- **Setting a request aside** for the rest of the step. -/
theorem WaitingInv.setAside (hplace : r'.status.place = .waiting)
    (hout : StepOutcome cfg env id r r' none) (n : ℕ) :
    WaitingInv cfg env s₀
      { a with
        sched := (a.sched.popRequest q id).setRequest id r'
        stepSkippedWaiting := prependRequest a.stepSkippedWaiting id
        allocateCalls := n } := by
  obtain ⟨hr₀, -, hrun, hcount, hnone⟩ := h.head hid hr
  set b : StepState H E := { a with
    sched := (a.sched.popRequest q id).setRequest id r'
    stepSkippedWaiting := prependRequest a.stepSkippedWaiting id
    allocateCalls := n } with hb
  have hother : ∀ j ≠ id, a.SameAt b j := by
    intro j hj
    refine ⟨?_, rfl, rfl, rfl⟩
    rw [setRequest_requests_of_ne hj, popRequest_requests]
  have hwait (j : ℕ) : b.sched.waitingCount b.stepSkippedWaiting j =
      a.sched.waitingCount a.stepSkippedWaiting j := by
    have hpop := popRequest_waitingCount hid a.stepSkippedWaiting j
    rw [← hpop]
    by_cases hj : j = id
    · simp only [hb, waitingCount, prependRequest, hj, count_cons_self, if_true,
        setRequest_waiting, setRequest_skippedWaiting]
      omega
    · simp only [hb, waitingCount, prependRequest, count_cons_of_ne (Ne.symm hj),
        if_neg hj, setRequest_waiting, setRequest_skippedWaiting, add_zero]
  have hreq : b.sched.requests id = some r' := setRequest_requests_self
  have hstep : StepInv cfg env s₀ b := by
    refine ⟨h.outcome_of_sameAt hother ?_, ?_, h.nodup, h.unscheduled, ?_⟩
    · have : b.scheduled id = none := scheduled_eq_none_iff.2 hnone
      rw [this, hr₀, hreq]
      exact .live hout
    · refine h.placed.move id (fun j hj ↦ ⟨(hother j hj).requests, ?_, hwait j⟩) ?_
      · rw [setRequest_running, popRequest_running]
      · rw [hreq, placeOf, hplace, hwait, hcount, setRequest_running, popRequest_running, hrun]
        exact ⟨rfl, rfl⟩
    · rw [← h.currentStep]
      cases q <;> rfl
  exact h.leave hid hr hstep hother fun q' ↦ by cases q' <;> rfl

/-- **Admitting a request.** -/
theorem WaitingInv.admitted {x : Request H E} {computed n sent : ℤ}
    (hsched : b.sched = { (a.sched.popRequest q id).setRequest id (x.admitted computed) with
      running := a.sched.running ++ [id] })
    (hnum : b.numScheduledTokens = Dict.set a.numScheduledTokens id n)
    (hspec : b.scheduledSpecDecodeTokens = a.scheduledSpecDecodeTokens)
    (hnew : b.scheduledNewReqs = Dict.set a.scheduledNewReqs id sent)
    (hskip : b.stepSkippedWaiting = a.stepSkippedWaiting)
    (hout : StepOutcome cfg env id r (x.admitted computed) (some ⟨n, [], sent⟩)) :
    WaitingInv cfg env s₀ b := by
  obtain ⟨hr₀, -, hrun, hcount, hnone⟩ := h.head hid hr
  have hother : ∀ j ≠ id, a.SameAt b j := by
    intro j hj
    refine ⟨?_, ?_, by rw [hspec], ?_⟩
    · rw [hsched]
      exact (setRequest_requests_of_ne hj).trans (congrFun (popRequest_requests q) j)
    · rw [hnum, get?_set, if_neg hj.symm]
    · rw [hnew, get?_set, if_neg hj.symm]
  have hreq : b.sched.requests id = some (x.admitted computed) := by
    rw [hsched]
    exact setRequest_requests_self
  have hscheduled : b.scheduled id = some ⟨n, [], sent⟩ := by
    have hnil : b.specOf id = [] := by
      rw [specOf, hspec, (h.unscheduled id hnone).1, getD_none]
    rw [scheduled, hnil, hnum, hnew, get?_set, get?_set, if_pos rfl, if_pos rfl]
    rfl
  have hwait (j : ℕ) : b.sched.waitingCount b.stepSkippedWaiting j =
      (a.sched.popRequest q id).waitingCount a.stepSkippedWaiting j := by
    rw [hsched, hskip]
    rfl
  have hstep : StepInv cfg env s₀ b := by
    refine ⟨h.outcome_of_sameAt hother ?_, ?_, ?_, h.unscheduled_of_sameAt hother ?_, ?_⟩
    · rw [hscheduled, hr₀, hreq]
      exact .live hout
    · refine h.placed.move id (fun j hj ↦ ⟨(hother j hj).requests, ?_, ?_⟩) ?_
      · simp [hsched, count_cons_of_ne hj.symm]
      · have hpop := popRequest_waitingCount hid a.stepSkippedWaiting j
        rw [hwait, ← hpop, if_neg hj, add_zero]
      · have hpop := popRequest_waitingCount hid a.stepSkippedWaiting id
        rw [if_pos rfl] at hpop
        rw [hreq, hwait]
        refine ⟨?_, by omega⟩
        simp [hsched, hrun]
    · rw [hnum]
      exact nodup_keys_set h.nodup
    · intro hnone'
      rw [hnum, get?_set, if_pos rfl] at hnone'
      cases hnone'
    · rw [← h.currentStep, hsched]
      cases q <;> rfl
  refine h.leave hid hr hstep hother fun q' ↦ ?_
  rw [hsched]
  cases q' <;> rfl

/-- A request that is promoted where it stands. -/
theorem WaitingInv.promote (hp : Promoted env id r r') (n : ℕ) :
    StepInv cfg env s₀ { a with sched := a.sched.setRequest id r', allocateCalls := n } := by
  obtain ⟨hr₀, hplace, -, -, hnone⟩ := h.head hid hr
  have hother : ∀ j ≠ id,
      a.SameAt { a with sched := a.sched.setRequest id r', allocateCalls := n } j := fun j hj ↦
    ⟨setRequest_requests_of_ne hj, rfl, rfl, rfl⟩
  refine ⟨h.outcome_of_sameAt hother ?_, ?_, h.nodup, h.unscheduled, h.currentStep⟩
  · have hnone' : scheduled
        { a with sched := a.sched.setRequest id r', allocateCalls := n } id = none :=
      scheduled_eq_none_iff.2 hnone
    rw [hnone', setRequest_requests_self, hr₀]
    exact .live (.promoted hplace hp)
  · exact h.placed.setRequest hr ((hp.status_place hplace).trans hplace.symm)

end

/-- What an iteration of the waiting loop has to leave. -/
def LoopStepInv (cfg : SchedulerConfig H E) (env : ScheduleEnv) (s₀ : Scheduler H E) :
    LoopStep (StepState H E) → Prop
  | .stop b => StepInv cfg env s₀ b
  | .next b => WaitingInv cfg env s₀ b

/-- **The rest of an iteration**, for a request that is not blocked any more. -/
theorem admitStep_inv (h : WaitingInv cfg env s₀ a) (hid : id ∈ a.sched.queue q)
    (hr : a.sched.requests id = some r) (hp : Promoted env id r r') (hbudget : 0 < a.tokenBudget)
    (hstep : admitStep cfg env threshold { a with sched := a.sched.setRequest id r' } q id r' =
      some res) : LoopStepInv cfg env s₀ res := by
  obtain ⟨-, hplace, -, -, -⟩ := h.head hid hr
  have hplace' := hp.status_place hplace
  have hskip : WaitingInv cfg env s₀
      (skipWaiting { a with sched := a.sched.setRequest id r' } q id) := by
    have := h.setAside hid hr hplace' (.promoted hplace hp) a.allocateCalls
    rwa [← setRequest_popRequest] at this
  unfold admitStep at hstep
  by_cases hloras : exceedsMaxLoras cfg { a with sched := a.sched.setRequest id r' } r' = true
  · rw [if_pos hloras] at hstep
    exact some.inj hstep ▸ hskip
  rw [if_neg hloras] at hstep
  rcases hcomputed : computedTokens env id r' with - | - | ⟨computed, external, - | -⟩
  · simp [hcomputed] at hstep
  · simp only [hcomputed, some.injEq] at hstep
    exact hstep ▸ hskip
  · -- the tokens are there: schedule as many of the others as possible
    simp only [hcomputed] at hstep
    rcases hn : numNewTokensWaiting cfg env threshold a.tokenBudget id r' computed with
      - | - | n
    · simp [hn] at hstep
    · simp only [hn, some.injEq] at hstep
      exact hstep ▸ h.promote hid hr hp a.allocateCalls
    · simp only [hn] at hstep
      split_ifs at hstep with halloc hstatus
      · cases hstep
        refine h.admitted hid hr ?_ rfl rfl rfl rfl (.admitted hplace hp hcomputed hbudget hn)
        simp only [admitted, setRequest_popRequest, setRequest_running, popRequest_running,
          setRequest_setRequest]
      · cases hstep
        exact h.promote hid hr hp _
  · simp only [hcomputed] at hstep
    split_ifs at hstep with hext halloc
    · cases hstep
      have hload : WaitingInv cfg env s₀ _ :=
        h.setAside hid hr rfl (.loads hplace hp hcomputed) (a.allocateCalls + 1)
      rwa [← setRequest_setRequest, ← setRequest_popRequest] at hload
    · cases hstep
      exact h.promote hid hr hp _

theorem peekRequest_mem {policy : SchedulingPolicy} {heapHead : List ℕ → ℕ} {l : List ℕ}
    (h : peekRequest policy heapHead l = some id) : id ∈ l := by
  cases policy with
  | fcfs => exact mem_of_head? h
  | priority => exact mem_of_getElem? h

/-- **One iteration of the loop over the waiting requests.** -/
theorem waitingStep_inv (h : WaitingInv cfg env s₀ a) (hbudget : 0 < a.tokenBudget)
    (hstep : waitingStep cfg env threshold a = some res) : LoopStepInv cfg env s₀ res := by
  unfold waitingStep at hstep
  by_cases hlen : a.sched.running.length = cfg.maxNumRunningReqs
  · rw [if_pos hlen] at hstep
    exact some.inj hstep ▸ h.toStepInv
  rw [if_neg hlen] at hstep
  rcases hq : selectWaitingQueue cfg env a.sched with - | q
  · simp [hq] at hstep
  rcases hpeek : peekRequest cfg.policy env.heapHead (a.sched.queue q) with - | id
  · simp [hq, hpeek] at hstep
  rcases hr : a.sched.requests id with - | r
  · simp [hq, hpeek, hr] at hstep
  have hid := peekRequest_mem hpeek
  simp only [hq, hpeek, hr] at hstep
  split_ifs at hstep with hblocked
  · rcases hp : tryPromoteBlockedWaitingRequest env id r with - | ⟨- | -, r'⟩
    · simp [hp] at hstep
    · simp only [hp, some.injEq] at hstep
      obtain ⟨-, hplace, -⟩ := h.head hid hr
      have hskip := h.setAside hid hr hplace .untouched a.allocateCalls
      rw [setRequest_self ((congrFun (popRequest_requests q) id).trans hr)] at hskip
      exact hstep ▸ hskip
    · simp only [hp] at hstep
      exact admitStep_inv h hid hr (.promote hp) hbudget hstep
  · have hself : { a with sched := a.sched.setRequest id r } = a := by
      rw [setRequest_self hr]
    rw [← hself] at hstep
    exact admitStep_inv h hid hr (.refl (by simpa using hblocked)) hbudget hstep

/-- **The loop over the waiting requests.** -/
theorem waitingLoop_inv {fuel : ℕ} (h : WaitingInv cfg env s₀ a)
    (hloop : waitingLoop cfg env threshold fuel a = some b) : StepInv cfg env s₀ b := by
  induction fuel generalizing a with
  | zero => exact some.inj hloop ▸ h.toStepInv
  | succ fuel ih =>
    unfold waitingLoop at hloop
    split_ifs at hloop with hend
    · exact some.inj hloop ▸ h.toStepInv
    rw [not_or, not_le] at hend
    rcases hstep : waitingStep cfg env threshold a with - | (a' | a')
    · simp [hstep] at hloop
    · simp only [hstep, some.injEq] at hloop
      exact hloop ▸ waitingStep_inv h hend.1 hstep
    · simp only [hstep] at hloop
      exact ih (waitingStep_inv h hend.1 hstep) hloop

end

/-! ### The whole step -/

section

variable {s s' : Scheduler H E} {lens lens' : PrefillLens} {out : SchedulerOutput}

/-- **Both loops.** -/
theorem scheduleRequests_inv (hs : AllPlaced s []) (h : scheduleRequests cfg env s = some a) :
    StepInv cfg env { s with currentStep := s.currentStep + 1 }
      { a with stepSkippedWaiting := [] } := by
  set s₀ : Scheduler H E := { s with currentStep := s.currentStep + 1 } with hs₀
  have hplaced : AllPlaced s₀ [] := hs
  have hstart : RunningInv cfg env s₀
      { sched := s₀, tokenBudget := cfg.maxNumScheduledTokens } 0 := by
    refine
      { outcome := fun id ↦ ?_, placed := hs, nodup := nodup_nil, unscheduled := by simp
        currentStep := rfl, stepSkippedWaiting := rfl, scheduledNewReqs := rfl
        scheduledRunningReqs := rfl, mem_take := by simp, subset := Subset.refl _
        untouched := fun _ _ ↦ ⟨rfl, rfl⟩, queues := fun _ ↦ ⟨rfl, rfl, rfl⟩ }
    rcases hr : s₀.requests id with - | r
    · exact .absent
    · exact .live .untouched
  unfold scheduleRequests at h
  dsimp only at h
  split at h
  · cases h
  next b hloop =>
    obtain ⟨idx, hb⟩ := runningLoop_inv hstart hplaced hloop
    generalize (if cfg.maxLoras.isSome then runningLoras b.sched b.scheduledRunningReqs else []) =
      loras at h
    split_ifs at h with hloras hpre
    · -- something was preempted: the waiting requests are not looked at
      cases h
      have hskip := hb.stepSkippedWaiting
      exact { hb.toStepInv with placed := hskip ▸ hb.placed }
    · obtain ⟨c, hwait, rfl⟩ := map_eq_some_iff.1 h
      have hc := waitingLoop_inv (hb.waitingInv hplaced (not_not.1 hpre) _) hwait
      refine { hc with placed := fun id ↦ ?_ }
      have hcount : waitingCount { c.sched with
            skippedWaiting := prependRequests c.sched.skippedWaiting c.stepSkippedWaiting } [] id =
          c.sched.waitingCount c.stepSkippedWaiting id := by
        simp only [waitingCount, prependRequests, count_append, count_reverse, count_nil]
        omega
      rw [hcount]
      exact hc.placed id

@[simp] theorem afterSchedule_status {currentStep : ℕ} {n : ℤ} {spec : List ℤ} :
    (afterSchedule cfg currentStep n spec r).status = r.status := by
  unfold afterSchedule asyncUpdateAfterSchedule
  split_ifs <;> rfl

section

variable (cfg : SchedulerConfig H E) (currentStep : ℕ) (t : Option ScheduledTokens)
  (r : Request H E)

/-- A scheduled request after `_update_after_schedule`. -/
def finishedAt : Request H E :=
  match t with
  | none => r
  | some t => afterSchedule cfg currentStep t.numTokens t.specTokenIds r

/-- Only counters change after the loops. -/
theorem finishedAt_eq_with :
    ∃ c fl chunk placeholders spec next, finishedAt cfg currentStep t r = { r with
      numComputedTokens := c, numInFlightTokens := fl, isPrefillChunk := chunk
      numOutputPlaceholders := placeholders, specTokenIds := spec
      nextDecodeEligibleStep := next } := by
  rcases t with - | t
  · exact ⟨_, _, _, _, _, _, rfl⟩
  · unfold finishedAt afterSchedule asyncUpdateAfterSchedule
    dsimp only
    split_ifs <;> exact ⟨_, _, _, _, _, _, rfl⟩

end

/-- The entries of the output for one request. -/
def entriesAt (cfg : SchedulerConfig H E) (len : ℤ) (id : ℕ) (t : Option ScheduledTokens)
    (r : Request H E) : List OutputEntry :=
  match t with
  | none => []
  | some t => [mkOutputEntry id r t.numTokens t.specTokenIds (knownTokens cfg t.sent len r)]

/-- The worker's record of the tokens it got a request with, after a step. -/
def prefillLenAt (len : ℤ) (t : Option ScheduledTokens) : ℤ := (t.bind (·.sent)).getD len

/-- **What a step does to one request**, as a whole: the request after it, the worker's record of
its tokens, and its entries in the output. -/
inductive RequestStep (cfg : SchedulerConfig H E) (env : ScheduleEnv) (currentStep id : ℕ)
    (len : ℤ) : Option (Request H E) → Option (Request H E) → ℤ → List OutputEntry → Prop
  | absent {len' : ℤ} : RequestStep cfg env currentStep id len none none len' []
  | live {r r' : Request H E} {t : Option ScheduledTokens} : StepOutcome cfg env id r r' t →
      RequestStep cfg env currentStep id len (some r) (some (finishedAt cfg currentStep t r'))
        (prefillLenAt len t) (entriesAt cfg len id t r')

/-- From the outcome of the loops to the outcome of the step. -/
theorem OutcomeAt.requestStep {o o' : Option (Request H E)} {t : Option ScheduledTokens}
    {currentStep id : ℕ} {len : ℤ} (h : OutcomeAt cfg env id o o' t) :
    RequestStep cfg env currentStep id len o (o'.map (finishedAt cfg currentStep t))
      (prefillLenAt len t) (o'.elim [] (entriesAt cfg len id t)) := by
  cases h with
  | absent => exact .absent
  | live h => exact .live h

/-- **The specification of `schedule`.** -/
structure ScheduleSpec (cfg : SchedulerConfig H E) (env : ScheduleEnv) (s : Scheduler H E)
    (lens : PrefillLens) (s' : Scheduler H E) (lens' : PrefillLens) (out : SchedulerOutput) :
    Prop where
  request : ∀ id, RequestStep cfg env (s.currentStep + 1) id (lens id) (s.requests id)
    (s'.requests id) (lens' id) (out.filter (·.reqId = id))
  placed : AllPlaced s' []
  nodup : (out.map (·.reqId)).Nodup
  currentStep : s'.currentStep = s.currentStep + 1

/-- What `finishStep` does with the items left to do. -/
structure FinishSpec (cfg : SchedulerConfig H E) (lens : PrefillLens) (a : StepState H E)
    (items : List (ℕ × ℤ)) (s s' : Scheduler H E) (out : SchedulerOutput) : Prop where
  requests : ∀ id, s'.requests id = match get? items id with
    | none => s.requests id
    | some n => (s.requests id).map (afterSchedule cfg s.currentStep n (a.specOf id))
  entries : ∀ id, out.filter (·.reqId = id) = match get? items id, s.requests id with
    | some n, some r => [mkOutputEntry id r n (a.specOf id)
        (knownTokens cfg (get? a.scheduledNewReqs id) (lens id) r)]
    | _, _ => []
  keys : out.map (·.reqId) = Dict.keys items
  running : s'.running = s.running
  waiting : s'.waiting = s.waiting
  skippedWaiting : s'.skippedWaiting = s.skippedWaiting
  currentStep : s'.currentStep = s.currentStep

theorem finishStep_spec {items : List (ℕ × ℤ)} (hnodup : (Dict.keys items).Nodup)
    (h : finishStep cfg lens a items s = some (s', out)) :
    FinishSpec cfg lens a items s s' out := by
  induction items generalizing s out with
  | nil =>
    cases h
    exact ⟨fun _ ↦ rfl, fun _ ↦ rfl, rfl, rfl, rfl, rfl, rfl⟩
  | cons item items ih =>
    obtain ⟨id, n⟩ := item
    obtain ⟨hid, hnodup'⟩ := nodup_cons.1 hnodup
    unfold finishStep at h
    rcases hr : s.requests id with - | r
    · simp [hr] at h
    simp only [hr] at h
    obtain ⟨⟨s₁, out'⟩, hrest, heq⟩ := map_eq_some_iff.1 h
    cases heq
    have hspec := ih hnodup' hrest
    have hget : get? items id = none := get?_eq_none_iff.2 hid
    refine ⟨fun j ↦ ?_, fun j ↦ ?_, ?_, hspec.running, hspec.waiting, hspec.skippedWaiting,
      hspec.currentStep⟩
    · have hreq := hspec.requests j
      rcases eq_or_ne j id with rfl | hj
      · rw [hget] at hreq
        simp only [get?, if_true, hr, map_some]
        simpa using hreq
      · rw [setRequest_requests_of_ne hj] at hreq
        simp only [get?, if_neg (Ne.symm hj)]
        exact hreq
    · have hent := hspec.entries j
      rcases eq_or_ne j id with rfl | hj
      · rw [hget] at hent
        simp only [get?, if_true, hr]
        rw [filter_cons_of_pos (by simp [mkOutputEntry]), hent]
      · rw [setRequest_requests_of_ne hj] at hent
        simp only [get?, if_neg (Ne.symm hj)]
        rw [filter_cons_of_neg (by simp [mkOutputEntry, Ne.symm hj])]
        exact hent
    · rw [map_cons, hspec.keys]
      rfl

/-- **What `schedule` does.** -/
theorem schedule_spec (hs : AllPlaced s []) (h : schedule cfg env s lens = some (s', lens', out)) :
    ScheduleSpec cfg env s lens s' lens' out := by
  unfold schedule at h
  rcases hreqs : scheduleRequests cfg env s with - | a
  · simp [hreqs] at h
  simp only [hreqs] at h
  have hinv := scheduleRequests_inv hs hreqs
  split_ifs at h with hassert
  obtain ⟨⟨s₁, out₁⟩, hfin, heq⟩ := map_eq_some_iff.1 h
  obtain ⟨rfl, hrest⟩ := Prod.mk.inj heq
  cases hrest
  have hspec := finishStep_spec hinv.nodup hfin
  have hstep : a.sched.currentStep = s.currentStep + 1 := hinv.currentStep
  refine ⟨fun id ↦ ?_, fun id ↦ ?_, ?_, ?_⟩
  · have hout : OutcomeAt cfg env id (s.requests id) (a.sched.requests id) (a.scheduled id) :=
      hinv.outcome id
    have hreq : s₁.requests id = (a.sched.requests id).map
        (finishedAt cfg (s.currentStep + 1) (a.scheduled id)) := by
      rw [hspec.requests id, hstep, scheduled]
      rcases get? a.numScheduledTokens id with - | n
      · exact (map_id_apply).symm
      · rfl
    have hent : out₁.filter (·.reqId = id) =
        (a.sched.requests id).elim [] (entriesAt cfg (lens id) id (a.scheduled id)) := by
      rw [hspec.entries id, scheduled]
      rcases get? a.numScheduledTokens id with - | n <;>
        rcases a.sched.requests id with - | r <;> rfl
    have hlen : updatePrefillLens a.scheduledNewReqs lens id =
        prefillLenAt (lens id) (a.scheduled id) := by
      rw [updatePrefillLens, scheduled]
      rcases hn : get? a.numScheduledTokens id with - | n
      · rw [(hinv.unscheduled id hn).2]
        rfl
      · rfl
    rw [hreq, hent, hlen]
    exact hout.requestStep
  · have hplaced := hinv.placed id
    have hplace : placeOf (s₁.requests id) = placeOf (a.sched.requests id) := by
      rw [hspec.requests id]
      rcases get? a.numScheduledTokens id with - | n
      · rfl
      · rcases a.sched.requests id with - | r
        · rfl
        · exact congrArg RequestStatus.place (afterSchedule_status ..)
    rw [hplace, hspec.running, waitingCount, hspec.waiting, hspec.skippedWaiting]
    exact hplaced
  · rw [hspec.keys]
    exact hinv.nodup
  · rw [hspec.currentStep, hstep]

end

end OneCatVllm
