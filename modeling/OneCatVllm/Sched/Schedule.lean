import Mathlib.Algebra.BigOperators.Group.List.Basic
import Mathlib.Algebra.Ring.Int.Defs
import OneCatVllm.Lib.Dict
import OneCatVllm.Sched.State

/-!
# One scheduling step

`Scheduler.schedule`: first the running requests in order, preempting from the low end when the KV
cache is full, then, if nothing was preempted, the waiting requests; last `_update_after_schedule`,
with the additions of `AsyncScheduler`.

The function is partial where the source asserts or raises (`none`). The two loops run on fuel that
is enough: every iteration of the first one moves on in the running queue or shortens it, every
iteration of the second one takes a request out of a waiting queue or ends the loop.

The answers of other components come with the step (`ScheduleEnv`). Two of them are caps on a number
of tokens; a cap never raises a positive number nor makes it negative (`TokenLimit`).
-/

namespace OneCatVllm

open Dict

variable {H E : Type}

/-! ### The environment of a step -/

/-- A cap on the number of tokens to schedule. -/
structure TokenLimit where
  cap : ℤ → ℤ
  cap_le : ∀ n, cap n ≤ max n 0
  cap_nonneg : ∀ n, 0 ≤ n → 0 ≤ cap n

/-- No cap. -/
def TokenLimit.unlimited : TokenLimit where
  cap := id
  cap_le := fun n ↦ le_max_left n 0
  cap_nonneg := fun _ h ↦ h

/-- What other components answer during one step, by request id. -/
structure ScheduleEnv where
  /-- The place of the head of a priority queue. -/
  heapHead : List ℕ → ℕ := fun _ ↦ 0
  /-- `_balanced_prefill_chunk` and `limit_prefill`. -/
  limitPrefill : ℕ → TokenLimit := fun _ ↦ .unlimited
  /-- `_try_schedule_encoder_inputs` and `_mamba_block_aligned_split`. -/
  limitInputs : ℕ → TokenLimit := fun _ ↦ .unlimited
  /-- Whether the `n`-th call of `allocate_slots` in this step succeeds. -/
  allocateSlots : ℕ → Bool := fun _ ↦ true
  /-- A blocked request can go on: its grammar is compiled, or its KV transfer has finished. -/
  promotable : ℕ → Bool := fun _ ↦ true
  /-- The request is in `failed_recving_kv_req_ids`. -/
  recvFailed : ℕ → Bool := fun _ ↦ false
  /-- Tokens found in the local prefix cache. -/
  localComputedTokens : ℕ → ℕ := fun _ ↦ 0
  /-- The connector's answer: not known yet, or a number of tokens and whether they load in the
  background. Without a connector, no tokens. -/
  matchedTokens : ℕ → Option (ℕ × Bool) := fun _ ↦ some (0, false)

/-! ### Local state of a step -/

/-- The local variables of `schedule`. -/
structure StepState (H E : Type) where
  sched : Scheduler H E
  tokenBudget : ℤ
  numScheduledTokens : List (ℕ × ℤ) := []
  scheduledSpecDecodeTokens : List (ℕ × List ℤ) := []
  scheduledRunningReqs : List ℕ := []
  /-- `scheduled_new_reqs` and `scheduled_resumed_reqs`, with the number of tokens that the worker
  gets each of them with. -/
  scheduledNewReqs : List (ℕ × ℤ) := []
  preemptedReqs : List ℕ := []
  scheduledLoras : List ℕ := []
  stepSkippedWaiting : List ℕ := []
  /-- How often `allocate_slots` has been called. -/
  allocateCalls : ℕ := 0

/-! ### Running requests -/

variable (cfg : SchedulerConfig H E) (env : ScheduleEnv)

/-- The cap of a long prefill, lifted when there is nobody to starve. -/
def longPrefillTokenThreshold (cfg : SchedulerConfig H E) (s : Scheduler H E) : ℤ :=
  let numEligible := s.running.length + s.waiting.length + s.skippedWaiting.length
  let threshold := if numEligible > 1 then cfg.longPrefillTokenThreshold else 0
  if threshold > 0 ∧ cfg.adaptiveLongPrefillThreshold then
    max threshold (cfg.maxNumScheduledTokens / numEligible)
  else threshold

/-- A running request passed over in this step: its next decode slot has not come, or the steps in
flight are sure to reach its token limit. -/
def skipsRunning (s : Scheduler H E) (r : Request H E) : Bool :=
  s.currentStep < r.nextDecodeEligibleStep ||
    (0 < r.numOutputPlaceholders &&
      (r.numPromptTokens : ℤ) + r.maxTokens ≤ r.numComputedTokens + 2 - r.numOutputPlaceholders)

/-- The number of tokens to schedule for a running request. -/
def numNewTokensRunning (threshold budget : ℤ) (id : ℕ) (r : Request H E) : ℤ :=
  let n := (r.numTokensWithSpec : ℤ) + r.numOutputPlaceholders - r.numComputedTokens
  let n := if 0 < threshold ∧ threshold < n then threshold else n
  let n := (env.limitPrefill id).cap (min n budget)
  (env.limitInputs id).cap (min n (cfg.maxModelLen - 1 - r.numComputedTokens))

/-- A request after its preemption. -/
def Request.preempt (r : Request H E) : Request H E :=
  { r with
    status := .preempted
    numComputedTokens := 0
    specTokenIds := []
    numPreemptions := r.numPreemptions + 1 }

/-- `_preempt_request`, for a request already taken out of `running`. -/
def Scheduler.preemptRequest (s : Scheduler H E) (id : ℕ) : Option (Scheduler H E) :=
  match s.requests id with
  | none => none
  | some r =>
    if r.status = .running then
      some { s.setRequest id r.preempt with waiting := prependRequest s.waiting id }
    else none

/-- Whether `id'` has a larger `(priority, arrival_time)` than `id`. -/
def lowerPriority (s : Scheduler H E) (id id' : ℕ) : Bool :=
  match s.requests id, s.requests id' with
  | some r, some r' =>
    r.priority < r'.priority || (r.priority = r'.priority && r.arrivalTime < r'.arrivalTime)
  | _, _ => false

/-- The running request to preempt: the last one, or the first of lowest priority. -/
def preemptionVictim (s : Scheduler H E) : Option ℕ :=
  match cfg.policy with
  | .fcfs => s.running.getLast?
  | .priority => s.running.foldl (fun best id ↦
      match best with
      | none => some id
      | some b => if lowerPriority s b id then some id else some b) none

/-- Take a victim out of `running`, and out of what is scheduled so far. Only the `PRIORITY` policy
can pick a request that is scheduled already; the index of the loop then moves back. -/
def StepState.removeVictim (a : StepState H E) (idx v : ℕ) : StepState H E × ℕ :=
  match cfg.policy with
  | .fcfs => ({ a with sched := { a.sched with running := a.sched.running.dropLast } }, idx)
  | .priority =>
    let a := { a with sched := { a.sched with running := a.sched.running.erase v } }
    if v ∈ a.scheduledRunningReqs then
      ({ a with
          scheduledRunningReqs := a.scheduledRunningReqs.erase v
          tokenBudget := a.tokenBudget + (get? a.numScheduledTokens v).getD 0
          numScheduledTokens := pop a.numScheduledTokens v
          scheduledSpecDecodeTokens := pop a.scheduledSpecDecodeTokens v },
        idx - 1)
    else (a, idx)

/-- The inner `while`: allocate slots for request `id`, preempting until there is room or the
request itself was preempted. The flag says whether the allocation succeeded. -/
def allocateOrPreempt (id : ℕ) : ℕ → StepState H E → ℕ → Option (StepState H E × ℕ × Bool)
  | 0, _, _ => none
  | fuel + 1, a, idx =>
    let a' := { a with allocateCalls := a.allocateCalls + 1 }
    if env.allocateSlots a.allocateCalls then some (a', idx, true)
    else
      match preemptionVictim cfg a'.sched with
      | none => none
      | some v =>
        let res := a'.removeVictim cfg idx v
        match res.1.sched.preemptRequest v with
        | none => none
        | some s =>
          let a'' := { res.1 with sched := s, preemptedReqs := res.1.preemptedReqs ++ [v] }
          if v = id then some (a'', res.2, false)
          else allocateOrPreempt id fuel a'' res.2

/-- The draft tokens of a running request that `n` scheduled tokens reach. -/
def draftsScheduled (r : Request H E) (n : ℤ) : List ℤ :=
  r.specTokenIds.take (n + r.numComputedTokens - r.numTokens - r.numOutputPlaceholders).toNat

/-- Schedule `n` tokens of a running request, with its draft tokens as far as they are reached. -/
def StepState.scheduleRunning (a : StepState H E) (id : ℕ) (r : Request H E) (n : ℤ) :
    StepState H E :=
  { a with
    sched := a.sched.setRequest id { r with specTokenIds := [] }
    scheduledRunningReqs := a.scheduledRunningReqs ++ [id]
    numScheduledTokens := Dict.set a.numScheduledTokens id n
    tokenBudget := a.tokenBudget - n
    scheduledSpecDecodeTokens :=
      if draftsScheduled r n = [] then a.scheduledSpecDecodeTokens
      else Dict.set a.scheduledSpecDecodeTokens id (draftsScheduled r n) }

/-- The loop over the running requests. -/
def runningLoop (threshold : ℤ) : ℕ → StepState H E → ℕ → Option (StepState H E)
  | 0, a, _ => some a
  | fuel + 1, a, idx =>
    if a.tokenBudget ≤ 0 then some a
    else
      match a.sched.running[idx]? with
      | none => some a
      | some id =>
        match a.sched.requests id with
        | none => none
        | some r =>
          let n := numNewTokensRunning cfg env threshold a.tokenBudget id r
          if skipsRunning a.sched r ∨ n = 0 then
            runningLoop threshold fuel a (idx + 1)
          else
            match allocateOrPreempt cfg env id (a.sched.running.length + 1) a idx with
            | none => none
            | some (a', _, false) => some a'
            | some (a', idx', true) =>
              runningLoop threshold fuel (a'.scheduleRunning id r n) (idx' + 1)

/-! ### Waiting requests -/

/-- The two waiting queues. -/
inductive WaitingQueue
  | waiting
  | skipped
  deriving DecidableEq

/-- The ids in a waiting queue. -/
def Scheduler.queue (s : Scheduler H E) : WaitingQueue → List ℕ
  | .waiting => s.waiting
  | .skipped => s.skippedWaiting

/-- `request_queue.pop_request()`, where `id` is the queue's head. -/
def Scheduler.popRequest (s : Scheduler H E) (q : WaitingQueue) (id : ℕ) : Scheduler H E :=
  match q with
  | .waiting => { s with waiting := s.waiting.erase id }
  | .skipped => { s with skippedWaiting := s.skippedWaiting.erase id }

/-- `_select_waiting_queue_for_scheduling`. -/
def selectWaitingQueue (s : Scheduler H E) : Option WaitingQueue :=
  match cfg.policy with
  | .fcfs =>
    if s.skippedWaiting ≠ [] then some .skipped
    else if s.waiting ≠ [] then some .waiting
    else none
  | .priority =>
    match (peekRequest .priority env.heapHead s.waiting).bind s.requests,
      (peekRequest .priority env.heapHead s.skippedWaiting).bind s.requests with
    | some w, some k => if w.lt k then some .waiting else some .skipped
    | _, _ =>
      if s.waiting ≠ [] then some .waiting
      else if s.skippedWaiting ≠ [] then some .skipped
      else none

/-- `_update_waiting_for_remote_kv`: a full prompt hit leaves its last token to recompute. After a
failed load the computed tokens were cut already. -/
def updateWaitingForRemoteKv (recvFailed : Bool) (r : Request H E) : Request H E :=
  if ¬ recvFailed ∧ r.numComputedTokens = r.numTokens then
    { r with numComputedTokens := r.numTokens - 1 }
  else r

/-- `_try_promote_blocked_waiting_request`: whether the request can be scheduled now, and the
request after the attempt. -/
def tryPromoteBlockedWaitingRequest (id : ℕ) (r : Request H E) : Option (Bool × Request H E) :=
  match r.status with
  | .waitingForRemoteKvs =>
    if env.promotable id then
      some (true, { updateWaitingForRemoteKv (env.recvFailed id) r with
        status := if r.numPreemptions ≠ 0 then .preempted else .waiting })
    else some (false, r)
  | .waitingForStructuredOutputGrammar =>
    if env.promotable id then some (true, { r with status := .waiting }) else some (false, r)
  | .waitingForStreamingReq =>
    if r.streamingQueue.getD [] = [] then some (false, r) else none
  | _ => none

/-- Set a request aside for the rest of the step. -/
def StepState.skipWaiting (a : StepState H E) (q : WaitingQueue) (id : ℕ) : StepState H E :=
  { a with
    sched := a.sched.popRequest q id
    stepSkippedWaiting := prependRequest a.stepSkippedWaiting id }

/-- Scheduling the request would exceed the number of adapters of a batch. -/
def exceedsMaxLoras (a : StepState H E) (r : Request H E) : Bool :=
  match cfg.maxLoras, r.loraRequest with
  | some maxLoras, some l =>
    a.scheduledLoras.length = maxLoras && l.loraIntId ∉ a.scheduledLoras
  | _, _ => false

/-- The tokens computed already: the cached ones, or those of a finished KV transfer. The inner
`none` means that the connector does not know yet. -/
def computedTokens (id : ℕ) (r : Request H E) : Option (Option (ℤ × ℕ × Bool)) :=
  if r.numComputedTokens = 0 then
    match env.matchedTokens id with
    | none => some none
    | some (external, loadAsync) =>
      let computed : ℤ := env.localComputedTokens id + external
      if computed ≤ r.numTokens then some (some (computed, external, loadAsync)) else none
  else some (some (r.numComputedTokens, 0, false))

/-- The number of tokens to schedule for a waiting request; the inner `none` ends the loop. -/
def numNewTokensWaiting (threshold budget : ℤ) (id : ℕ) (r : Request H E) (computed : ℤ) :
    Option (Option ℤ) :=
  let n := (r.numTokens : ℤ) - computed
  let n := if 0 < threshold ∧ threshold < n then threshold else n
  if ¬ cfg.enableChunkedPrefill ∧ budget < n then some none
  else if min n budget ≤ 0 then none
  else
    let n := (env.limitPrefill id).cap (min n budget)
    let n := if n = 0 then 0 else (env.limitInputs id).cap n
    if n = 0 then some none else some (some n)

/-- A request whose first tokens are loaded in the background. -/
def Request.load (r : Request H E) (computed : ℤ) : Request H E :=
  { r with status := .waitingForRemoteKvs, numComputedTokens := computed }

/-- Load a request's tokens in the background. -/
def StepState.loadAsync (a : StepState H E) (q : WaitingQueue) (id : ℕ) (r : Request H E)
    (computed : ℤ) : StepState H E :=
  { a with
    sched := (a.sched.popRequest q id).setRequest id (r.load computed)
    stepSkippedWaiting := prependRequest a.stepSkippedWaiting id }

/-- A request that starts, or starts again, with some tokens computed. -/
def Request.admitted (r : Request H E) (computed : ℤ) : Request H E :=
  { r with status := .running, numComputedTokens := computed }

/-- The number of tokens that the worker takes a request to have when it gets it. The V2 runner gets
all of them, of a new request and of a resumed one. The V1 runner gets the prompt of a new request
(`_update_streaming_request` clears the outputs of a session that is sent anew), and for a resumed
one it takes as many of the last tokens as there are outputs and output placeholders. -/
def Request.numTokensSent (cfg : SchedulerConfig H E) (r : Request H E) : ℤ :=
  if cfg.useV2ModelRunner then r.numTokens
  else if r.status = .waiting then r.numPromptTokens
  else r.numPromptTokens + min (r.numOutputTokens + r.numOutputPlaceholders) r.numTokens

/-- Move a waiting request to `running` with `n` tokens. -/
def StepState.admitted (cfg : SchedulerConfig H E) (a : StepState H E) (q : WaitingQueue) (id : ℕ)
    (r : Request H E) (computed n : ℤ) : StepState H E :=
  let s := a.sched.popRequest q id
  { a with
    sched := { s.setRequest id (r.admitted computed) with running := s.running ++ [id] }
    scheduledNewReqs := Dict.set a.scheduledNewReqs id (r.numTokensSent cfg)
    scheduledLoras :=
      match cfg.maxLoras, r.loraRequest with
      | some _, some l => if l.loraIntId ∈ a.scheduledLoras then a.scheduledLoras
          else a.scheduledLoras ++ [l.loraIntId]
      | _, _ => a.scheduledLoras
    numScheduledTokens := Dict.set a.numScheduledTokens id n
    tokenBudget := a.tokenBudget - n }

/-- How an iteration of the waiting loop ends. -/
inductive LoopStep (α : Type)
  | stop (a : α)
  | next (a : α)

/-- The rest of an iteration, for a request `r` that is not blocked. -/
def admitStep (threshold : ℤ) (a : StepState H E) (q : WaitingQueue) (id : ℕ) (r : Request H E) :
    Option (LoopStep (StepState H E)) :=
  if exceedsMaxLoras cfg a r then some (.next (a.skipWaiting q id))
  else
    match computedTokens env id r with
    | none => none
    | some none => some (.next (a.skipWaiting q id))
    | some (some (computed, external, true)) =>
      let a' := { a with allocateCalls := a.allocateCalls + 1 }
      if external = 0 then none
      else if env.allocateSlots a.allocateCalls then some (.next (a'.loadAsync q id r computed))
      else some (.stop a')
    | some (some (computed, _, false)) =>
      match numNewTokensWaiting cfg env threshold a.tokenBudget id r computed with
      | none => none
      | some none => some (.stop a)
      | some (some n) =>
        let a' := { a with allocateCalls := a.allocateCalls + 1 }
        if env.allocateSlots a.allocateCalls then
          if r.status = .waiting ∨ r.status = .preempted then
            some (.next (a'.admitted cfg q id r computed n))
          else none
        else some (.stop a')

/-- One iteration of the loop over the waiting requests. -/
def waitingStep (threshold : ℤ) (a : StepState H E) : Option (LoopStep (StepState H E)) :=
  if a.sched.running.length = cfg.maxNumRunningReqs then some (.stop a)
  else
    match selectWaitingQueue cfg env a.sched with
    | none => none
    | some q =>
      match peekRequest cfg.policy env.heapHead (a.sched.queue q) with
      | none => none
      | some id =>
        match a.sched.requests id with
        | none => none
        | some r =>
          if isBlockedWaitingStatus r.status then
            match tryPromoteBlockedWaitingRequest env id r with
            | none => none
            | some (false, _) => some (.next (a.skipWaiting q id))
            | some (true, r') =>
              admitStep cfg env threshold { a with sched := a.sched.setRequest id r' } q id r'
          else admitStep cfg env threshold a q id r

/-- The loop over the waiting requests. -/
def waitingLoop (threshold : ℤ) : ℕ → StepState H E → Option (StepState H E)
  | 0, a => some a
  | fuel + 1, a =>
    if a.tokenBudget ≤ 0 ∨ (a.sched.waiting = [] ∧ a.sched.skippedWaiting = []) then some a
    else
      match waitingStep cfg env threshold a with
      | none => none
      | some (.stop a') => some a'
      | some (.next a') => waitingLoop threshold fuel a'

/-! ### After scheduling -/

/-- The adapters of the running requests scheduled so far. -/
def runningLoras (s : Scheduler H E) (ids : List ℕ) : List ℕ :=
  (ids.filterMap fun id ↦
    ((s.requests id).bind (·.loraRequest)).bind fun l ↦
      if 0 < l.loraIntId then some l.loraIntId else none).dedup

/-- The draft tokens scheduled for a request. -/
def StepState.specOf (a : StepState H E) (id : ℕ) : List ℤ :=
  (get? a.scheduledSpecDecodeTokens id).getD []

/-- The number of tokens that the worker takes a request to have in a step: those it gets it with in
this step. Else it is what the V2 runner was sent (`len`), and with the V1 runner the prompt, the
outputs and the output placeholders, to which it cuts its own outputs. -/
def knownTokens (sent : Option ℤ) (len : ℤ) (r : Request H E) : ℤ :=
  sent.getD (if cfg.useV2ModelRunner then len
    else r.numPromptTokens + r.numOutputTokens + r.numOutputPlaceholders)

/-- The entry of one request in the `SchedulerOutput`. -/
def mkOutputEntry (id : ℕ) (r : Request H E) (n : ℤ) (spec : List ℤ) (known : ℤ) : OutputEntry where
  reqId := id
  numScheduledTokens := n
  specTokenIds := spec
  numComputedTokens := r.numComputedTokens
  numKnownTokens := known
  pos := r.numComputedTokens + n - spec.length
  epoch := r.numPreemptions
  stale := false

/-- `Scheduler._update_after_schedule` on one request. -/
def updateAfterSchedule (n : ℤ) (r : Request H E) : Request H E :=
  let computed := r.numComputedTokens + n
  { r with
    numComputedTokens := computed
    numInFlightTokens := r.numInFlightTokens + n
    isPrefillChunk := computed < (r.numTokens : ℤ) + r.numOutputPlaceholders }

/-- `AsyncScheduler._update_after_schedule` on one request, after the one above. -/
def asyncUpdateAfterSchedule (currentStep : ℕ) (spec : List ℤ) (r : Request H E) : Request H E :=
  if r.isPrefillChunk then r
  else
    { r with
      numOutputPlaceholders := r.numOutputPlaceholders + (1 + spec.length)
      specTokenIds :=
        if r.numComputedTokens + cfg.numSpecTokens ≤ cfg.drafterMaxModelLen then
          List.replicate cfg.numSpecTokens (-1)
        else []
      nextDecodeEligibleStep :=
        if cfg.useV2ModelRunner then currentStep + cfg.ppSize else r.nextDecodeEligibleStep }

/-- A request after the step that scheduled `n` of its tokens. -/
def afterSchedule (currentStep : ℕ) (n : ℤ) (spec : List ℤ) (r : Request H E) : Request H E :=
  if cfg.asyncScheduling then
    asyncUpdateAfterSchedule cfg currentStep spec (updateAfterSchedule n r)
  else updateAfterSchedule n r

/-- Build the output and update the scheduled requests, one after the other. -/
def finishStep (lens : PrefillLens) (a : StepState H E) :
    List (ℕ × ℤ) → Scheduler H E → Option (Scheduler H E × SchedulerOutput)
  | [], s => some (s, [])
  | (id, n) :: rest, s =>
    match s.requests id with
    | none => none
    | some r =>
      let s' := s.setRequest id (afterSchedule cfg s.currentStep n (a.specOf id) r)
      (finishStep lens a rest s').map fun res ↦
        (res.1, mkOutputEntry id r n (a.specOf id)
          (knownTokens cfg (get? a.scheduledNewReqs id) (lens id) r) :: res.2)

/-- The worker keeps the number of tokens that it got a request with. -/
def updatePrefillLens (sent : List (ℕ × ℤ)) (lens : PrefillLens) : PrefillLens :=
  fun id ↦ (get? sent id).getD (lens id)

/-- Both loops of `schedule`, and the return of the skipped requests to their queue. -/
def scheduleRequests (s : Scheduler H E) : Option (StepState H E) :=
  let s := { s with currentStep := s.currentStep + 1 }
  let threshold := longPrefillTokenThreshold cfg s
  match runningLoop cfg env threshold s.running.length
      { sched := s, tokenBudget := cfg.maxNumScheduledTokens } 0 with
  | none => none
  | some a =>
    let loras := if cfg.maxLoras.isSome then runningLoras a.sched a.scheduledRunningReqs else []
    if cfg.maxLoras.any (· < loras.length) then none
    else if a.preemptedReqs ≠ [] then some a
    else
      (waitingLoop cfg env threshold (a.sched.waiting.length + a.sched.skippedWaiting.length)
        { a with scheduledLoras := loras }).map fun a ↦
          { a with
            sched := { a.sched with
              skippedWaiting := prependRequests a.sched.skippedWaiting a.stepSkippedWaiting } }

/-- `Scheduler.schedule`, with the worker's record of prefill lengths. -/
def schedule (s : Scheduler H E) (lens : PrefillLens) :
    Option (Scheduler H E × PrefillLens × SchedulerOutput) :=
  match scheduleRequests cfg env s with
  | none => none
  | some a =>
    if (a.numScheduledTokens.map (·.2)).sum ≤ cfg.maxNumScheduledTokens ∧ 0 ≤ a.tokenBudget ∧
        a.sched.running.length ≤ cfg.maxNumRunningReqs then
      (finishStep cfg lens a a.numScheduledTokens a.sched).map fun res ↦
        (res.1, updatePrefillLens a.scheduledNewReqs lens, res.2)
    else none

end OneCatVllm
