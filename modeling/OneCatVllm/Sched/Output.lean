import OneCatVllm.Sched.Session

/-!
# Processing the output of a step

`Scheduler.update_from_output` takes a step's output and what the model runner returned for it. For
each request of the step it rolls back rejected draft tokens, appends what was sampled, and deals
with requests that stopped; the stopped ones leave their queues at the end.

Two logs follow along that the source does not keep. A `Delivery` says what became of a non-empty
list of sampled tokens: dropped, or appended at some position of the request. A `SessionRecord` says
that a streaming session took its next input.
-/

namespace OneCatVllm

variable {H E : Type}

/-- The parts of `ModelRunnerOutput` that the scheduler reads, by request id, with the answers of
the grammar and of the KV connector. -/
structure ModelRunnerOutput where
  sampledTokenIds : ℕ → List ℕ := fun _ ↦ []
  /-- A pooling request has its output. -/
  poolerOutput : ℕ → Bool := fun _ ↦ false
  /-- The grammar does not accept the new tokens. -/
  grammarRejects : ℕ → Bool := fun _ ↦ false
  /-- Requests with blocks whose load failed, and where their computed tokens are cut. -/
  invalidBlocks : List (ℕ × ℤ) := []
  finishedRecving : List ℕ := []
  finishedSending : List ℕ := []
  /-- The connector still needs the blocks of the finished request. -/
  delayFree : ℕ → Bool := fun _ ↦ false

/-- What became of the tokens of one entry: `appendedAt` is the number of tokens the request had
before they were appended, and absent if they were dropped. -/
structure Delivery where
  reqId : ℕ
  pos : ℤ
  stale : Bool
  appendedAt : Option ℕ
  deriving DecidableEq

/-! ### Freeing requests -/

/-- `_free_request` with `_free_blocks`: the request leaves the dictionary, unless its blocks are
still in use. -/
def Scheduler.freeRequest (s : Scheduler H E) (id : ℕ) (r : Request H E) (delayFree : Bool) :
    Scheduler H E :=
  if delayFree then s.setRequest id r else s.delRequest id

/-- The second pass of `finish_requests` on one request. -/
def finishOne (status : RequestStatus) (delayFree : ℕ → Bool) (s : Scheduler H E) (id : ℕ) :
    Scheduler H E :=
  match s.requests id with
  | none => s
  | some r => s.freeRequest id { r with status := status } (delayFree id)

/-- The requests that `finish_requests` acts on: those that exist and are not finished. -/
def Scheduler.unfinished (s : Scheduler H E) (ids : List ℕ) : List ℕ :=
  ids.dedup.filter fun id ↦ (s.requests id).any fun r ↦ !r.isFinished

/-- Whether a request has a status. -/
def Scheduler.hasStatus (s : Scheduler H E) (status : RequestStatus) (id : ℕ) : Bool :=
  (s.requests id).any fun r ↦ r.status = status

/-- `finish_requests`. `delayFree` says for which requests the blocks are kept: a KV transfer is not
finished, or the connector asks for it. -/
def Scheduler.finishRequests (s : Scheduler H E) (ids : List ℕ) (status : RequestStatus)
    (delayFree : ℕ → Bool) : Option (Scheduler H E) :=
  if status.isFinished then
    let valid := s.unfinished ids
    let fromRunning := valid.filter (s.hasStatus .running)
    let fromWaiting := valid.filter fun id ↦ !s.hasStatus .running id
    let numStreaming := (valid.filter (s.hasStatus .waitingForStreamingReq)).length
    let s' := { s with
      running := removeAll s.running fromRunning
      waiting := removeRequests s.waiting fromWaiting
      skippedWaiting := removeRequests s.skippedWaiting fromWaiting
      numWaitingForStreamingInput := s.numWaitingForStreamingInput - numStreaming }
    some (valid.foldl (finishOne status delayFree) s')
  else none

/-! ### One entry of the output -/

/-- State of the loop in `update_from_output`. -/
structure OutputState (H E : Type) where
  sched : Scheduler H E
  stoppedRunning : List ℕ := []
  stoppedPreempted : List ℕ := []
  deliveries : List Delivery := []
  sessions : List (SessionRecord H E) := []

/-- Roll back the draft tokens of a step that were rejected. -/
def rejectDrafts (e : OutputEntry) (generated : List ℕ) (r : Request H E) : Request H E :=
  if e.specTokenIds ≠ [] ∧ generated ≠ [] then
    let numRejected : ℤ := e.specTokenIds.length - (generated.length - 1)
    { r with
      numComputedTokens :=
        if 0 < r.numComputedTokens then r.numComputedTokens - numRejected else r.numComputedTokens
      numOutputPlaceholders :=
        if 0 < r.numOutputPlaceholders then r.numOutputPlaceholders - numRejected
        else r.numOutputPlaceholders }
  else r

/-- What a call of `_update_request_with_output` leaves: the request, the number of tokens kept,
whether it stopped, and whether the tokens were dropped as stale. -/
structure OutputResult (H E : Type) where
  request : Request H E
  numKept : ℕ
  stopped : Bool
  dropped : Bool

section

variable (cfg : SchedulerConfig H E) (out : ModelRunnerOutput) (id : ℕ) (generated : List ℕ)
  (r : Request H E)

/-- `_update_request_with_output` of the configured scheduler. -/
def deliverOutput : Option (OutputResult H E) :=
  if cfg.asyncScheduling then
    if 0 < r.asyncTokensToDiscard then
      some ⟨{ r with asyncTokensToDiscard := r.asyncTokensToDiscard - 1 }, 0, false, true⟩
    else
      let res := updateRequestWithOutput cfg generated r
      let placeholders := res.1.numOutputPlaceholders - res.2.1
      if 0 ≤ placeholders then
        some ⟨{ res.1 with numOutputPlaceholders := placeholders }, res.2.1, res.2.2, false⟩
      else none
  else
    let res := updateRequestWithOutput cfg generated r
    some ⟨res.1, res.2.1, res.2.2, false⟩

/-- Sampled tokens, pooling output and the grammar's verdict, for a live request. -/
def applyOutput : Option (OutputResult H E) :=
  if generated ≠ [] then
    (deliverOutput cfg generated r).map fun res ↦
      if 0 < res.numKept ∧ out.grammarRejects id then
        { res with
          request := { res.request with status := .finishedError, resumable := false }
          stopped := true }
      else res
  else if r.isPooling ∧ out.poolerOutput id then
    some ⟨{ r with status := .finishedStopped }, 0, true, false⟩
  else some ⟨r, 0, false, false⟩

/-- `_handle_stopped_request` and, for a request that is finished, `_free_request`. -/
def handleStoppedRequest (st : OutputState H E) : Option (OutputState H E) :=
  let finish := some { st with sched := st.sched.freeRequest id r (out.delayFree id) }
  if r.resumable then
    match r.streamingQueue with
    | some (none :: rest) =>
      some { st with
        sched := st.sched.freeRequest id { r with streamingQueue := some rest } (out.delayFree id) }
    | some (some update :: rest) =>
      let r := { r with streamingQueue := some rest }
      (updateRequestAsSession cfg.hasher r update).map fun r' ↦
        { st with
          sched := ((st.sched.sessionUpdated r).setRequest id r').enqueueWaitingRequest id r'.status
          sessions := st.sessions ++ [⟨r, update, r'⟩] }
    | _ =>
      let s := st.sched.setRequest id { r with status := .waitingForStreamingReq }
      let s := { s with numWaitingForStreamingInput := s.numWaitingForStreamingInput + 1 }
      some { st with sched := s.enqueueWaitingRequest id .waitingForStreamingReq }
  else finish

/-- The body of the loop in `update_from_output`. -/
def processEntry (failed : List ℕ) (st : OutputState H E) (e : OutputEntry) :
    Option (OutputState H E) :=
  if e.numScheduledTokens ≤ 0 then none
  else
    match st.sched.requests e.reqId with
    | none => some st
    | some r₀ =>
      let r₁ := { r₀ with numInFlightTokens := r₀.numInFlightTokens - e.numScheduledTokens }
      if e.reqId ∈ failed ∨ r₁.isFinished then
        some { st with sched := st.sched.setRequest e.reqId r₁ }
      else
        let generated := out.sampledTokenIds e.reqId
        let r := rejectDrafts e generated r₁
        match applyOutput cfg out e.reqId generated r with
        | none => none
        | some res =>
          let deliveries :=
            if generated = [] then st.deliveries
            else st.deliveries ++
              [⟨e.reqId, e.pos, e.stale, if res.dropped then none else some r.numTokens⟩]
          let st := { st with deliveries := deliveries }
          if res.stopped then
            let st :=
              if r.status = .running then
                { st with stoppedRunning := st.stoppedRunning ++ [e.reqId] }
              else { st with stoppedPreempted := st.stoppedPreempted ++ [e.reqId] }
            handleStoppedRequest cfg out e.reqId res.request st
          else some { st with sched := st.sched.setRequest e.reqId res.request }

end

/-- The loop of `update_from_output`. -/
def processEntries (cfg : SchedulerConfig H E) (out : ModelRunnerOutput) (failed : List ℕ) :
    List OutputEntry → OutputState H E → Option (OutputState H E)
  | [], st => some st
  | e :: es, st => (processEntry cfg out failed st e).bind (processEntries cfg out failed es)

/-! ### The whole output -/

/-- `_update_requests_with_invalid_blocks`: cut the computed tokens of the requests whose load
failed, as far as they are running or loading in the background. -/
def cutComputedTokens (s : Scheduler H E) (idc : ℕ × ℤ) : Scheduler H E :=
  match s.requests idc.1 with
  | none => s
  | some r =>
    if idc.1 ∈ s.running ∨ (idc.1 ∈ s.skippedWaiting ∧ r.status = .waitingForRemoteKvs) then
      s.setRequest idc.1 { r with numComputedTokens := idc.2 }
    else s

/-- `_handle_invalid_blocks`: the requests to skip. Under the recompute policy a background load is
retried later and only the running requests are skipped. -/
def failedLoads (cfg : SchedulerConfig H E) (s : Scheduler H E) (out : ModelRunnerOutput) :
    List ℕ :=
  (out.invalidBlocks.map Prod.fst).filter fun id ↦
    id ∈ s.running ∨ (!cfg.recomputeKvLoadFailures ∧ id ∈ s.skippedWaiting ∧
      s.hasStatus .waitingForRemoteKvs id)

/-- `_free_blocks` for a request that must be finished. -/
def Scheduler.freeFinished (s : Scheduler H E) (id : ℕ) : Option (Scheduler H E) :=
  match s.requests id with
  | none => none
  | some r => if r.isFinished then some (s.delRequest id) else none

/-- `_update_from_kv_xfer_finished`, for the requests whose transfer to this engine finished. A
request still waiting for it can be promoted from now on. -/
def finishRecving (s : Scheduler H E) (id : ℕ) : Option (Scheduler H E) :=
  if s.hasStatus .waitingForRemoteKvs id then some s else s.freeFinished id

/-- Apply a partial function along a list. -/
def foldOption {σ α : Type} (f : σ → α → Option σ) : List α → σ → Option σ
  | [], s => some s
  | a :: as, s => (f s a).bind (foldOption f as)

/-- Remove the stopped requests from their queues. -/
def OutputState.removeStopped (st : OutputState H E) : Scheduler H E :=
  { st.sched with
    running := removeAll st.sched.running st.stoppedRunning
    waiting := removeRequests st.sched.waiting st.stoppedPreempted }

/-- `update_from_output`, with the logs of the call. -/
def updateFromOutput (cfg : SchedulerConfig H E) (s : Scheduler H E) (entries : SchedulerOutput)
    (out : ModelRunnerOutput) : Option (Scheduler H E × List Delivery × List (SessionRecord H E)) :=
  let failed := failedLoads cfg s out
  let s₁ := out.invalidBlocks.foldl cutComputedTokens s
  match processEntries cfg out failed entries { sched := s₁ } with
  | none => none
  | some st =>
    let s₂ := st.removeStopped
    let s₃ :=
      if failed ≠ [] ∧ ¬ cfg.recomputeKvLoadFailures then
        s₂.finishRequests failed .finishedError out.delayFree
      else some s₂
    ((s₃.bind (foldOption finishRecving out.finishedRecving)).bind
      (foldOption Scheduler.freeFinished out.finishedSending)).map fun s ↦
        (s, st.deliveries, st.sessions)

end OneCatVllm
