import OneCatVllm.Request

/-!
# The scheduler's state

The state of `vllm/v1/core/sched/scheduler.py` and the small operations the rest of the scheduler
is written in.

`requests` is the dictionary of live requests, by id; the three queues hold ids. An id in a queue
that the dictionary no longer has stands for a request that was freed while still queued.

The waiting queues follow the policy. Under `FCFS` a queue is a deque. Under `PRIORITY` it is a
binary heap whose order is **left open** here: a session update changes the arrival time of a queued
request without restoring the heap, so its head need not be the least entry. `peekRequest` takes the
head's place in the list from the step's environment.

What the scheduler asks of the KV cache manager, the encoder cache, the KV connector and the
structured-output manager is an input of each step (`ScheduleEnv`, `ModelRunnerOutput`).
-/

namespace OneCatVllm

variable {H E : Type}

/-- `SchedulingPolicy`. -/
inductive SchedulingPolicy
  | fcfs
  | priority
  deriving DecidableEq

/-- The configuration a scheduler is built with. -/
structure SchedulerConfig (H E : Type) where
  policy : SchedulingPolicy := .fcfs
  maxNumScheduledTokens : ℤ
  maxNumRunningReqs : ℕ
  maxModelLen : ℤ
  longPrefillTokenThreshold : ℤ := 0
  adaptiveLongPrefillThreshold : Bool := false
  enableChunkedPrefill : Bool := true
  /-- `lora_config.max_loras`, when LoRA is on. -/
  maxLoras : Option ℕ := none
  numSpecTokens : ℕ := 0
  drafterMaxModelLen : ℤ
  /-- `AsyncScheduler` instead of `Scheduler`. -/
  asyncScheduling : Bool := false
  useV2ModelRunner : Bool := false
  ppSize : ℕ := 1
  recomputeKvLoadFailures : Bool := true
  /-- The block hasher, when prefix caching is on. -/
  hasher : Option (Request H E → List H) := none

/-- `Scheduler`. -/
structure Scheduler (H E : Type) where
  requests : ℕ → Option (Request H E)
  running : List ℕ
  waiting : List ℕ
  skippedWaiting : List ℕ
  currentStep : ℕ
  numWaitingForStreamingInput : ℤ

namespace Scheduler

/-- A scheduler without requests. -/
def empty : Scheduler H E where
  requests := fun _ ↦ none
  running := []
  waiting := []
  skippedWaiting := []
  currentStep := 0
  numWaitingForStreamingInput := 0

section

variable (s : Scheduler H E) (id : ℕ)

/-- Write a request into the dictionary. -/
def setRequest (r : Request H E) : Scheduler H E :=
  { s with requests := Function.update s.requests id (some r) }

/-- `del self.requests[request_id]`. -/
def delRequest : Scheduler H E :=
  { s with requests := Function.update s.requests id none }

/-- `RequestQueue.add_request` on `self.waiting`. -/
def addWaiting : Scheduler H E :=
  { s with waiting := s.waiting ++ [id] }

/-- `RequestQueue.add_request` on `self.skipped_waiting`. -/
def addSkipped : Scheduler H E :=
  { s with skippedWaiting := s.skippedWaiting ++ [id] }

end

end Scheduler

/-! ### Queues -/

/-- `remove_all`: a single item is removed at its first occurrence, several at all of theirs. -/
def removeAll (l : List ℕ) : List ℕ → List ℕ
  | [] => l
  | [x] => l.erase x
  | xs => l.filter (· ∉ xs)

/-- `RequestQueue.remove_requests`. -/
def removeRequests (q xs : List ℕ) : List ℕ := q.filter (· ∉ xs)

/-- `RequestQueue.peek_request`; `heapHead` is the place of a heap's head. -/
def peekRequest (policy : SchedulingPolicy) (heapHead : List ℕ → ℕ) (q : List ℕ) : Option ℕ :=
  match policy with
  | .fcfs => q.head?
  | .priority => q[heapHead q % q.length]?

/-- `RequestQueue.prepend_request`. -/
def prependRequest (q : List ℕ) (id : ℕ) : List ℕ := id :: q

/-- `RequestQueue.prepend_requests`: `extendleft` turns the order of `xs` around. -/
def prependRequests (q xs : List ℕ) : List ℕ := xs.reverse ++ q

/-- `Request.__lt__`. -/
def Request.lt (r r' : Request H E) : Bool :=
  if r.priority ≠ r'.priority then r.priority < r'.priority
  else if r.arrivalTime ≠ r'.arrivalTime then r.arrivalTime < r'.arrivalTime
  else r.requestId < r'.requestId

/-- `_is_blocked_waiting_status`. -/
def isBlockedWaitingStatus : RequestStatus → Bool
  | .waitingForStructuredOutputGrammar | .waitingForRemoteKvs | .waitingForStreamingReq => true
  | _ => false

/-- `_enqueue_waiting_request`. -/
def Scheduler.enqueueWaitingRequest (s : Scheduler H E) (id : ℕ) (status : RequestStatus) :
    Scheduler H E :=
  if isBlockedWaitingStatus status then s.addSkipped id else s.addWaiting id

/-! ### What a step hands to the worker -/

/-- What a `SchedulerOutput` says about one request: the tokens and draft tokens scheduled, the
number of tokens computed before the step, and how many tokens the worker takes the request to have.

The last three fields are not in the source. They follow an output from the step that scheduled it
to the call that processes it: `pos` is the position its first sampled token is computed for,
`epoch` the number of preemptions of the request so far, and `stale` whether a forced cache reset
has happened since. -/
structure OutputEntry where
  reqId : ℕ
  numScheduledTokens : ℤ
  specTokenIds : List ℤ
  numComputedTokens : ℤ
  numKnownTokens : ℤ
  pos : ℤ
  epoch : ℕ
  stale : Bool
  deriving DecidableEq

namespace OutputEntry

/-- The worker samples for a request when the step reaches the end of the tokens it knows. -/
def samples (e : OutputEntry) : Bool :=
  e.numKnownTokens ≤ e.numComputedTokens + e.numScheduledTokens

/-- The number of draft tokens scheduled. -/
def numDrafts (e : OutputEntry) : ℕ := e.specTokenIds.length

end OutputEntry

/-- `SchedulerOutput`: one entry for each scheduled request, in the order of the dictionary
`num_scheduled_tokens`. -/
abbrev SchedulerOutput := List OutputEntry

/-- The rest of the system: the tokens each request had when it was last sent to the V2 runner as a
new request. -/
abbrev PrefillLens := ℕ → ℤ

end OneCatVllm
