import OneCatVllm.Lib.Transition
import OneCatVllm.Sched.Output
import OneCatVllm.Sched.Schedule

/-!
# The scheduler as a transition system

The calls that the engine core makes on the scheduler, with the batches in flight between
`schedule` and `update_from_output`. Batches are processed in the order they were scheduled
(`EngineCore.step_with_batch_queue`); how many are in flight is not bounded.

`System.step` performs one call and is partial where the source raises.
-/

namespace OneCatVllm

open Request

variable {H E : Type}

/-! ### Calls -/

/-- `Scheduler.add_request`, for a new request or the next input of a session. -/
def Scheduler.addRequest (cfg : SchedulerConfig H E) (s : Scheduler H E) (r : Request H E)
    (delayFree : ℕ → Bool) : Option (Scheduler H E × List (SessionRecord H E)) :=
  match s.requests r.requestId with
  | none =>
    let r := { r with streamingQueue := if r.resumable then some [] else none }
    let s := s.enqueueWaitingRequest r.requestId r.status
    some (s.setRequest r.requestId r, [])
  | some existing =>
    if existing.status ≠ .waitingForStreamingReq then
      existing.streamingQueue.map fun q ↦
        (s.setRequest r.requestId
          { existing with streamingQueue := some (q ++ [r.toStreamingUpdate]) }, [])
    else
      match r.toStreamingUpdate with
      | some update =>
        (updateRequestAsSession cfg.hasher existing update).map fun after ↦
          ((s.sessionUpdated existing).setRequest r.requestId after, [⟨existing, update, after⟩])
      | none =>
        (s.finishRequests [r.requestId] .finishedAborted delayFree).map fun s ↦ (s, [])

/-- The loop of `reset_prefix_cache(reset_running_requests=True)`: preempt the running requests from
the last to the first, and have the outputs in flight discarded. -/
def resetRunning : List ℕ → Scheduler H E → Option (Scheduler H E)
  | [], s => some s
  | id :: ids, s =>
    match ({ s with running := s.running.dropLast } : Scheduler H E).preemptRequest id with
    | none => none
    | some s' =>
      match s'.requests id with
      | none => none
      | some r =>
        resetRunning ids (s'.setRequest id
          { r with
            asyncTokensToDiscard := r.numOutputPlaceholders
            numOutputPlaceholders := 0 })

/-- `reset_prefix_cache`. `cacheReset` is whether the KV cache manager could reset; after a forced
preemption it has to. -/
def Scheduler.resetPrefixCache (s : Scheduler H E) (resetRunningRequests cacheReset : Bool) :
    Option (Scheduler H E) :=
  if resetRunningRequests then
    if cacheReset then resetRunning s.running.reverse s else none
  else some s

/-- `update_draft_token_ids`, for one request. -/
def updateDraftTokenIds (s : Scheduler H E) (d : ℕ × List ℤ) : Scheduler H E :=
  match s.requests d.1 with
  | none => s
  | some r =>
    if r.isFinished then s
    else if r.isPrefillChunk then s.setRequest d.1 { r with specTokenIds := [] }
    else s.setRequest d.1 { r with specTokenIds := d.2 }

/-! ### The system -/

/-- The scheduler, the worker's record of prefill lengths, the batches in flight (oldest first), and
the logs. -/
structure System (H E : Type) where
  sched : Scheduler H E
  lens : PrefillLens
  inFlight : List SchedulerOutput
  deliveries : List Delivery
  sessions : List (SessionRecord H E)

/-- A call of the engine core. -/
inductive Call (E : Type)
  | addRequest (a : NewRequest E) (delayFree : ℕ → Bool)
  | schedule (env : ScheduleEnv)
  | updateFromOutput (out : ModelRunnerOutput)
  | finishRequests (ids : List ℕ) (status : RequestStatus) (delayFree : ℕ → Bool)
  | resetPrefixCache (resetRunningRequests cacheReset : Bool)
  | updateDraftTokenIds (drafts : List (ℕ × List ℤ))

/-- The entries of a batch that belong to one of the given requests become stale. -/
def markStale (ids : List ℕ) (es : SchedulerOutput) : SchedulerOutput :=
  es.map fun e ↦ if e.reqId ∈ ids then { e with stale := true } else e

/-- The number of draft tokens of an entry that the sampled tokens reject. -/
def numRejected (out : ModelRunnerOutput) (e : OutputEntry) : ℤ :=
  if out.sampledTokenIds e.reqId = [] then 0
  else e.numDrafts - ((out.sampledTokenIds e.reqId).length - 1)

/-- A later entry of the same request, scheduled in the same residence on the worker, moves back by
the draft tokens that an earlier one rejected: the worker corrects its positions by the true number
of sampled tokens. -/
def correctEntry (out : ModelRunnerOutput) (done e : OutputEntry) : OutputEntry :=
  if e.reqId = done.reqId ∧ e.epoch = done.epoch then { e with pos := e.pos - numRejected out done }
  else e

/-- The entries of a batch after the entries `done` of an earlier one were processed. -/
def correctEntries (out : ModelRunnerOutput) (done es : SchedulerOutput) : SchedulerOutput :=
  es.map fun e ↦ done.foldl (fun e d ↦ correctEntry out d e) e

variable {out : ModelRunnerOutput}

/-- Only the position of an entry is corrected. -/
theorem correctEntry_eq {e : OutputEntry} (e' : OutputEntry) :
    correctEntry out e e' = { e' with pos := (correctEntry out e e').pos } := by
  unfold correctEntry
  split_ifs <;> rfl

theorem foldl_correctEntry_eq (out : ModelRunnerOutput) (done : SchedulerOutput)
    (e : OutputEntry) : ∃ pos, done.foldl (fun e d ↦ correctEntry out d e) e = { e with pos } := by
  induction done generalizing e with
  | nil => exact ⟨e.pos, rfl⟩
  | cons d done ih =>
    obtain ⟨pos, hpos⟩ := ih (correctEntry out d e)
    refine ⟨pos, ?_⟩
    rw [List.foldl_cons, hpos, correctEntry_eq]

namespace System

/-- The system before the first call. -/
def init : System H E where
  sched := .empty
  lens := fun _ ↦ 0
  inFlight := []
  deliveries := []
  sessions := []

/-- One call. -/
def step (cfg : SchedulerConfig H E) (σ : System H E) : Call E → Option (System H E)
  | .addRequest a delayFree =>
    match new cfg.hasher a with
    | none => none
    | some r =>
      (σ.sched.addRequest cfg r delayFree).map fun res ↦
        { σ with sched := res.1, sessions := σ.sessions ++ res.2 }
  | .schedule env =>
    (schedule cfg env σ.sched σ.lens).map fun res ↦
      { σ with sched := res.1, lens := res.2.1, inFlight := σ.inFlight ++ [res.2.2] }
  | .updateFromOutput out =>
    match σ.inFlight with
    | [] => none
    | es :: rest =>
      (updateFromOutput cfg σ.sched es out).map fun res ↦
        { σ with
          sched := res.1
          inFlight := rest.map (correctEntries out es)
          deliveries := σ.deliveries ++ res.2.1
          sessions := σ.sessions ++ res.2.2 }
  | .finishRequests ids status delayFree =>
    (σ.sched.finishRequests ids status delayFree).map fun s ↦ { σ with sched := s }
  | .resetPrefixCache resetRunningRequests cacheReset =>
    (σ.sched.resetPrefixCache resetRunningRequests cacheReset).map fun s ↦
      { σ with
        sched := s
        inFlight :=
          if resetRunningRequests then σ.inFlight.map (markStale σ.sched.running)
          else σ.inFlight }
  | .updateDraftTokenIds drafts =>
    if cfg.asyncScheduling then none
    else some { σ with sched := drafts.foldl updateDraftTokenIds σ.sched }

variable {cfg : SchedulerConfig H E} {σ σ' : System H E}

theorem step_addRequest {a : NewRequest E} {delayFree : ℕ → Bool}
    (h : step cfg σ (.addRequest a delayFree) = some σ') :
    ∃ r s recs, new cfg.hasher a = some r ∧
      σ.sched.addRequest cfg r delayFree = some (s, recs) ∧
      σ' = { σ with sched := s, sessions := σ.sessions ++ recs } := by
  simp only [step] at h
  rcases hr : new cfg.hasher a with - | r
  · simp [hr] at h
  simp only [hr] at h
  obtain ⟨⟨s, recs⟩, hadd, rfl⟩ := Option.map_eq_some_iff.1 h
  exact ⟨r, s, recs, rfl, hadd, rfl⟩

theorem step_updateFromOutput (h : step cfg σ (.updateFromOutput out) = some σ') :
    ∃ es rest s ds recs, σ.inFlight = es :: rest ∧
      updateFromOutput cfg σ.sched es out = some (s, ds, recs) ∧
      σ' = { σ with
        sched := s
        inFlight := rest.map (correctEntries out es)
        deliveries := σ.deliveries ++ ds
        sessions := σ.sessions ++ recs } := by
  simp only [step] at h
  rcases hfl : σ.inFlight with - | ⟨es, rest⟩
  · simp [hfl] at h
  simp only [hfl] at h
  obtain ⟨⟨s, ds, recs⟩, hout, rfl⟩ := Option.map_eq_some_iff.1 h
  exact ⟨es, rest, s, ds, recs, rfl, hout, rfl⟩

/-- **Runs** of the system, by calls that satisfy `ok` where they are made. -/
abbrev Run (cfg : SchedulerConfig H E) (ok : System H E → Call E → Prop) : System H E → Prop :=
  Transition.Run (step cfg) ok init

end System

end OneCatVllm
