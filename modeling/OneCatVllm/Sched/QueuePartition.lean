import OneCatVllm.Sched.OutputSpec
import OneCatVllm.Sched.StepSpec
import OneCatVllm.Sched.System

/-!
# The queues partition the requests

Every unfinished request belongs to exactly one of `running`, `waiting` and `skipped_waiting`, once,
and is in `running` exactly when its status says so; nothing else is queued (`QueuePartition`).

The placement invariant implies it and is kept by every call, except for one situation.
`update_from_output` collects the requests that stopped and removes them **afterwards**: the ones
that were running from `running`, the others from `waiting` only. A stopped request that is not
running, because it was preempted or is already waiting for input, may by then have been queued
again for its next input, and may stand in `skipped_waiting`. `StopPlaced` is the condition under
which that goes well: the request is removed from where it is, and not from where it was put.
-/

namespace OneCatVllm

open List Option OutputState Request RequestStatus Scheduler OneCatVllm.System Transition

variable {H E : Type} {id j : ℕ} {r : Request H E} {ids : List ℕ} {s : Scheduler H E}

/-! ### The property -/

/-- **The queues partition the unfinished requests**, by status. -/
structure QueuePartition (s : Scheduler H E) : Prop where
  count_eq_one : ∀ id r, s.requests id = some r → r.isFinished = false →
    (s.running ++ s.waiting ++ s.skippedWaiting).count id = 1
  mem_running_iff : ∀ id r, s.requests id = some r → r.isFinished = false →
    (id ∈ s.running ↔ r.status = .running)
  unfinished_of_mem : ∀ id ∈ s.running ++ s.waiting ++ s.skippedWaiting,
    ∃ r, s.requests id = some r ∧ r.isFinished = false

/-- A request runs if and only if it is in `running`. -/
theorem AllPlaced.mem_running_iff (h : AllPlaced s []) (hr : s.requests id = some r) :
    id ∈ s.running ↔ r.status = .running := by
  refine ⟨fun hid ↦ ?_, fun hst ↦ ?_⟩
  · obtain ⟨r₁, hr₁, hst⟩ := h.of_mem_running hid
    rwa [← some.inj (hr₁.symm.trans hr)]
  · have hid := h id
    rw [hr, placeOf, hst] at hid
    exact count_pos_iff.1 (by rw [hid.1]; exact one_pos)

/-- The placement invariant says as much. -/
theorem AllPlaced.queuePartition (h : AllPlaced s []) : QueuePartition s := by
  have hcount (id : ℕ) : (s.running ++ s.waiting ++ s.skippedWaiting).count id =
      s.running.count id + s.waitingCount [] id := by
    simp only [count_append, waitingCount, count_nil]
    omega
  refine ⟨fun id r hr hfin ↦ ?_, fun id r hr _ ↦ h.mem_running_iff hr, fun id hid ↦ ?_⟩
  · have hid := h id
    rw [hr, placeOf] at hid
    rw [hcount]
    rcases hp : r.status.place with - | - | - <;> rw [hp] at hid
    · rw [Request.isFinished, place_eq_nowhere_iff.1 hp] at hfin
      cases hfin
    · rw [hid.1, hid.2]
    · rw [hid.1, hid.2]
  · have hpos := count_pos_iff.2 hid
    rw [hcount] at hpos
    have hholds := h id
    rcases hr : s.requests id with - | r
    · rw [hr] at hholds
      rw [hholds.1, hholds.2] at hpos
      exact absurd hpos (lt_irrefl 0)
    · refine ⟨r, rfl, ?_⟩
      by_contra hfin
      have hp : r.status.place = .nowhere :=
        place_eq_nowhere_iff.2 (by simpa [Request.isFinished] using hfin)
      rw [hr, placeOf, hp] at hholds
      rw [hholds.1, hholds.2] at hpos
      exact absurd hpos (lt_irrefl 0)

/-! ### Finishing requests -/

theorem count_removeRequests {q xs : List ℕ} (id : ℕ) :
    (removeRequests q xs).count id = if id ∈ xs then 0 else q.count id := by
  unfold removeRequests
  split_ifs with h
  · exact count_eq_zero_of_not_mem (by simp [h])
  · exact count_filter (by simpa using h)

/-- Among different elements, `remove_all` removes all of the given ones. -/
theorem removeAll_eq {l xs : List ℕ} (hl : l.Nodup) : removeAll l xs = removeRequests l xs := by
  unfold removeAll removeRequests
  split
  · simp
  · rw [hl.erase_eq_filter]
    exact filter_congr fun _ _ ↦ by rw [Bool.eq_iff_iff]; simp
  · rfl

section

variable (delay : Bool)

theorem freeRequest_requests_self (hfin : r.status.isFinished = true) :
    placeOf ((s.freeRequest id r delay).requests id) = .nowhere := by
  cases delay
  · simp [freeRequest, placeOf]
  · simpa [freeRequest, placeOf] using place_eq_nowhere_iff.2 hfin

theorem freeRequest_requests_of_ne (hj : j ≠ id) :
    (s.freeRequest id r delay).requests j = s.requests j := by
  cases delay <;> simp [freeRequest, hj]

@[simp] theorem freeRequest_running : (s.freeRequest id r delay).running = s.running := by
  cases delay <;> rfl

@[simp] theorem freeRequest_waiting : (s.freeRequest id r delay).waiting = s.waiting := by
  cases delay <;> rfl

@[simp] theorem freeRequest_skippedWaiting :
    (s.freeRequest id r delay).skippedWaiting = s.skippedWaiting := by
  cases delay <;> rfl

end

variable {delayFree : ℕ → Bool} {s' : Scheduler H E}

section

variable {status : RequestStatus}

theorem finishOne_requests_of_ne (hj : j ≠ id) :
    (finishOne status delayFree s id).requests j = s.requests j := by
  unfold finishOne
  split
  · rfl
  · exact freeRequest_requests_of_ne _ hj

theorem placeOf_finishOne_self (hfin : status.isFinished = true) (id : ℕ) :
    placeOf ((finishOne status delayFree s id).requests id) = .nowhere := by
  unfold finishOne
  split
  next h => rw [h, placeOf]
  next r h => exact freeRequest_requests_self _ hfin

@[simp] theorem finishOne_running (id : ℕ) :
    (finishOne status delayFree s id).running = s.running := by
  unfold finishOne
  split <;> simp

@[simp] theorem finishOne_waiting (id : ℕ) :
    (finishOne status delayFree s id).waiting = s.waiting := by
  unfold finishOne
  split <;> simp

@[simp] theorem finishOne_skippedWaiting (id : ℕ) :
    (finishOne status delayFree s id).skippedWaiting = s.skippedWaiting := by
  unfold finishOne
  split <;> simp

/-- **The second pass of `finish_requests`**: the given requests end, the others and the queues
stay. -/
theorem foldl_finishOne (hfin : status.isFinished = true) (ids : List ℕ) :
    ((ids.foldl (finishOne status delayFree) s).running = s.running ∧
      (ids.foldl (finishOne status delayFree) s).waiting = s.waiting ∧
      (ids.foldl (finishOne status delayFree) s).skippedWaiting = s.skippedWaiting) ∧
    ∀ j, (j ∉ ids → (ids.foldl (finishOne status delayFree) s).requests j = s.requests j) ∧
      (j ∈ ids ∨ placeOf (s.requests j) = .nowhere →
        placeOf ((ids.foldl (finishOne status delayFree) s).requests j) = .nowhere) := by
  induction ids generalizing s with
  | nil => exact ⟨⟨rfl, rfl, rfl⟩, fun j ↦ ⟨fun _ ↦ rfl, fun h ↦ h.resolve_left (by simp)⟩⟩
  | cons id ids ih =>
    obtain ⟨hqueues, hreq⟩ := ih
    rw [finishOne_running, finishOne_waiting, finishOne_skippedWaiting] at hqueues
    refine ⟨hqueues, fun j ↦ ⟨fun hj ↦ ?_, fun hj ↦ ?_⟩⟩
    · rw [mem_cons, not_or] at hj
      exact ((hreq j).1 hj.2).trans (finishOne_requests_of_ne hj.1)
    · refine (hreq j).2 ?_
      rcases eq_or_ne j id with rfl | hne
      · exact .inr (placeOf_finishOne_self hfin j)
      · rw [finishOne_requests_of_ne hne]
        exact hj.imp_left fun h ↦ (mem_cons.1 h).resolve_left hne

/-- A valid request of `finish_requests` is live and not finished. -/
theorem mem_unfinished :
    id ∈ s.unfinished ids ↔ id ∈ ids ∧ ∃ r, s.requests id = some r ∧ r.isFinished = false := by
  rcases hr : s.requests id with - | r <;> simp [unfinished, hr]

/-- **`finish_requests` keeps the placement invariant.** -/
theorem AllPlaced.finishRequests (h : AllPlaced s [])
    (hs : s.finishRequests ids status delayFree = some s') : AllPlaced s' [] := by
  unfold Scheduler.finishRequests at hs
  split_ifs at hs with hfin
  cases hs
  intro j
  set valid := s.unfinished ids with hvalid
  set s₁ : Scheduler H E := { s with
    running := removeAll s.running (valid.filter (s.hasStatus .running))
    waiting := removeRequests s.waiting (valid.filter fun id ↦ !s.hasStatus .running id)
    skippedWaiting :=
      removeRequests s.skippedWaiting (valid.filter fun id ↦ !s.hasStatus .running id)
    numWaitingForStreamingInput := s.numWaitingForStreamingInput -
      (valid.filter (s.hasStatus .waitingForStreamingReq)).length } with hs₁
  have hcount : s₁.running.count j =
      if j ∈ valid ∧ s.hasStatus .running j = true then 0 else s.running.count j := by
    simp only [hs₁, removeAll_eq h.running_nodup, count_removeRequests, mem_filter]
  have hwcount : s₁.waitingCount [] j =
      if j ∈ valid ∧ s.hasStatus .running j = false then 0 else s.waitingCount [] j := by
    simp only [hs₁, waitingCount, count_removeRequests, mem_filter, Bool.not_eq_true']
    split_ifs <;> rfl
  obtain ⟨⟨hrun, hwait, hskip⟩, hreq⟩ := foldl_finishOne hfin valid
  have hholds := h j
  rw [waitingCount, hrun, hwait, hskip, ← waitingCount, hcount, hwcount]
  by_cases hj : j ∈ valid
  · -- the request ends, and it is removed from the kind of queue that its status names
    rw [(hreq j).2 (.inl hj)]
    obtain ⟨-, r, hr, hnot⟩ := mem_unfinished.1 hj
    rw [hr, placeOf] at hholds
    rcases hst : s.hasStatus .running j with - | -
    · have hplace : r.status.place = .waiting := by
        refine place_eq_waiting_iff.2 ⟨?_, hnot⟩
        simpa [hasStatus, hr] using hst
      rw [hplace] at hholds
      exact ⟨by simpa using hholds.1, by simp [hj]⟩
    · have hplace : r.status.place = .running := by
        refine place_eq_running_iff.2 ?_
        simpa [hasStatus, hr] using hst
      rw [hplace] at hholds
      exact ⟨by simp [hj], by simpa using hholds.2⟩
  · rw [(hreq j).1 hj]
    simpa [hj] using hholds

end

/-! ### Adding requests, resetting the cache, draft tokens -/

variable {cfg : SchedulerConfig H E}

/-- A new request waits. -/
theorem Request.new_status {hasher : Option (Request H E → List H)} {a : NewRequest E}
    (h : new hasher a = some r) :
    r.status = .waiting ∨ r.status = .waitingForStructuredOutputGrammar := by
  obtain ⟨n, -, rfl⟩ := map_eq_some_iff.1 h
  have hst : (updateBlockHashes hasher (ofNew a n)).status = (ofNew (H := H) a n).status := by
    cases hasher <;> rfl
  rw [hst]
  simp only [ofNew]
  split_ifs
  · exact .inr rfl
  · exact .inl rfl

theorem enqueueWaitingRequest_waitingCount (id j : ℕ) (st : RequestStatus) :
    (s.enqueueWaitingRequest id st).waitingCount [] j =
      s.waitingCount [] j + if j = id then 1 else 0 := by
  unfold enqueueWaitingRequest
  split_ifs with hb hj hj <;>
    simp [waitingCount, addSkipped, addWaiting, hj, Ne.symm] <;>
    grind

theorem enqueueWaitingRequest_running (id : ℕ) (st : RequestStatus) :
    (s.enqueueWaitingRequest id st).running = s.running := by
  unfold enqueueWaitingRequest
  split_ifs <;> rfl

theorem enqueueWaitingRequest_requests (id : ℕ) (st : RequestStatus) :
    (s.enqueueWaitingRequest id st).requests = s.requests := by
  unfold enqueueWaitingRequest
  split_ifs <;> rfl

/-- **`add_request` keeps the placement invariant.** -/
theorem AllPlaced.addRequest (h : AllPlaced s []) {rec : List (SessionRecord H E)}
    (hnew : r.status = .waiting ∨ r.status = .waitingForStructuredOutputGrammar)
    (hs : s.addRequest cfg r delayFree = some (s', rec)) : AllPlaced s' [] := by
  unfold Scheduler.addRequest at hs
  rcases hr : s.requests r.requestId with - | existing
  · simp only [hr, some.injEq, Prod.mk.injEq] at hs
    obtain ⟨rfl, -⟩ := hs
    have hid := h r.requestId
    rw [hr] at hid
    refine h.move r.requestId (fun j hj ↦ ⟨?_, ?_, ?_⟩) ?_
    · rw [setRequest_requests_of_ne hj, enqueueWaitingRequest_requests]
    · rw [setRequest_running, enqueueWaitingRequest_running]
    · exact (enqueueWaitingRequest_waitingCount _ _ _).trans (by rw [if_neg hj, add_zero])
    · have hplace : r.status.place = .waiting := by
        rcases hnew with hst | hst <;> rw [hst] <;> rfl
      rw [setRequest_requests_self, placeOf, hplace]
      refine ⟨?_, ?_⟩
      · rw [setRequest_running, enqueueWaitingRequest_running]
        exact hid.1
      · refine (enqueueWaitingRequest_waitingCount _ _ _).trans ?_
        rw [if_pos rfl, hid.2]
  · simp only [hr] at hs
    split_ifs at hs with hst
    · obtain ⟨q, -, heq⟩ := map_eq_some_iff.1 hs
      cases heq
      exact h.setRequest hr rfl
    · rw [not_not] at hst
      rcases hup : r.toStreamingUpdate with - | update
      · simp only [hup] at hs
        obtain ⟨s₁, hfin, heq⟩ := map_eq_some_iff.1 hs
        cases heq
        exact h.finishRequests hfin
      · simp only [hup] at hs
        obtain ⟨after, hafter, heq⟩ := map_eq_some_iff.1 hs
        cases heq
        have hsame : AllPlaced (s.sessionUpdated existing) [] := by
          rw [sessionUpdated, if_pos hst]
          exact h
        refine hsame.setRequest (r := existing) ?_ ?_
        · rw [sessionUpdated, if_pos hst]
          exact hr
        · rw [updateRequestAsSession_status hafter, hst]
          rfl

/-- **`update_draft_token_ids` keeps the placement invariant.** -/
theorem AllPlaced.updateDraftTokenIds (h : AllPlaced s []) (drafts : List (ℕ × List ℤ)) :
    AllPlaced (drafts.foldl OneCatVllm.updateDraftTokenIds s) [] := by
  induction drafts generalizing s with
  | nil => exact h
  | cons d ds ih =>
    refine ih ?_
    unfold OneCatVllm.updateDraftTokenIds
    rcases hr : s.requests d.1 with - | r
    · exact h
    · dsimp only
      split_ifs
      · exact h
      · exact h.setRequest hr rfl
      · exact h.setRequest hr rfl

/-- **A forced preemption of all running requests keeps the placement invariant**, and empties
`running`. -/
theorem AllPlaced.resetRunning (h : AllPlaced s []) (hids : s.running.reverse = ids)
    (hs : OneCatVllm.resetRunning ids s = some s') : AllPlaced s' [] := by
  induction ids generalizing s with
  | nil => exact some.inj hs ▸ h
  | cons id ids ih =>
    unfold OneCatVllm.resetRunning at hs
    have hrunning : s.running = ids.reverse ++ [id] := by
      rw [← reverse_reverse s.running, hids, reverse_cons]
    have hdrop : s.running.dropLast = ids.reverse := by rw [hrunning, dropLast_concat]
    rcases hpre : ({ s with running := s.running.dropLast } : Scheduler H E).preemptRequest id
      with - | s₁
    · simp [hpre] at hs
    obtain ⟨r, hr, hrun, rfl⟩ := preemptRequest_eq_some.1 hpre
    simp only [hpre] at hs
    rw [show requests _ id = some r.preempt from setRequest_requests_self] at hs
    refine ih ?_ ?_ hs
    · have hid := h id
      rw [hr, placeOf, hrun] at hid
      refine h.move id (fun j hj ↦ ⟨?_, ?_, ?_⟩) ?_
      · rw [setRequest_requests_of_ne hj]
        exact setRequest_requests_of_ne hj
      · rw [hrunning]
        simp [Ne.symm hj]
      · simp [waitingCount, Ne.symm hj]
      · rw [setRequest_requests_self]
        refine ⟨?_, ?_⟩
        · show s.running.dropLast.count id = 0
          have hcount := hid.1
          rw [hrunning, count_append, count_singleton_self] at hcount
          rw [hdrop]
          omega
        · have hwait := hid.2
          simp only [waitingCount, setRequest_waiting,
            setRequest_skippedWaiting, count_cons_self] at hwait ⊢
          omega
    · show s.running.dropLast.reverse = ids
      rw [hdrop, reverse_reverse]

/-! ### One entry of a batch -/

/-- The session has its next input queued, and the output does not end it. -/
def goesOn (out : ModelRunnerOutput) (id : ℕ) (r : Request H E) : Bool :=
  r.resumable && !(out.sampledTokenIds id ≠ [] && out.grammarRejects id) &&
    match r.streamingQueue with
    | some (some _ :: _) => true
    | _ => false

section

variable (cfg : SchedulerConfig H E) (out : ModelRunnerOutput) (s : Scheduler H E) (id : ℕ)

/-- **A stop is placed well**: if the output stops a request that is not running, then the request
is in `waiting`, unless it goes on at once with its next input, and then it is not. -/
def StopPlaced : Prop :=
  ∀ r ∈ s.requests id, r.isFinished = false → r.status ≠ .running →
    stopsOn cfg out id r = true → (id ∈ s.waiting ↔ goesOn out id r = false)

instance : Decidable (StopPlaced cfg out s id) :=
  inferInstanceAs (Decidable (∀ _ ∈ _, _))

end

/-- The queues as they will be once the stopped requests are removed. -/
def OutputState.effective (st : OutputState H E) : Scheduler H E :=
  { st.sched with
    running := removeRequests st.sched.running st.stoppedRunning
    waiting := removeRequests st.sched.waiting st.stoppedPreempted }

/-- An entry's effect is limited to its request. -/
structure EntryFrame (id : ℕ) (st st' : OutputState H E) : Prop where
  running : st'.sched.running = st.sched.running
  requests : ∀ j ≠ id, st'.sched.requests j = st.sched.requests j
  waiting : ∀ j ≠ id, st'.sched.waiting.count j = st.sched.waiting.count j
  skippedWaiting : ∀ j ≠ id, st'.sched.skippedWaiting.count j = st.sched.skippedWaiting.count j
  stoppedRunning : ∀ j ≠ id, j ∈ st'.stoppedRunning ↔ j ∈ st.stoppedRunning
  stoppedPreempted : ∀ j ≠ id, j ∈ st'.stoppedPreempted ↔ j ∈ st.stoppedPreempted

variable {out : ModelRunnerOutput}

section

variable {failed : List ℕ} {e : OutputEntry} {st st' : OutputState H E} {res : OutputResult H E}

@[simp] theorem logDelivery_sched (dropped : Bool) :
    (st.logDelivery out e r dropped).sched = st.sched := rfl

@[simp] theorem markStopped_sched : (st.markStopped id r).sched = st.sched := by
  unfold markStopped
  split_ifs <;> rfl

theorem Handled.frame (h : Handled cfg out id r st st') : EntryFrame id st st' := by
  cases h with
  | freed =>
    exact ⟨freeRequest_running _, fun j hj ↦ freeRequest_requests_of_ne _ hj,
      fun j _ ↦ by rw [freeRequest_waiting], fun j _ ↦ by rw [freeRequest_skippedWaiting],
      fun _ _ ↦ Iff.rfl, fun _ _ ↦ Iff.rfl⟩
  | nextInput =>
    refine ⟨rfl, fun j hj ↦ setRequest_requests_of_ne hj, fun j hj ↦ ?_, fun _ _ ↦ rfl,
      fun _ _ ↦ Iff.rfl, fun _ _ ↦ Iff.rfl⟩
    simp [addWaiting, Ne.symm hj]
  | awaitsInput =>
    refine ⟨rfl, fun j hj ↦ setRequest_requests_of_ne hj, fun _ _ ↦ rfl, fun j hj ↦ ?_,
      fun _ _ ↦ Iff.rfl, fun _ _ ↦ Iff.rfl⟩
    simp [addSkipped, Ne.symm hj]

/-- Where a stopped request is put, and how that shows in the queues. -/
theorem Handled.place (h : Handled cfg out id r st st') (hfin : r.status.isFinished = true) :
    (st'.stoppedRunning = st.stoppedRunning ∧ st'.stoppedPreempted = st.stoppedPreempted) ∧
    ∃ w k, st'.sched.waiting.count id = st.sched.waiting.count id + w ∧
      st'.sched.skippedWaiting.count id = st.sched.skippedWaiting.count id + k ∧
      (placeOf (st'.sched.requests id) = .nowhere ∧ w = 0 ∧ k = 0 ∨
        placeOf (st'.sched.requests id) = .waiting ∧ w + k = 1) ∧
      (w = 1 ↔
        r.resumable = true ∧ ∃ update rest, r.streamingQueue = some (some update :: rest)) := by
  cases h with
  | freed h =>
    refine ⟨⟨rfl, rfl⟩, 0, 0, by rw [freeRequest_waiting]; rfl,
      by rw [freeRequest_skippedWaiting]; rfl, .inl ⟨?_, rfl, rfl⟩, iff_of_false nofun ?_⟩
    · refine freeRequest_requests_self _ ?_
      rcases h with ⟨-, rfl⟩ | ⟨rest, -, -, rfl⟩ <;> exact hfin
    · rintro ⟨hres, update, rest', hq⟩
      rcases h with ⟨hres', -⟩ | ⟨rest, -, hq', -⟩
      · cases hres.symm.trans hres'
      · cases hq.symm.trans hq'
  | nextInput hres hq hr' =>
    refine ⟨⟨rfl, rfl⟩, 1, 0, by simp [addWaiting], rfl, .inr ⟨?_, rfl⟩,
      iff_of_true rfl ⟨hres, _, _, hq⟩⟩
    show placeOf ((st.sched.setRequest id _).requests id) = _
    rw [setRequest_requests_self, placeOf, updateRequestAsSession_status hr']
    rfl
  | awaitsInput _ hq =>
    refine ⟨⟨rfl, rfl⟩, 0, 1, rfl, by simp [addSkipped], .inr ⟨?_, rfl⟩, iff_of_false nofun ?_⟩
    · show placeOf ((st.sched.setRequest id _).requests id) = _
      rw [setRequest_requests_self]
      rfl
    · rintro ⟨-, update, rest, hq'⟩
      rw [hq'] at hq
      cases hq

/-- **The frame of one entry.** -/
theorem EntryStep.frame (h : EntryStep cfg out failed e st st') : EntryFrame e.reqId st st' := by
  have hset (r : Request H E) (st₁ : OutputState H E)
      (h : st₁.sched = st.sched.setRequest e.reqId r)
      (h₁ : st₁.stoppedRunning = st.stoppedRunning)
      (h₂ : st₁.stoppedPreempted = st.stoppedPreempted) : EntryFrame e.reqId st st₁ := by
    refine ⟨by rw [h, setRequest_running], fun j hj ↦ ?_, fun j _ ↦ ?_, fun j _ ↦ ?_,
      fun j _ ↦ by rw [h₁], fun j _ ↦ by rw [h₂]⟩
    · rw [h, setRequest_requests_of_ne hj]
    · rw [h, setRequest_waiting]
    · rw [h, setRequest_skippedWaiting]
  cases h with
  | absent =>
    exact ⟨rfl, fun _ _ ↦ rfl, fun _ _ ↦ rfl, fun _ _ ↦ rfl, fun _ _ ↦ Iff.rfl, fun _ _ ↦ Iff.rfl⟩
  | ignored => exact hset _ _ rfl rfl rfl
  | applied => exact hset _ _ rfl rfl rfl
  | stopped _ _ _ _ _ _ hhandled =>
    obtain ⟨h₁, h₂, h₃, h₄, h₅, h₆⟩ := hhandled.frame
    simp only [markStopped_sched, logDelivery_sched] at h₁ h₂ h₃ h₄
    refine ⟨h₁, h₂, h₃, h₄, fun j hj ↦ (h₅ j hj).trans ?_, fun j hj ↦ (h₆ j hj).trans ?_⟩
    · unfold markStopped
      split_ifs
      · simp [logDelivery, hj]
      · rfl
    · unfold markStopped
      split_ifs
      · rfl
      · simp [logDelivery, hj]

theorem effective_running_count (j : ℕ) : st.effective.running.count j =
    if j ∈ st.stoppedRunning then 0 else st.sched.running.count j :=
  count_removeRequests j

theorem effective_waitingCount (j : ℕ) : st.effective.waitingCount [] j =
    (if j ∈ st.stoppedPreempted then 0 else st.sched.waiting.count j) +
      st.sched.skippedWaiting.count j := by
  simp [waitingCount, effective, count_removeRequests]

@[simp] theorem corrected_status : (r.corrected out e).status = r.status := by
  unfold corrected rejectDrafts
  split_ifs <;> rfl

/-- The counters that an entry rolls back do not decide about a stop. -/
theorem stopsOn_congr {r' : Request H E} (hout : r'.outputTokenIds = r.outputTokenIds)
    (hall : r'.allTokenIds = r.allTokenIds) (hmax : r'.maxTokens = r.maxTokens)
    (hparams : r'.samplingParams = r.samplingParams) (hpool : r'.isPooling = r.isPooling)
    (hdiscard : r'.asyncTokensToDiscard = r.asyncTokensToDiscard) :
    stopsOn cfg out id r' = stopsOn cfg out id r := by
  unfold stopsOn discards
  rw [updateRequestWithOutput_congr cfg _ hout hall hmax hparams, hpool, hdiscard]

theorem stopsOn_corrected : stopsOn cfg out id (r.corrected out e) = stopsOn cfg out id r := by
  unfold corrected rejectDrafts
  split_ifs <;> exact stopsOn_congr rfl rfl rfl rfl rfl rfl

/-- Whether a stopped request goes on was decided by the request before the output. -/
theorem Applied.goesOn_iff (h : Applied cfg out id r res) (hstop : res.stopped = true) :
    goesOn out id r = true ↔ res.request.resumable = true ∧
      ∃ update rest, res.request.streamingQueue = some (some update :: rest) := by
  have hmatch (q : Option (List (Option StreamingUpdate))) :
      (match q with
        | some (some _ :: _) => true
        | _ => false) = true ↔ ∃ update rest, q = some (some update :: rest) := by
    rcases q with - | - | ⟨- | u, rest⟩ <;> simp
  cases h with
  | nothing => cases hstop
  | pooled hgen => simp only [goesOn, hgen, Bool.and_eq_true, hmatch]; simp
  | dropped => cases hstop
  | appended hgen =>
    rw [appendEach_eq]
    simp only [goesOn, Bool.and_eq_true, hmatch]
    simp [hgen]

theorem goesOn_corrected : goesOn out id (r.corrected out e) = goesOn out id r := by
  unfold corrected rejectDrafts
  split_ifs <;> rfl

theorem Applied.stopped_eq (h : Applied cfg out id r res) : res.stopped = stopsOn cfg out id r := by
  cases h with
  | nothing _ h => exact h.symm
  | pooled _ h => exact h.symm
  | dropped _ _ h => exact h.symm
  | appended => rfl

/-- An output that does not stop a request leaves its status. -/
theorem Applied.status_eq (h : Applied cfg out id r res) (hstop : res.stopped = false) :
    res.request.status = r.status := by
  cases h with
  | nothing => rfl
  | pooled => cases hstop
  | dropped => rfl
  | appended _ _ _ _ hst => exact (hst hstop).2

/-- **One entry keeps the placement invariant**, up to the removals that are still to come. -/
theorem EntryStep.placed (h : EntryStep cfg out failed e st st')
    (hp : AllPlaced st.effective []) (hrunning : e.reqId ∉ st.stoppedRunning)
    (hpreempted : e.reqId ∉ st.stoppedPreempted)
    (hok : e.reqId ∉ failed → StopPlaced cfg out st.sched e.reqId) :
    AllPlaced st'.effective [] := by
  have hframe := h.frame
  have hid := hp e.reqId
  rw [effective_running_count, effective_waitingCount, if_neg hrunning, if_neg hpreempted] at hid
  refine hp.move e.reqId (fun j hj ↦ ⟨hframe.requests j hj, ?_, ?_⟩) ?_
  · rw [effective_running_count, effective_running_count, hframe.running]
    simp only [hframe.stoppedRunning j hj]
  · rw [effective_waitingCount, effective_waitingCount, hframe.waiting j hj,
      hframe.skippedWaiting j hj]
    simp only [hframe.stoppedPreempted j hj]
  rw [effective_running_count, effective_waitingCount]
  cases h with
  | absent =>
    rw [if_neg hrunning, if_neg hpreempted]
    exact hid
  | ignored hr =>
    rw [if_neg hrunning, if_neg hpreempted]
    show (placeOf ((st.sched.setRequest e.reqId _).requests e.reqId)).Holds _ _
    rw [setRequest_requests_self]
    rwa [show st.effective.requests e.reqId = _ from hr] at hid
  | applied hr _ _ happ hstop =>
    show (placeOf ((st.sched.setRequest e.reqId _).requests e.reqId)).Holds
      (if e.reqId ∈ st.stoppedRunning then 0 else st.sched.running.count e.reqId)
      ((if e.reqId ∈ st.stoppedPreempted then 0 else st.sched.waiting.count e.reqId) +
        st.sched.skippedWaiting.count e.reqId)
    rw [if_neg hrunning, if_neg hpreempted, setRequest_requests_self, placeOf,
      happ.status_eq hstop, corrected_status]
    rwa [show st.effective.requests e.reqId = _ from hr] at hid
  | @stopped r res st' hr hnot hlive happ hstop hfin hhandled =>
    rw [show st.effective.requests e.reqId = _ from hr, placeOf] at hid
    obtain ⟨⟨h₁, h₂⟩, w, k, hw, hk, hplace, hgoes⟩ := hhandled.place hfin
    rw [markStopped_sched, logDelivery_sched] at hw hk
    rw [← happ.goesOn_iff hstop, goesOn_corrected] at hgoes
    show (placeOf (st'.sched.requests e.reqId)).Holds _ _
    rw [hframe.running]
    by_cases hrun : r.status = .running
    · -- the request leaves `running`, and is put where it belongs now
      have hmem : e.reqId ∈ st'.stoppedRunning := by
        rw [h₁, markStopped, if_pos (by rw [corrected_status, hrun])]
        simp
      have hnotmem : e.reqId ∉ st'.stoppedPreempted := by
        rw [h₂, markStopped, if_pos (by rw [corrected_status, hrun])]
        exact hpreempted
      rw [hrun] at hid
      obtain ⟨-, hwait⟩ := hid
      rw [if_pos hmem, if_neg hnotmem]
      rcases hplace with ⟨hp', rfl, rfl⟩ | ⟨hp', hwk⟩ <;> rw [hp'] <;> exact ⟨rfl, by omega⟩
    · -- the request will leave `waiting`, also if it was just put there
      have hne : ¬ (r.corrected out e).status = .running := by rwa [corrected_status]
      have hnotmem : e.reqId ∉ st'.stoppedRunning := by
        rw [h₁, markStopped, if_neg hne]
        exact hrunning
      have hmem : e.reqId ∈ st'.stoppedPreempted := by
        rw [h₂, markStopped, if_neg hne]
        simp
      rw [place_eq_waiting_iff.2 ⟨hrun, hlive⟩] at hid
      obtain ⟨hcount, hwait⟩ := hid
      have hstops : stopsOn cfg out e.reqId r = true := by
        rw [← stopsOn_corrected, ← happ.stopped_eq, hstop]
      have hiff : 0 < st.sched.waiting.count e.reqId ↔ ¬ w = 1 := by
        rw [count_pos_iff, hok hnot r hr hlive hrun hstops, hgoes, Bool.not_eq_true]
      rw [if_neg hnotmem, if_pos hmem, hcount]
      rcases hplace with ⟨hp', rfl, rfl⟩ | ⟨hp', hwk⟩ <;> rw [hp'] <;> exact ⟨rfl, by omega⟩

theorem StopPlaced.congr (h : StopPlaced cfg out s id)
    (hreq : s'.requests id = s.requests id) (hwait : s'.waiting.count id = s.waiting.count id) :
    StopPlaced cfg out s' id := by
  intro r hr hlive hrun hstops
  rw [← count_pos_iff, hwait, count_pos_iff]
  exact h r (hreq ▸ hr) hlive hrun hstops

/-- **The loop over a batch keeps the placement invariant.** -/
theorem processEntries_placed {es : List OutputEntry} (hnodup : (es.map (·.reqId)).Nodup)
    (hp : AllPlaced st.effective [])
    (hfresh : ∀ e ∈ es, e.reqId ∉ st.stoppedRunning ∧ e.reqId ∉ st.stoppedPreempted)
    (hok : ∀ e ∈ es, e.reqId ∉ failed → StopPlaced cfg out st.sched e.reqId)
    (h : processEntries cfg out failed es st = some st') :
    AllPlaced st'.effective [] ∧ st'.sched.running = st.sched.running := by
  induction es generalizing st with
  | nil => exact some.inj h ▸ ⟨hp, rfl⟩
  | cons e es ih =>
    obtain ⟨st₁, hentry, hrest⟩ := bind_eq_some_iff.1 h
    have hstep := processEntry_step hentry
    obtain ⟨hnot, hnodup'⟩ := nodup_cons.1 hnodup
    obtain ⟨hr, hpre⟩ := hfresh e mem_cons_self
    have hp₁ := hstep.placed hp hr hpre (hok e mem_cons_self)
    have hframe := hstep.frame
    have hne : ∀ e' ∈ es, e'.reqId ≠ e.reqId := fun e' he' heq ↦
      hnot (mem_map.2 ⟨e', he', heq⟩)
    have hfresh₁ : ∀ e' ∈ es, e'.reqId ∉ st₁.stoppedRunning ∧ e'.reqId ∉ st₁.stoppedPreempted := by
      intro e' he'
      rw [hframe.stoppedRunning _ (hne e' he'), hframe.stoppedPreempted _ (hne e' he')]
      exact hfresh e' (mem_cons_of_mem e he')
    have hok₁ : ∀ e' ∈ es, e'.reqId ∉ failed → StopPlaced cfg out st₁.sched e'.reqId := by
      intro e' he' hfail
      exact (hok e' (mem_cons_of_mem e he') hfail).congr
        (hframe.requests _ (hne e' he')) (hframe.waiting _ (hne e' he'))
    obtain ⟨hp', hrunning⟩ := ih hnodup' hp₁ hfresh₁ hok₁ hrest
    exact ⟨hp', hrunning.trans hframe.running⟩

end

/-! ### The whole output -/

/-- Only computed tokens differ. -/
structure CutFrom (s s' : Scheduler H E) : Prop where
  running : s'.running = s.running
  waiting : s'.waiting = s.waiting
  skippedWaiting : s'.skippedWaiting = s.skippedWaiting
  requests : ∀ id, ∃ c : Request H E → ℤ,
    s'.requests id = (s.requests id).map fun r ↦ { r with numComputedTokens := c r }

theorem CutFrom.refl : CutFrom s s :=
  ⟨rfl, rfl, rfl, fun _ ↦ ⟨fun r ↦ r.numComputedTokens, by simp⟩⟩

theorem cutComputedTokens_cutFrom (idc : ℕ × ℤ) : CutFrom s (cutComputedTokens s idc) := by
  unfold cutComputedTokens
  rcases hr : s.requests idc.1 with - | r
  · exact .refl
  dsimp only
  split_ifs
  · refine ⟨rfl, rfl, rfl, fun j ↦ ?_⟩
    rcases eq_or_ne j idc.1 with rfl | hj
    · exact ⟨fun _ ↦ idc.2, by rw [setRequest_requests_self, hr, map_some]⟩
    · exact ⟨fun r ↦ r.numComputedTokens, by simp [hj]⟩
  · exact .refl

theorem CutFrom.trans {s'' : Scheduler H E} (h : CutFrom s s') (h' : CutFrom s' s'') :
    CutFrom s s'' := by
  refine ⟨h'.running.trans h.running, h'.waiting.trans h.waiting,
    h'.skippedWaiting.trans h.skippedWaiting, fun id ↦ ?_⟩
  obtain ⟨c, hc⟩ := h.requests id
  obtain ⟨c', hc'⟩ := h'.requests id
  refine ⟨fun r ↦ c' { r with numComputedTokens := c r }, ?_⟩
  rw [hc', hc, Option.map_map]
  rfl

theorem foldl_cutComputedTokens (cuts : List (ℕ × ℤ)) :
    CutFrom s (cuts.foldl cutComputedTokens s) := by
  induction cuts generalizing s with
  | nil => exact .refl
  | cons idc cuts ih => exact (cutComputedTokens_cutFrom idc).trans ih

theorem CutFrom.placed (h : CutFrom s s') (hp : AllPlaced s []) : AllPlaced s' [] := by
  intro id
  obtain ⟨c, hc⟩ := h.requests id
  have hplace : placeOf (s'.requests id) = placeOf (s.requests id) := by
    rw [hc]
    rcases s.requests id with - | r <;> rfl
  rw [hplace, waitingCount, h.running, h.waiting, h.skippedWaiting]
  exact hp id

theorem CutFrom.stopPlaced (h : CutFrom s s') (hok : StopPlaced cfg out s id) :
    StopPlaced cfg out s' id := by
  intro r' hr' hlive hrun hstops
  obtain ⟨c, hc⟩ := h.requests id
  rw [hc] at hr'
  obtain ⟨r, hr, rfl⟩ := map_eq_some_iff.1 hr'
  rw [h.waiting]
  have hsame : stopsOn cfg out id { r with numComputedTokens := c r } = stopsOn cfg out id r :=
    stopsOn_congr rfl rfl rfl rfl rfl rfl
  exact hok r hr hlive hrun (hsame ▸ hstops)

/-- Freeing a finished request keeps the placement invariant. -/
theorem AllPlaced.freeFinished (hp : AllPlaced s []) (h : s.freeFinished id = some s') :
    AllPlaced s' [] := by
  unfold Scheduler.freeFinished at h
  rcases hr : s.requests id with - | r
  · simp [hr] at h
  simp only [hr] at h
  split_ifs at h with hfin
  cases h
  refine hp.move id (fun j hj ↦ ⟨delRequest_requests_of_ne hj, rfl, rfl⟩) ?_
  have hid := hp id
  rw [hr, placeOf, place_eq_nowhere_iff.2 hfin] at hid
  rw [delRequest_requests_self]
  exact hid

theorem AllPlaced.finishRecving (hp : AllPlaced s [])
    (h : OneCatVllm.finishRecving s id = some s') : AllPlaced s' [] := by
  unfold OneCatVllm.finishRecving at h
  split_ifs at h
  · exact some.inj h ▸ hp
  · exact hp.freeFinished h

theorem foldOption_invariant {σ α : Type} {P : σ → Prop} {f : σ → α → Option σ}
    (hf : ∀ {s s' : σ} {a : α}, P s → f s a = some s' → P s') {as : List α} {s s' : σ}
    (hs : P s) (h : foldOption f as s = some s') : P s' := by
  induction as generalizing s with
  | nil => exact some.inj h ▸ hs
  | cons a as ih =>
    obtain ⟨s₁, h₁, hrest⟩ := bind_eq_some_iff.1 h
    exact ih (hf hs h₁) hrest

/-- **`update_from_output` keeps the placement invariant**, if its stops are placed well. -/
theorem AllPlaced.updateFromOutput (hp : AllPlaced s []) {es : SchedulerOutput}
    (hnodup : (es.map (·.reqId)).Nodup)
    (hok : ∀ e ∈ es, e.reqId ∉ failedLoads cfg s out → StopPlaced cfg out s e.reqId)
    {res : Scheduler H E × List Delivery × List (SessionRecord H E)}
    (h : OneCatVllm.updateFromOutput cfg s es out = some res) : AllPlaced res.1 [] := by
  unfold OneCatVllm.updateFromOutput at h
  set s₁ := out.invalidBlocks.foldl cutComputedTokens s with hs₁
  have hcut : CutFrom s s₁ := foldl_cutComputedTokens out.invalidBlocks
  rcases hloop : processEntries cfg out (failedLoads cfg s out) es { sched := s₁ } with - | st
  · simp [hloop] at h
  simp only [hloop] at h
  have hstart : AllPlaced (effective { sched := s₁ }) [] := by
    intro id
    rw [effective_running_count, effective_waitingCount]
    simpa [waitingCount, effective] using hcut.placed hp id
  obtain ⟨hst, hrunning⟩ := processEntries_placed hnodup hstart (by simp)
    (fun e he hfail ↦ hcut.stopPlaced (hok e he hfail)) hloop
  -- the stopped requests leave all at once
  have hstopped : AllPlaced st.removeStopped [] := by
    have hnd : st.sched.running.Nodup := by
      rw [hrunning, hcut.running]
      exact hp.running_nodup
    rwa [removeStopped, removeAll_eq hnd]
  obtain ⟨s₄, h₄, rfl⟩ := map_eq_some_iff.1 h
  obtain ⟨s₃, h₃, hsend⟩ := bind_eq_some_iff.1 h₄
  obtain ⟨s₂, h₂, hrecv⟩ := bind_eq_some_iff.1 h₃
  have hp₂ : AllPlaced s₂ [] := by
    split_ifs at h₂
    · exact hstopped.finishRequests h₂
    · exact some.inj h₂ ▸ hstopped
  have hp₃ : AllPlaced s₃ [] :=
    foldOption_invariant (fun hs hs' ↦ AllPlaced.finishRecving hs hs') hp₂ hrecv
  exact foldOption_invariant (fun hs hs' ↦ AllPlaced.freeFinished hs hs') hp₃ hsend

/-! ### Runs -/

/-- **The condition on a call**: an output stops requests only where that goes well. -/
def StopsPlaced (cfg : SchedulerConfig H E) (σ : System H E) : Call E → Prop
  | .updateFromOutput out => ∀ es ∈ σ.inFlight.head?, ∀ e ∈ es,
      e.reqId ∉ failedLoads cfg σ.sched out → StopPlaced cfg out σ.sched e.reqId
  | _ => True

instance (cfg : SchedulerConfig H E) (σ : System H E) :
    ∀ call, Decidable (StopsPlaced cfg σ call)
  | .updateFromOutput _ => inferInstanceAs (Decidable (∀ _ ∈ _, _))
  | .addRequest _ _ | .schedule _ | .finishRequests _ _ _ | .resetPrefixCache _ _
  | .updateDraftTokenIds _ => .isTrue trivial

/-- The invariant of the runs: requests are placed, and a batch has one entry for a request. -/
structure System.Placed (σ : System H E) : Prop where
  sched : AllPlaced σ.sched []
  nodup : ∀ es ∈ σ.inFlight, (es.map (·.reqId)).Nodup

theorem map_reqId_markStale (ids : List ℕ) (es : SchedulerOutput) :
    (markStale ids es).map (·.reqId) = es.map (·.reqId) := by
  rw [markStale, List.map_map]
  refine map_congr_left fun e _ ↦ ?_
  simp only [Function.comp_apply]
  split_ifs <;> rfl

theorem foldl_correctEntry_reqId (out : ModelRunnerOutput) (done : SchedulerOutput)
    (e : OutputEntry) : (done.foldl (fun e d ↦ correctEntry out d e) e).reqId = e.reqId := by
  obtain ⟨pos, h⟩ := foldl_correctEntry_eq out done e
  rw [h]

theorem map_reqId_correctEntries (out : ModelRunnerOutput) (done es : SchedulerOutput) :
    (correctEntries out done es).map (·.reqId) = es.map (·.reqId) := by
  rw [correctEntries, List.map_map]
  exact map_congr_left fun e _ ↦ foldl_correctEntry_reqId out done e

/-- **One call keeps the placement.** -/
theorem System.Placed.step {σ σ' : System H E} {call : Call E}
    (h : σ.Placed) (hok : StopsPlaced cfg σ call) (hstep : step cfg σ call = some σ') :
    σ'.Placed := by
  cases call with
  | addRequest a delayFree =>
    obtain ⟨r, s, recs, hr, hadd, rfl⟩ := step_addRequest hstep
    exact ⟨h.sched.addRequest (new_status hr) hadd, h.nodup⟩
  | schedule env =>
    obtain ⟨⟨s, lens, out⟩, hsched, rfl⟩ := map_eq_some_iff.1 hstep
    have hspec := schedule_spec h.sched hsched
    refine ⟨hspec.placed, fun es hes ↦ ?_⟩
    rcases mem_append.1 hes with hes | hes
    · exact h.nodup es hes
    · rw [mem_singleton.1 hes]
      exact hspec.nodup
  | updateFromOutput out =>
    obtain ⟨es, rest, s, ds, recs, hfl, hout, rfl⟩ := step_updateFromOutput hstep
    have hes : es ∈ σ.inFlight := by rw [hfl]; exact mem_cons_self
    refine ⟨h.sched.updateFromOutput (h.nodup es hes) (hok es (by rw [hfl]; rfl)) hout, ?_⟩
    intro es' hes'
    obtain ⟨es₁, hmem, rfl⟩ := mem_map.1 hes'
    rw [map_reqId_correctEntries]
    exact h.nodup es₁ (by rw [hfl]; exact mem_cons_of_mem es hmem)
  | finishRequests ids status delayFree =>
    obtain ⟨s, hfin, rfl⟩ := map_eq_some_iff.1 hstep
    exact ⟨h.sched.finishRequests hfin, h.nodup⟩
  | resetPrefixCache resetRunningRequests cacheReset =>
    obtain ⟨s, hreset, rfl⟩ := map_eq_some_iff.1 hstep
    unfold resetPrefixCache at hreset
    refine ⟨?_, fun es hes ↦ ?_⟩
    · split_ifs at hreset
      · exact h.sched.resetRunning rfl hreset
      · exact some.inj hreset ▸ h.sched
    · split_ifs at hes
      · obtain ⟨es₁, hmem, rfl⟩ := mem_map.1 hes
        rw [map_reqId_markStale]
        exact h.nodup es₁ hmem
      · exact h.nodup es hes
  | updateDraftTokenIds drafts =>
    simp only [System.step] at hstep
    split_ifs at hstep
    cases hstep
    exact ⟨h.sched.updateDraftTokenIds drafts, h.nodup⟩

theorem System.placed_init : (init : System H E).Placed :=
  ⟨fun _ ↦ ⟨rfl, rfl⟩, fun _ hes ↦ absurd hes not_mem_nil⟩

/-- **The queues partition the requests** in every state that a run reaches, as long as every stop
is placed well. -/
theorem queuePartition_of_run {cfg : SchedulerConfig H E} {σ : System H E}
    (h : Run cfg (StopsPlaced cfg) σ) : QueuePartition σ.sched := by
  have hinv : σ.Placed := Run.invariant h placed_init
    fun hσ hok hstep ↦ hσ.step hok hstep
  exact hinv.sched.queuePartition

/-- Asynchronous scheduling, with prefills cut to four tokens. -/
def preemptionConfig : SchedulerConfig ℕ ℕ where
  maxNumScheduledTokens := 8
  maxNumRunningReqs := 4
  maxModelLen := 100
  longPrefillTokenThreshold := 4
  drafterMaxModelLen := 100
  asyncScheduling := true

/-- A request of eight prompt tokens. -/
def longRequest : NewRequest ℕ where
  requestId := 1
  promptTokenIds := some [1, 2, 3, 4, 5, 6, 7, 8]

/-- A request of one prompt token that ends with token `7`; possibly a streaming session. -/
def shortRequest (resumable : Bool) : NewRequest ℕ where
  requestId := 0
  promptTokenIds := some [1]
  maxTokens := 10
  samplingParams := { eosTokenId := some 7 }
  resumable := resumable

/-- The output of a step in which every request samples the same tokens. -/
def Call.sampled (tokens : List ℕ) : Call ℕ :=
  .updateFromOutput { sampledTokenIds := fun _ ↦ tokens }

/-- Two steps are scheduled. In the second one the long request needs blocks, and the short one is
preempted for them; then the output of the first step arrives, in which the short request ends. The
short request arrives `n` times: once, or again as the next input of its session. -/
def preemptedStop (resumable : Bool) (n : ℕ) : List (Call ℕ) :=
  .addRequest longRequest (fun _ ↦ false) ::
    replicate n (.addRequest (shortRequest resumable) fun _ ↦ false) ++
    [.schedule {}, .schedule { allocateSlots := fun n ↦ n ≠ 0 },
      .updateFromOutput { sampledTokenIds := fun id ↦ if id = 0 then [7] else [] }]

/-- The next input of the session is queued when the preempted request stops: the request is put
into `waiting` and removed from it again, and is in no queue any more. -/
theorem preempted_session_lost :
    ∃ σ, exec (step preemptionConfig) (preemptedStop true 2) init =
      some σ ∧ ¬ QueuePartition σ.sched := by
  obtain ⟨σ, hσ, ⟨r, hr, hlive⟩, hcount⟩ : ∃ σ ∈ exec (step preemptionConfig)
      (preemptedStop true 2) init, (∃ r ∈ σ.sched.requests 0, r.isFinished = false) ∧
        (σ.sched.running ++ σ.sched.waiting ++ σ.sched.skippedWaiting).count 0 = 0 := by
    decide
  exact ⟨σ, hσ, fun h ↦ absurd (h.count_eq_one 0 r hr hlive) (by omega)⟩

/-- Without a session the preempted request just ends. -/
theorem queuePartition_preemptedStop :
    ∃ σ, exec (step preemptionConfig) (preemptedStop false 1) init =
      some σ ∧ QueuePartition σ.sched := by
  obtain ⟨σ, hσ⟩ : ∃ σ, exec (step preemptionConfig) (preemptedStop false 1)
      init = some σ := isSome_iff_exists.1 (by decide)
  exact ⟨σ, hσ, queuePartition_of_run (Run.of_exec .start (by decide) hσ)⟩

end OneCatVllm
