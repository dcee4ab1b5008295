import OneCatVllm.Hash.Arrival
import OneCatVllm.Sched.Output
import OneCatVllm.Sched.Placement

/-!
# The specification of output processing

What one entry of a batch does to its request. `EntryStep` lists the ways in which the body of the
loop in `update_from_output` can end, with the state it leaves; `processEntry_step` is the inversion
lemma, and the rest of the development argues by cases on `EntryStep`.

Whether an output stops its request is a matter of the request's tokens and the sampled ones only
(`stopsOn`); the counters that a batch in flight may still change play no part.
-/

namespace OneCatVllm

open Nat Option Request

variable {H E : Type} {r r' : Request H E} {hasher : Option (Request H E → List H)}
  {cfg : SchedulerConfig H E} {update : StreamingUpdate} {out : ModelRunnerOutput}
  {st : RequestStatus} {id : ℕ}

/-! ### Appending sampled tokens -/

/-- Append tokens one at a time. -/
def Request.appendEach (hasher : Option (Request H E → List H)) (ts : List ℕ) (r : Request H E) :
    Request H E :=
  r.grow hasher (ts.map fun t ↦ [t])

namespace Request

/-- Hashing changes the hashes only. -/
theorem updateBlockHashes_eq : r.updateBlockHashes hasher =
    { r with blockHashes := (r.updateBlockHashes hasher).blockHashes } := by
  cases hasher <;> rfl

section

variable (c : List ℕ)

theorem appendOutputTokenIds_eq :
    r.appendOutputTokenIds hasher c = { r with
        outputTokenIds := r.outputTokenIds ++ c
        allTokenIds := r.allTokenIds ++ c
        blockHashes := (r.appendOutputTokenIds hasher c).blockHashes } := by
  cases hasher <;> rfl

@[simp] theorem appendOutputTokenIds_outputTokenIds :
    (r.appendOutputTokenIds hasher c).outputTokenIds = r.outputTokenIds ++ c := by
  rw [appendOutputTokenIds_eq]

@[simp] theorem appendOutputTokenIds_allTokenIds :
    (r.appendOutputTokenIds hasher c).allTokenIds = r.allTokenIds ++ c := by
  rw [appendOutputTokenIds_eq]

@[simp] theorem appendOutputTokenIds_maxTokens :
    (r.appendOutputTokenIds hasher c).maxTokens = r.maxTokens := by
  rw [appendOutputTokenIds_eq]

@[simp] theorem appendOutputTokenIds_samplingParams :
    (r.appendOutputTokenIds hasher c).samplingParams = r.samplingParams := by
  rw [appendOutputTokenIds_eq]

@[simp] theorem appendOutputTokenIds_status :
    (r.appendOutputTokenIds hasher c).status = r.status := by
  rw [appendOutputTokenIds_eq]

end

/-- Growing changes the tokens and the hashes only. -/
theorem grow_eq (chunks : List (List ℕ)) :
    r.grow hasher chunks =
      { r with
        outputTokenIds := r.outputTokenIds ++ chunks.flatten
        allTokenIds := r.allTokenIds ++ chunks.flatten
        blockHashes := (r.grow hasher chunks).blockHashes } := by
  induction chunks generalizing r with
  | nil => simp
  | cons c cs ih =>
    rw [grow_cons, ih]
    rw [appendOutputTokenIds_eq]
    simp

theorem appendEach_eq (ts : List ℕ) :
    r.appendEach hasher ts =
      { r with
        outputTokenIds := r.outputTokenIds ++ ts
        allTokenIds := r.allTokenIds ++ ts
        blockHashes := (r.appendEach hasher ts).blockHashes } := by
  have hflat : (ts.map fun t ↦ [t]).flatten = ts := by
    simp [← List.flatMap_def]
  rw [appendEach, grow_eq, hflat]

end Request

/-- A token can only stop a request with a finished status. -/
theorem checkStop_isFinished {maxModelLen : ℤ} (h : checkStop maxModelLen r = some st) :
    st.isFinished = true := by
  unfold checkStop at h
  rcases hlast : r.outputTokenIds.getLast? with - | last
  · simp [hlast] at h
  · simp only [hlast] at h
    split_ifs at h <;> obtain rfl := some.inj h <;> rfl

/-- **What `_update_request_with_output` leaves**: some of the tokens are appended, all of them if
the request did not stop. -/
structure Appended (cfg : SchedulerConfig H E) (ts : List ℕ) (r r' : Request H E) (kept : ℕ)
    (stopped : Bool) : Prop where
  request : ∃ st : RequestStatus,
    r' = { r.appendEach cfg.hasher (ts.take kept) with status := st } ∧
    (if stopped then st.isFinished = true else st = r.status)
  kept_le : kept ≤ ts.length
  kept_eq : stopped = false → kept = ts.length
  kept_pos : ts ≠ [] → 0 < kept

section

variable {t : ℕ} {ts : List ℕ}

theorem updateRequestWithOutput_of_none
    (h : checkStop cfg.maxModelLen (r.appendOutputTokenIds cfg.hasher [t]) = none) :
    updateRequestWithOutput cfg (t :: ts) r =
      let res := updateRequestWithOutput cfg ts (r.appendOutputTokenIds cfg.hasher [t])
      (res.1, res.2.1 + 1, res.2.2) := by
  simp only [updateRequestWithOutput, h]

theorem updateRequestWithOutput_of_some
    (h : checkStop cfg.maxModelLen (r.appendOutputTokenIds cfg.hasher [t]) = some st) :
    updateRequestWithOutput cfg (t :: ts) r =
      ({ r.appendOutputTokenIds cfg.hasher [t] with status := st }, 1, true) := by
  simp only [updateRequestWithOutput, h]

end

section

variable (cfg : SchedulerConfig H E)

theorem updateRequestWithOutput_appended (ts : List ℕ) (r : Request H E) :
    Appended cfg ts r (updateRequestWithOutput cfg ts r).1 (updateRequestWithOutput cfg ts r).2.1
      (updateRequestWithOutput cfg ts r).2.2 := by
  induction ts generalizing r with
  | nil =>
    exact ⟨⟨r.status, rfl, rfl⟩, le_rfl, fun _ ↦ rfl, fun h ↦ absurd rfl h⟩
  | cons t ts ih =>
    rcases hstop : checkStop cfg.maxModelLen (r.appendOutputTokenIds cfg.hasher [t]) with - | st
    · rw [updateRequestWithOutput_of_none hstop]
      obtain ⟨⟨st, hreq, hst⟩, hle, heq, -⟩ := ih (r.appendOutputTokenIds cfg.hasher [t])
      rw [appendOutputTokenIds_status] at hst
      exact ⟨⟨st, hreq, hst⟩, succ_le_succ hle, fun h ↦ congrArg (· + 1) (heq h),
        fun _ ↦ succ_pos _⟩
    · rw [updateRequestWithOutput_of_some hstop]
      refine ⟨⟨st, ?_, checkStop_isFinished hstop⟩, succ_le_succ (zero_le _), ?_, ?_⟩
      · rfl
      · exact fun h ↦ nomatch h
      · exact fun _ ↦ one_pos

/-- Whether tokens stop a request depends on its tokens and its sampling parameters only. -/
theorem updateRequestWithOutput_congr (ts : List ℕ) (hout : r'.outputTokenIds = r.outputTokenIds)
    (hall : r'.allTokenIds = r.allTokenIds) (hmax : r'.maxTokens = r.maxTokens)
    (hparams : r'.samplingParams = r.samplingParams) :
    (updateRequestWithOutput cfg ts r').2 = (updateRequestWithOutput cfg ts r).2 := by
  induction ts generalizing r r' with
  | nil => rfl
  | cons t ts ih =>
    have hstop : checkStop cfg.maxModelLen (r'.appendOutputTokenIds cfg.hasher [t]) =
        checkStop cfg.maxModelLen (r.appendOutputTokenIds cfg.hasher [t]) := by
      simp only [checkStop, numOutputTokens, numTokens,
        appendOutputTokenIds_outputTokenIds, appendOutputTokenIds_allTokenIds,
        appendOutputTokenIds_maxTokens, appendOutputTokenIds_samplingParams, hout,
        hall, hmax, hparams]
    rcases h : checkStop cfg.maxModelLen (r.appendOutputTokenIds cfg.hasher [t]) with - | st
    · rw [updateRequestWithOutput_of_none h, updateRequestWithOutput_of_none (hstop.trans h)]
      have hrec : (updateRequestWithOutput cfg ts (r'.appendOutputTokenIds cfg.hasher [t])).2 =
          (updateRequestWithOutput cfg ts (r.appendOutputTokenIds cfg.hasher [t])).2 :=
        ih (by simp [hout]) (by simp [hall]) (by simp [hmax]) (by simp [hparams])
      simp only [hrec]
    · rw [updateRequestWithOutput_of_some h, updateRequestWithOutput_of_some (hstop.trans h)]

/-! ### What an output does to a live request -/

/-- The output of a step will be dropped as stale. -/
def discards (r : Request H E) : Bool :=
  cfg.asyncScheduling && 0 < r.asyncTokensToDiscard

/-- **The output stops the request.** -/
def stopsOn (out : ModelRunnerOutput) (id : ℕ) (r : Request H E) : Bool :=
  if out.sampledTokenIds id ≠ [] then
    !discards cfg r &&
      ((updateRequestWithOutput cfg (out.sampledTokenIds id) r).2.2 || out.grammarRejects id)
  else r.isPooling && out.poolerOutput id

end

/-- **What an output does to a live request**: nothing, completing a pooling request, dropping the
tokens, or appending as many of them as come before a stop. -/
inductive Applied (cfg : SchedulerConfig H E) (out : ModelRunnerOutput) (id : ℕ)
    (r : Request H E) : OutputResult H E → Prop
  | nothing : out.sampledTokenIds id = [] → stopsOn cfg out id r = false →
      Applied cfg out id r ⟨r, 0, false, false⟩
  | pooled : out.sampledTokenIds id = [] → stopsOn cfg out id r = true →
      Applied cfg out id r ⟨{ r with status := .finishedStopped }, 0, true, false⟩
  | dropped : out.sampledTokenIds id ≠ [] → discards cfg r = true → stopsOn cfg out id r = false →
      Applied cfg out id r
        ⟨{ r with asyncTokensToDiscard := r.asyncTokensToDiscard - 1 }, 0, false, true⟩
  | appended {kept : ℕ} {st : RequestStatus} {placeholders : ℤ} : out.sampledTokenIds id ≠ [] →
      discards cfg r = false → 0 < kept → kept ≤ (out.sampledTokenIds id).length →
      (stopsOn cfg out id r = false → kept = (out.sampledTokenIds id).length ∧ st = r.status) →
      (stopsOn cfg out id r = true → st.isFinished = true) →
      (placeholders =
        if cfg.asyncScheduling then r.numOutputPlaceholders - kept else r.numOutputPlaceholders) →
      (cfg.asyncScheduling = true → 0 ≤ placeholders) →
      Applied cfg out id r
        ⟨{ r.appendEach cfg.hasher ((out.sampledTokenIds id).take kept) with
            status := st
            numOutputPlaceholders := placeholders
            resumable := r.resumable && !out.grammarRejects id },
          kept, stopsOn cfg out id r, false⟩

variable {res : OutputResult H E}

section

/-- `_update_request_with_output` of both schedulers, when nothing is discarded. -/
theorem deliverOutput_of_not_discards {generated : List ℕ} (hd : discards cfg r = false)
    (h : deliverOutput cfg generated r = some res) :
    ∃ placeholders : ℤ,
      (placeholders = if cfg.asyncScheduling then
        (updateRequestWithOutput cfg generated r).1.numOutputPlaceholders -
          (updateRequestWithOutput cfg generated r).2.1
        else (updateRequestWithOutput cfg generated r).1.numOutputPlaceholders) ∧
      (cfg.asyncScheduling = true → 0 ≤ placeholders) ∧
      res = ⟨{ (updateRequestWithOutput cfg generated r).1 with
          numOutputPlaceholders := placeholders }, (updateRequestWithOutput cfg generated r).2.1,
        (updateRequestWithOutput cfg generated r).2.2, false⟩ := by
  unfold deliverOutput at h
  by_cases hasync : cfg.asyncScheduling = true
  · have hnot : ¬ 0 < r.asyncTokensToDiscard := by simpa [discards, hasync] using hd
    simp only [if_pos hasync, if_neg hnot] at h
    split_ifs at h with hle
    exact ⟨_, by rw [if_pos hasync], fun _ ↦ hle, (some.inj h).symm⟩
  · simp only [if_neg hasync] at h
    exact ⟨_, by rw [if_neg hasync], fun h ↦ absurd h hasync, (some.inj h).symm⟩

/-- **The specification of `applyOutput`.** -/
theorem applyOutput_applied (h : applyOutput cfg out id (out.sampledTokenIds id) r = some res) :
    Applied cfg out id r res := by
  unfold applyOutput at h
  by_cases hgen : out.sampledTokenIds id ≠ []
  · rw [if_pos hgen] at h
    obtain ⟨res₀, hdel, rfl⟩ := map_eq_some_iff.1 h
    rcases hd : discards cfg r with - | -
    · obtain ⟨p, hp, hp0, rfl⟩ := deliverOutput_of_not_discards hd hdel
      obtain ⟨⟨st, hreq, hst⟩, hle, hkept, hpos⟩ :=
        updateRequestWithOutput_appended cfg (out.sampledTokenIds id) r
      set u := updateRequestWithOutput cfg (out.sampledTokenIds id) r with hu
      have hstops : stopsOn cfg out id r = (u.2.2 || out.grammarRejects id) := by
        simp only [stopsOn, if_pos hgen, hd, Bool.not_false, Bool.true_and, hu]
      have hplace : u.1.numOutputPlaceholders = r.numOutputPlaceholders := by
        rw [hreq, appendEach_eq]
      rw [hplace] at hp
      rcases hrej : out.grammarRejects id with - | -
      · -- the grammar accepts: the request is as its tokens leave it
        have hres : (r.resumable && !out.grammarRejects id) =
            (r.appendEach cfg.hasher ((out.sampledTokenIds id).take u.2.1)).resumable := by
          rw [appendEach_eq, hrej, Bool.not_false, Bool.and_true]
        rw [hrej, Bool.or_false] at hstops
        have := Applied.appended hgen hd (hpos hgen) hle
          (fun h ↦ ⟨hkept (hstops ▸ h), by simpa [hstops ▸ h] using hst⟩)
          (fun h ↦ by simpa [hstops ▸ h] using hst) hp hp0
        rw [hres, hstops] at this
        simpa [hreq] using this
      · rw [hrej] at hstops
        have hfinished : RequestStatus.finishedError.isFinished = true := rfl
        have := Applied.appended hgen hd (hpos hgen) hle
          (fun h ↦ absurd (hstops ▸ h) (by simp)) (fun _ ↦ hfinished) hp hp0
        rw [hstops, hrej] at this
        simpa [hreq, hpos hgen] using this
    · have hasync : cfg.asyncScheduling = true ∧ 0 < r.asyncTokensToDiscard := by
        simpa [discards] using hd
      have hstops : stopsOn cfg out id r = false := by
        simp only [stopsOn, if_pos hgen, hd, Bool.not_true, Bool.false_and]
      simp only [deliverOutput, if_pos hasync.1, if_pos hasync.2, some.injEq] at hdel
      subst hdel
      simpa using Applied.dropped hgen hd hstops
  · rw [if_neg hgen] at h
    have hstops : stopsOn cfg out id r = (r.isPooling && out.poolerOutput id) := by
      simp only [stopsOn, if_neg hgen]
    rw [not_not] at hgen
    split_ifs at h with hpool
    · cases h
      exact .pooled hgen (by simpa [hstops] using hpool)
    · cases h
      exact .nothing hgen (by simpa [hstops] using hpool)

end

/-! ### Stopped requests -/

/-- **What becomes of a stopped request**: it is freed, or goes on with the next input of its
session, or waits for one. -/
inductive Handled (cfg : SchedulerConfig H E) (out : ModelRunnerOutput) (id : ℕ) (r : Request H E)
    (st : OutputState H E) : OutputState H E → Prop
  | freed {r' : Request H E} :
      (r.resumable = false ∧ r' = r ∨
        ∃ rest, r.resumable = true ∧ r.streamingQueue = some (none :: rest) ∧
          r' = { r with streamingQueue := some rest }) →
      Handled cfg out id r st { st with sched := st.sched.freeRequest id r' (out.delayFree id) }
  | nextInput {update : StreamingUpdate} {rest : List (Option StreamingUpdate)}
      {r' : Request H E} : r.resumable = true → r.streamingQueue = some (some update :: rest) →
      updateRequestAsSession cfg.hasher { r with streamingQueue := some rest } update = some r' →
      Handled cfg out id r st
        { st with
          sched := (st.sched.setRequest id r').addWaiting id
          sessions := st.sessions ++ [⟨{ r with streamingQueue := some rest }, update, r'⟩] }
  | awaitsInput : r.resumable = true → r.streamingQueue.getD [] = [] →
      Handled cfg out id r st
        { st with
          sched :=
            { (st.sched.setRequest id { r with status := .waitingForStreamingReq }).addSkipped id
              with numWaitingForStreamingInput := st.sched.numWaitingForStreamingInput + 1 } }

/-- The tokens of a session that its next input keeps: those that are computed. -/
def Request.keptTokenIds (r : Request H E) : List ℕ :=
  r.allTokenIds.take (sliceStop r.allTokenIds.length r.numComputedTokens)

section

variable (r : Request H E) (prompt : List ℕ) (update : StreamingUpdate)

/-- The prompt of a session after its next input. -/
def Request.nextPromptTokenIds : List ℕ :=
  prompt ++ r.keptTokenIds.drop r.numPromptTokens ++ update.promptTokenIds.getD []

/-- The session with the tokens and items of its next input, before they are hashed. -/
def Request.extended : Request H E :=
  { r with
    outputTokenIds := []
    allTokenIds := r.keptTokenIds ++ update.promptTokenIds.getD []
    promptTokenIds := some (r.nextPromptTokenIds prompt update)
    mmFeatures := r.mmFeatures ++ update.mmFeatures.map (·.shift r.keptTokenIds.length) }

end

/-- **The specification of `_update_request_as_session`.** -/
theorem updateRequestAsSession_eq_some (h : updateRequestAsSession hasher r update = some r') :
    ∃ prompt, r.promptTokenIds = some prompt ∧
      r' = { r.extended prompt update with
        blockHashes := ((r.extended prompt update).updateBlockHashes hasher).blockHashes
        numPromptTokens := (r.nextPromptTokenIds prompt update).length
        arrivalTime := update.arrivalTime
        samplingParams := update.samplingParams
        status := .waiting } := by
  unfold updateRequestAsSession at h
  rcases hp : r.promptTokenIds with - | prompt
  · simp [hp] at h
  · refine ⟨prompt, rfl, ?_⟩
    simp only [hp, some.injEq] at h
    subst h
    show ({ (r.extended prompt update).updateBlockHashes hasher with
        numPromptTokens := (r.nextPromptTokenIds prompt update).length
        arrivalTime := update.arrivalTime
        samplingParams := update.samplingParams
        status := .waiting } : Request H E) = _
    rw [updateBlockHashes_eq]

/-- A session goes on with status `WAITING`. -/
theorem updateRequestAsSession_status (h : updateRequestAsSession hasher r update = some r') :
    r'.status = .waiting := by
  obtain ⟨prompt, -, rfl⟩ := updateRequestAsSession_eq_some h
  rfl

theorem handleStoppedRequest_handled {st st' : OutputState H E} (hfin : r.status.isFinished = true)
    (h : handleStoppedRequest cfg out id r st = some st') : Handled cfg out id r st st' := by
  unfold handleStoppedRequest at h
  split_ifs at h with hres
  · split at h
    next rest hq => exact some.inj h ▸ .freed (.inr ⟨rest, hres, hq, rfl⟩)
    next update rest hq =>
      obtain ⟨r', hr', rfl⟩ := map_eq_some_iff.1 h
      have hne : r.status ≠ .waitingForStreamingReq := fun hst ↦ by
        rw [hst] at hfin
        cases hfin
      have hnext : Handled cfg out id r st _ := .nextInput hres hq hr'
      rwa [updateRequestAsSession_status hr', Scheduler.sessionUpdated, if_neg hne]
    next hnone hsome =>
      have hq : r.streamingQueue.getD [] = [] := by
        rcases hq : r.streamingQueue with - | - | ⟨- | update, rest⟩
        · rfl
        · rfl
        · exact absurd hq (hnone rest)
        · exact absurd hq (hsome update rest)
      exact some.inj h ▸ .awaitsInput hres hq
  · exact some.inj h ▸ .freed (.inl ⟨by simpa using hres, rfl⟩)

/-! ### One entry -/

section

variable (out : ModelRunnerOutput) (e : OutputEntry) (r : Request H E)

/-- The request when its step's output arrives: the step's tokens are no longer in flight. -/
def Request.landed : Request H E :=
  { r with numInFlightTokens := r.numInFlightTokens - e.numScheduledTokens }

/-- The request without the draft tokens that the output rejects. -/
def Request.corrected : Request H E :=
  rejectDrafts e (out.sampledTokenIds e.reqId) (r.landed e)

/-- The state of the loop with an entry's tokens on record. -/
def OutputState.logDelivery (dropped : Bool) (st : OutputState H E) : OutputState H E :=
  { st with
    deliveries :=
      if out.sampledTokenIds e.reqId = [] then st.deliveries
      else st.deliveries ++
        [⟨e.reqId, e.pos, e.stale, if dropped then none else some r.numTokens⟩] }

end

/-- The state of the loop with a stopped request marked for removal. -/
def OutputState.markStopped (id : ℕ) (r : Request H E) (st : OutputState H E) : OutputState H E :=
  if r.status = .running then { st with stoppedRunning := st.stoppedRunning ++ [id] }
  else { st with stoppedPreempted := st.stoppedPreempted ++ [id] }

/-- **What one entry does.** -/
inductive EntryStep (cfg : SchedulerConfig H E) (out : ModelRunnerOutput) (failed : List ℕ)
    (e : OutputEntry) (st : OutputState H E) : OutputState H E → Prop
  | absent : st.sched.requests e.reqId = none → EntryStep cfg out failed e st st
  | ignored {r : Request H E} : st.sched.requests e.reqId = some r →
      (e.reqId ∈ failed ∨ r.isFinished = true) →
      EntryStep cfg out failed e st { st with sched := st.sched.setRequest e.reqId (r.landed e) }
  | applied {r : Request H E} {res : OutputResult H E} : st.sched.requests e.reqId = some r →
      e.reqId ∉ failed → r.isFinished = false →
      Applied cfg out e.reqId (r.corrected out e) res → res.stopped = false →
      EntryStep cfg out failed e st
        { st.logDelivery out e (r.corrected out e) res.dropped with
          sched := st.sched.setRequest e.reqId res.request }
  | stopped {r : Request H E} {res : OutputResult H E} {st' : OutputState H E} :
      st.sched.requests e.reqId = some r → e.reqId ∉ failed → r.isFinished = false →
      Applied cfg out e.reqId (r.corrected out e) res → res.stopped = true →
      res.request.status.isFinished = true →
      Handled cfg out e.reqId res.request
        ((st.logDelivery out e (r.corrected out e) res.dropped).markStopped e.reqId
          (r.corrected out e)) st' →
      EntryStep cfg out failed e st st'

/-- A stopped request has a finished status. -/
theorem Applied.isFinished (h : Applied cfg out id r res) (hstop : res.stopped = true) :
    res.request.status.isFinished = true := by
  cases h with
  | nothing => cases hstop
  | pooled => rfl
  | dropped => cases hstop
  | appended _ _ _ _ _ hfin => exact hfin hstop

section

variable {failed : List ℕ} {st st' : OutputState H E} {e : OutputEntry}

theorem processEntry_of_live (hpos : ¬ e.numScheduledTokens ≤ 0)
    (hr : st.sched.requests e.reqId = some r) :
    processEntry cfg out failed st e =
      if e.reqId ∈ failed ∨ (r.landed e).isFinished then
        some { st with sched := st.sched.setRequest e.reqId (r.landed e) }
      else
        (applyOutput cfg out e.reqId (out.sampledTokenIds e.reqId) (r.corrected out e)).bind
          fun res ↦
            if res.stopped then
              handleStoppedRequest cfg out e.reqId res.request
                ((st.logDelivery out e (r.corrected out e) res.dropped).markStopped e.reqId
                  (r.corrected out e))
            else
              some { st.logDelivery out e (r.corrected out e) res.dropped with
                sched := st.sched.setRequest e.reqId res.request } := by
  rw [processEntry, if_neg hpos, hr]
  show (if e.reqId ∈ failed ∨ (r.landed e).isFinished then _ else _) = _
  congr 1
  rcases happly : applyOutput cfg out e.reqId (out.sampledTokenIds e.reqId) (r.corrected out e)
    with - | res
  · unfold corrected landed at happly
    simp only [happly, bind_none]
  · unfold corrected landed at happly
    simp only [happly, bind_some]
    rfl

/-- **The inversion of one entry.** -/
theorem processEntry_step (h : processEntry cfg out failed st e = some st') :
    EntryStep cfg out failed e st st' := by
  by_cases hpos : e.numScheduledTokens ≤ 0
  · rw [processEntry, if_pos hpos] at h
    cases h
  rcases hr : st.sched.requests e.reqId with - | r
  · simp only [processEntry, if_neg hpos, hr, some.injEq] at h
    exact h ▸ .absent hr
  rw [processEntry_of_live hpos hr] at h
  by_cases hskip : e.reqId ∈ failed ∨ (r.landed e).isFinished = true
  · rw [if_pos hskip] at h
    exact some.inj h ▸ .ignored hr hskip
  rw [if_neg hskip] at h
  rw [not_or, Bool.not_eq_true] at hskip
  obtain ⟨res, happ, hstep⟩ := bind_eq_some_iff.1 h
  have hres := applyOutput_applied happ
  split_ifs at hstep with hstop
  · exact .stopped hr hskip.1 hskip.2 hres hstop (hres.isFinished hstop)
      (handleStoppedRequest_handled (hres.isFinished hstop) hstep)
  · exact some.inj hstep ▸ .applied hr hskip.1 hskip.2 hres (by simpa using hstop)

end

end OneCatVllm
