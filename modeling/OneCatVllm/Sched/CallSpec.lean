import OneCatVllm.Sched.QueuePartition

/-!
# What a call does to one request

The placement invariant follows requests through the queues. The results about **contents** of
requests (their tokens, their accounts, their hashes) only look at the dictionary, one request at a
time. This module says for each call what it can do there; `RequestStep` says it for `schedule`.
-/

namespace OneCatVllm

open List Option Request Scheduler

variable {H E : Type} {recs : List (SessionRecord H E)} {ids : List ℕ} {r : Request H E}

/-- The request is as before, or it is finished or gone. -/
def KeptOrEnded (o o' : Option (Request H E)) : Prop := o' = o ∨ placeOf o' = .nowhere

theorem KeptOrEnded.trans {o o' o'' : Option (Request H E)} (h : KeptOrEnded o o')
    (h' : KeptOrEnded o' o'') : KeptOrEnded o o'' := by
  rcases h' with rfl | h'
  · exact h
  · exact .inr h'

/-- A request that is live afterwards is the same. -/
theorem KeptOrEnded.eq_some {o o' : Option (Request H E)} (h : KeptOrEnded o o') (hr : o' = some r)
    (hlive : r.isFinished = false) : o = some r := by
  rcases h with rfl | h
  · exact hr
  · rw [hr] at h
    cases (isFinished_of_nowhere h).symm.trans hlive

/-! ### Finishing and adding requests -/

variable {cfg : SchedulerConfig H E} {s s' : Scheduler H E}

section

variable {status : RequestStatus} {delayFree : ℕ → Bool}

section

variable (h : s.finishRequests ids status delayFree = some s') (id : ℕ)

include h

theorem finishRequests_requests :
    (id ∉ s.unfinished ids → s'.requests id = s.requests id) ∧
      (id ∈ s.unfinished ids → placeOf (s'.requests id) = .nowhere) := by
  unfold finishRequests at h
  split_ifs at h with hfin
  cases h
  obtain ⟨-, hreq⟩ := foldl_finishOne hfin (s.unfinished ids)
  exact ⟨(hreq id).1, fun hid ↦ (hreq id).2 (.inl hid)⟩

theorem finishRequests_keptOrEnded : KeptOrEnded (s.requests id) (s'.requests id) := by
  obtain ⟨hkept, hended⟩ := finishRequests_requests h id
  by_cases hid : id ∈ s.unfinished ids
  · exact .inr (hended hid)
  · exact .inl (hkept hid)

end

/-- **What `add_request` does to the request of the same id**: it becomes one, its input is queued
or taken at once, or the session is closed. -/
inductive AddOutcome (cfg : SchedulerConfig H E) (r : Request H E) :
    Option (Request H E) → Option (Request H E) → List (SessionRecord H E) → Prop
  | new : AddOutcome cfg r none
      (some { r with streamingQueue := if r.resumable then some [] else none }) []
  | queued {existing : Request H E} {q : List (Option StreamingUpdate)} :
      existing.status ≠ .waitingForStreamingReq →
      AddOutcome cfg r (some existing) (some { existing with streamingQueue := some q }) []
  | session {existing after : Request H E} {update : StreamingUpdate} :
      existing.status = .waitingForStreamingReq → r.toStreamingUpdate = some update →
      updateRequestAsSession cfg.hasher existing update = some after →
      AddOutcome cfg r (some existing) (some after) [⟨existing, update, after⟩]
  | closed {existing : Request H E} {o : Option (Request H E)} : placeOf o = .nowhere →
      AddOutcome cfg r (some existing) o []

/-- **The specification of `add_request`.** -/
theorem addRequest_spec (h : s.addRequest cfg r delayFree = some (s', recs)) :
    AddOutcome cfg r (s.requests r.requestId) (s'.requests r.requestId) recs ∧
      ∀ j ≠ r.requestId, s'.requests j = s.requests j := by
  unfold addRequest at h
  rcases hr : s.requests r.requestId with - | existing
  · simp only [hr, some.injEq, Prod.mk.injEq] at h
    obtain ⟨rfl, rfl⟩ := h
    refine ⟨?_, fun j hj ↦ ?_⟩
    · rw [setRequest_requests_self]
      exact .new
    · rw [setRequest_requests_of_ne hj, enqueueWaitingRequest_requests]
  simp only [hr] at h
  split_ifs at h with hst
  · obtain ⟨q, -, heq⟩ := map_eq_some_iff.1 h
    cases heq
    refine ⟨?_, fun j hj ↦ setRequest_requests_of_ne hj⟩
    rw [setRequest_requests_self]
    exact .queued hst
  rw [not_not] at hst
  rcases hup : r.toStreamingUpdate with - | update
  · simp only [hup] at h
    obtain ⟨s₁, hfin, heq⟩ := map_eq_some_iff.1 h
    cases heq
    refine ⟨.closed ((finishRequests_requests hfin _).2 ?_),
      fun j hj ↦ (finishRequests_requests hfin j).1 fun hmem ↦ ?_⟩
    · exact mem_unfinished.2 ⟨mem_singleton_self _, existing, hr, by
        rw [isFinished, hst]
        rfl⟩
    · exact hj (mem_singleton.1 (mem_unfinished.1 hmem).1)
  · simp only [hup] at h
    obtain ⟨after, hafter, heq⟩ := map_eq_some_iff.1 h
    cases heq
    refine ⟨?_, fun j hj ↦ ?_⟩
    · rw [setRequest_requests_self]
      exact .session hst hup hafter
    · rw [setRequest_requests_of_ne hj, sessionUpdated, if_pos hst]

end

/-! ### Resetting the cache, draft tokens -/

/-- A running request after a forced reset. -/
def Request.resetRunning (r : Request H E) : Request H E :=
  { r.preempt with
    asyncTokensToDiscard := r.numOutputPlaceholders
    numOutputPlaceholders := 0 }

theorem resetRunning_requests (hnodup : ids.Nodup) (h : resetRunning ids s = some s') (id : ℕ) :
    s'.requests id =
      if id ∈ ids then (s.requests id).map Request.resetRunning else s.requests id := by
  induction ids generalizing s with
  | nil => rw [← some.inj h, if_neg not_mem_nil]
  | cons j ids ih =>
    obtain ⟨hj, hnodup'⟩ := nodup_cons.1 hnodup
    unfold resetRunning at h
    rcases hpre : ({ s with running := s.running.dropLast } : Scheduler H E).preemptRequest j
      with - | s₁
    · simp [hpre] at h
    obtain ⟨r, hr, -, rfl⟩ := preemptRequest_eq_some.1 hpre
    simp only [hpre] at h
    rw [show requests _ j = some r.preempt from setRequest_requests_self] at h
    rw [ih hnodup' h]
    rcases eq_or_ne id j with rfl | hne
    · rw [if_neg hj, if_pos mem_cons_self, setRequest_requests_self,
        show s.requests id = some r from hr]
      rfl
    · simp only [setRequest_requests_of_ne hne, mem_cons, hne, false_or]

theorem updateDraftTokenIds_requests (drafts : List (ℕ × List ℤ)) (id : ℕ) :
    ∃ spec : Request H E → List ℤ, (drafts.foldl updateDraftTokenIds s).requests id =
      (s.requests id).map fun r ↦ { r with specTokenIds := spec r } := by
  induction drafts generalizing s with
  | nil => exact ⟨fun r ↦ r.specTokenIds, by simp⟩
  | cons d ds ih =>
    have hone : ∃ spec : Request H E → List ℤ, (updateDraftTokenIds s d).requests id =
        (s.requests id).map fun r ↦ { r with specTokenIds := spec r } := by
      unfold updateDraftTokenIds
      rcases hr : s.requests d.1 with - | r
      · exact ⟨fun r ↦ r.specTokenIds, by simp⟩
      dsimp only
      rcases eq_or_ne id d.1 with rfl | hne
      · split_ifs
        · exact ⟨fun r ↦ r.specTokenIds, by simp⟩
        · exact ⟨fun _ ↦ [], by rw [setRequest_requests_self, hr, map_some]⟩
        · exact ⟨fun _ ↦ d.2, by rw [setRequest_requests_self, hr, map_some]⟩
      · refine ⟨fun r ↦ r.specTokenIds, ?_⟩
        split_ifs <;> simp [hne]
    obtain ⟨spec, hspec⟩ := hone
    obtain ⟨spec', hspec'⟩ := ih
    refine ⟨fun r ↦ spec' { r with specTokenIds := spec r }, ?_⟩
    rw [foldl_cons, hspec', hspec, Option.map_map]
    rfl

/-! ### Outputs -/

section

variable (cfg : SchedulerConfig H E) (out : ModelRunnerOutput) (failed : List ℕ) (e : OutputEntry)

/-- What is logged about the tokens of an entry. -/
def deliveryOf (r : Request H E) (dropped : Bool) : List Delivery :=
  if out.sampledTokenIds e.reqId = [] then []
  else [⟨e.reqId, e.pos, e.stale, if dropped then none else some r.numTokens⟩]

/-- The output of an entry reaches its request. -/
structure Reached (r : Request H E) (res : OutputResult H E) : Prop where
  not_failed : e.reqId ∉ failed
  live : r.isFinished = false
  applied : Applied cfg out e.reqId (r.corrected out e) res

/-- **What an entry does to its request**, with what is logged about it. -/
inductive EntryOutcome : Option (Request H E) → Option (Request H E) → List Delivery →
    List (SessionRecord H E) → Prop
  | absent : EntryOutcome none none [] []
  | ignored {r : Request H E} : (e.reqId ∈ failed ∨ r.isFinished = true) →
      EntryOutcome (some r) (some (r.landed e)) [] []
  | applied {r : Request H E} {res : OutputResult H E} : Reached cfg out failed e r res →
      res.stopped = false →
      EntryOutcome (some r) (some res.request) (deliveryOf out e (r.corrected out e) res.dropped) []
  | freed {r : Request H E} {res : OutputResult H E} {o : Option (Request H E)} :
      Reached cfg out failed e r res → res.stopped = true → placeOf o = .nowhere →
      EntryOutcome (some r) o (deliveryOf out e (r.corrected out e) res.dropped) []
  | nextInput {r r' : Request H E} {res : OutputResult H E} {update : StreamingUpdate}
      {rest : List (Option StreamingUpdate)} : Reached cfg out failed e r res →
      res.stopped = true → res.request.resumable = true →
      res.request.streamingQueue = some (some update :: rest) →
      updateRequestAsSession cfg.hasher { res.request with streamingQueue := some rest } update =
        some r' →
      EntryOutcome (some r) (some r')
        (deliveryOf out e (r.corrected out e) res.dropped)
        [⟨{ res.request with streamingQueue := some rest }, update, r'⟩]
  | awaitsInput {r : Request H E} {res : OutputResult H E} : Reached cfg out failed e r res →
      res.stopped = true → res.request.resumable = true →
      res.request.streamingQueue.getD [] = [] →
      EntryOutcome (some r)
        (some { res.request with status := .waitingForStreamingReq })
        (deliveryOf out e (r.corrected out e) res.dropped) []

/-- An entry, with what is logged about it. -/
structure EntryLog (H E : Type) where
  entry : OutputEntry
  deliveries : List Delivery
  sessions : List (SessionRecord H E)

/-- **What a batch does to the requests.** -/
structure BatchSpec (es : SchedulerOutput) (s s' : Scheduler H E) (logs : List (EntryLog H E)) :
    Prop where
  entries : logs.map (·.entry) = es
  other : ∀ id, (∀ e ∈ es, e.reqId ≠ id) → s'.requests id = s.requests id
  outcome : ∀ l ∈ logs, EntryOutcome cfg out failed l.entry (s.requests l.entry.reqId)
    (s'.requests l.entry.reqId) l.deliveries l.sessions

end

section

variable {out : ModelRunnerOutput} {failed : List ℕ} {e : OutputEntry} {st st' : OutputState H E}
  {id j : ℕ} {es : SchedulerOutput}

theorem logDelivery_deliveries (dropped : Bool) :
    (st.logDelivery out e r dropped).deliveries = st.deliveries ++ deliveryOf out e r dropped := by
  unfold OutputState.logDelivery deliveryOf
  split_ifs <;> simp

@[simp] theorem markStopped_deliveries : (st.markStopped id r).deliveries = st.deliveries := by
  unfold OutputState.markStopped
  split_ifs <;> rfl

@[simp] theorem markStopped_sessions : (st.markStopped id r).sessions = st.sessions := by
  unfold OutputState.markStopped
  split_ifs <;> rfl

/-- From what an entry does to the state to what it does to its request. -/
theorem EntryStep.outcome (h : EntryStep cfg out failed e st st') :
    ∃ ds recs, EntryOutcome cfg out failed e (st.sched.requests e.reqId)
      (st'.sched.requests e.reqId) ds recs ∧
      st'.deliveries = st.deliveries ++ ds ∧ st'.sessions = st.sessions ++ recs := by
  cases h with
  | absent hr =>
    rw [hr]
    exact ⟨_, _, .absent, by simp, by simp⟩
  | ignored hr hskip =>
    rw [hr, setRequest_requests_self]
    exact ⟨_, _, .ignored hskip, by simp, by simp⟩
  | applied hr hnot hlive happ hstop =>
    rw [hr]
    refine ⟨_, _, ?_, logDelivery_deliveries _, (append_nil _).symm⟩
    rw [setRequest_requests_self]
    exact .applied ⟨hnot, hlive, happ⟩ hstop
  | stopped hr hnot hlive happ hstop hfin hhandled =>
    rw [hr]
    have hreached := Reached.mk hnot hlive happ
    cases hhandled with
    | freed hr' =>
      refine ⟨_, _, .freed hreached hstop (freeRequest_requests_self _ ?_), ?_, ?_⟩
      · rcases hr' with ⟨-, rfl⟩ | ⟨rest, -, -, rfl⟩ <;> exact hfin
      · exact markStopped_deliveries.trans (logDelivery_deliveries _)
      · exact markStopped_sessions.trans (append_nil _).symm
    | nextInput hres hq hup =>
      refine ⟨_, [⟨_, _, _⟩], ?_, markStopped_deliveries.trans (logDelivery_deliveries _),
        congrArg (· ++ _) markStopped_sessions⟩
      show EntryOutcome cfg out failed e _ ((setRequest _ e.reqId _).requests e.reqId) _ _
      rw [setRequest_requests_self]
      exact .nextInput hreached hstop hres hq hup
    | awaitsInput hres hq =>
      refine ⟨_, _, ?_, markStopped_deliveries.trans (logDelivery_deliveries _),
        markStopped_sessions.trans (append_nil _).symm⟩
      show EntryOutcome cfg out failed e _ ((setRequest _ e.reqId _).requests e.reqId) _ _
      rw [setRequest_requests_self]
      exact .awaitsInput hreached hstop hres hq

/-- **The loop of `update_from_output`**, request by request. -/
theorem processEntries_spec (hnodup : (es.map (·.reqId)).Nodup)
    (h : processEntries cfg out failed es st = some st') :
    ∃ logs, BatchSpec cfg out failed es st.sched st'.sched logs ∧
      st'.deliveries = st.deliveries ++ logs.flatMap (·.deliveries) ∧
      st'.sessions = st.sessions ++ logs.flatMap (·.sessions) := by
  induction es generalizing st with
  | nil =>
    cases h
    exact ⟨[], ⟨rfl, fun _ _ ↦ rfl, by simp⟩, by simp, by simp⟩
  | cons e es ih =>
    obtain ⟨st₁, hentry, hrest⟩ := bind_eq_some_iff.1 h
    have hstep := processEntry_step hentry
    obtain ⟨hnot, hnodup'⟩ := nodup_cons.1 hnodup
    have hne : ∀ e' ∈ es, e'.reqId ≠ e.reqId := fun e' he' heq ↦
      hnot (mem_map.2 ⟨e', he', heq⟩)
    have hsame : ∀ j ≠ e.reqId, st₁.sched.requests j = st.sched.requests j := hstep.frame.requests
    obtain ⟨ds, recs, hout, hds, hrecs⟩ := hstep.outcome
    obtain ⟨logs, hbatch, hds', hrecs'⟩ := ih hnodup' hrest
    refine ⟨⟨e, ds, recs⟩ :: logs, ⟨congrArg (e :: ·) hbatch.entries, fun id hid ↦ ?_,
      forall_mem_cons.2 ⟨?_, fun l hl ↦ ?_⟩⟩, ?_, ?_⟩
    · rw [hbatch.other id fun e' he' ↦ hid e' (mem_cons_of_mem e he')]
      exact hsame id (hid e mem_cons_self).symm
    · rwa [← hbatch.other e.reqId hne] at hout
    · rw [← hsame _ (hne _ (hbatch.entries ▸ mem_map_of_mem hl))]
      exact hbatch.outcome l hl
    · rw [hds', hds, append_assoc, flatMap_cons]
    · rw [hrecs', hrecs, append_assoc, flatMap_cons]

/-- After a batch a request has an entry in it or is as it was. -/
theorem BatchSpec.eq_some {logs : List (EntryLog H E)} {r' : Request H E}
    (h : BatchSpec cfg out failed es s s' logs) (hr' : s'.requests id = some r') :
    (∃ e ∈ es, e.reqId = id ∧ ∃ r ds recs, s.requests id = some r ∧
      EntryOutcome cfg out failed e (some r) (some r') ds recs) ∨
    (∀ e ∈ es, e.reqId ≠ id) ∧ s.requests id = some r' := by
  by_cases hmem : ∃ e ∈ es, e.reqId = id
  · obtain ⟨e, he, rfl⟩ := hmem
    obtain ⟨l, hl, rfl⟩ := mem_map.1 (h.entries ▸ he)
    have hout := h.outcome l hl
    rw [hr'] at hout
    rcases hr : s.requests l.entry.reqId with - | r <;> rw [hr] at hout
    · cases hout
    exact .inl ⟨_, he, rfl, r, _, _, rfl, hout⟩
  · have hne : ∀ e ∈ es, e.reqId ≠ id := fun e he heq ↦ hmem ⟨e, he, heq⟩
    exact .inr ⟨hne, h.other id hne ▸ hr'⟩

theorem freeFinished_keptOrEnded (h : s.freeFinished j = some s') (id : ℕ) :
    KeptOrEnded (s.requests id) (s'.requests id) := by
  unfold freeFinished at h
  rcases hr : s.requests j with - | r
  · simp [hr] at h
  simp only [hr] at h
  split_ifs at h
  cases h
  rcases eq_or_ne id j with rfl | hne
  · exact .inr (by rw [delRequest_requests_self, placeOf])
  · exact .inl (delRequest_requests_of_ne hne)

theorem finishRecving_keptOrEnded (h : finishRecving s j = some s') (id : ℕ) :
    KeptOrEnded (s.requests id) (s'.requests id) := by
  unfold finishRecving at h
  split_ifs at h
  · exact .inl (by rw [some.inj h])
  · exact freeFinished_keptOrEnded h id

/-- **The specification of `update_from_output`**: the computed tokens of failed loads are cut, the
entries are processed, and some requests end. -/
theorem updateFromOutput_spec (hnodup : (es.map (·.reqId)).Nodup) {ds : List Delivery}
    (h : updateFromOutput cfg s es out = some (s', ds, recs)) :
    ∃ s₂ logs, BatchSpec cfg out (failedLoads cfg s out) es
        (out.invalidBlocks.foldl cutComputedTokens s) s₂ logs ∧
      ds = logs.flatMap (·.deliveries) ∧ recs = logs.flatMap (·.sessions) ∧
      ∀ id, KeptOrEnded (s₂.requests id) (s'.requests id) := by
  unfold updateFromOutput at h
  rcases hloop : processEntries cfg out (failedLoads cfg s out) es
      { sched := out.invalidBlocks.foldl cutComputedTokens s } with - | st
  · simp [hloop] at h
  simp only [hloop] at h
  obtain ⟨logs, hbatch, hds, hrecs⟩ := processEntries_spec hnodup hloop
  obtain ⟨s₄, h₄, heq⟩ := map_eq_some_iff.1 h
  obtain ⟨rfl, rfl, rfl⟩ := heq
  obtain ⟨s₃, h₃, hsend⟩ := bind_eq_some_iff.1 h₄
  obtain ⟨s₂, h₂, hrecv⟩ := bind_eq_some_iff.1 h₃
  refine ⟨st.sched, logs, hbatch, hds, hrecs, fun id ↦ ?_⟩
  have hk₂ : KeptOrEnded (st.sched.requests id) (s₂.requests id) := by
    split_ifs at h₂
    · exact finishRequests_keptOrEnded h₂ id
    · exact .inl (by rw [← some.inj h₂]; rfl)
  have hk₃ : KeptOrEnded (st.sched.requests id) (s₃.requests id) :=
    foldOption_invariant (P := fun t ↦ KeptOrEnded (st.sched.requests id) (t.requests id))
      (fun hs hs' ↦ hs.trans (finishRecving_keptOrEnded hs' id)) hk₂ hrecv
  exact foldOption_invariant (P := fun t ↦ KeptOrEnded (st.sched.requests id) (t.requests id))
    (fun hs hs' ↦ hs.trans (freeFinished_keptOrEnded hs' id)) hk₃ hsend

end

end OneCatVllm
