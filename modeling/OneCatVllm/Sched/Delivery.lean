import OneCatVllm.Sched.Accounting
import OneCatVllm.Sched.CallSpec

/-!
# Outputs are delivered in place

With asynchronous scheduling, outputs arrive for steps that were scheduled before the request was
preempted, or reset, or had taken in the outputs of other steps. A delivery is **faithful** if it
does with the tokens what the step's origin asks for: a stale output is dropped, any other one is
appended at the position that the step computed it for.

`Steady` lists what a call must not run into. In a run of steady calls every request's accounts are
in order in every state (`System.Accounts`), and all deliveries are faithful. Each part of `Steady`
is there for a behaviour of the source that breaks the accounts; the runs at the end of the module
show two of them.
-/

namespace OneCatVllm

open Accounted List Request Scheduler OneCatVllm.System Transition

variable {H E : Type} {a : NewRequest E} {σ : System H E} {r : Request H E} {call : Call E}

/-! ### Steps in flight -/

/-- The entries of a request in a list of batches. -/
def entriesIn (batches : List SchedulerOutput) (id : ℕ) : List OutputEntry :=
  batches.flatten.filter (·.reqId = id)

/-- The steps in a list of batches that will return tokens for a request. -/
def pendingIn (batches : List SchedulerOutput) (id : ℕ) : List OutputEntry :=
  sampling (entriesIn batches id)

/-- The steps in flight that will return tokens for a request. -/
def System.pending (σ : System H E) (id : ℕ) : List OutputEntry := pendingIn σ.inFlight id

variable {batches : List SchedulerOutput} {id : ℕ} {e : OutputEntry} {es : SchedulerOutput}

section

variable {f : OutputEntry → OutputEntry}

theorem pendingIn_append (batches' : List SchedulerOutput) :
    pendingIn (batches ++ batches') id = pendingIn batches id ++ pendingIn batches' id := by
  simp [pendingIn, entriesIn, sampling]

theorem pendingIn_cons :
    pendingIn (es :: batches) id = sampling (es.filter (·.reqId = id)) ++ pendingIn batches id := by
  simp [pendingIn, entriesIn, sampling]

theorem mem_pendingIn :
    e ∈ pendingIn batches id ↔ (∃ es ∈ batches, e ∈ es) ∧ e.reqId = id ∧ e.samples = true := by
  rw [pendingIn, entriesIn, sampling, mem_filter, mem_filter, mem_flatten, decide_eq_true_eq,
    and_assoc]

theorem entriesIn_map (hreq : ∀ e, (f e).reqId = e.reqId) :
    entriesIn (batches.map (map f)) id = (entriesIn batches id).map f := by
  have hid : (fun e : OutputEntry ↦ decide (e.reqId = id)) ∘ f = fun e ↦ decide (e.reqId = id) :=
    funext fun e ↦ by rw [Function.comp_apply, hreq]
  rw [entriesIn, entriesIn, ← map_flatten, filter_map, hid]

/-- A change of entries that keeps their request and whether they return tokens. -/
theorem pendingIn_map (hreq : ∀ e, (f e).reqId = e.reqId)
    (hsamples : ∀ e, (f e).samples = e.samples) :
    pendingIn (batches.map (map f)) id = (pendingIn batches id).map f := by
  have hcomp : OutputEntry.samples ∘ f = OutputEntry.samples := funext hsamples
  rw [pendingIn, entriesIn_map hreq, sampling, filter_map, hcomp]
  rfl

/-- In a batch, a request has one entry. -/
theorem filter_reqId (hnodup : (es.map (·.reqId)).Nodup) (he : e ∈ es) :
    es.filter (·.reqId = e.reqId) = [e] := by
  obtain ⟨l₁, l₂, rfl⟩ := append_of_mem he
  rw [map_append, map_cons, nodup_middle, nodup_cons, mem_append, not_or] at hnodup
  have hnot {l : List OutputEntry} (hl : e.reqId ∉ l.map (·.reqId)) :
      l.filter (·.reqId = e.reqId) = [] :=
    filter_eq_nil_iff.2 fun e' he' h ↦
      hl (mem_map.2 ⟨e', he', of_decide_eq_true h⟩)
  rw [filter_append, filter_cons_of_pos (by simp), hnot hnodup.1.1, hnot hnodup.1.2]
  rfl

end

/-! ### Corrections and marks of the entries behind -/

variable {out : ModelRunnerOutput}

section

variable {done : SchedulerOutput} {d : OutputEntry}

theorem correctEntry_of_numRejected (h : numRejected out d = 0) : correctEntry out d e = e := by
  rw [correctEntry, h, sub_zero, ite_self]

theorem foldl_correctEntry_samples :
    (done.foldl (fun e d ↦ correctEntry out d e) e).samples = e.samples := by
  obtain ⟨pos, h⟩ := foldl_correctEntry_eq out done e
  rw [h]
  rfl

/-- Outputs for other requests correct nothing. -/
theorem foldl_correctEntry_of_ne (h : ∀ d ∈ done, d.reqId ≠ e.reqId) :
    done.foldl (fun e d ↦ correctEntry out d e) e = e := by
  induction done with
  | nil => rfl
  | cons d done ih =>
    rw [foldl_cons, correctEntry, if_neg fun heq ↦ h d mem_cons_self heq.1.symm]
    exact ih fun d' hd' ↦ h d' (mem_cons_of_mem d hd')

/-- The output for the request corrects the entry. -/
theorem foldl_correctEntry (hnodup : (done.map (·.reqId)).Nodup) (hd : d ∈ done)
    (h : d.reqId = e.reqId) :
    done.foldl (fun e d ↦ correctEntry out d e) e = correctEntry out d e := by
  obtain ⟨l₁, l₂, rfl⟩ := append_of_mem hd
  rw [map_append, map_cons, nodup_middle, nodup_cons, mem_append, not_or] at hnodup
  have hnot {l : List OutputEntry} (hl : d.reqId ∉ l.map (·.reqId)) :
      ∀ d' ∈ l, d'.reqId ≠ e.reqId := fun d' hd' heq ↦
    hl (mem_map.2 ⟨d', hd', heq.trans h.symm⟩)
  rw [foldl_append, foldl_cons, foldl_correctEntry_of_ne (hnot hnodup.1.1)]
  refine foldl_correctEntry_of_ne ?_
  rw [correctEntry_eq]
  exact hnot hnodup.1.2

theorem pendingIn_correctEntries :
    pendingIn (batches.map (correctEntries out done)) id =
      (pendingIn batches id).map fun e ↦ done.foldl (fun e d ↦ correctEntry out d e) e :=
  pendingIn_map (foldl_correctEntry_reqId out done) fun _ ↦ foldl_correctEntry_samples

/-- The entries behind a batch without the request stay. -/
theorem pendingIn_correctEntries_of_ne (h : ∀ d ∈ done, d.reqId ≠ id) :
    pendingIn (batches.map (correctEntries out done)) id = pendingIn batches id := by
  rw [pendingIn_correctEntries]
  refine (map_congr_left fun e he ↦ foldl_correctEntry_of_ne fun d hd ↦ ?_).trans (map_id' _)
  rw [(mem_pendingIn.1 he).2.1]
  exact h d hd

/-- The entries behind a batch with the request are corrected by its entry. -/
theorem pendingIn_correctEntries_of_mem (hnodup : (done.map (·.reqId)).Nodup) (hd : d ∈ done) :
    pendingIn (batches.map (correctEntries out done)) d.reqId =
      (pendingIn batches d.reqId).map (correctEntry out d) := by
  rw [pendingIn_correctEntries]
  exact map_congr_left fun e he ↦
    foldl_correctEntry hnodup hd (mem_pendingIn.1 he).2.1.symm

theorem pendingIn_markStale (ids : List ℕ) :
    pendingIn (batches.map (markStale ids)) id =
      if id ∈ ids then (pendingIn batches id).map fun e ↦ { e with stale := true }
      else pendingIn batches id := by
  have hmap : pendingIn (batches.map (markStale ids)) id = (pendingIn batches id).map
      fun e ↦ if e.reqId ∈ ids then { e with stale := true } else e :=
    pendingIn_map (fun e ↦ by split_ifs <;> rfl) fun e ↦ by split_ifs <;> rfl
  have hid : ∀ e ∈ pendingIn batches id, e.reqId = id := fun e he ↦ (mem_pendingIn.1 he).2.1
  rw [hmap]
  split_ifs with h
  · exact map_congr_left fun e he ↦ if_pos (hid e he ▸ h)
  · exact (map_congr_left fun e he ↦ if_neg (hid e he ▸ h)).trans (map_id' _)

end

/-! ### Steady calls -/

section

variable (cfg : SchedulerConfig H E) (out : ModelRunnerOutput)

/-- A request that the output stops goes on or waits for its next input. -/
def survivesStop (id : ℕ) (r : Request H E) : Bool :=
  r.resumable && !(out.sampledTokenIds id ≠ [] && out.grammarRejects id) &&
    match r.streamingQueue with
    | some (none :: _) => false
    | _ => true

/-- **An output can be delivered** to request `r`, with the batches `rest` behind it in flight. -/
@[mk_iff]
structure SteadyEntry (rest : List SchedulerOutput) (e : OutputEntry) (r : Request H E) : Prop where
  /-- The runner returns tokens for the steps that reach the end of what it knows, and one more than
  the draft tokens at most. -/
  sampled : out.sampledTokenIds e.reqId = [] ↔ (e.samples = false ∨ r.isPooling = true)
  length_le : ((out.sampledTokenIds e.reqId).length : ℤ) ≤ e.outputLen
  /-- If draft tokens are rejected, the steps behind belong to the same residence on the worker. -/
  epoch : numRejected out e ≠ 0 → ∀ e' ∈ pendingIn rest e.reqId, e'.epoch = e.epoch
  /-- A session stops with its last expected token; with the V1 runner, its prompt is computed if it
  goes on at once. -/
  stop : stopsOn cfg out e.reqId r = true → r.isPooling = false →
    survivesStop out e.reqId r = true →
    r.numOutputPlaceholders = 1 ∧ (goesOn out e.reqId r = true → cfg.useV2ModelRunner = false →
      (r.numPromptTokens : ℤ) ≤ r.numComputedTokens)

instance (rest : List SchedulerOutput) (e : OutputEntry) (r : Request H E) :
    Decidable (SteadyEntry cfg out rest e r) :=
  decidable_of_iff' _ (steadyEntry_iff cfg out rest e r)

/-- The step moves a waiting request to `running`. -/
def admits (env : ScheduleEnv) (σ : System H E) (id : ℕ) : Bool :=
  (schedule cfg env σ.sched σ.lens).any fun res ↦ res.1.hasStatus .running id

end

/-- **Steady calls.** No new request takes an id that steps in flight still use; the worker gets
only requests that can be sent; an output can be delivered, and no KV load has failed; a forced
reset finds no stale outputs and no draft tokens in flight.

Which requests a step admits is only known after it. That every waiting request can be sent is a
condition on the state alone, and suffices. -/
def Steady (cfg : SchedulerConfig H E) (σ : System H E) : Call E → Prop
  | .addRequest a _ =>
    (σ.sched.requests a.requestId).isNone = true ∧ σ.pending a.requestId = [] ∨
      ∃ r ∈ σ.sched.requests a.requestId, r.status = .waitingForStreamingReq →
        a.resumable = true → cfg.useV2ModelRunner = false →
          (r.numPromptTokens : ℤ) ≤ r.numComputedTokens
  | .schedule env => ∀ id ∈ σ.sched.waiting ++ σ.sched.skippedWaiting,
      ∀ r ∈ σ.sched.requests id, admits cfg env σ id = true → Sendable cfg r
  | .updateFromOutput out => out.invalidBlocks = [] ∧
      ∀ es ∈ σ.inFlight.head?, ∀ e ∈ es, StopPlaced cfg out σ.sched e.reqId ∧
        ∀ r ∈ σ.sched.requests e.reqId, r.isFinished = false →
          SteadyEntry cfg out σ.inFlight.tail e r
  | .resetPrefixCache resetRunningRequests _ => resetRunningRequests = true →
      ∀ id ∈ σ.sched.running, ∀ r ∈ σ.sched.requests id,
        r.asyncTokensToDiscard = 0 ∧ ∀ e ∈ σ.pending id, e.specTokenIds = []
  | .finishRequests _ _ _ | .updateDraftTokenIds _ => True

instance (cfg : SchedulerConfig H E) (σ : System H E) : ∀ call, Decidable (Steady cfg σ call)
  | .addRequest _ _ => inferInstanceAs (Decidable (_ ∨ _))
  | .schedule _ => inferInstanceAs (Decidable (∀ _ ∈ _, ∀ _ ∈ _, _))
  | .resetPrefixCache _ _ => inferInstanceAs (Decidable (_ → _))
  | .updateFromOutput _ => inferInstanceAs (Decidable (_ ∧ _))
  | .finishRequests _ _ _ | .updateDraftTokenIds _ => .isTrue trivial

variable {cfg : SchedulerConfig H E}

/-- A steady call stops requests only where that goes well. -/
theorem Steady.stopsPlaced (h : Steady cfg σ call) : StopsPlaced cfg σ call := by
  cases call with
  | updateFromOutput out => exact fun es hes e he _ ↦ (h.2 es hes e he).1
  | _ => trivial

/-! ### The invariant -/

/-- **A delivery is faithful**: a stale output is dropped, any other one is appended at the position
it was computed for. -/
def Delivery.Faithful (δ : Delivery) : Prop :=
  δ.stale = true ∧ δ.appendedAt = none ∨
    δ.stale = false ∧ ∃ k : ℕ, δ.appendedAt = some k ∧ δ.pos = k

/-- **The accounts of a request are balanced** by its steps in flight: the stale ones come first. -/
def Balanced (cfg : SchedulerConfig H E) (len : ℤ) (pending : List OutputEntry) (r : Request H E) :
    Prop :=
  r.isFinished = false → r.isPooling = false →
    ∃ stale fresh, pending = stale ++ fresh ∧ Accounted cfg len r stale fresh

/-- **The invariant of steady runs.** -/
structure System.Accounts (cfg : SchedulerConfig H E) (σ : System H E) : Prop where
  placed : σ.Placed
  balanced : ∀ id r, σ.sched.requests id = some r → Balanced cfg (σ.lens id) (σ.pending id) r
  faithful : ∀ δ ∈ σ.deliveries, δ.Faithful

/-! ### Scheduling -/

variable {r' : Request H E} {s : Scheduler H E}

section

variable {env : ScheduleEnv} {currentStep : ℕ} {t : Option ScheduledTokens}

theorem StepOutcome.isPooling_eq (h : StepOutcome cfg env id r r' t) :
    r'.isPooling = r.isPooling := by
  obtain ⟨st, c, spec, n, rfl, -⟩ := h.eq_with
  rfl

theorem finishedAt_isPooling : (finishedAt cfg currentStep t r).isPooling = r.isPooling := by
  obtain ⟨c, fl, chunk, p, spec, next, h⟩ := finishedAt_eq_with cfg currentStep t r
  rw [h]

theorem finishedAt_status : (finishedAt cfg currentStep t r).status = r.status := by
  rcases t with - | t
  · rfl
  · exact afterSchedule_status

/-- A request that the worker gets was waiting and runs now. -/
theorem StepOutcome.of_sent (h : StepOutcome cfg env id r r' t)
    (hsent : ∃ t' ∈ t, t'.sent.isSome = true) :
    r.status.place = .waiting ∧ r'.status = .running := by
  obtain ⟨t', ht', hsent⟩ := hsent
  cases h with
  | untouched => cases ht'
  | preempted => cases ht'
  | promoted => cases ht'
  | loads => cases ht'
  | admitted hr => exact ⟨hr, rfl⟩
  | runs =>
    cases ht'
    cases hsent

/-- A finished request is left alone. -/
theorem StepOutcome.isFinished (h : StepOutcome cfg env id r r' t)
    (hlive : r'.isFinished = false) : r.isFinished = false := by
  obtain ⟨st, c, spec, n, rfl, -, hfin⟩ := h.eq_with
  exact hfin hlive

/-- **A scheduling step keeps the accounts.** -/
theorem System.Accounts.schedule (hasync : cfg.asyncScheduling = true) (h : σ.Accounts cfg)
    (hok : Steady cfg σ (.schedule env)) {lens : PrefillLens}
    {out : SchedulerOutput} (hs : OneCatVllm.schedule cfg env σ.sched σ.lens = some (s, lens, out))
    (hr' : s.requests id = some r') :
    Balanced cfg (lens id) (pendingIn (σ.inFlight ++ [out]) id) r' := by
  intro hlive hpool
  have hspec := schedule_spec h.placed.sched hs
  have hreq := hspec.request id
  rw [pendingIn_append, pendingIn_cons]
  generalize hes : out.filter (·.reqId = id) = es at hreq
  generalize hlen : lens id = len at hreq
  generalize ho : σ.sched.requests id = o at hreq
  rw [hr'] at hreq
  cases hreq with
  | live hout =>
    rename_i r₁ r₂ t
    rw [finishedAt_isPooling, hout.isPooling_eq] at hpool
    have hlive₂ : r₂.isFinished = false := by
      rwa [isFinished, finishedAt_status] at hlive
    obtain ⟨stale, fresh, hpending, hacc⟩ :=
      h.balanced id r₁ ho (hout.isFinished hlive₂) hpool
    refine ⟨stale, fresh ++ sampling _, ?_, hacc.schedule hasync hout fun hsent ↦ ?_⟩
    · rw [show pendingIn σ.inFlight id = _ from hpending]
      simp [pendingIn, entriesIn, sampling]
    · -- the request was waiting, and the step admits it
      obtain ⟨hplace, hrun⟩ := hout.of_sent hsent
      have hid := h.placed.sched id
      rw [ho, placeOf, hplace] at hid
      have hmem : id ∈ σ.sched.waiting ++ σ.sched.skippedWaiting := by
        have hcount : 0 < (σ.sched.waiting ++ σ.sched.skippedWaiting).count id := by
          have := hid.2
          simp only [waitingCount, count_nil] at this
          rw [count_append]
          omega
        exact count_pos_iff.1 hcount
      refine hok id hmem r₁ ho ?_
      rw [admits, hs, Option.any_some, hasStatus, hr', Option.any_some, finishedAt_status, hrun]
      rfl

end

/-! ### Outputs -/

variable {rest : List SchedulerOutput} {ds : List Delivery} {recs : List (SessionRecord H E)}

section

variable {len : ℤ} {res : OutputResult H E} {stale fresh : List OutputEntry} {δ : Delivery}

theorem corrected_of_not_sampled (hgen : out.sampledTokenIds e.reqId = []) :
    r.corrected out e = r.landed e :=
  if_neg fun h ↦ h.2 hgen

theorem corrected_allTokenIds : (r.corrected out e).allTokenIds = r.allTokenIds := by
  unfold corrected rejectDrafts
  split_ifs <;> rfl

theorem corrected_isPooling : (r.corrected out e).isPooling = r.isPooling := by
  unfold corrected rejectDrafts
  split_ifs <;> rfl

theorem Applied.isPooling_eq (h : Applied cfg out id r res) :
    res.request.isPooling = r.isPooling := by
  cases h with
  | nothing => rfl
  | pooled => rfl
  | dropped => rfl
  | appended => rw [appendEach_eq]

/-- Tokens come from steps that return some, for requests that are not pooling. -/
theorem SteadyEntry.samples_of_ne (h : SteadyEntry cfg out rest e r)
    (hgen : out.sampledTokenIds e.reqId ≠ []) : e.samples = true ∧ r.isPooling = false := by
  have hnot := mt h.sampled.2 hgen
  rwa [not_or, Bool.not_eq_false, Bool.not_eq_true] at hnot

theorem sampling_singleton (h : e.samples = true) : sampling [e] = [e] := by
  simp [sampling, h]

/-- **A step without tokens** changes nothing in the accounts. -/
theorem Accounted.land (h : Accounted cfg len r stale fresh)
    (hgen : out.sampledTokenIds e.reqId = []) (hpool : r.isPooling = false)
    (happ : Applied cfg out e.reqId (r.corrected out e) res) :
    res.stopped = false ∧ Accounted cfg len res.request stale fresh := by
  rw [corrected_of_not_sampled hgen] at happ
  cases happ with
  | nothing => exact ⟨rfl, { h with }⟩
  | pooled _ hstops =>
    have : stopsOn cfg out e.reqId (r.landed e) = false := by
      simp [stopsOn, hgen, landed, hpool]
    rw [this] at hstops
    cases hstops
  | dropped hne => exact absurd hgen hne
  | appended hne => exact absurd hgen hne

theorem survivesStop_corrected :
    OneCatVllm.survivesStop out id (r.corrected out e) = OneCatVllm.survivesStop out id r := by
  unfold corrected rejectDrafts
  split_ifs <;> rfl

/-- Whether a request stops and survives was decided by the request before the output. -/
theorem Applied.survivesStop (h : Applied cfg out id (r.corrected out e) res)
    (hstop : res.stopped = true) (hres : res.request.resumable = true)
    (hq : ∀ rest, res.request.streamingQueue ≠ some (none :: rest)) :
    stopsOn cfg out id r = true ∧ survivesStop out id r = true := by
  rw [← stopsOn_corrected (e := e), ← h.stopped_eq, ← survivesStop_corrected (e := e)]
  refine ⟨hstop, ?_⟩
  generalize r.corrected out e = r at h ⊢
  cases h with
  | nothing => cases hstop
  | pooled hgen => simp [OneCatVllm.survivesStop, hgen, show r.resumable = true from hres]
  | dropped => cases hstop
  | appended hgen =>
    rw [appendEach_eq] at hq
    simp only [OneCatVllm.survivesStop, Bool.and_eq_true]
    simpa [hgen] using hres

/-- A request that is live after an entry was live before, and is pooling if it was. -/
theorem EntryOutcome.of_live (h : EntryOutcome cfg out [] e (some r) (some r') ds recs)
    (hlive : r'.isFinished = false) : r.isFinished = false ∧ r'.isPooling = r.isPooling := by
  cases h with
  | ignored => exact ⟨hlive, rfl⟩
  | applied hr => exact ⟨hr.live, hr.applied.isPooling_eq.trans corrected_isPooling⟩
  | freed _ _ hplace =>
    cases (isFinished_of_nowhere hplace).symm.trans hlive
  | nextInput hr _ _ _ hup =>
    obtain ⟨prompt, -, rfl⟩ := updateRequestAsSession_eq_some hup
    exact ⟨hr.live, hr.applied.isPooling_eq.trans corrected_isPooling⟩
  | awaitsInput hr => exact ⟨hr.live, hr.applied.isPooling_eq.trans corrected_isPooling⟩

/-- Deliveries are logged for outputs that reach their request. -/
theorem EntryOutcome.reached_of_mem {o o' : Option (Request H E)}
    (h : EntryOutcome cfg out [] e o o' ds recs) (hδ : δ ∈ ds) :
    ∃ r res, o = some r ∧ Reached cfg out [] e r res ∧
      δ ∈ deliveryOf out e (r.corrected out e) res.dropped := by
  cases h with
  | absent => cases hδ
  | ignored => cases hδ
  | applied hr => exact ⟨_, _, rfl, hr, hδ⟩
  | freed hr => exact ⟨_, _, rfl, hr, hδ⟩
  | nextInput hr => exact ⟨_, _, rfl, hr, hδ⟩
  | awaitsInput hr => exact ⟨_, _, rfl, hr, hδ⟩

section

variable (hasync : cfg.asyncScheduling = true) (hs : SteadyEntry cfg out rest e r)
  (h : Accounted cfg len r stale fresh)
  (hpending : sampling [e] ++ pendingIn rest e.reqId = stale ++ fresh)

include hasync hs h hpending

/-- **The two kinds of tokens**: those of a stale step are dropped, those of a fresh one are
appended in place. -/
theorem Accounted.deliver (hgen : out.sampledTokenIds e.reqId ≠ [])
    (happ : Applied cfg out e.reqId (r.corrected out e) res) :
    (∃ stale', stale = e :: stale' ∧ pendingIn rest e.reqId = stale' ++ fresh ∧
        res.dropped = true ∧ res.stopped = false ∧ Accounted cfg len res.request stale' fresh) ∨
      (stale = [] ∧ fresh = e :: pendingIn rest e.reqId ∧ res.dropped = false ∧
        (res.stopped = false → Accounted cfg len res.request []
          ((pendingIn rest e.reqId).map (correctEntry out e)))) := by
  rw [sampling_singleton (hs.samples_of_ne hgen).1, singleton_append] at hpending
  rcases stale with - | ⟨e', stale'⟩
  · subst hpending
    refine .inr ⟨rfl, rfl, ?_, fun hstop ↦ ?_⟩
    · cases happ with
      | nothing => rfl
      | pooled => rfl
      | dropped _ hd => exact absurd (hd.symm.trans h.not_discards) nofun
      | appended => rfl
    · refine h.append hasync hgen hs.length_le happ hstop fun hrej e' he' ↦ ?_
      exact ⟨(mem_pendingIn.1 he').2.1, hs.epoch hrej e' he'⟩
  · rw [cons_append, cons.injEq] at hpending
    obtain ⟨rfl, hpending⟩ := hpending
    obtain ⟨hstop, hdrop, hacc⟩ := h.drop hs.length_le hasync hgen happ
    exact .inl ⟨stale', rfl, hpending, hdrop, hstop, hacc⟩

/-- **A session that stops at its last expected token** has an empty account afterwards. -/
theorem Accounted.stopSession (hpool : r.isPooling = false)
    (happ : Applied cfg out e.reqId (r.corrected out e) res) (hstop : res.stopped = true)
    (hres : res.request.resumable = true)
    (hq : ∀ rest, res.request.streamingQueue ≠ some (none :: rest)) :
    pendingIn rest e.reqId = [] ∧ Accounted cfg len res.request [] [] ∧
      ((∃ update rest, res.request.streamingQueue = some (some update :: rest)) →
        cfg.useV2ModelRunner = false →
          (res.request.numPromptTokens : ℤ) ≤ res.request.numComputedTokens) := by
  have hgen : out.sampledTokenIds e.reqId ≠ [] := fun hgen ↦
    absurd (hstop.symm.trans (h.land hgen hpool happ).1) nofun
  obtain ⟨hstops, hsurvives⟩ := happ.survivesStop hstop hres hq
  obtain ⟨hone, hgoes⟩ := hs.stop hstops hpool hsurvives
  rcases h.deliver hasync hs hpending hgen happ with ⟨-, -, -, -, hnot, -⟩ | ⟨rfl, rfl, -, -⟩
  · exact absurd (hstop.symm.trans hnot) nofun
  · obtain ⟨hnil, hacc, hprompt, hcomputed⟩ := h.stop hasync hgen hs.length_le happ hstop hone
    refine ⟨hnil, hacc, fun hq' hv ↦ ?_⟩
    rw [hprompt, hcomputed]
    refine hgoes ?_ hv
    rw [← goesOn_corrected]
    exact (happ.goesOn_iff hstop).2 ⟨hres, hq'⟩

/-- **An entry of a batch keeps the accounts of its request.** -/
theorem EntryOutcome.balanced (hlive : r.isFinished = false)
    (hout : EntryOutcome cfg out [] e (some r) (some r') ds recs) :
    Balanced cfg len ((pendingIn rest e.reqId).map (correctEntry out e)) r' := by
  intro hlive' hpool
  rw [(hout.of_live hlive').2] at hpool
  have hkeep (hrej : numRejected out e = 0) :
      (pendingIn rest e.reqId).map (correctEntry out e) = pendingIn rest e.reqId :=
    (map_congr_left fun _ _ ↦ correctEntry_of_numRejected hrej).trans (map_id' _)
  cases hout with
  | ignored hskip =>
    rcases hskip with hskip | hskip
    · cases hskip
    · cases hskip.symm.trans hlive
  | applied hr hstop =>
    by_cases hgen : out.sampledTokenIds e.reqId = []
    · have hsamples : sampling [e] = [] := by
        rcases hs.sampled.1 hgen with hsamples | hp
        · simp [sampling, hsamples]
        · cases hp.symm.trans hpool
      rw [hsamples] at hpending
      rw [hkeep (if_pos hgen)]
      exact ⟨stale, fresh, hpending, (h.land hgen hpool hr.applied).2⟩
    · rcases h.deliver hasync hs hpending hgen hr.applied with
        ⟨stale', rfl, hpending, -, -, hacc⟩ | ⟨rfl, -, -, hacc⟩
      · rw [hkeep (numRejected_of_nil hs.length_le (h.stale_marked e mem_cons_self).2)]
        exact ⟨stale', fresh, hpending, hacc⟩
      · exact ⟨[], _, rfl, hacc hstop⟩
  | freed hr hstop hplace =>
    cases (isFinished_of_nowhere hplace).symm.trans hlive'
  | nextInput hr hstop hres hq hup =>
    obtain ⟨hnil, hacc, hprompt⟩ := h.stopSession hasync hs hpending hpool hr.applied hstop hres
      (by rw [hq]; simp)
    refine ⟨[], [], by rw [hnil]; rfl, session ?_ hup (hprompt ⟨_, _, hq⟩)⟩
    exact { hacc with }
  | awaitsInput hr hstop hres hq =>
    obtain ⟨hnil, hacc, -⟩ := h.stopSession hasync hs hpending hpool hr.applied hstop hres
      fun rest hrest ↦ by rw [hrest] at hq; cases hq
    refine ⟨[], [], by rw [hnil]; rfl, ?_⟩
    exact { hacc with
      idle := fun _ ↦ ⟨rfl, rfl⟩, unsent := fun hu ↦ absurd rfl hu.2.1, worker := by rintro - ⟨⟩ }

/-- **What an entry logs is faithful.** -/
theorem Accounted.faithful (happ : Applied cfg out e.reqId (r.corrected out e) res)
    (hδ : δ ∈ deliveryOf out e (r.corrected out e) res.dropped) : δ.Faithful := by
  unfold deliveryOf at hδ
  by_cases hgen : out.sampledTokenIds e.reqId = []
  · rw [if_pos hgen] at hδ
    cases hδ
  rw [if_neg hgen] at hδ
  obtain rfl := mem_singleton.1 hδ
  rcases h.deliver hasync hs hpending hgen happ with
    ⟨stale', rfl, -, hdrop, -, -⟩ | ⟨rfl, rfl, hdrop, -⟩
  · exact .inl ⟨(h.stale_marked e mem_cons_self).1, if_pos hdrop⟩
  · refine .inr ⟨h.fresh_marked e mem_cons_self, r.numTokens, ?_, h.contiguous.1⟩
    rw [hdrop, if_neg Bool.false_ne_true, numTokens, numTokens, corrected_allTokenIds]

end

end

/-! ### Runs -/

theorem new_requestId {hasher : Option (Request H E → List H)} (h : new hasher a = some r) :
    r.requestId = a.requestId ∧ r.resumable = a.resumable := by
  obtain ⟨n, -, rfl⟩ := Option.map_eq_some_iff.1 h
  rw [updateBlockHashes_eq]
  exact ⟨rfl, rfl⟩

section

variable (h : σ.Accounts cfg)

include h

/-- **`add_request` keeps the accounts.** -/
theorem System.Accounts.addRequest {delayFree : ℕ → Bool}
    (hok : Steady cfg σ (.addRequest a delayFree)) (hr : new cfg.hasher a = some r)
    (hs : σ.sched.addRequest cfg r delayFree = some (s, recs))
    (hr' : s.requests id = some r') : Balanced cfg (σ.lens id) (σ.pending id) r' := by
  obtain ⟨hid, hres⟩ := new_requestId hr
  obtain ⟨hout, hother⟩ := addRequest_spec hs
  rw [hid] at hout hother
  rcases ne_or_eq id a.requestId with hne | rfl
  · exact h.balanced id r' (hother id hne ▸ hr')
  intro hlive hpool
  rw [hr'] at hout
  simp only [Steady] at hok
  generalize ho : σ.sched.requests a.requestId = o at hout hok
  cases hout with
  | new =>
    rcases hok with ⟨-, hpending⟩ | ⟨r, hr, -⟩
    · have hacc : Accounted cfg (σ.lens a.requestId) r [] [] := new hr
      exact ⟨[], [], hpending, { hacc with }⟩
    · cases hr
  | queued =>
    obtain ⟨stale, fresh, hpending, hacc⟩ := h.balanced _ _ ho hlive hpool
    exact ⟨stale, fresh, hpending, { hacc with }⟩
  | session hst hup hafter =>
    have hresumable : a.resumable = true := by
      by_contra hnot
      rw [← hres] at hnot
      simp [toStreamingUpdate, hnot] at hup
    rcases hok with ⟨hnone, -⟩ | ⟨r₁, hr₁, hprompt⟩
    · cases hnone
    cases hr₁
    obtain ⟨prompt, hids, rfl⟩ := updateRequestAsSession_eq_some hafter
    obtain ⟨stale, fresh, hpending, hacc⟩ := h.balanced _ _ ho (by rw [isFinished, hst]; rfl) hpool
    obtain ⟨rfl, rfl⟩ := hacc.idle hst
    exact ⟨[], [], hpending, hacc.session hafter (hprompt hst hresumable)⟩
  | closed hplace =>
    cases (isFinished_of_nowhere hplace).symm.trans hlive

/-- **`update_from_output` keeps the accounts**, and delivers faithfully. -/
theorem System.Accounts.updateFromOutput (hasync : cfg.asyncScheduling = true)
    (hfl : σ.inFlight = es :: rest) (hok : Steady cfg σ (.updateFromOutput out))
    (hs : OneCatVllm.updateFromOutput cfg σ.sched es out = some (s, ds, recs)) :
    (∀ id r', s.requests id = some r' →
      Balanced cfg (σ.lens id) (pendingIn (rest.map (correctEntries out es)) id) r') ∧
      ∀ δ ∈ ds, δ.Faithful := by
  obtain ⟨hinvalid, hsteady⟩ := hok
  have hnodup : (es.map (·.reqId)).Nodup := h.placed.nodup es (hfl ▸ mem_cons_self)
  have hfailed : failedLoads cfg σ.sched out = [] := by simp [failedLoads, hinvalid]
  obtain ⟨s₂, logs, hbatch, rfl, -, hkept⟩ := updateFromOutput_spec hnodup hs
  rw [hinvalid, foldl_nil, hfailed] at hbatch
  have hentry {e : OutputEntry} (he : e ∈ es) {r : Request H E}
      (hr : σ.sched.requests e.reqId = some r) (hlive : r.isFinished = false) :
      SteadyEntry cfg out rest e r := by
    have := (hsteady es (by rw [hfl]; rfl) e he).2 r hr hlive
    rwa [hfl] at this
  have hbalanced {e : OutputEntry} (he : e ∈ es) {r : Request H E}
      (hr : σ.sched.requests e.reqId = some r) :
      Balanced cfg (σ.lens e.reqId) (sampling [e] ++ pendingIn rest e.reqId) r := by
    rw [← filter_reqId hnodup he, ← pendingIn_cons, ← hfl]
    exact h.balanced _ r hr
  refine ⟨fun id r' hr' hlive hpool ↦ ?_, fun δ hδ ↦ ?_⟩
  · obtain ⟨e, he, rfl, r, _, _, hr, hout⟩ | ⟨hne, hr⟩ :=
      hbatch.eq_some ((hkept id).eq_some hr' hlive)
    · obtain ⟨hlive₀, hpool₀⟩ := hout.of_live hlive
      obtain ⟨stale, fresh, hpending, hacc⟩ := hbalanced he hr hlive₀ (hpool₀ ▸ hpool)
      rw [pendingIn_correctEntries_of_mem hnodup he]
      exact hout.balanced hasync (hentry he hr hlive₀) hacc hpending hlive₀ hlive hpool
    · obtain ⟨stale, fresh, hpending, hacc⟩ := h.balanced id r' hr hlive hpool
      refine ⟨stale, fresh, ?_, hacc⟩
      rw [pendingIn_correctEntries_of_ne hne, ← hpending, pending, hfl, pendingIn_cons,
        filter_eq_nil_iff.2 fun e he ↦ by simpa using hne e he]
      rfl
  · obtain ⟨l, hl, hmem⟩ := mem_flatMap.1 hδ
    have he : l.entry ∈ es := hbatch.entries ▸ mem_map_of_mem hl
    obtain ⟨r, res, hr, hreached, hmem⟩ := (hbatch.outcome l hl).reached_of_mem hmem
    have hs := hentry he hr hreached.live
    have hpool : r.isPooling = false := by
      refine (hs.samples_of_ne fun hgen ↦ ?_).2
      rw [deliveryOf, if_pos hgen] at hmem
      cases hmem
    obtain ⟨stale, fresh, hpending, hacc⟩ := hbalanced he hr hreached.live hpool
    exact hacc.faithful hasync hs hpending hreached.applied hmem

/-- **A forced reset keeps the accounts.** -/
theorem System.Accounts.resetRunning {cacheReset : Bool}
    (hok : Steady cfg σ (.resetPrefixCache true cacheReset))
    (hs : OneCatVllm.resetRunning σ.sched.running.reverse σ.sched = some s)
    (hr' : s.requests id = some r') :
    Balanced cfg (σ.lens id) (pendingIn (σ.inFlight.map (markStale σ.sched.running)) id) r' := by
  have hnodup : σ.sched.running.reverse.Nodup :=
    nodup_reverse.2 h.placed.sched.running_nodup
  rw [resetRunning_requests hnodup hs id] at hr'
  simp only [mem_reverse] at hr'
  rw [pendingIn_markStale]
  split_ifs at hr' ⊢ with hid
  · intro _ hpool
    obtain ⟨r, hr, rfl⟩ := Option.map_eq_some_iff.1 hr'
    obtain ⟨hdiscard, hspec⟩ := hok rfl id hid r hr
    have hrun : r.isFinished = false := by
      obtain ⟨r₁, hr₁, hst⟩ := h.placed.sched.of_mem_running hid
      cases hr₁.symm.trans hr
      rw [isFinished, hst]
      rfl
    obtain ⟨stale, fresh, hpending, hacc⟩ := h.balanced id r hr hrun hpool
    obtain rfl : stale = [] := by
      rw [hacc.discard_eq] at hdiscard
      exact length_eq_zero_iff.1 (by exact_mod_cast hdiscard)
    rw [hpending] at hspec
    rw [show pendingIn σ.inFlight id = _ from hpending]
    exact ⟨_, [], (append_nil _).symm, hacc.reset hspec⟩
  · exact h.balanced id r' hr'

/-- **One steady call keeps the invariant.** -/
theorem System.Accounts.step (hasync : cfg.asyncScheduling = true) {σ' : System H E}
    (hok : Steady cfg σ call) (hstep : step cfg σ call = some σ') : σ'.Accounts cfg := by
  have hplaced := h.placed.step hok.stopsPlaced hstep
  cases call with
  | addRequest a delayFree =>
    obtain ⟨r, s, recs, hr, hadd, rfl⟩ := step_addRequest hstep
    exact ⟨hplaced, fun _ _ ↦ h.addRequest hok hr hadd, h.faithful⟩
  | schedule env =>
    obtain ⟨⟨s, lens, out⟩, hsched, rfl⟩ := Option.map_eq_some_iff.1 hstep
    exact ⟨hplaced, fun _ _ ↦ h.schedule hasync hok hsched, h.faithful⟩
  | updateFromOutput out =>
    obtain ⟨es, rest, s, ds, recs, hfl, hout, rfl⟩ := step_updateFromOutput hstep
    obtain ⟨hbalanced, hfaithful⟩ := h.updateFromOutput hasync hfl hok hout
    refine ⟨hplaced, hbalanced, fun δ hδ ↦ ?_⟩
    rcases mem_append.1 hδ with hδ | hδ
    · exact h.faithful δ hδ
    · exact hfaithful δ hδ
  | finishRequests ids status delayFree =>
    obtain ⟨s, hfin, rfl⟩ := Option.map_eq_some_iff.1 hstep
    refine ⟨hplaced, fun id r' hr' hlive ↦ ?_, h.faithful⟩
    exact h.balanced id r' ((finishRequests_keptOrEnded hfin id).eq_some hr' hlive) hlive
  | resetPrefixCache resetRunningRequests cacheReset =>
    obtain ⟨s, hreset, rfl⟩ := Option.map_eq_some_iff.1 hstep
    refine ⟨hplaced, fun id r' hr' ↦ ?_, h.faithful⟩
    unfold resetPrefixCache at hreset
    cases resetRunningRequests with
    | false =>
      cases hreset
      exact h.balanced id r' hr'
    | true =>
      rw [if_pos rfl] at hreset
      split_ifs at hreset
      exact h.resetRunning hok hreset hr'
  | updateDraftTokenIds drafts =>
    simp only [step, if_pos hasync] at hstep
    cases hstep

end

theorem System.accounts_init : (init : System H E).Accounts cfg :=
  ⟨placed_init, fun _ _ h ↦ absurd h nofun, fun _ h ↦ absurd h not_mem_nil⟩

theorem System.Accounts.of_run (hasync : cfg.asyncScheduling = true)
    (h : Run cfg (Steady cfg) σ) : σ.Accounts cfg :=
  Run.invariant h accounts_init fun hσ hok hstep ↦ hσ.step hasync hok hstep

/-- One request, and the steps `s₁`, `s₂`, `s₃`, `s₄` of which the second one preempts it and the
third one resumes it; the output of the first step arrives between the last two. Then the outputs of
the second and the third step arrive, the latter with the tokens `ts`. -/
def resumedEarly (ts : List ℕ) : List (Call ℕ) :=
  [.addRequest (shortRequest false) fun _ ↦ false, .schedule {},
    .schedule { allocateSlots := fun _ ↦ false }, .schedule {}, .sampled [5], .schedule {},
    .updateFromOutput {}, .sampled ts]

/-- **A forced reset discards exactly the outputs in flight**: in a run of steady calls, an output
is dropped if and only if its step was scheduled before a reset of its request. -/
theorem dropped_iff_stale {cfg : SchedulerConfig H E} (hasync : cfg.asyncScheduling = true)
    {σ : System H E} (h : Run cfg (Steady cfg) σ) :
    ∀ δ ∈ σ.deliveries, δ.appendedAt = none ↔ δ.stale = true := by
  intro δ hδ
  rcases (Accounts.of_run hasync h).faithful δ hδ with
    ⟨hstale, happ⟩ | ⟨hstale, k, happ, -⟩
  · rw [hstale, happ]
    exact ⟨fun _ ↦ rfl, fun _ ↦ rfl⟩
  · rw [hstale, happ]
    exact ⟨nofun, nofun⟩

/-- One request with two steps in flight, a forced reset, and a step after it; then the outputs
arrive. The second step has `n` draft tokens, all of which are accepted. -/
def resetInFlight (n : ℕ) : List (Call ℕ) :=
  [.addRequest (shortRequest false) fun _ ↦ false, .schedule {}, .schedule {},
    .resetPrefixCache true true, .schedule {}, .sampled [5], .sampled (replicate (n + 1) 5),
    .sampled [5]]

/-- With a draft token in flight three outputs are discarded, and only two were in flight: the
output of the step after the reset is dropped too. -/
theorem fresh_output_dropped :
    ∃ σ, exec (step { preemptionConfig with numSpecTokens := 1 })
      (resetInFlight 1) init = some σ ∧
      ∃ δ ∈ σ.deliveries, δ.appendedAt = none ∧ δ.stale = false := by
  decide

/-- Without draft tokens the two outputs in flight are dropped and the third one is appended. -/
theorem dropped_iff_stale_resetInFlight :
    ∃ σ, exec (step preemptionConfig) (resetInFlight 0) init = some σ ∧
      σ.deliveries.map (·.stale) = [true, true, false] ∧
      ∀ δ ∈ σ.deliveries, δ.appendedAt = none ↔ δ.stale = true := by
  obtain ⟨σ, hσ, hstale⟩ : ∃ σ ∈ exec (step preemptionConfig) (resetInFlight 0)
      init, σ.deliveries.map (·.stale) = [true, true, false] := by
    decide
  exact ⟨σ, hσ, hstale, dropped_iff_stale rfl (Run.of_exec .start (by decide) hσ)⟩

end OneCatVllm
