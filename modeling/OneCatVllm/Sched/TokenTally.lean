import OneCatVllm.Sched.Delivery

/-!
# Token counters with steps in flight

`AsyncScheduler` counts a step's tokens as computed, and its outputs as expected, when the step is
scheduled; the output corrects the counters when it arrives, perhaps many steps later. `Counts` says
what the counters stand for while steps are in flight: the tokens in flight are those of the steps
not yet processed, and the placeholders cover whatever these steps may still return. `Tally` adds
the facts that depend on where the request is: **a running request past its prefill has computed all
tokens but the last expected one**, nothing is expected of a request that waits, and the V2 runner,
which counts for itself, samples in no step that the scheduler takes for a prefill chunk.

In a run in which sessions go on only with nothing in flight (`SessionsDrained`) the counters are
right in every state, and no output takes more placeholders than there are. A session that stops
earlier breaks the count; the run at the end of the module ends in the failing assertion of
`AsyncScheduler._update_request_with_output`.
-/

namespace OneCatVllm

open Intervals List Option OutputEntry Request OneCatVllm.System Transition

variable {H E : Type} {a : NewRequest E} {e : OutputEntry} {call : Call E}

/-! ### Entries in flight -/

/-- The entries of a request in flight, oldest first. -/
def System.entriesOf (σ : System H E) (id : ℕ) : List OutputEntry := entriesIn σ.inFlight id

namespace OutputEntry

/-- The number of tokens that the runner may return for an entry: none if the step has no tokens or
does not reach the end of the tokens that the runner knows. -/
def expectedLen (e : OutputEntry) : ℤ :=
  if 0 < e.numScheduledTokens ∧ e.samples = true then e.outputLen else 0

theorem expectedLen_nonneg (e : OutputEntry) : 0 ≤ e.expectedLen := by
  unfold expectedLen
  split_ifs
  · exact e.outputLen_pos.le
  · exact le_rfl

/-- An entry that may return a token. -/
theorem expectedLen_eq (h : 0 < e.expectedLen) :
    0 < e.numScheduledTokens ∧ e.samples = true ∧ e.expectedLen = e.outputLen := by
  unfold expectedLen at h ⊢
  split_ifs at h ⊢ with hpos
  · exact ⟨hpos.1, hpos.2, rfl⟩
  · exact absurd h (lt_irrefl 0)

end OutputEntry

/-- No entry that may return tokens has draft tokens. -/
def WithoutDrafts (es : List OutputEntry) : Prop :=
  ∀ e ∈ es, 0 < e.expectedLen → e.specTokenIds = []

variable {es : SchedulerOutput}

section

variable {batches : List SchedulerOutput} {id : ℕ}

theorem entriesIn_append_singleton :
    entriesIn (batches ++ [es]) id = entriesIn batches id ++ es.filter (·.reqId = id) := by
  simp [entriesIn]

theorem entriesIn_cons :
    entriesIn (es :: batches) id = es.filter (·.reqId = id) ++ entriesIn batches id := by
  simp [entriesIn]

/-- The entries behind a batch, after its outputs corrected them. -/
theorem entriesIn_correctEntries (out : ModelRunnerOutput) (done : SchedulerOutput) :
    entriesIn (batches.map (correctEntries out done)) id =
      (entriesIn batches id).map fun e ↦ done.foldl (fun e d ↦ correctEntry out d e) e :=
  entriesIn_map (foldl_correctEntry_reqId out done)

end

/-! ### The counters of a request -/

/-- **What the counters of a request stand for**, with its steps in flight. -/
structure Counts (cfg : SchedulerConfig H E) (r : Request H E) (es : List OutputEntry) : Prop where
  discard_eq : r.asyncTokensToDiscard = 0
  inFlight_eq : r.numInFlightTokens = total numScheduledTokens es
  expected_le : total expectedLen es ≤ r.numOutputPlaceholders
  computed_le : r.numComputedTokens ≤ r.numTokens + r.numOutputPlaceholders
  tokens_le : cfg.useV2ModelRunner = false → r.numTokens ≤ r.numPromptTokens + r.numOutputTokens
  prompt_eq : ∀ prompt ∈ r.promptTokenIds, prompt.length = r.numPromptTokens

/-- **Where the V2 runner is** with a running request: in the prefill of the `len` tokens it was
sent; past it, with all tokens computed but the last one expected; or stuck, since the request was
sent with more tokens than the model takes. -/
inductive WorkerPhase (cfg : SchedulerConfig H E) (len : ℤ) (r : Request H E)
    (es : List OutputEntry) : Prop
  | prefill : r.numComputedTokens < len → r.numTokens = len → r.numOutputPlaceholders = 0 →
      WorkerPhase cfg len r es
  | decode : len ≤ r.numTokens →
      r.numComputedTokens + 1 = r.numTokens + r.numOutputPlaceholders →
      (r.numComputedTokens < cfg.maxModelLen ∨ cfg.maxModelLen ≤ len ∧ WithoutDrafts es) →
      WorkerPhase cfg len r es
  | stuck : cfg.maxModelLen ≤ len → len ≤ r.numTokens →
      r.numComputedTokens < r.numTokens + r.numOutputPlaceholders → r.isPrefillChunk = true →
      WithoutDrafts es → WorkerPhase cfg len r es

/-- **The counters of a request and where it is.** -/
structure Tally (cfg : SchedulerConfig H E) (len : ℤ) (r : Request H E) (es : List OutputEntry) :
    Prop extends Counts cfg r es where
  settled : r.status = .running → r.isPrefillChunk = false →
    r.numComputedTokens + 1 = r.numTokens + r.numOutputPlaceholders
  idle : r.status ≠ .running → r.numOutputPlaceholders = 0
  unsent : r.Unsent → r.numOutputTokens = 0
  worker : cfg.useV2ModelRunner = true → r.status = .running → WorkerPhase cfg len r es

variable {cfg : SchedulerConfig H E} {len : ℤ} {es : List OutputEntry}

section

variable {r r' : Request H E}

theorem total_expectedLen_nonneg : 0 ≤ total expectedLen es :=
  total_nonneg fun e _ ↦ e.expectedLen_nonneg

theorem Counts.placeholders_nonneg (h : Counts cfg r es) : 0 ≤ r.numOutputPlaceholders :=
  total_expectedLen_nonneg.trans h.expected_le

/-- No placeholders, no tokens to come. -/
theorem Counts.withoutDrafts (h : Counts cfg r es) (hp : r.numOutputPlaceholders = 0) :
    WithoutDrafts es := by
  intro e he hpos
  obtain ⟨l₁, l₂, rfl⟩ := append_of_mem he
  have hle := h.expected_le
  rw [total_append, total_cons] at hle
  have h₁ : 0 ≤ total expectedLen l₁ := total_expectedLen_nonneg
  have h₂ : 0 ≤ total expectedLen l₂ := total_expectedLen_nonneg
  omega

/-- The oldest entry finds placeholders for its tokens. -/
theorem Counts.expectedLen_add_le (h : Counts cfg r (e :: es)) :
    e.expectedLen + total expectedLen es ≤ r.numOutputPlaceholders := by
  exact h.expected_le

theorem WithoutDrafts.tail (h : WithoutDrafts (e :: es)) : WithoutDrafts es :=
  fun e' he' ↦ h e' (mem_cons_of_mem e he')

theorem WithoutDrafts.append_singleton (h : WithoutDrafts es) (he : e.specTokenIds = []) :
    WithoutDrafts (es ++ [e]) := by
  intro e' he' hpos
  rcases mem_append.1 he' with he' | he'
  · exact h e' he' hpos
  · rw [mem_singleton.1 he']
    exact he

/-- Corrections of positions leave the counters right. -/
theorem Tally.correctEntries (h : Tally cfg len r es) (out : ModelRunnerOutput)
    (done : SchedulerOutput) :
    Tally cfg len r (es.map fun e ↦ done.foldl (fun e d ↦ correctEntry out d e) e) := by
  set f := fun e ↦ done.foldl (fun e d ↦ correctEntry out d e) e with hf
  have heq (e : OutputEntry) : ∃ pos, f e = { e with pos } := foldl_correctEntry_eq out done e
  have hscheduled (e : OutputEntry) : (f e).numScheduledTokens = e.numScheduledTokens := by
    obtain ⟨pos, hpos⟩ := heq e
    rw [hpos]
  have hlen (e : OutputEntry) : (f e).expectedLen = e.expectedLen := by
    obtain ⟨pos, hpos⟩ := heq e
    rw [hpos]
    rfl
  have hdrafts (hes : WithoutDrafts es) : WithoutDrafts (es.map f) := by
    intro e' he' hpos
    obtain ⟨e, he, rfl⟩ := mem_map.1 he'
    rw [hlen] at hpos
    obtain ⟨pos, heq⟩ := heq e
    rw [heq]
    exact hes e he hpos
  refine { h with inFlight_eq := ?_, expected_le := ?_, worker := fun hv hrun ↦ ?_ }
  · rw [total_map fun e _ ↦ hscheduled e]
    exact h.inFlight_eq
  · rw [total_map fun e _ ↦ hlen e]
    exact h.expected_le
  · cases h.worker hv hrun with
    | prefill hc hn hp => exact .prefill hc hn hp
    | decode hn hnext hmax => exact .decode hn hnext (hmax.imp_right fun hm ↦ ⟨hm.1, hdrafts hm.2⟩)
    | stuck hmax hn hc hchunk hes => exact .stuck hmax hn hc hchunk (hdrafts hes)

end

/-! ### Scheduling -/

variable {env : ScheduleEnv}

section

variable {threshold budget n len' c : ℤ} {r r' r₁ : Request H E} {id currentStep : ℕ}
  {spec drafts : List ℤ}

/-- **A scheduled step is counted.** `r₁` is the request that is scheduled with `n` tokens from `c`
on; a step that may return tokens must not be taken for a prefill chunk. -/
theorem Counts.push (hasync : cfg.asyncScheduling = true) (h : Counts cfg r es) {known : ℤ}
    (hr₁ : r₁ = { r with status := .running, numComputedTokens := c, specTokenIds := spec })
    (hknown : 0 < n → known ≤ c + n → (r.numTokens : ℤ) + r.numOutputPlaceholders ≤ c + n)
    (hdrafts : (r.numTokens : ℤ) + r.numOutputPlaceholders ≤ c + n →
      (drafts.length : ℤ) = c + n - r.numTokens - r.numOutputPlaceholders)
    (hworker : cfg.useV2ModelRunner = true →
      WorkerPhase cfg len' (afterSchedule cfg currentStep n drafts r₁)
        (es ++ [mkOutputEntry id r₁ n drafts known])) :
    Tally cfg len' (afterSchedule cfg currentStep n drafts r₁)
      (es ++ [mkOutputEntry id r₁ n drafts known]) := by
  set e := mkOutputEntry id r₁ n drafts known with he
  have hlength : e.outputLen = 1 + drafts.length := rfl
  obtain ⟨p, _, _, heq, hp⟩ : ∃ p _ _, _ ∧ _ := afterSchedule_eq hasync n drafts
  rw [heq] at hworker ⊢
  subst hr₁
  have hp : p = if c + n < (r.numTokens : ℤ) + r.numOutputPlaceholders then r.numOutputPlaceholders
    else r.numOutputPlaceholders + (1 + drafts.length) := hp
  have hexpected : e.expectedLen ≤ p - r.numOutputPlaceholders := by
    rcases e.expectedLen_nonneg.eq_or_lt with hzero | hpos
    · rw [hp]
      split_ifs <;> omega
    · obtain ⟨hnpos, hsamples, hlen⟩ := expectedLen_eq hpos
      rw [hp, if_neg (not_lt.2 (hknown hnpos (of_decide_eq_true hsamples)))]
      omega
  refine ⟨⟨h.discard_eq, ?_, ?_, ?_, h.tokens_le, h.prompt_eq⟩, fun _ hchunk ↦ ?_,
    fun hst ↦ absurd rfl hst, nofun, fun hv _ ↦ hworker hv⟩
  · rw [total_append, total_cons, total_nil, add_zero, ← h.inFlight_eq]
    rfl
  · rw [total_append, total_cons, total_nil]
    have hle := h.expected_le
    show _ ≤ p
    omega
  · show c + n ≤ r.numTokens + p
    rw [hp]
    split_ifs with hlt
    · exact hlt.le
    · omega
  · -- past the prefill, the new placeholders are the new token and the drafts beyond the old ones
    have hlt : ¬ c + n < (r.numTokens : ℤ) + r.numOutputPlaceholders := of_decide_eq_false hchunk
    show c + n + 1 = r.numTokens + p
    omega

theorem Counts.tokens_le_add (h : Counts cfg r es) (hv : cfg.useV2ModelRunner = false) :
    (r.numTokens : ℤ) ≤ r.numPromptTokens + r.numOutputTokens := by
  exact_mod_cast h.tokens_le hv

/-- A request is sent to the worker with all that is expected of it. -/
theorem Tally.numTokensSent (h : Tally cfg len r es) (hr : r.status ≠ .running)
    {st : RequestStatus} (hplace : st.place = .waiting)
    (hunsent : ({ r with status := st } : Request H E).Unsent → r.Unsent) :
    ∃ sent, ({ r with status := st, numComputedTokens := c } : Request H E).numTokensSent cfg =
      sent ∧ (r.numTokens : ℤ) + r.numOutputPlaceholders ≤ sent ∧
      (cfg.useV2ModelRunner = true → sent = r.numTokens) := by
  refine ⟨_, rfl, ?_, fun hv ↦ if_pos hv⟩
  rw [h.idle hr, add_zero]
  unfold Request.numTokensSent
  rcases hv : cfg.useV2ModelRunner with - | -
  · have htokens := h.tokens_le_add hv
    rw [if_neg Bool.false_ne_true]
    dsimp only
    split_ifs with hst
    · subst hst
      rw [h.unsent (hunsent ⟨hplace, nofun, .inr (.inl rfl)⟩)] at htokens
      omega
    · show (r.numTokens : ℤ) ≤ r.numPromptTokens + min (r.numOutputTokens + 0 : ℤ) r.numTokens
      omega
  · exact le_rfl

/-- The V2 runner after a step that the scheduler takes for a prefill chunk. -/
theorem WorkerPhase.of_chunk (hasync : cfg.asyncScheduling = true)
    (hlt : r₁.numComputedTokens + n < (r₁.numTokens : ℤ) + r₁.numOutputPlaceholders)
    (h : (r₁.numComputedTokens + n < len' ∧ r₁.numTokens = len' ∧ r₁.numOutputPlaceholders = 0) ∨
      (cfg.maxModelLen ≤ len' ∧ len' ≤ r₁.numTokens ∧ WithoutDrafts es)) :
    WorkerPhase cfg len' (afterSchedule cfg currentStep n drafts r₁) es := by
  obtain ⟨p, _, _, heq, hp⟩ : ∃ p _ _, _ ∧ _ := afterSchedule_eq hasync n drafts
  obtain rfl : p = r₁.numOutputPlaceholders := hp.trans (if_pos hlt)
  rw [heq]
  rcases h with ⟨hc, hlen, hzero⟩ | ⟨hmax, hlen, hes⟩
  · exact .prefill hc hlen hzero
  · exact .stuck hmax hlen hlt (decide_eq_true hlt) hes

/-- The V2 runner after a step past the prefill. -/
theorem WorkerPhase.of_not_chunk (hasync : cfg.asyncScheduling = true)
    (hle : (r₁.numTokens : ℤ) + r₁.numOutputPlaceholders ≤ r₁.numComputedTokens + n)
    (hdrafts : (drafts.length : ℤ) =
      r₁.numComputedTokens + n - r₁.numTokens - r₁.numOutputPlaceholders)
    (hlen : len' ≤ r₁.numTokens) (hmax : r₁.numComputedTokens + n < cfg.maxModelLen ∨
      cfg.maxModelLen ≤ len' ∧ WithoutDrafts es) :
    WorkerPhase cfg len' (afterSchedule cfg currentStep n drafts r₁) es := by
  obtain ⟨p, _, _, heq, hp⟩ : ∃ p _ _, _ ∧ _ := afterSchedule_eq (r := r₁) hasync n drafts
  have hnext : r₁.numComputedTokens + n + 1 = r₁.numTokens + p := by omega
  rw [heq]
  exact .decode hlen hnext hmax

/-- A running request gets a negative number of tokens only beyond the maximal length. -/
theorem numNewTokensRunning_nonpos (h : cfg.maxModelLen ≤ r.numComputedTokens) :
    numNewTokensRunning cfg env threshold budget id r ≤ 0 :=
  TokenLimit.cap_le_of_nonneg _ ((min_le_right _ _).trans (by omega)) le_rfl

/-- The draft tokens that a step reaches are those beyond the expected tokens. -/
theorem length_draftsScheduled (h : r.numComputedTokens ≤ r.numTokens + r.numOutputPlaceholders)
    (hn : n = numNewTokensRunning cfg env threshold budget id r)
    (hle : (r.numTokens : ℤ) + r.numOutputPlaceholders ≤ r.numComputedTokens + n) :
    ((draftsScheduled r n).length : ℤ) =
      r.numComputedTokens + n - r.numTokens - r.numOutputPlaceholders := by
  have hnle : n ≤ _ := hn ▸ numNewTokensRunning_le h
  simp only [draftsScheduled, length_take, numTokensWithSpec, numTokens] at hnle hle ⊢
  omega

/-- A step that ends before the expected tokens has no draft tokens. -/
theorem draftsScheduled_eq_nil
    (h : r.numComputedTokens + n < r.numTokens + r.numOutputPlaceholders) :
    draftsScheduled r n = [] := by
  unfold draftsScheduled
  rw [show (n + r.numComputedTokens - r.numTokens - r.numOutputPlaceholders).toNat = 0 by omega,
    take_zero]

/-- **The V2 runner follows a running request**: it samples in no prefill chunk, and stays in one of
its phases. -/
theorem WorkerPhase.run (hasync : cfg.asyncScheduling = true) (h : WorkerPhase cfg len r es)
    (hp0 : 0 ≤ r.numOutputPlaceholders)
    (hle : r.numComputedTokens ≤ r.numTokens + r.numOutputPlaceholders) (hbudget : 0 < budget)
    (hn : n = numNewTokensRunning cfg env threshold budget id r) (hn0 : n ≠ 0) (e : OutputEntry)
    (hspec : e.specTokenIds = draftsScheduled r n) :
    (0 < n → len ≤ r.numComputedTokens + n →
      (r.numTokens : ℤ) + r.numOutputPlaceholders ≤ r.numComputedTokens + n) ∧
    WorkerPhase cfg len (afterSchedule cfg currentStep n (draftsScheduled r n)
      { r with specTokenIds := [] }) (es ++ [e]) := by
  have hlt (hc : r.numComputedTokens < cfg.maxModelLen) :
      0 < n ∧ r.numComputedTokens + n < cfg.maxModelLen := by
    have hnn : 0 ≤ n := hn ▸ numNewTokensRunning_nonneg hbudget hle hc
    have hnlt : r.numComputedTokens + n < cfg.maxModelLen := hn ▸ numNewTokensRunning_lt hc
    exact ⟨by omega, hnlt⟩
  have hneg (hc : cfg.maxModelLen ≤ r.numComputedTokens) : n < 0 := by
    have hnp : n ≤ 0 := hn ▸ numNewTokensRunning_nonpos hc
    omega
  have hnil (hlt : r.numComputedTokens + n < r.numTokens + r.numOutputPlaceholders) :
      e.specTokenIds = [] := hspec.trans (draftsScheduled_eq_nil hlt)
  cases h with
  | prefill hc hlen hzero =>
    refine ⟨fun _ _ ↦ by omega, ?_⟩
    rcases lt_or_ge (r.numComputedTokens + n) (r.numTokens + r.numOutputPlaceholders) with
      hchunk | hchunk
    · exact .of_chunk hasync hchunk (.inl ⟨by show r.numComputedTokens + n < len; omega, hlen,
        hzero⟩)
    · refine .of_not_chunk hasync hchunk (length_draftsScheduled hle hn hchunk) hlen.ge (.inl ?_)
      rcases lt_or_ge r.numComputedTokens cfg.maxModelLen with hmax | hmax
      · exact (hlt hmax).2
      · omega
  | decode hlen hnext hmax =>
    refine ⟨fun _ _ ↦ by omega, ?_⟩
    rcases lt_or_ge r.numComputedTokens cfg.maxModelLen with hc | hc
    · obtain ⟨hnpos, hnlt⟩ := hlt hc
      have hchunk : (r.numTokens : ℤ) + r.numOutputPlaceholders ≤ r.numComputedTokens + n := by
        omega
      exact .of_not_chunk hasync hchunk (length_draftsScheduled hle hn hchunk) hlen (.inl hnlt)
    · have hchunk : r.numComputedTokens + n < r.numTokens + r.numOutputPlaceholders := by omega
      obtain hmax | ⟨hmax, hes⟩ := hmax
      · exact absurd hmax (not_lt.2 hc)
      · exact .of_chunk hasync hchunk (.inr ⟨hmax, hlen, hes.append_singleton (hnil hchunk)⟩)
  | stuck hmax hlen hc _ hes =>
    have hchunk : r.numComputedTokens + n < r.numTokens + r.numOutputPlaceholders ∧
        (0 < n → r.numComputedTokens + n < len) := by
      rcases lt_or_ge r.numComputedTokens cfg.maxModelLen with hc' | hc'
      · exact ⟨by omega, fun _ ↦ by omega⟩
      · exact ⟨by omega, fun hpos ↦ by omega⟩
    refine ⟨fun hpos hge ↦ absurd (hchunk.2 hpos) (not_lt.2 hge), ?_⟩
    exact .of_chunk hasync hchunk.1 (.inr ⟨hmax, hlen, hes.append_singleton (hnil hchunk.1)⟩)

/-- The counters of a request that does not run. -/
theorem Counts.tally (h : Counts cfg r es) (hst : r.status ≠ .running)
    (hidle : r.numOutputPlaceholders = 0) (hunsent : r.Unsent → r.numOutputTokens = 0) :
    Tally cfg len r es :=
  ⟨h, fun hrun ↦ absurd hrun hst, fun _ ↦ hidle, hunsent, fun _ hrun ↦ absurd hrun hst⟩

/-- A request in a waiting queue does not run. -/
theorem ne_running_of_place (h : r.status.place = .waiting) : r.status ≠ .running := by
  intro hrun
  rw [hrun] at h
  cases h

/-- **A scheduling step keeps the tally**, unless it preempts a running request. -/
theorem Tally.schedule (hasync : cfg.asyncScheduling = true) (h : Tally cfg len r es)
    {t : Option ScheduledTokens} (hout : StepOutcome cfg env id r r' t)
    (hkeep : r.status = .running → r'.status = .running) :
    Tally cfg (prefillLenAt len t) (finishedAt cfg currentStep t r')
      (es ++ entriesAt cfg len id t r') := by
  have hp0 := h.placeholders_nonneg
  have hle := h.computed_le
  have hunsent (hr' : r'.Unsent) := h.unsent (hout.unsent hr')
  cases hout with
  | untouched => simpa [finishedAt, entriesAt, prefillLenAt] using h
  | preempted hr => cases hkeep hr
  | promoted hr hp =>
    obtain ⟨st, c, rfl, hst, -, hc, -⟩ := hp.spec hr
    simp only [entriesAt, append_nil]
    have hc : c ≤ r.numTokens + r.numOutputPlaceholders := by omega
    exact Counts.tally { h.toCounts with computed_le := hc } hst
      (h.idle (ne_running_of_place hr)) hunsent
  | loads hr hp hcomputed =>
    obtain ⟨st, c, rfl, -, -, hc, -⟩ := hp.spec hr
    have hc' := computedTokens_cases hcomputed
    simp only [finishedAt, entriesAt, append_nil]
    refine Counts.tally { h.toCounts with computed_le := ?_ } (by rintro ⟨⟩)
      (h.idle (ne_running_of_place hr)) hunsent
    simp only [load, numTokens] at hc' ⊢
    simp only [numTokens] at hle hc
    omega
  | @admitted _ c n _ _ _ hr hp hcomputed _ hn =>
    obtain ⟨st, c', rfl, -, -, -, hnew⟩ := hp.spec hr
    obtain ⟨hnpos, hnle⟩ := numNewTokensWaiting_bounds hn
    have hnle : c + n ≤ r.numTokens := hnle
    have hrun := ne_running_of_place hr
    obtain ⟨sent, heq, hsent, hlen⟩ := h.numTokensSent hrun (c := c') (hp.status_place hr) hnew
    have hzero := h.idle hrun
    simp only [finishedAt, entriesAt, heq]
    refine h.push hasync rfl (fun _ ↦ hsent.trans) (fun hge ↦ ?_) (fun hv ↦ ?_)
    · rw [length_nil]
      omega
    · obtain rfl := hlen hv
      have hes := (h.withoutDrafts hzero).append_singleton (e := mkOutputEntry id
        { r with status := .running, numComputedTokens := c } n [] r.numTokens) rfl
      rcases lt_or_ge (c + n) (r.numTokens + r.numOutputPlaceholders) with hchunk | hchunk
      · exact .of_chunk hasync hchunk (.inl ⟨by show c + n < (r.numTokens : ℤ); omega, rfl, hzero⟩)
      · have hd : (([] : List ℤ).length : ℤ) = c + n - r.numTokens - r.numOutputPlaceholders := by
          rw [length_nil]
          omega
        refine .of_not_chunk hasync hchunk hd le_rfl ?_
        rcases lt_or_ge (c + n) cfg.maxModelLen with hmax | hmax
        · exact .inl hmax
        · exact .inr ⟨by show cfg.maxModelLen ≤ (r.numTokens : ℤ); omega, hes⟩
  | @runs n threshold budget hrun hbudget hn hn0 =>
    have hsame : ({ r with specTokenIds := [] } : Request H E) =
        { r with status := .running, numComputedTokens := r.numComputedTokens
                 specTokenIds := [] } := by
      rw [← hrun]
    have hworker (hv : cfg.useV2ModelRunner = true) : _ ∧ WorkerPhase cfg len
        (afterSchedule cfg currentStep n (draftsScheduled r n) { r with specTokenIds := [] }) _ :=
      (h.worker hv hrun).run hasync hp0 hle hbudget hn hn0
        (mkOutputEntry id { r with specTokenIds := [] } n (draftsScheduled r n)
          (knownTokens cfg none len r)) rfl
    refine h.push hasync hsame (fun hpos hknown ↦ ?_)
      (fun hge ↦ length_draftsScheduled hle hn hge) (fun hv ↦ (hworker hv).2)
    rw [knownTokens, getD_none] at hknown
    rcases hv : cfg.useV2ModelRunner with - | - <;> rw [hv] at hknown
    · exact (add_le_add_left (h.tokens_le_add hv) _).trans hknown
    · exact (hworker hv).1 hpos hknown

end

/-! ### Outputs -/

variable {out : ModelRunnerOutput}

section

variable {r r' : Request H E} {res : OutputResult H E} {hasher : Option (Request H E → List H)}

section

variable (h : Counts cfg r (e :: es)) {toks : List ℕ} (htoks : toks ≠ [])
  (hlen : (toks.length : ℤ) ≤ e.expectedLen)

include h htoks hlen

/-- The placeholders that an output finds, for any part of the drafts accepted. -/
theorem Counts.rejectDrafts :
    ∃ rejected : ℤ, 0 ≤ rejected ∧ rejected + toks.length = e.outputLen ∧
      e.outputLen + total expectedLen es ≤ r.numOutputPlaceholders ∧
      (e.specTokenIds = [] → rejected = 0) ∧
      OneCatVllm.rejectDrafts e toks (r.landed e) =
        { r.landed e with
          numComputedTokens :=
            if 0 < r.numComputedTokens then r.numComputedTokens - rejected
            else r.numComputedTokens
          numOutputPlaceholders := r.numOutputPlaceholders - rejected } := by
  have hpos : 0 < toks.length := length_pos_iff.2 htoks
  obtain ⟨-, -, hexp⟩ := expectedLen_eq (show 0 < e.expectedLen by omega)
  have hle := h.expectedLen_add_le
  have hes : 0 ≤ total expectedLen es := total_expectedLen_nonneg
  have hout : e.outputLen = 1 + e.specTokenIds.length := rfl
  refine ⟨e.specTokenIds.length - (toks.length - 1), by omega, by omega, by omega, fun hnil ↦ ?_,
    ?_⟩
  · rw [hnil, length_nil] at hout ⊢
    omega
  · unfold OneCatVllm.rejectDrafts
    have hp : 0 < (r.landed e).numOutputPlaceholders := by
      show 0 < r.numOutputPlaceholders
      omega
    by_cases hspec : e.specTokenIds = []
    · have hzero : (e.specTokenIds.length : ℤ) - (toks.length - 1) = 0 := by
        rw [hspec, length_nil] at hout ⊢
        omega
      simp [hzero, landed]
    · rw [if_pos ⟨hspec, htoks⟩]
      dsimp only
      rw [if_pos hp]
      rfl

/-- **An output finds its placeholders**: the assertion of `_update_request_with_output` holds,
whatever part of the drafts is accepted. -/
theorem Counts.deliverOutput_isSome :
    (deliverOutput cfg toks (OneCatVllm.rejectDrafts e toks (r.landed e))).isSome = true := by
  obtain ⟨rejected, -, hsum, hle, -, heq⟩ := h.rejectDrafts htoks hlen
  have hes : 0 ≤ total expectedLen es := total_expectedLen_nonneg
  generalize OneCatVllm.rejectDrafts e toks (r.landed e) = r₁ at heq ⊢
  obtain ⟨⟨st, hreq, -⟩, hkept, -⟩ := updateRequestWithOutput_appended cfg toks r₁
  have hplace : (updateRequestWithOutput cfg toks r₁).1.numOutputPlaceholders =
      r.numOutputPlaceholders - rejected := by
    rw [hreq, appendEach_eq, heq]
  have hdiscard : ¬ 0 < r₁.asyncTokensToDiscard := by
    rw [heq]
    show ¬ 0 < r.asyncTokensToDiscard
    rw [h.discard_eq]
    exact lt_irrefl 0
  unfold deliverOutput
  split_ifs
  · rw [if_pos (by omega)]
    rfl
  · rfl

end

/-- **What an output leaves of the counters**, for a request that goes on or stops. -/
structure Took (r r' : Request H E) (e : OutputEntry) : Prop where
  isPrefillChunk : r'.isPrefillChunk = r.isPrefillChunk
  numPreemptions : r'.numPreemptions = r.numPreemptions
  numTokens_le : r.numTokens ≤ r'.numTokens
  /-- The same number of tokens leaves the computed and the expected ones. -/
  moved : ∃ rejected : ℤ, 0 ≤ rejected ∧
    (r'.numTokens : ℤ) + r'.numOutputPlaceholders =
      r.numTokens + r.numOutputPlaceholders - rejected ∧
    (r'.numComputedTokens = r.numComputedTokens - rejected ∨
      r'.numComputedTokens = r.numComputedTokens ∧ r.numComputedTokens ≤ 0) ∧
    (0 < rejected → rejected + 1 ≤ r.numOutputPlaceholders ∧ 0 < e.expectedLen ∧
      e.specTokenIds ≠ [])
  unexpected : r.numOutputPlaceholders = 0 →
    r'.numOutputPlaceholders = 0 ∧ r'.numOutputTokens = r.numOutputTokens

theorem Counts.land (h : Counts cfg r (e :: es)) : Counts cfg (r.landed e) es := by
  have hle := h.expectedLen_add_le
  have hpos := e.expectedLen_nonneg
  refine { h with inFlight_eq := ?_, expected_le := ?_ }
  · show r.numInFlightTokens - e.numScheduledTokens = _
    rw [h.inFlight_eq, total_cons]
    omega
  · show _ ≤ r.numOutputPlaceholders
    omega

theorem Took.land : Took r (r.landed e) e :=
  ⟨rfl, rfl, le_rfl, ⟨0, le_rfl, (sub_zero _).symm, .inl (sub_zero _).symm,
    fun h ↦ absurd h (lt_irrefl 0)⟩, fun h ↦ ⟨h, rfl⟩⟩

/-- **An output moves tokens from the placeholders to the request.** -/
theorem Counts.apply (hasync : cfg.asyncScheduling = true) (h : Counts cfg r (e :: es))
    (hlen : ((out.sampledTokenIds e.reqId).length : ℤ) ≤ e.expectedLen)
    (happ : Applied cfg out e.reqId (r.corrected out e) res) :
    Counts cfg res.request es ∧ Took r res.request e ∧
      (out.sampledTokenIds e.reqId ≠ [] →
        res.request.numOutputPlaceholders < r.numOutputPlaceholders) := by
  by_cases hgen : out.sampledTokenIds e.reqId = []
  · rw [corrected_of_not_sampled hgen] at happ
    have hland := h.land
    cases happ with
    | nothing => exact ⟨hland, .land, fun hne ↦ absurd hgen hne⟩
    | pooled =>
      exact ⟨{ hland with }, { Took.land with }, fun hne ↦ absurd hgen hne⟩
    | dropped hne => exact absurd hgen hne
    | appended hne => exact absurd hgen hne
  obtain ⟨rejected, hrej, hsum, hle, hnil, heq⟩ := h.rejectDrafts hgen hlen
  have hes : 0 ≤ total expectedLen es := total_expectedLen_nonneg
  have hcle := h.computed_le
  rw [corrected, heq] at happ
  cases happ with
  | nothing hgen' => exact absurd hgen' hgen
  | pooled hgen' => exact absurd hgen' hgen
  | dropped _ hd =>
    have hzero : r.asyncTokensToDiscard = 0 := h.discard_eq
    simp [discards, landed, hzero] at hd
  | @appended kept st placeholders _ _ hkept hkeptle _ _ hplaceholders _ =>
    rw [if_pos hasync] at hplaceholders
    dsimp only at hplaceholders
    rw [appendEach_eq]
    have hn : ((r.allTokenIds ++ (out.sampledTokenIds e.reqId).take kept).length : ℤ) =
        r.numTokens + kept := by
      rw [length_append, length_take, min_eq_left hkeptle]
      rfl
    refine ⟨⟨h.discard_eq, h.land.inFlight_eq, ?_, ?_, fun hv ↦ ?_, h.prompt_eq⟩, ⟨rfl, rfl, ?_,
      ⟨rejected, hrej, ?_, ?_, fun hrpos ↦ ?_⟩, fun hp ↦ ?_⟩, fun _ ↦ ?_⟩
    · show _ ≤ placeholders
      omega
    · show (if 0 < r.numComputedTokens then _ else _) ≤
        ((r.allTokenIds ++ (out.sampledTokenIds e.reqId).take kept).length : ℤ) + placeholders
      split_ifs <;> omega
    · show (r.allTokenIds ++ _).length ≤ r.numPromptTokens + (r.outputTokenIds ++ _).length
      have := h.tokens_le hv
      simp only [numTokens, numOutputTokens] at this
      rw [length_append, length_append]
      omega
    · show r.allTokenIds.length ≤ (r.allTokenIds ++ _).length
      rw [length_append]
      omega
    · show ((r.allTokenIds ++ (out.sampledTokenIds e.reqId).take kept).length : ℤ) +
        placeholders = _
      omega
    · split_ifs with hc
      · exact .inl rfl
      · exact .inr ⟨rfl, not_lt.1 hc⟩
    · refine ⟨by omega, by omega, fun hspec ↦ ?_⟩
      rw [hnil hspec] at hrpos
      exact lt_irrefl 0 hrpos
    · -- the tokens were expected
      omega
    · show placeholders < r.numOutputPlaceholders
      omega

/-- The computed tokens stay one short of the expected ones. -/
theorem Took.next_eq (h : Took r r' e)
    (hnext : r.numComputedTokens + 1 = r.numTokens + r.numOutputPlaceholders) :
    r'.numComputedTokens + 1 = r'.numTokens + r'.numOutputPlaceholders := by
  obtain ⟨rejected, hrej, hsum, hc | ⟨hc, hc0⟩, hpos⟩ := h.moved
  · omega
  · -- nothing computed: then one token at most was expected, and nothing is rejected
    rcases hrej.eq_or_lt with rfl | hrpos
    · omega
    · omega

/-- **An output keeps the tally** of a request that goes on. -/
theorem Tally.apply (hasync : cfg.asyncScheduling = true) (h : Tally cfg len r (e :: es))
    (hlen : ((out.sampledTokenIds e.reqId).length : ℤ) ≤ e.expectedLen)
    (happ : Applied cfg out e.reqId (r.corrected out e) res) (hst : res.request.status = r.status) :
    Tally cfg len res.request es := by
  obtain ⟨hcounts, htook, -⟩ := h.toCounts.apply hasync hlen happ
  refine ⟨hcounts, fun hrun hchunk ↦ ?_, fun hrun ↦ ?_, fun hu ↦ ?_, fun hv hrun ↦ ?_⟩
  · rw [htook.isPrefillChunk] at hchunk
    exact htook.next_eq (h.settled (hst ▸ hrun) hchunk)
  · exact (htook.unexpected (h.idle (hst ▸ hrun))).1
  · rw [Unsent, hst, htook.numPreemptions] at hu
    rw [(htook.unexpected (h.idle (ne_running_of_place hu.1))).2, h.unsent hu]
  · have hn := htook.numTokens_le
    cases h.worker hv (hst ▸ hrun) with
    | prefill hc hlen' hzero =>
      -- nothing is expected, so nothing came
      have hzero' := (htook.unexpected hzero).1
      obtain ⟨rejected, hrej, hsum, hcomp, hpos⟩ := htook.moved
      exact .prefill (by omega) (by omega) hzero'
    | decode hlen' hnext hmax =>
      refine .decode (by omega) (htook.next_eq hnext) ?_
      rcases hmax with hmax | ⟨hmax, hes⟩
      · obtain ⟨rejected, hrej, -, hc, -⟩ := htook.moved
        exact .inl (by omega)
      · exact .inr ⟨hmax, hes.tail⟩
    | stuck hmax hlen' hc hchunk hes =>
      obtain ⟨rejected, hrej, hsum, hcomp, hpos⟩ := htook.moved
      exact .stuck hmax (by omega) (by omega) (htook.isPrefillChunk.trans hchunk) hes.tail

/-- **A session takes its next input**: the counters stand for the same steps. -/
theorem Counts.session {update : StreamingUpdate} (h : Counts cfg r es)
    (hup : updateRequestAsSession hasher r update = some r') :
    Counts cfg r' es ∧ r'.numOutputPlaceholders = r.numOutputPlaceholders ∧
      r'.numOutputTokens = 0 := by
  obtain ⟨prompt, hids, rfl⟩ := updateRequestAsSession_eq_some hup
  have hp0 := h.placeholders_nonneg
  have hcle := h.computed_le
  obtain ⟨hnext, htokens⟩ := r.length_extended update (h.prompt_eq prompt hids)
  refine ⟨{ h with computed_le := ?_, tokens_le := fun _ ↦ ?_, prompt_eq := ?_ }, rfl, rfl⟩
  · show r.numComputedTokens ≤ ((r.extended prompt update).allTokenIds.length : ℤ) +
      r.numOutputPlaceholders
    rcases le_or_gt r.numComputedTokens r.numTokens with hc | hc
    · have := r.keptTokenIds_length hc
      omega
    · -- all tokens are kept
      have hkept : r.keptTokenIds.length = r.numTokens := by
        simp only [numTokens] at hc ⊢
        rw [keptTokenIds, length_take, sliceStop]
        split_ifs <;> omega
      omega
  · show (r.extended prompt update).allTokenIds.length ≤
      (r.nextPromptTokenIds prompt update).length + 0
    omega
  · rintro _ ⟨⟩
    rfl

/-- The inputs that wait for a session do not matter. -/
theorem Tally.setQueue (h : Tally cfg len r es) (q : Option (List (Option StreamingUpdate))) :
    Tally cfg len { r with streamingQueue := q } es := by
  refine { h with worker := fun hv hrun ↦ ?_ }
  cases h.worker hv hrun with
  | prefill hc hn hp => exact .prefill hc hn hp
  | decode hn hnext hmax => exact .decode hn hnext hmax
  | stuck hmax hn hc hchunk hes => exact .stuck hmax hn hc hchunk hes

/-- **A new request.** -/
theorem Tally.new (h : new hasher a = some r) : Tally cfg len r [] := by
  have hacc : Accounted cfg len r [] [] := Accounted.new h
  obtain ⟨n, -, rfl⟩ := map_eq_some_iff.1 h
  have hst : (ofNew a n : Request H E).status ≠ .running := by
    simp only [ofNew]
    split_ifs <;> rintro ⟨⟩
  have hcounts : Counts cfg ((ofNew a n : Request H E).updateBlockHashes hasher) [] := by
    refine ⟨hacc.discard_eq, ?_, ?_, hacc.computed_le, fun hv ↦ (hacc.tokens_eq hv).le,
      hacc.prompt_eq⟩
    · rw [updateBlockHashes_eq]
      rfl
    · rw [hacc.placeholders_eq]
      rfl
  refine hcounts.tally ?_ hacc.placeholders_eq fun hu ↦ (hacc.unsent hu).2
  rw [updateBlockHashes_eq]
  exact hst

end

/-! ### Calls -/

section

variable (cfg : SchedulerConfig H E)

/-- **The interleavings** of `schedule` and `update_from_output`, with any number of steps in
flight: a new request takes no id that is in use; no step preempts; the runner returns tokens for
steps that reach the end of what it knows, and one more than the draft tokens at most. -/
def Interleaves (σ : System H E) : Call E → Prop
  | .addRequest a _ =>
    (σ.sched.requests a.requestId).isNone = true → σ.entriesOf a.requestId = []
  | .schedule env => ∀ res ∈ schedule cfg env σ.sched σ.lens,
      ∀ id ∈ σ.sched.running, id ∈ res.1.running
  | .updateFromOutput out => ∀ es ∈ σ.inFlight.head?, ∀ e ∈ es,
      ((out.sampledTokenIds e.reqId).length : ℤ) ≤ e.expectedLen
  | .finishRequests _ _ _ | .resetPrefixCache _ _ | .updateDraftTokenIds _ => False

instance (σ : System H E) : ∀ call, Decidable (Interleaves cfg σ call)
  | .addRequest _ _ => inferInstanceAs (Decidable (_ → _))
  | .schedule _ | .updateFromOutput _ => inferInstanceAs (Decidable (∀ _ ∈ _, ∀ _ ∈ _, _))
  | .finishRequests _ _ _ | .resetPrefixCache _ _ | .updateDraftTokenIds _ => .isFalse id

/-- A session that goes on or waits for its next input stops with its last expected token. -/
def StopDrained (out : ModelRunnerOutput) (id : ℕ) (r : Request H E) : Prop :=
  stopsOn cfg out id r = true → survivesStop out id r = true →
    r.isPooling = false ∧ r.numOutputPlaceholders = 1

instance (out : ModelRunnerOutput) (id : ℕ) (r : Request H E) :
    Decidable (StopDrained cfg out id r) :=
  inferInstanceAs (Decidable (_ → _))

end

/-- **Sessions go on drained**: no KV load has failed, every stop is placed well, and no session
goes on while outputs are expected for it. -/
def SessionsDrained (cfg : SchedulerConfig H E) (σ : System H E) : Call E → Prop
  | .updateFromOutput out => out.invalidBlocks = [] ∧
      ∀ es ∈ σ.inFlight.head?, ∀ e ∈ es, StopPlaced cfg out σ.sched e.reqId ∧
        ∀ r ∈ σ.sched.requests e.reqId, r.isFinished = false → StopDrained cfg out e.reqId r
  | .addRequest _ _ | .schedule _ | .finishRequests _ _ _ | .resetPrefixCache _ _
  | .updateDraftTokenIds _ => True

instance (cfg : SchedulerConfig H E) (σ : System H E) :
    ∀ call, Decidable (SessionsDrained cfg σ call)
  | .updateFromOutput _ => inferInstanceAs (Decidable (_ ∧ _))
  | .addRequest _ _ | .schedule _ | .finishRequests _ _ _ | .resetPrefixCache _ _
  | .updateDraftTokenIds _ => .isTrue trivial

variable {σ : System H E}

theorem SessionsDrained.stopsPlaced (h : SessionsDrained cfg σ call) : StopsPlaced cfg σ call := by
  cases call with
  | updateFromOutput out => exact fun es hes e he _ ↦ (h.2 es hes e he).1
  | _ => trivial

/-! ### The invariant -/

/-- **The invariant**: the queues are in order, and so are the counters of every live request. -/
structure System.Tallied (cfg : SchedulerConfig H E) (σ : System H E) : Prop where
  placed : σ.Placed
  tally : ∀ id r, σ.sched.requests id = some r → r.isFinished = false →
    Tally cfg (σ.lens id) r (σ.entriesOf id)

section

variable {id : ℕ} {r' r : Request H E} {s : Scheduler H E} {recs : List (SessionRecord H E)}

/-- **`add_request` keeps the tally.** -/
theorem System.Tallied.addRequest (h : σ.Tallied cfg) {delayFree : ℕ → Bool}
    (hok : Interleaves cfg σ (.addRequest a delayFree)) (hr : new cfg.hasher a = some r)
    (hs : σ.sched.addRequest cfg r delayFree = some (s, recs)) (hr' : s.requests id = some r')
    (hlive : r'.isFinished = false) : Tally cfg (σ.lens id) r' (σ.entriesOf id) := by
  obtain ⟨hid, -⟩ := new_requestId hr
  obtain ⟨hout, hother⟩ := addRequest_spec hs
  rw [hid] at hout hother
  rcases ne_or_eq id a.requestId with hne | rfl
  · exact h.tally id r' (hother id hne ▸ hr') hlive
  rw [hr'] at hout
  simp only [Interleaves] at hok
  generalize ho : σ.sched.requests a.requestId = o at hout hok
  cases hout with
  | new =>
    rw [hok rfl]
    exact (Tally.new hr).setQueue _
  | queued => exact (h.tally _ _ ho hlive).setQueue _
  | session hst hup hafter =>
    have hold := h.tally _ _ ho (by rw [isFinished, hst]; rfl)
    obtain ⟨hcounts, hp, hzero⟩ := hold.session hafter
    refine hcounts.tally ?_ (hp.trans (hold.idle (by rw [hst]; rintro ⟨⟩))) fun _ ↦ hzero
    rw [updateRequestAsSession_status hafter]
    rintro ⟨⟩
  | closed hplace =>
    cases (isFinished_of_nowhere hplace).symm.trans hlive

section

variable (hasync : cfg.asyncScheduling = true) {ds : List Delivery}

include hasync

/-- **`schedule` keeps the tally.** -/
theorem System.Tallied.schedule (h : σ.Tallied cfg)
    (hok : Interleaves cfg σ (.schedule env)) {lens : PrefillLens} {out : SchedulerOutput}
    (hs : OneCatVllm.schedule cfg env σ.sched σ.lens = some (s, lens, out))
    (hr' : s.requests id = some r') (hlive : r'.isFinished = false) :
    Tally cfg (lens id) r' (entriesIn (σ.inFlight ++ [out]) id) := by
  have hspec := schedule_spec h.placed.sched hs
  have hreq := hspec.request id
  rw [entriesIn_append_singleton]
  generalize hes : out.filter (·.reqId = id) = es at hreq ⊢
  generalize hlen : lens id = len at hreq ⊢
  generalize ho : σ.sched.requests id = o at hreq
  rw [hr'] at hreq
  cases hreq with
  | live hout =>
    rename_i r₁ r₂ t
    have hlive₂ : r₂.isFinished = false := by
      rwa [isFinished, finishedAt_status] at hlive
    refine (h.tally id r₁ ho (hout.isFinished hlive₂)).schedule hasync hout fun hrun ↦ ?_
    -- no step preempts
    have hmem := hok _ hs id ((h.placed.sched.mem_running_iff ho).2 hrun)
    have hst := (hspec.placed.mem_running_iff hr').1 hmem
    rwa [finishedAt_status] at hst

/-- **An entry of a batch keeps the tally of its request.** -/
theorem EntryOutcome.tally (h : Tally cfg len r (e :: es))
    (hlen : ((out.sampledTokenIds e.reqId).length : ℤ) ≤ e.expectedLen)
    (hdrained : StopDrained cfg out e.reqId r)
    (hout : EntryOutcome cfg out [] e (some r) (some r') ds recs) (hlive : r'.isFinished = false) :
    Tally cfg len r' es := by
  have hzero {res : OutputResult H E} (hr : Reached cfg out [] e r res) (hstop : res.stopped = true)
      (hres : res.request.resumable = true)
      (hq : ∀ rest, res.request.streamingQueue ≠ some (none :: rest)) :
      res.request.numOutputPlaceholders = 0 := by
    obtain ⟨hcounts, -, htaken⟩ := h.toCounts.apply hasync hlen hr.applied
    obtain ⟨hstops, hsurvives⟩ := hr.applied.survivesStop hstop hres hq
    obtain ⟨hpool, hone⟩ := hdrained hstops hsurvives
    have hgen : out.sampledTokenIds e.reqId ≠ [] := fun hgen ↦ by
      rw [stopsOn, if_neg (not_not.2 hgen), hpool] at hstops
      cases hstops
    have hnonneg := hcounts.placeholders_nonneg
    have hlt := htaken hgen
    omega
  cases hout with
  | ignored hskip =>
    rcases hskip with hskip | hskip
    · cases hskip
    · cases hskip.symm.trans hlive
  | applied hr hstop =>
    refine h.apply hasync hlen hr.applied ?_
    rw [hr.applied.status_eq hstop, corrected_status]
  | freed hr hstop hplace =>
    cases (isFinished_of_nowhere hplace).symm.trans hlive
  | @nextInput _ _ res _ rest hr hstop hres hq hup =>
    have hcounts := (h.toCounts.apply hasync hlen hr.applied).1
    have hqueued : Counts cfg { res.request with streamingQueue := some rest } es :=
      { hcounts with }
    obtain ⟨hafter, hp, hnil⟩ := hqueued.session hup
    refine hafter.tally ?_ (hp.trans ?_) fun _ ↦ hnil
    · rw [updateRequestAsSession_status hup]
      rintro ⟨⟩
    · exact hzero hr hstop hres fun rest hrest ↦ by rw [hrest] at hq; cases hq
  | awaitsInput hr hstop hres hq =>
    have hcounts := (h.toCounts.apply hasync hlen hr.applied).1
    refine Counts.tally { hcounts with } (by rintro ⟨⟩) ?_ fun hu ↦ absurd rfl hu.2.1
    exact hzero hr hstop hres fun rest hrest ↦ by rw [hrest] at hq; cases hq

/-- **`update_from_output` keeps the tally.** -/
theorem System.Tallied.updateFromOutput (h : σ.Tallied cfg)
    {rest : List SchedulerOutput} (hfl : σ.inFlight = es :: rest)
    (hok : Interleaves cfg σ (.updateFromOutput out))
    (hdrained : SessionsDrained cfg σ (.updateFromOutput out))
    (hs : OneCatVllm.updateFromOutput cfg σ.sched es out = some (s, ds, recs))
    (hr' : s.requests id = some r') (hlive : r'.isFinished = false) :
    Tally cfg (σ.lens id) r' (entriesIn (rest.map (correctEntries out es)) id) := by
  obtain ⟨hinvalid, hstops⟩ := hdrained
  have hhead : es ∈ σ.inFlight.head? := by
    rw [hfl]
    rfl
  have hnodup : (es.map (·.reqId)).Nodup := h.placed.nodup es (hfl ▸ mem_cons_self)
  have hfailed : failedLoads cfg σ.sched out = [] := by simp [failedLoads, hinvalid]
  obtain ⟨s₂, logs, hbatch, -, -, hkept⟩ := updateFromOutput_spec hnodup hs
  rw [hinvalid, foldl_nil, hfailed] at hbatch
  rw [entriesIn_correctEntries]
  refine Tally.correctEntries ?_ out es
  obtain ⟨e, he, rfl, r, _, _, hr, hout⟩ | ⟨hne, hr⟩ :=
    hbatch.eq_some ((hkept id).eq_some hr' hlive)
  · have hlive₀ := (hout.of_live hlive).1
    have htally := h.tally _ r hr hlive₀
    rw [entriesOf, hfl, entriesIn_cons, filter_reqId hnodup he] at htally
    exact hout.tally hasync htally (hok es hhead _ he) ((hstops es hhead _ he).2 r hr hlive₀) hlive
  · have htally := h.tally id r' hr hlive
    rwa [entriesOf, hfl, entriesIn_cons,
      filter_eq_nil_iff.2 fun e he ↦ by simpa using hne e he] at htally

/-- **One call keeps the invariant.** -/
theorem System.Tallied.step {σ' : System H E} (h : σ.Tallied cfg)
    (hok : Interleaves cfg σ call ∧ SessionsDrained cfg σ call)
    (hstep : step cfg σ call = some σ') : σ'.Tallied cfg := by
  obtain ⟨hok, hdrained⟩ := hok
  have hplaced := h.placed.step hdrained.stopsPlaced hstep
  cases call with
  | addRequest a delayFree =>
    obtain ⟨r, s, recs, hr, hadd, rfl⟩ := step_addRequest hstep
    exact ⟨hplaced, fun id r' hr' hlive ↦ h.addRequest hok hr hadd hr' hlive⟩
  | schedule env =>
    obtain ⟨⟨s, lens, out⟩, hsched, rfl⟩ := map_eq_some_iff.1 hstep
    exact ⟨hplaced, fun id r' hr' hlive ↦ h.schedule hasync hok hsched hr' hlive⟩
  | updateFromOutput out =>
    obtain ⟨es, rest, s, ds, recs, hfl, hout, rfl⟩ := step_updateFromOutput hstep
    exact ⟨hplaced, fun id r' hr' hlive ↦
      h.updateFromOutput hasync hfl hok hdrained hout hr' hlive⟩
  | finishRequests ids status delayFree => exact hok.elim
  | resetPrefixCache resetRunningRequests cacheReset => exact hok.elim
  | updateDraftTokenIds drafts => exact hok.elim

theorem System.Tallied.of_run
    (h : Run cfg (fun σ call ↦ Interleaves cfg σ call ∧ SessionsDrained cfg σ call) σ) :
    σ.Tallied cfg :=
  Run.invariant h ⟨placed_init, fun _ _ h ↦ absurd h nofun⟩
    fun hσ hok hstep ↦ hσ.step hasync hok hstep

end

end

/-! ### The counters of running requests -/

/-- **The counters of a running request are right.** -/
structure TokensCounted (cfg : SchedulerConfig H E) (σ : System H E) (id : ℕ) (r : Request H E) :
    Prop where
  settled : r.isPrefillChunk = false →
    r.numComputedTokens + 1 = r.numTokens + r.numOutputPlaceholders
  nonneg : 0 ≤ r.numOutputPlaceholders
  inFlight_eq : r.numInFlightTokens = ((σ.entriesOf id).map (·.numScheduledTokens)).sum
  /-- The tokens of the next output, however many drafts it accepts, leave a number of placeholders
  that is not negative: the assertion of `_update_request_with_output` holds. -/
  delivers : ∀ es ∈ σ.inFlight.head?, ∀ e ∈ es, e.reqId = id → ∀ toks : List ℕ, toks ≠ [] →
    (toks.length : ℤ) ≤ e.expectedLen →
    (deliverOutput cfg toks (rejectDrafts e toks (r.landed e))).isSome = true

/-- **Token accounting**: in a run of `schedule` and `update_from_output` in which sessions go on
drained, the counters of every running request are right. -/
theorem tokensCounted_of_run {cfg : SchedulerConfig H E} (hasync : cfg.asyncScheduling = true)
    {σ : System H E}
    (h : Run cfg (fun σ call ↦ Interleaves cfg σ call ∧ SessionsDrained cfg σ call) σ) :
    ∀ id ∈ σ.sched.running, ∀ r, σ.sched.requests id = some r → TokensCounted cfg σ id r := by
  intro id hid r hr
  have hinv := Tallied.of_run hasync h
  have hrun := (hinv.placed.sched.mem_running_iff hr).1 hid
  have htally := hinv.tally id r hr (by rw [isFinished, hrun]; rfl)
  refine ⟨htally.settled hrun, htally.placeholders_nonneg, htally.inFlight_eq,
    fun es hes e he heq toks htoks hlen ↦ ?_⟩
  obtain ⟨rest, hfl⟩ : ∃ rest, σ.inFlight = es :: rest := by
    rcases hl : σ.inFlight with - | ⟨es', rest⟩ <;> rw [hl] at hes
    · cases hes
    · exact ⟨rest, by rw [some.inj hes]⟩
  have hnodup : (es.map (·.reqId)).Nodup := hinv.placed.nodup es (hfl ▸ mem_cons_self)
  subst heq
  have hcounts := htally.toCounts
  rw [entriesOf, hfl, entriesIn_cons, filter_reqId hnodup he] at hcounts
  exact hcounts.deliverOutput_isSome htoks hlen

/-- A session with two steps in flight and its next input in the queue. The output of the first step
stops it, and it goes on before the output of the second one has arrived. -/
def stoppedEarly : List (Call ℕ) :=
  [.addRequest (shortRequest true) fun _ ↦ false, .schedule {},
    .addRequest (shortRequest true) fun _ ↦ false, .schedule {}, .sampled [7], .schedule {},
    .sampled [5]]

/-- The configuration with either runner. -/
def runnerConfig (v2 : Bool) : SchedulerConfig ℕ ℕ :=
  { preemptionConfig with useV2ModelRunner := v2 }

/-- The calls interleave, and after them the tokens of the running request are not counted. -/
def EndsUncounted (cfg : SchedulerConfig ℕ ℕ) (calls : List (Call ℕ)) : Prop :=
  Allowed (step cfg) (Interleaves cfg) calls init ∧ ∃ σ r, exec (step cfg) calls init = some σ ∧
    0 ∈ σ.sched.running ∧ σ.sched.requests 0 = some r ∧ ¬ TokensCounted cfg σ 0 r

/-- Either runner samples at the end of the new input, and the scheduler, which still expects the
token of the second step behind it, takes that step for a prefill chunk: there is no placeholder
left for its token. -/
theorem not_tokensCounted_stoppedEarly :
    EndsUncounted (runnerConfig false) stoppedEarly ∧
      EndsUncounted (runnerConfig true) stoppedEarly := by
  have h (v2 : Bool) : EndsUncounted (runnerConfig v2) stoppedEarly := by
    refine ⟨by revert v2; decide, ?_⟩
    obtain ⟨σ, hσ, hmem, r, hr, es, hes, e, he, heq, hlen, hnone⟩ : ∃ σ ∈ exec
        (step (runnerConfig v2)) stoppedEarly init,
        0 ∈ σ.sched.running ∧ ∃ r ∈ σ.sched.requests 0, ∃ es ∈ σ.inFlight.head?, ∃ e ∈ es,
          e.reqId = 0 ∧ (([5] : List ℕ).length : ℤ) ≤ e.expectedLen ∧
          (deliverOutput (runnerConfig v2) [5] (rejectDrafts e [5] (r.landed e))).isSome =
            false := by
      revert v2
      decide
    refine ⟨σ, r, hσ, hmem, hr, fun hcounted ↦ ?_⟩
    have := hcounted.delivers es hes e he heq [5] nofun hlen
    exact absurd (this.symm.trans hnone) nofun
  exact ⟨h false, h true⟩

/-- A request with two draft tokens in every step; the outputs of the first two steps arrive late,
and the second one accepts one draft. -/
def draftsInFlight : List (Call ℕ) :=
  [.addRequest (shortRequest false) fun _ ↦ false, .schedule {}, .schedule {}, .schedule {},
    .sampled [5], .sampled [5, 6]]

theorem tokensCounted_draftsInFlight :
    ∃ σ r, exec (step { preemptionConfig with numSpecTokens := 2 })
        draftsInFlight init = some σ ∧ σ.sched.requests 0 = some r ∧
      r.isPrefillChunk = false ∧ r.numOutputPlaceholders = 3 ∧
      TokensCounted { preemptionConfig with numSpecTokens := 2 } σ 0 r := by
  obtain ⟨σ, hσ, hmem, r, hr, hchunk, hplaceholders⟩ : ∃ σ ∈ exec
      (step { preemptionConfig with numSpecTokens := 2 }) draftsInFlight init,
      0 ∈ σ.sched.running ∧ ∃ r ∈ σ.sched.requests 0,
        r.isPrefillChunk = false ∧ r.numOutputPlaceholders = 3 := by
    decide
  exact ⟨σ, r, hσ, hr, hchunk, hplaceholders,
    tokensCounted_of_run rfl (Run.of_exec .start (by decide) hσ) 0 hmem r hr⟩

end OneCatVllm
