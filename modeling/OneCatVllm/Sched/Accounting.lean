import Mathlib.Tactic.Linarith
import OneCatVllm.Lib.Intervals
import OneCatVllm.Sched.OutputSpec
import OneCatVllm.Sched.StepSpec
import OneCatVllm.Sched.System

/-!
# Accounting for outputs in flight

With asynchronous scheduling several steps of a request may be in flight. The scheduler keeps a
number of **output placeholders** for the tokens it still expects, and after a forced cache reset a
number of outputs to **discard**. `Accounted` says what these counters stand for: the steps in
flight that will return tokens are some stale ones, to be discarded, followed by fresh ones, whose
positions are contiguous from the end of the request's tokens, and the placeholders are exactly the
tokens that the fresh ones may bring.

The invariant is kept by every transition of a request: by a scheduling step (`Accounted.schedule`),
by an output that arrives, by a forced reset. Each lemma names what it needs; the needs add up to
the conditions under which outputs are delivered in place.
-/

namespace OneCatVllm

open Intervals List Nat Option OutputEntry Request TokenLimit

variable {H E : Type}

/-! ### The invariant -/

namespace OutputEntry

/-- The number of tokens an entry may bring. -/
def outputLen (e : OutputEntry) : ℤ := 1 + e.numDrafts

theorem outputLen_pos (e : OutputEntry) : 0 < e.outputLen := by
  unfold outputLen
  omega

end OutputEntry

/-- **The accounts of a request**, with the steps in flight that will return tokens for it and the
number of tokens that the worker knows. -/
structure Accounted (cfg : SchedulerConfig H E) (len : ℤ) (r : Request H E)
    (stale fresh : List OutputEntry) : Prop where
  stale_marked : ∀ e ∈ stale, e.stale = true ∧ e.specTokenIds = []
  fresh_marked : ∀ e ∈ fresh, e.stale = false
  discard_eq : r.asyncTokensToDiscard = stale.length
  contiguous : Contiguous pos outputLen r.numTokens fresh
  placeholders_eq : r.numOutputPlaceholders = total outputLen fresh
  computed_le : r.numComputedTokens ≤ r.numTokens + r.numOutputPlaceholders
  tokens_eq : cfg.useV2ModelRunner = false → r.numTokens = r.numPromptTokens + r.numOutputTokens
  prompt_eq : ∀ prompt ∈ r.promptTokenIds, prompt.length = r.numPromptTokens
  idle : r.status = .waitingForStreamingReq → stale = [] ∧ fresh = []
  unsent : r.Unsent → fresh = [] ∧ r.numOutputTokens = 0
  /-- The V2 runner is in the prefill it was sent, or has sampled for all tokens but the last. -/
  worker : cfg.useV2ModelRunner = true → r.status = .running →
    r.numComputedTokens < cfg.maxModelLen ∧
      ((r.numComputedTokens < len ∧ r.numTokens = len ∧ r.numOutputPlaceholders = 0) ∨
        (len ≤ r.numTokens ∧ r.numComputedTokens + 1 = r.numTokens + r.numOutputPlaceholders))

/-- **A request can be sent** to the worker. The V2 runner samples at the end of the tokens it gets,
so no more may be expected for it, and they have to fit. The V1 runner has no room for more tokens
in flight than the prompt has. -/
def Sendable (cfg : SchedulerConfig H E) (r : Request H E) : Prop :=
  (cfg.useV2ModelRunner = true →
    r.numOutputPlaceholders = 0 ∧ (r.numTokens : ℤ) < cfg.maxModelLen) ∧
  (cfg.useV2ModelRunner = false → r.numOutputPlaceholders ≤ r.numPromptTokens)

instance (cfg : SchedulerConfig H E) (r : Request H E) : Decidable (Sendable cfg r) :=
  inferInstanceAs (Decidable (_ ∧ _))

variable {cfg : SchedulerConfig H E} {r : Request H E} {len : ℤ}

theorem Accounted.placeholders_nonneg
    {stale fresh : List OutputEntry} (h : Accounted cfg len r stale fresh) :
    0 ≤ r.numOutputPlaceholders := by
  rw [h.placeholders_eq]
  exact total_nonneg fun e _ ↦ e.outputLen_pos.le

/-! ### Numbers of tokens -/

variable {env : ScheduleEnv} {id : ℕ}

section

variable {threshold budget computed n : ℤ}

theorem TokenLimit.cap_le_of_nonneg (l : TokenLimit) {m : ℤ} (h : m ≤ n) (hn : 0 ≤ n) :
    l.cap m ≤ n :=
  (l.cap_le m).trans (max_le h hn)

/-- A running request gets at most the tokens that are left to compute. -/
theorem numNewTokensRunning_le (h : r.numComputedTokens ≤ r.numTokens + r.numOutputPlaceholders) :
    numNewTokensRunning cfg env threshold budget id r ≤
      r.numTokensWithSpec + r.numOutputPlaceholders - r.numComputedTokens := by
  have hspec : (r.numTokens : ℤ) ≤ r.numTokensWithSpec := by
    simp [numTokens, numTokensWithSpec]
  have hraw : 0 ≤ (r.numTokensWithSpec : ℤ) + r.numOutputPlaceholders - r.numComputedTokens := by
    omega
  refine cap_le_of_nonneg _ ((min_le_left _ _).trans ?_) hraw
  refine cap_le_of_nonneg _ ((min_le_left _ _).trans ?_) hraw
  split_ifs with h
  · exact h.2.le
  · exact le_rfl

/-- It stays below the maximal length. -/
theorem numNewTokensRunning_lt (h : r.numComputedTokens < cfg.maxModelLen) :
    r.numComputedTokens + numNewTokensRunning cfg env threshold budget id r < cfg.maxModelLen := by
  have hle : numNewTokensRunning cfg env threshold budget id r ≤
      cfg.maxModelLen - 1 - r.numComputedTokens :=
    cap_le_of_nonneg _ (min_le_right _ _) (by omega)
  omega

/-- And it does not get a negative number of them. -/
theorem numNewTokensRunning_nonneg (hbudget : 0 < budget)
    (h : r.numComputedTokens ≤ r.numTokens + r.numOutputPlaceholders)
    (hlt : r.numComputedTokens < cfg.maxModelLen) :
    0 ≤ numNewTokensRunning cfg env threshold budget id r := by
  have hspec : (r.numTokens : ℤ) ≤ r.numTokensWithSpec := by
    simp [numTokens, numTokensWithSpec]
  refine cap_nonneg _ _ (le_min (cap_nonneg _ _ (le_min ?_ hbudget.le)) ?_)
  · split_ifs with h
    · exact h.1.le
    · omega
  · omega

/-- A waiting request gets some tokens, and at most those it has. -/
theorem numNewTokensWaiting_bounds
    (h : numNewTokensWaiting cfg env threshold budget id r computed = some (some n)) :
    0 < n ∧ computed + n ≤ r.numTokens := by
  unfold numNewTokensWaiting at h
  dsimp only at h
  generalize hm : (if 0 < threshold ∧ threshold < (r.numTokens : ℤ) - computed then threshold
    else (r.numTokens : ℤ) - computed) = m at h
  split_ifs at h with h₁ h₂ h₃ h₄ h₅
  · simp at h
  · simp at h
  · exact absurd rfl h₄
  · simp at h
  · obtain rfl := some.inj (some.inj h)
    rw [not_le] at h₂
    have hp := cap_nonneg (env.limitPrefill id) _ h₂.le
    have hle := cap_le_of_nonneg (env.limitPrefill id) (min_le_left m budget)
      (h₂.le.trans (min_le_left m budget))
    have hi := cap_nonneg (env.limitInputs id) _ hp
    have hle' := cap_le_of_nonneg (env.limitInputs id) le_rfl hp
    omega

end

/-! ### Scheduling -/

variable {r' : Request H E} {stale fresh : List OutputEntry}

section

variable {currentStep : ℕ} {spec drafts : List ℤ} {st : RequestStatus} {c : ℤ}

/-- The tokens that count as computed are not more than the request's, unless they were before. -/
theorem computedTokens_cases {external : ℕ} {loadAsync : Bool}
    (h : computedTokens env id r = some (some (c, external, loadAsync))) :
    c ≤ r.numTokens ∨ c = r.numComputedTokens := by
  unfold computedTokens at h
  split_ifs at h with h0
  · rcases hm : env.matchedTokens id with - | ⟨ext, b⟩
    · simp [hm] at h
    · simp only [hm] at h
      split_ifs at h with hle
      simp only [some.injEq, Prod.mk.injEq] at h
      exact .inl (h.1 ▸ hle)
  · simp only [some.injEq, Prod.mk.injEq] at h
    exact .inr h.1.symm

/-- **A request after a step.** The placeholders grow if the step reaches the end of the tokens and
placeholders; the tokens stay the same. -/
theorem afterSchedule_eq (hasync : cfg.asyncScheduling = true) (n : ℤ) (spec : List ℤ) :
    ∃ placeholders drafts step, afterSchedule cfg currentStep n spec r =
      { r with
        numComputedTokens := r.numComputedTokens + n
        numInFlightTokens := r.numInFlightTokens + n
        isPrefillChunk := r.numComputedTokens + n < (r.numTokens : ℤ) + r.numOutputPlaceholders
        numOutputPlaceholders := placeholders
        specTokenIds := drafts
        nextDecodeEligibleStep := step } ∧
      placeholders =
        if r.numComputedTokens + n < (r.numTokens : ℤ) + r.numOutputPlaceholders then
          r.numOutputPlaceholders
        else r.numOutputPlaceholders + (1 + spec.length) := by
  rw [afterSchedule, if_pos hasync]
  by_cases h : r.numComputedTokens + n < (r.numTokens : ℤ) + r.numOutputPlaceholders
  · exact ⟨_, _, _, if_pos (decide_eq_true h), (if_pos h).symm⟩
  · exact ⟨_, _, _, if_neg (mt of_decide_eq_true h), (if_neg h).symm⟩

/-- **Entries that return tokens.** -/
def sampling (es : List OutputEntry) : List OutputEntry := es.filter samples

section

variable (h : Accounted cfg len r stale fresh)

include h

/-- **A scheduled step enters the accounts.** `r₁` is the request that is scheduled with `n` tokens
from `c` on. What matters is that the scheduler and the worker agree about whether the step returns
tokens, and that the draft tokens are those beyond the tokens expected. -/
theorem Accounted.push (hasync : cfg.asyncScheduling = true) {r₁ : Request H E} {n len' : ℤ}
    {known : ℤ} (hr₁ : r₁ = { r with status := st, numComputedTokens := c, specTokenIds := spec })
    (hst : st = .running)
    (hknown : known ≤ c + n ↔ (r.numTokens : ℤ) + r.numOutputPlaceholders ≤ c + n)
    (hdrafts : (r.numTokens : ℤ) + r.numOutputPlaceholders ≤ c + n →
      (drafts.length : ℤ) = c + n - r.numTokens - r.numOutputPlaceholders)
    (hmax : cfg.useV2ModelRunner = true → c + n < cfg.maxModelLen)
    (hlen : cfg.useV2ModelRunner = true → len' ≤ r.numTokens)
    (hprefill : cfg.useV2ModelRunner = true →
      c + n < (r.numTokens : ℤ) + r.numOutputPlaceholders →
      r.numTokens = len' ∧ r.numOutputPlaceholders = 0) :
    Accounted cfg len' (afterSchedule cfg currentStep n drafts r₁) stale
      (fresh ++ sampling [mkOutputEntry id r₁ n drafts known]) := by
  set e := mkOutputEntry id r₁ n drafts known with he
  have hpos : e.pos = c + n - drafts.length := by rw [he, hr₁]; rfl
  have hsamples : e.samples = true ↔ (r.numTokens : ℤ) + r.numOutputPlaceholders ≤ c + n := by
    rw [he, hr₁, ← hknown]
    exact decide_eq_true_iff
  have hlength : e.outputLen = 1 + drafts.length := rfl
  obtain ⟨p, _, _, heq, hp⟩ : ∃ p _ _, _ ∧ _ := afterSchedule_eq hasync n drafts
  rw [heq]
  subst hr₁ hst
  by_cases hle : (r.numTokens : ℤ) + r.numOutputPlaceholders ≤ c + n
  · -- the step returns tokens, for the position after the last one expected
    have hes : sampling [e] = [e] := by simp [sampling, hsamples.2 hle]
    have hp : p = r.numOutputPlaceholders + (1 + drafts.length) := hp.trans (if_neg (not_lt.2 hle))
    have hnext : c + n + 1 = r.numTokens + p := by omega
    rw [hes]
    refine { h with
      fresh_marked := ?_, contiguous := ?_, placeholders_eq := ?_, computed_le := ?_, idle := nofun
      unsent := nofun
      worker := fun hv _ ↦ ⟨hmax hv, .inr ⟨hlen hv, hnext⟩⟩ }
    · intro e' he'
      rcases mem_append.1 he' with he' | he'
      · exact h.fresh_marked e' he'
      · rw [mem_singleton.1 he']
        rfl
    · refine contiguous_append.2 ⟨h.contiguous, ?_, trivial⟩
      show e.pos = r.numTokens + _
      rw [← h.placeholders_eq]
      omega
    · rw [total_append, total_cons, total_nil, ← h.placeholders_eq]
      show p = _
      omega
    · show c + n ≤ r.numTokens + p
      omega
  · have hlt : c + n < (r.numTokens : ℤ) + r.numOutputPlaceholders := not_le.1 hle
    have hes : sampling [e] = [] := by simp [sampling, mt hsamples.1 hle]
    obtain rfl : p = r.numOutputPlaceholders := hp.trans (if_pos hlt)
    rw [hes, append_nil]
    refine { h with computed_le := hlt.le, idle := nofun, unsent := nofun, worker := fun hv _ ↦ ?_ }
    obtain ⟨hlen', hzero⟩ := hprefill hv hlt
    have hlt' : c + n < len' := by omega
    exact ⟨hmax hv, .inl ⟨hlt', hlen', hzero⟩⟩

/-- **The worker agrees** with the scheduler about whether a request that it gets is at its end. -/
theorem Accounted.numTokensSent_le_iff (hsend : Sendable cfg r) {m : ℤ}
    (hunsent : ({ r with status := st } : Request H E).Unsent → r.Unsent)
    (hplace : st.place = .waiting) :
    ({ r with status := st, numComputedTokens := c } : Request H E).numTokensSent cfg ≤ m ↔
      (r.numTokens : ℤ) + r.numOutputPlaceholders ≤ m := by
  have hp0 := h.placeholders_nonneg
  unfold numTokensSent
  rcases hv : cfg.useV2ModelRunner with - | -
  · have htokens : (r.numTokens : ℤ) = r.numPromptTokens + r.numOutputTokens := by
      exact_mod_cast h.tokens_eq hv
    rw [if_neg Bool.false_ne_true]
    dsimp only
    split_ifs with hst
    · subst hst
      obtain ⟨rfl, hzero⟩ := h.unsent (hunsent ⟨hplace, nofun, .inr (.inl rfl)⟩)
      have hp : r.numOutputPlaceholders = 0 := h.placeholders_eq
      rw [htokens, hzero, hp, cast_zero, add_zero, add_zero]
    · have := hsend.2 hv
      show (r.numPromptTokens : ℤ) + min (r.numOutputTokens + r.numOutputPlaceholders) r.numTokens ≤
        m ↔ _
      omega
  · rw [(hsend.1 hv).1, add_zero]
    rfl

/-- **A scheduling step keeps the accounts**, if it sends only requests that can be sent. -/
theorem Accounted.schedule (hasync : cfg.asyncScheduling = true) {t : Option ScheduledTokens}
    (hout : StepOutcome cfg env id r r' t)
    (hsend : (∃ t' ∈ t, t'.sent.isSome = true) → Sendable cfg r) :
    Accounted cfg (prefillLenAt len t) (finishedAt cfg currentStep t r') stale
      (fresh ++ sampling (entriesAt cfg len id t r')) := by
  have hp0 := h.placeholders_nonneg
  have hle := h.computed_le
  have hunsent (hr' : r'.Unsent) := h.unsent (hout.unsent hr')
  cases hout with
  | untouched => simpa [finishedAt, entriesAt, prefillLenAt, sampling] using h
  | preempted =>
    simp only [finishedAt, entriesAt, sampling, filter_nil, append_nil]
    have hc : 0 ≤ (r.numTokens : ℤ) + r.numOutputPlaceholders := by omega
    exact { h with
      computed_le := hc, idle := by rintro ⟨⟩, unsent := hunsent, worker := by rintro - ⟨⟩ }
  | promoted hr hp =>
    obtain ⟨st, c, rfl, hst, hst', hc, -⟩ := hp.spec hr
    simp only [finishedAt, entriesAt, sampling, filter_nil, append_nil]
    have hc : c ≤ r.numTokens + r.numOutputPlaceholders := by omega
    exact { h with
      computed_le := hc, idle := fun hw ↦ absurd hw hst', unsent := hunsent
      worker := fun _ hrun ↦ absurd hrun hst }
  | loads hr hp hcomputed =>
    obtain ⟨st, c, rfl, -, -, hc, -⟩ := hp.spec hr
    have hc' := computedTokens_cases hcomputed
    simp only [finishedAt, entriesAt, sampling, filter_nil, append_nil]
    refine { h with
      computed_le := ?_, idle := by rintro ⟨⟩, unsent := hunsent, worker := by rintro - ⟨⟩ }
    simp only [load, numTokens] at hc' ⊢
    simp only [numTokens] at hle hc
    omega
  | admitted hr hp hcomputed _ hn =>
    obtain ⟨st, c, rfl, -, -, -, hnew⟩ := hp.spec hr
    obtain ⟨hnpos, hnle⟩ := numNewTokensWaiting_bounds hn
    have hsend := hsend ⟨_, rfl, rfl⟩
    simp only [finishedAt, entriesAt]
    refine h.push hasync rfl rfl (h.numTokensSent_le_iff hsend hnew (hp.status_place hr))
      (fun hge ↦ ?_) (fun hv ↦ ?_) (fun hv ↦ ?_) (fun hv _ ↦ ?_)
    · simp only [numTokens, length_nil, cast_zero] at hnle hge ⊢
      omega
    · obtain ⟨-, hlt⟩ := hsend.1 hv
      exact hnle.trans_lt hlt
    · exact (if_pos hv).le
    · exact ⟨(if_pos hv).symm, (hsend.1 hv).1⟩
  | @runs n threshold budget hrun hbudget hn hn0 =>
    have hnle : n ≤ _ := hn ▸ numNewTokensRunning_le hle
    have hworker (hv : cfg.useV2ModelRunner = true) := h.worker hv hrun
    have hnpos (hv : cfg.useV2ModelRunner = true) : 0 < n := by
      have hnn : 0 ≤ numNewTokensRunning cfg env threshold budget id r :=
        numNewTokensRunning_nonneg hbudget hle (hworker hv).1
      omega
    simp only [finishedAt, entriesAt, prefillLenAt]
    have hsame : ({ r with specTokenIds := [] } : Request H E) =
        { r with status := r.status, numComputedTokens := r.numComputedTokens
                 specTokenIds := [] } := rfl
    refine h.push hasync hsame hrun ?_ (fun hge ↦ ?_) (fun hv ↦ ?_) (fun hv ↦ ?_) (fun hv hlt ↦ ?_)
    · rw [knownTokens, getD_none]
      rcases hv : cfg.useV2ModelRunner with - | -
      · have htokens : (r.numTokens : ℤ) = r.numPromptTokens + r.numOutputTokens := by
          exact_mod_cast h.tokens_eq hv
        rw [if_neg Bool.false_ne_true, htokens]
        rfl
      · have := hnpos hv
        rw [if_pos rfl]
        rcases (hworker hv).2 with ⟨-, hlen, hzero⟩ | ⟨hlen, hnext⟩ <;> omega
    · simp only [draftsScheduled, length_take, numTokensWithSpec, numTokens] at hnle hge ⊢
      omega
    · rw [hn]
      exact numNewTokensRunning_lt (hworker hv).1
    · rcases (hworker hv).2 with ⟨-, hlen, -⟩ | ⟨hlen, -⟩
      · exact hlen.ge
      · exact hlen
    · have := hnpos hv
      rcases (hworker hv).2 with ⟨-, hlen, hzero⟩ | ⟨hlen, hnext⟩
      · exact ⟨hlen, hzero⟩
      · omega

end

end

/-! ### Outputs -/

section

variable {out : ModelRunnerOutput} {e : OutputEntry} {res : OutputResult H E}
  {hasher : Option (Request H E → List H)}

theorem numRejected_eq (hgen : out.sampledTokenIds e.reqId ≠ []) :
    numRejected out e = e.outputLen - (out.sampledTokenIds e.reqId).length := by
  simp only [numRejected, if_neg hgen, outputLen]
  omega

section

variable (hle : ((out.sampledTokenIds e.reqId).length : ℤ) ≤ e.outputLen)

include hle

/-- An entry without draft tokens rejects none. -/
theorem numRejected_of_nil (hspec : e.specTokenIds = []) : numRejected out e = 0 := by
  by_cases hgen : out.sampledTokenIds e.reqId = []
  · exact if_pos hgen
  · have hpos : 0 < (out.sampledTokenIds e.reqId).length := length_pos_iff.2 hgen
    rw [numRejected_eq hgen]
    simp only [outputLen, numDrafts, hspec, length_nil, cast_zero] at hle ⊢
    omega

/-- Rolling back the rejected draft tokens, for an output of one to all of the tokens that the entry
may bring. -/
theorem corrected_eq (hgen : out.sampledTokenIds e.reqId ≠ []) :
    r.corrected out e = { r with
        numInFlightTokens := r.numInFlightTokens - e.numScheduledTokens
        numComputedTokens :=
          if 0 < r.numComputedTokens then r.numComputedTokens - numRejected out e
          else r.numComputedTokens
        numOutputPlaceholders :=
          if 0 < r.numOutputPlaceholders then r.numOutputPlaceholders - numRejected out e
          else r.numOutputPlaceholders } := by
  unfold corrected rejectDrafts
  by_cases hspec : e.specTokenIds = []
  · rw [if_neg (fun h ↦ h.1 hspec), numRejected_of_nil hle hspec]
    simp [landed]
  · rw [if_pos ⟨hspec, hgen⟩, numRejected, if_neg hgen]
    rfl

/-- **A stale output is dropped.** -/
theorem Accounted.drop (hasync : cfg.asyncScheduling = true)
    (h : Accounted cfg len r (e :: stale) fresh) (hgen : out.sampledTokenIds e.reqId ≠ [])
    (happ : Applied cfg out e.reqId (r.corrected out e) res) :
    res.stopped = false ∧ res.dropped = true ∧ Accounted cfg len res.request stale fresh := by
  obtain ⟨-, hspec⟩ := h.stale_marked e mem_cons_self
  rw [corrected_eq hle hgen, numRejected_of_nil hle hspec] at happ
  simp only [sub_zero, ite_self] at happ
  have hdiscard := h.discard_eq
  rw [length_cons] at hdiscard
  cases happ with
  | nothing hnil => exact absurd hnil hgen
  | pooled hnil => exact absurd hnil hgen
  | dropped =>
    refine ⟨rfl, rfl, { h with stale_marked := ?_, discard_eq := ?_, idle := fun hst ↦ ?_ }⟩
    · exact fun e' he' ↦ h.stale_marked e' (mem_cons_of_mem e he')
    · dsimp only
      omega
    · exact absurd (h.idle hst).1 (cons_ne_nil e stale)
  | appended _ hd =>
    have hpos : 0 < r.asyncTokensToDiscard := by omega
    simp [discards, hasync, hpos] at hd

end

/-- A request with nothing to discard takes the output. -/
theorem Accounted.not_discards (h : Accounted cfg len r [] fresh) :
    discards cfg (r.corrected out e) = false := by
  have hdiscard : (r.corrected out e).asyncTokensToDiscard = r.asyncTokensToDiscard := by
    unfold corrected rejectDrafts
    split_ifs <;> rfl
  simp [discards, hdiscard, h.discard_eq]

theorem correctEntry_pos {e' : OutputEntry}
    (h : numRejected out e ≠ 0 → e'.reqId = e.reqId ∧ e'.epoch = e.epoch) :
    (correctEntry out e e').pos = e'.pos - numRejected out e := by
  unfold correctEntry
  split_ifs with hsame
  · rfl
  · have hzero : numRejected out e = 0 := by
      by_contra hne
      exact hsame (h hne)
    rw [hzero, sub_zero]

theorem correctEntry_outputLen (e' : OutputEntry) :
    (correctEntry out e e').outputLen = e'.outputLen := by
  rw [correctEntry_eq]
  rfl

theorem Accounted.tokens_append (h : Accounted cfg len r stale fresh)
    (hv : cfg.useV2ModelRunner = false) (tokens : List ℕ) :
    (r.allTokenIds ++ tokens).length = r.numPromptTokens + (r.outputTokenIds ++ tokens).length := by
  rw [length_append, length_append, ← add_assoc]
  exact congrArg (· + tokens.length) (h.tokens_eq hv)

section

variable (hasync : cfg.asyncScheduling = true) (h : Accounted cfg len r [] (e :: fresh))
  (hgen : out.sampledTokenIds e.reqId ≠ [])
  (hle : ((out.sampledTokenIds e.reqId).length : ℤ) ≤ e.outputLen)
  (happ : Applied cfg out e.reqId (r.corrected out e) res)

include hasync h hgen hle happ

/-- **A fresh output is appended in place**, and the positions of the steps behind it follow the
draft tokens it rejects. -/
theorem Accounted.append (hstop : res.stopped = false)
    (hshift : numRejected out e ≠ 0 → ∀ e' ∈ fresh, e'.reqId = e.reqId ∧ e'.epoch = e.epoch) :
    Accounted cfg len res.request [] (fresh.map (correctEntry out e)) := by
  have hd : discards cfg (r.corrected out e) = false := h.not_discards
  obtain ⟨hpos, hcont⟩ := h.contiguous
  have hp := h.placeholders_eq
  rw [total_cons] at hp
  have htotal : 0 ≤ total outputLen fresh :=
    total_nonneg fun e' _ ↦ e'.outputLen_pos.le
  have hrej := numRejected_eq hgen
  have hg : 0 < (out.sampledTokenIds e.reqId).length := length_pos_iff.2 hgen
  have hcle := h.computed_le
  rw [corrected_eq hle hgen] at happ hd
  cases happ with
  | nothing hnil => exact absurd hnil hgen
  | pooled hnil => exact absurd hnil hgen
  | dropped _ hd' =>
    cases hd.symm.trans hd'
  | @appended kept st placeholders _ _ _ _ hkept _ hplaceholders _ =>
    obtain ⟨rfl, rfl⟩ := hkept hstop
    rw [if_pos hasync] at hplaceholders
    dsimp only at hplaceholders
    rw [take_length, appendEach_eq]
    have hn : ((r.allTokenIds ++ out.sampledTokenIds e.reqId).length : ℤ) =
        r.numTokens + (out.sampledTokenIds e.reqId).length := by
      rw [length_append]
      rfl
    refine ⟨nofun, fun e' he' ↦ ?_, h.discard_eq, ?_, ?_, ?_, fun hv ↦ ?_, h.prompt_eq,
      fun hst ↦ ?_, fun hu ↦ ?_, fun hv hrun ↦ ?_⟩
    · obtain ⟨e₁, he₁, rfl⟩ := mem_map.1 he'
      rw [correctEntry_eq]
      exact h.fresh_marked e₁ (mem_cons_of_mem e he₁)
    · show Contiguous _ _ ((r.allTokenIds ++ out.sampledTokenIds e.reqId).length : ℤ) _
      have hstart : ((r.allTokenIds ++ out.sampledTokenIds e.reqId).length : ℤ) =
          r.numTokens + e.outputLen - numRejected out e := by
        omega
      rw [hstart]
      exact contiguous_map (fun e' he' ↦ correctEntry_pos fun hne ↦ hshift hne e' he')
        (fun e' _ ↦ correctEntry_outputLen e') hcont
    · show placeholders = _
      rw [total_map fun e' _ ↦ correctEntry_outputLen e']
      omega
    · show (if 0 < r.numComputedTokens then _ else _) ≤
        ((r.allTokenIds ++ out.sampledTokenIds e.reqId).length : ℤ) + placeholders
      split_ifs <;> omega
    · exact h.tokens_append hv _
    · exact absurd (h.idle hst).2 (cons_ne_nil e fresh)
    · exact absurd (h.unsent hu).1 (cons_ne_nil e fresh)
    · -- the V2 runner has sampled already, so the computed tokens are one short of the expected
      show (if 0 < r.numComputedTokens then _ else _) < cfg.maxModelLen ∧
        (_ ∨ (len ≤ ((r.allTokenIds ++ out.sampledTokenIds e.reqId).length : ℤ) ∧
          (if 0 < r.numComputedTokens then _ else _) + 1 =
            ((r.allTokenIds ++ out.sampledTokenIds e.reqId).length : ℤ) + placeholders))
      obtain ⟨hmax, ⟨-, -, hzero⟩ | ⟨hlen, hnext⟩⟩ := h.worker hv hrun
      · omega
      refine ⟨by split_ifs <;> omega, .inr ⟨by omega, ?_⟩⟩
      split_ifs with hc
      · omega
      · -- nothing computed: then nothing but this token was expected, and nothing is rejected
        omega

/-- **A stop at the last expected token** leaves nothing to expect. -/
theorem Accounted.stop (hstop : res.stopped = true) (hone : r.numOutputPlaceholders = 1) :
    fresh = [] ∧ Accounted cfg len res.request [] [] ∧
      res.request.numPromptTokens = r.numPromptTokens ∧
      res.request.numComputedTokens = r.numComputedTokens := by
  have hd : discards cfg (r.corrected out e) = false := h.not_discards
  have hp := h.placeholders_eq
  rw [total_cons] at hp
  have htotal : 0 ≤ total outputLen fresh :=
    total_nonneg fun e' _ ↦ e'.outputLen_pos.le
  have hlenpos := e.outputLen_pos
  have hfresh : fresh = [] := eq_nil_of_total (fun e' _ ↦ e'.outputLen_pos) (by omega)
  have hrej : numRejected out e = 0 := by
    have hg : 0 < (out.sampledTokenIds e.reqId).length := length_pos_iff.2 hgen
    rw [numRejected_eq hgen]
    omega
  refine ⟨hfresh, ?_⟩
  have hcle := h.computed_le
  have hfin := happ.isFinished hstop
  rw [corrected_eq hle hgen, hrej] at happ hd
  simp only [sub_zero, ite_self] at happ hd
  cases happ with
  | nothing hnil => exact absurd hnil hgen
  | pooled hnil => exact absurd hnil hgen
  | dropped _ hd' =>
    cases hd.symm.trans hd'
  | @appended kept st placeholders _ _ hpos hkept _ _ hplaceholders _ =>
    obtain rfl : kept = 1 := by omega
    rw [if_pos hasync] at hplaceholders
    dsimp only at hplaceholders
    have hlen1 : (out.sampledTokenIds e.reqId).take 1 = out.sampledTokenIds e.reqId :=
      take_of_length_le (by omega)
    rw [hlen1, appendEach_eq] at hfin ⊢
    have hst : st ≠ .running ∧ st ≠ .waitingForStreamingReq := by
      constructor <;> rintro rfl <;> cases hfin
    have hplace : st.place ≠ .waiting := fun hplace ↦
      Bool.false_ne_true ((RequestStatus.place_eq_waiting_iff.1 hplace).2.symm.trans hfin)
    refine ⟨⟨nofun, nofun, h.discard_eq, trivial, ?_, ?_, fun hv ↦ ?_, h.prompt_eq,
      fun hw ↦ absurd hw hst.2, fun hu ↦ absurd hu.1 hplace, fun _ hrun ↦ absurd hrun hst.1⟩,
      rfl, rfl⟩
    · show placeholders = 0
      omega
    · show r.numComputedTokens ≤
        ((r.allTokenIds ++ out.sampledTokenIds e.reqId).length : ℤ) + placeholders
      simp only [numTokens] at hcle
      rw [length_append]
      omega
    · exact h.tokens_append hv _

end

/-- The computed tokens are kept. -/
theorem Request.keptTokenIds_length (r : Request H E)
    (h : r.numComputedTokens ≤ r.numTokens) : r.numComputedTokens ≤ r.keptTokenIds.length := by
  simp only [numTokens] at h
  rw [keptTokenIds, length_take, sliceStop]
  split_ifs <;> omega

/-- The next prompt and the tokens of a session: the kept tokens, then the new input. -/
theorem Request.length_extended (r : Request H E) {prompt : List ℕ} (update : StreamingUpdate)
    (h : prompt.length = r.numPromptTokens) :
    (r.nextPromptTokenIds prompt update).length = r.numPromptTokens +
      (r.keptTokenIds.length - r.numPromptTokens) + (update.promptTokenIds.getD []).length ∧
    (r.extended prompt update).allTokenIds.length =
      r.keptTokenIds.length + (update.promptTokenIds.getD []).length := by
  refine ⟨?_, length_append⟩
  simp only [nextPromptTokenIds, length_append, length_drop, h]

/-- **A session takes its next input** when nothing is expected for it. With the V1 runner the
prompt has to be computed, or the request's token count and its prompt part company. -/
theorem Accounted.session {update : StreamingUpdate} (h : Accounted cfg len r [] [])
    (hup : updateRequestAsSession hasher r update = some r')
    (hprompt : cfg.useV2ModelRunner = false → (r.numPromptTokens : ℤ) ≤ r.numComputedTokens) :
    Accounted cfg len r' [] [] := by
  have hp : r.numOutputPlaceholders = 0 := h.placeholders_eq
  have hcle := h.computed_le
  rw [hp] at hcle
  obtain ⟨prompt, hids, rfl⟩ := updateRequestAsSession_eq_some hup
  have hkept := r.keptTokenIds_length hcle
  obtain ⟨hnext, htokens⟩ := r.length_extended update (h.prompt_eq prompt hids)
  refine ⟨nofun, nofun, h.discard_eq, trivial, hp, ?_, fun hv ↦ ?_, ?_, nofun,
    fun _ ↦ ⟨rfl, rfl⟩, fun _ ↦ nofun⟩
  · show r.numComputedTokens ≤ ((r.extended prompt update).allTokenIds.length : ℤ) +
      r.numOutputPlaceholders
    omega
  · show (r.extended prompt update).allTokenIds.length =
      (r.nextPromptTokenIds prompt update).length + 0
    have := hprompt hv
    omega
  · rintro _ ⟨⟩
    rfl

/-- **A new request.** -/
theorem Accounted.new {a : NewRequest E} (h : new hasher a = some r) :
    Accounted cfg len r [] [] := by
  obtain ⟨n, hn, rfl⟩ := map_eq_some_iff.1 h
  have hids (ids) (h : ids ∈ a.promptTokenIds) : ids.length = n := length_of_promptTokenIds hn h
  have htokens : (ofNew a n : Request H E).allTokenIds.length = n := by
    rcases hp : a.promptTokenIds with - | ids
    · simp [ofNew, hp]
    · simpa [ofNew, hp] using hids ids hp
  have hst : (ofNew a n : Request H E).status ≠ .waitingForStreamingReq ∧
      (ofNew a n : Request H E).status ≠ .running := by
    simp only [ofNew]
    split_ifs <;> exact ⟨nofun, nofun⟩
  rw [updateBlockHashes_eq]
  refine ⟨nofun, nofun, rfl, trivial, rfl, ?_, fun _ ↦ htokens, hids, fun hw ↦ absurd hw hst.1,
    fun _ ↦ ⟨rfl, rfl⟩, fun _ hrun ↦ absurd hrun hst.2⟩
  show (0 : ℤ) ≤ ((ofNew a n : Request H E).allTokenIds.length : ℤ) + 0
  omega

/-- **A forced reset** makes everything expected stale. -/
theorem Accounted.reset (h : Accounted cfg len r [] fresh)
    (hspec : ∀ e ∈ fresh, e.specTokenIds = []) :
    Accounted cfg len
      { r.preempt with asyncTokensToDiscard := r.numOutputPlaceholders, numOutputPlaceholders := 0 }
      (fresh.map fun e ↦ { e with stale := true }) [] := by
  have htotal : total outputLen fresh = fresh.length := by
    have hone : ∀ e ∈ fresh, e.outputLen = 1 := fun e he ↦ by
      simp [outputLen, numDrafts, hspec e he]
    rw [total, map_congr_left hone]
    simp
  refine ⟨fun e he ↦ ?_, forall_mem_nil _, ?_, trivial, rfl, ?_, h.tokens_eq, h.prompt_eq,
    by rintro ⟨⟩, ?_, by rintro - ⟨⟩⟩
  · obtain ⟨e', he', rfl⟩ := mem_map.1 he
    exact ⟨rfl, hspec e' he'⟩
  · rw [length_map, ← htotal]
    exact h.placeholders_eq
  · show (0 : ℤ) ≤ r.numTokens + 0
    omega
  · rintro ⟨-, -, hzero | hst | hst⟩
    · cases hzero
    · cases hst
    · cases hst

end

end OneCatVllm
