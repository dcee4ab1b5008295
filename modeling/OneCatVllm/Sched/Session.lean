import OneCatVllm.Sched.State

/-!
# Stopping and streaming sessions

What happens to one request when tokens are appended to it (`check_stop`,
`_update_request_with_output`) and when a streaming session goes on with its next input
(`_update_request_as_session`).
-/

namespace OneCatVllm

variable {H E : Type}

/-! ### Stop conditions -/

/-- `_has_repeating_pattern`, on the tokens in reverse order. -/
def hasRepeatingPattern (rev : List ℕ) (patternLen minCount : ℕ) : Bool :=
  (List.range patternLen).all fun n ↦
    (List.range (minCount - 1)).all fun m ↦ rev[patternLen * (m + 1) + n]? == rev[n]?

/-- The loop of `check_sequence_repetition` over the pattern lengths from `len` on. -/
def repetitionLoop (tokenIds : List ℕ) (minCount : ℕ) : ℕ → ℕ → Bool
  | 0, _ => false
  | fuel + 1, len =>
    if tokenIds.length < len * minCount then false
    else if hasRepeatingPattern tokenIds.reverse len minCount then true
    else repetitionLoop tokenIds minCount fuel (len + 1)

/-- `check_sequence_repetition`. -/
def checkSequenceRepetition (tokenIds : List ℕ) (params : RepetitionDetectionParams) : Bool :=
  let minSize := if params.minPatternSize ≤ 0 then 1 else params.minPatternSize
  if params.maxPatternSize ≤ 0 ∨ params.minCount < 2 ∨ params.maxPatternSize < minSize then false
  else
    repetitionLoop tokenIds params.minCount.toNat (params.maxPatternSize - minSize + 1).toNat
      minSize.toNat

/-- `check_stop`: the finished status that the last token leads to, if any. -/
def checkStop (maxModelLen : ℤ) (r : Request H E) : Option RequestStatus :=
  let p := r.samplingParams
  if r.numOutputTokens < p.minTokens then none
  else
    match r.outputTokenIds.getLast? with
    | none => none
    | some last =>
      if p.eosTokenId = some last then some .finishedStopped
      else if last ∈ p.stopTokenIds then some .finishedStopped
      else if maxModelLen ≤ r.numTokens ∨ r.maxTokens ≤ r.numOutputTokens then
        some .finishedLengthCapped
      else if p.repetitionDetection.any (checkSequenceRepetition r.outputTokenIds) then
        some .finishedRepetition
      else none

/-- `Scheduler._update_request_with_output`: append the tokens one by one until one of them stops
the request. Returns the request, the number of tokens kept and whether it stopped. -/
def updateRequestWithOutput (cfg : SchedulerConfig H E) :
    List ℕ → Request H E → Request H E × ℕ × Bool
  | [], r => (r, 0, false)
  | t :: ts, r =>
    let r' := r.appendOutputTokenIds cfg.hasher [t]
    match checkStop cfg.maxModelLen r' with
    | some status => ({ r' with status := status }, 1, true)
    | none =>
      let res := updateRequestWithOutput cfg ts r'
      (res.1, res.2.1 + 1, res.2.2)

/-! ### Session updates -/

/-- The end of a Python slice `[:c]` of a list of length `n`. -/
def sliceStop (n : ℕ) (c : ℤ) : ℕ := if c < 0 then (n + c).toNat else min c.toNat n

/-- `_update_request_as_session`, as far as the request is concerned. -/
def updateRequestAsSession (hasher : Option (Request H E → List H)) (session : Request H E)
    (update : StreamingUpdate) : Option (Request H E) :=
  match session.promptTokenIds with
  | none => none
  | some prompt =>
    let kept := session.allTokenIds.take
      (sliceStop session.allTokenIds.length session.numComputedTokens)
    let newIds := update.promptTokenIds.getD []
    let prompt' := prompt ++ kept.drop session.numPromptTokens ++ newIds
    some
      { Request.updateBlockHashes hasher
          { session with
            outputTokenIds := []
            allTokenIds := kept ++ newIds
            promptTokenIds := some prompt'
            mmFeatures := session.mmFeatures ++ update.mmFeatures.map (·.shift kept.length) } with
        numPromptTokens := prompt'.length
        arrivalTime := update.arrivalTime
        samplingParams := update.samplingParams
        status := .waiting }

/-- A session update that took place: the request before it, the update, the request after it. -/
structure SessionRecord (H E : Type) where
  before : Request H E
  update : StreamingUpdate
  after : Request H E

/-- The scheduler's part of `_update_request_as_session`. -/
def Scheduler.sessionUpdated (s : Scheduler H E) (before : Request H E) : Scheduler H E :=
  if before.status = .waitingForStreamingReq then
    { s with numWaitingForStreamingInput := s.numWaitingForStreamingInput - 1 }
  else s

end OneCatVllm
