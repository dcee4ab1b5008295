import Mathlib.Data.List.Dedup
import Mathlib.Data.List.Sort

/-!
# Requests

The request record of `vllm/v1/request.py`, with the fields that the scheduler, the block hasher
and the cache manager read or write. One record serves every layer above, as in the source.

Two type parameters are left open. `H` is the type of block hashes: `bytes` in the source, produced
by a hash function that is itself a parameter (`BlockHasher`). `E` is the type of one row of a
`prompt_embeds` tensor.

Counters that the source adjusts by differences (`num_computed_tokens`, the output placeholders,
the tokens in flight) are integers, since nothing in the code keeps them from going below zero.
-/

namespace OneCatVllm

/-! ### Inputs attached to a request -/

/-- `PlaceholderRange`: the prompt positions that one multimodal item occupies. -/
structure PlaceholderRange where
  offset : ℕ
  length : ℕ
  deriving DecidableEq

/-- `MultiModalFeatureSpec`: an item's content identifier and its place in the prompt. -/
structure MultiModalFeatureSpec where
  identifier : String
  mmPosition : PlaceholderRange
  deriving DecidableEq

namespace MultiModalFeatureSpec

/-- The first position of the item. -/
def offset (f : MultiModalFeatureSpec) : ℕ := f.mmPosition.offset

/-- The first position after the item. -/
def stop (f : MultiModalFeatureSpec) : ℕ := f.mmPosition.offset + f.mmPosition.length

/-- The item shifted by `base` positions. -/
def shift (base : ℕ) (f : MultiModalFeatureSpec) : MultiModalFeatureSpec :=
  { f with mmPosition := { f.mmPosition with offset := f.mmPosition.offset + base } }

end MultiModalFeatureSpec

/-- `LoRARequest`: the adapter's name and the integer id the engine gave it. -/
structure LoraRequest where
  loraName : String
  loraIntId : ℕ
  deriving DecidableEq

/-- `RepetitionDetectionParams`. -/
structure RepetitionDetectionParams where
  maxPatternSize : ℤ
  minPatternSize : ℤ
  minCount : ℤ
  deriving DecidableEq

/-- The fields of `SamplingParams` that `check_stop` reads. -/
structure SamplingParams where
  minTokens : ℕ := 0
  eosTokenId : Option ℕ := none
  stopTokenIds : List ℕ := []
  repetitionDetection : Option RepetitionDetectionParams := none
  deriving DecidableEq

/-! ### Status -/

/-- `RequestStatus`, in the order of the source's `IntEnum`. -/
inductive RequestStatus
  | waiting
  | waitingForStructuredOutputGrammar
  | waitingForRemoteKvs
  | waitingForStreamingReq
  | running
  | preempted
  | finishedStopped
  | finishedLengthCapped
  | finishedAborted
  | finishedIgnored
  | finishedError
  | finishedRepetition
  deriving DecidableEq

namespace RequestStatus

/-- `RequestStatus.is_finished`: everything after `PREEMPTED`. -/
def isFinished : RequestStatus → Bool
  | waiting | waitingForStructuredOutputGrammar | waitingForRemoteKvs | waitingForStreamingReq
  | running | preempted => false
  | _ => true

end RequestStatus

/-! ### Streaming updates -/

/-- `StreamingUpdate`: the next input of a streaming session, without its `max_tokens`, which the
update of the session does not read. -/
structure StreamingUpdate where
  mmFeatures : List MultiModalFeatureSpec
  promptTokenIds : Option (List ℕ)
  arrivalTime : ℕ
  samplingParams : SamplingParams
  deriving DecidableEq

/-! ### The request record -/

/-- `Request`. -/
structure Request (H E : Type) where
  requestId : ℕ
  priority : ℤ
  arrivalTime : ℕ
  status : RequestStatus
  maxTokens : ℕ
  samplingParams : SamplingParams
  /-- `pooling_params is not None`. -/
  isPooling : Bool
  useStructuredOutput : Bool
  loraRequest : Option LoraRequest
  cacheSalt : Option String
  promptTokenIds : Option (List ℕ)
  promptEmbeds : Option (List E)
  numPromptTokens : ℕ
  outputTokenIds : List ℕ
  allTokenIds : List ℕ
  numOutputPlaceholders : ℤ
  asyncTokensToDiscard : ℤ
  nextDecodeEligibleStep : ℕ
  numInFlightTokens : ℤ
  specTokenIds : List ℤ
  numComputedTokens : ℤ
  prefixCacheBoundaries : List ℕ
  cacheOutputTokens : Bool
  mmFeatures : List MultiModalFeatureSpec
  isPrefillChunk : Bool
  sharedPrefixBoundary : ℕ
  numPreemptions : ℕ
  blockHashes : List H
  resumable : Bool
  /-- `None` before the first update arrives; an entry `None` means the session's last input. -/
  streamingQueue : Option (List (Option StreamingUpdate))

/-- What a client sends: the arguments of `Request.__init__`. -/
structure NewRequest (E : Type) where
  requestId : ℕ
  promptTokenIds : Option (List ℕ)
  promptEmbeds : Option (List E) := none
  mmFeatures : List MultiModalFeatureSpec := []
  loraRequest : Option LoraRequest := none
  cacheSalt : Option String := none
  priority : ℤ := 0
  arrivalTime : ℕ := 0
  maxTokens : ℕ := 1
  samplingParams : SamplingParams := {}
  isPooling : Bool := false
  useStructuredOutput : Bool := false
  /-- `extra_args["prefix_cache_boundaries"]`. -/
  prefixCacheBoundaries : List ℤ := []
  reasoningEnded : Option Bool := none
  resumable : Bool := false

/-- `PREFIX_CACHE_BOUNDARY_ALIGNMENT`. -/
def prefixCacheBoundaryAlignment : ℕ := 64

/-- `length_from_prompt_token_ids_or_embeds`; `none` where the source raises. -/
def lengthFromPromptTokenIdsOrEmbeds {E : Type} :
    Option (List ℕ) → Option (List E) → Option ℕ
  | none, none => none
  | none, some embeds => some embeds.length
  | some ids, none => some ids.length
  | some ids, some embeds => if embeds.length = ids.length then some ids.length else none

theorem length_of_promptTokenIds {E : Type} {ids : List ℕ} {p : Option (List ℕ)}
    {embeds : Option (List E)} {n : ℕ} (h : lengthFromPromptTokenIdsOrEmbeds p embeds = some n)
    (hp : p = some ids) : ids.length = n := by
  subst hp
  cases embeds with
  | none => exact Option.some.inj h
  | some embeds =>
    rw [lengthFromPromptTokenIdsOrEmbeds] at h
    split_ifs at h
    exact Option.some.inj h

namespace Request

variable {H E : Type}

/-- `Request.num_tokens`. -/
def numTokens (r : Request H E) : ℕ := r.allTokenIds.length

/-- `Request.num_output_tokens`. -/
def numOutputTokens (r : Request H E) : ℕ := r.outputTokenIds.length

/-- `Request.num_tokens_with_spec`. -/
def numTokensWithSpec (r : Request H E) : ℕ := r.allTokenIds.length + r.specTokenIds.length

/-- `Request.is_finished`. -/
def isFinished (r : Request H E) : Bool := r.status.isFinished

/-- The prefix-cache boundaries a request keeps: inside the prompt, rounded down to whole kernel
chunks, sorted and without repetition. -/
def alignedBoundaries (promptLen : ℕ) (bs : List ℤ) : List ℕ :=
  let align : ℤ := prefixCacheBoundaryAlignment
  (((bs.filter fun b ↦ align ≤ b ∧ b < promptLen).map fun b ↦
    (b / align * align).toNat).dedup).insertionSort (· ≤ ·)

section

variable (hasher : Option (Request H E → List H))

/-- `Request.update_block_hashes`. The hasher is absent when prefix caching is off. -/
def updateBlockHashes (r : Request H E) : Request H E :=
  match hasher with
  | none => r
  | some h => { r with blockHashes := r.blockHashes ++ h r }

/-- `Request.append_output_token_ids`. -/
def appendOutputTokenIds (tokenIds : List ℕ) (r : Request H E) : Request H E :=
  updateBlockHashes hasher
    { r with
      outputTokenIds := r.outputTokenIds ++ tokenIds
      allTokenIds := r.allTokenIds ++ tokenIds }

/-- The record `Request.__init__` builds before it hashes the prompt. -/
def ofNew (a : NewRequest E) (numPromptTokens : ℕ) : Request H E where
  requestId := a.requestId
  priority := a.priority
  arrivalTime := a.arrivalTime
  status :=
    if a.useStructuredOutput && !a.isPooling then .waitingForStructuredOutputGrammar else .waiting
  maxTokens := if a.isPooling then 1 else a.maxTokens
  samplingParams := a.samplingParams
  isPooling := a.isPooling
  useStructuredOutput := a.useStructuredOutput
  loraRequest := a.loraRequest
  cacheSalt := a.cacheSalt
  promptTokenIds := a.promptTokenIds
  promptEmbeds := a.promptEmbeds
  numPromptTokens := numPromptTokens
  outputTokenIds := []
  allTokenIds := a.promptTokenIds.getD (List.replicate numPromptTokens 0)
  numOutputPlaceholders := 0
  asyncTokensToDiscard := 0
  nextDecodeEligibleStep := 0
  numInFlightTokens := 0
  specTokenIds := []
  numComputedTokens := 0
  prefixCacheBoundaries := alignedBoundaries (a.promptTokenIds.getD []).length
    a.prefixCacheBoundaries
  cacheOutputTokens := a.reasoningEnded != some false
  mmFeatures := a.mmFeatures
  isPrefillChunk := false
  sharedPrefixBoundary := 0
  numPreemptions := 0
  blockHashes := []
  resumable := a.resumable
  streamingQueue := none

/-- `Request.__init__`; `none` where it raises. -/
def new (a : NewRequest E) : Option (Request H E) :=
  (lengthFromPromptTokenIdsOrEmbeds a.promptTokenIds a.promptEmbeds).map fun n ↦
    updateBlockHashes hasher (ofNew a n)

end

/-- `StreamingUpdate.from_request`: a request that is not resumable closes the session. -/
def toStreamingUpdate (r : Request H E) : Option StreamingUpdate :=
  if r.resumable then
    some
      { mmFeatures := r.mmFeatures
        promptTokenIds := r.promptTokenIds
        arrivalTime := r.arrivalTime
        samplingParams := r.samplingParams }
  else none

end Request

end OneCatVllm
