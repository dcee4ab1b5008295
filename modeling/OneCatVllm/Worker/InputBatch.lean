import Mathlib.Data.Finset.Erase
import Mathlib.Data.Finset.Insert
import Mathlib.Data.List.Sort
import Mathlib.Data.Rat.Init
import OneCatVllm.Lib.Dict
import OneCatVllm.Lib.Rows

/-!
# The persistent batch

The worker keeps its requests in the rows of preallocated buffers from step to step. A removed
request leaves a gap; an added request fills the lowest gap or goes to the end; `condense` moves the
last requests down into the remaining gaps; `swap_states` exchanges two rows on behalf of the
attention backend. Every buffer is moved **field by field**, and the copies differ: numpy rows are
copied through a temporary, dictionaries by pop and set, and the rows of the mask of allowed tokens
are read as views.

The entries of the one-dimensional buffers, the dictionaries on row indices and the rows of the
two-dimensional buffers are gathered in a `Row`; the lists, the dictionaries on request ids and the
mask stay fields of the batch.
-/

namespace OneCatVllm.Batch

open Dict Function List Rows

/-! ### Requests -/

/-- The sampling parameters that the batch stores. An empty list of allowed tokens or of bad words
stands for its absence as well. -/
structure SamplingParams where
  temperature : ℚ := 1
  topP : ℚ := 1
  topK : ℤ := 0
  frequencyPenalty : ℚ := 0
  presencePenalty : ℚ := 0
  repetitionPenalty : ℚ := 1
  logprobs : Option ℤ := none
  logprobTokenIds : Option (List ℕ) := none
  allowedTokenIds : List ℕ := []
  badWordsTokenIds : List (List ℕ) := []
  deriving DecidableEq

/-- `sampling_type == SamplingType.GREEDY`: the temperature is below `_SAMPLING_EPS`. -/
def SamplingParams.isGreedy (p : SamplingParams) : Bool := p.temperature < 1 / 100000

structure PoolingParams where
  requiresTokenIds : Bool
  deriving DecidableEq

/-- A LoRA adapter; ids are positive. -/
@[ext]
structure LoRARequest where
  loraIntId : ℕ
  loraName : ℕ
  pos : 0 < loraIntId

instance : DecidableEq LoRARequest := fun _ _ ↦ decidable_of_iff _ LoRARequest.ext_iff.symm

/-- The embeddings of a prompt, known by a handle. -/
structure PromptEmbeds where
  data : ℕ
  length : ℕ
  deriving DecidableEq

/-- The worker's state of a request. The fields about lengths are what
`length_from_prompt_token_ids_or_embeds` checks when the state is made. -/
structure CachedRequestState where
  reqId : ℕ
  promptTokenIds : Option (List ℤ)
  promptIsTokenIds : Option (List Bool) := none
  promptEmbeds : Option PromptEmbeds := none
  outputTokenIds : List ℤ := []
  numComputedTokens : ℕ := 0
  blockIds : List (List ℕ)
  samplingParams : Option SamplingParams
  poolingParams : Option PoolingParams := none
  generator : Option ℕ := none
  loraRequest : Option LoRARequest := none
  defined : promptTokenIds.isSome ∨ promptEmbeds.isSome
  embeds_length : ∀ ids ∈ promptTokenIds, ∀ e ∈ promptEmbeds, e.length = ids.length
  isTokenIds_length : ∀ ids ∈ promptTokenIds, ∀ m ∈ promptIsTokenIds, m.length = ids.length

namespace CachedRequestState

variable (req : CachedRequestState)

def numPromptTokens : ℕ :=
  match req.promptTokenIds, req.promptEmbeds with
  | some ids, _ => ids.length
  | none, some e => e.length
  | none, none => 0

def numTokens : ℕ := req.numPromptTokens + req.outputTokenIds.length

/-- Which positions of the prompt are given by token ids. -/
def promptIsToken : List Bool :=
  match req.promptTokenIds, req.promptIsTokenIds with
  | some _, some m => m
  | some ids, none => replicate ids.length true
  | none, _ => replicate req.numPromptTokens false

/-- The entry of the request in `request_lora_mapping`. -/
def loraId : ℕ := (req.loraRequest.map LoRARequest.loraIntId).getD 0

theorem length_promptIsToken : req.promptIsToken.length = req.numPromptTokens := by
  unfold promptIsToken numPromptTokens
  rcases hids : req.promptTokenIds with - | ids
  · exact length_replicate
  · rcases hmask : req.promptIsTokenIds with - | m
    · exact length_replicate
    · exact req.isTokenIds_length ids hids m hmask

end CachedRequestState

/-! ### Rows -/

/-- The row of one group's block table. -/
structure BlockTableRow where
  numBlocks : ℕ
  blocks : ℕ → ℕ

/-- The sizes of the batch; a group of the block table is given by its `blocks_per_kv_block` and the
width of its rows. -/
structure BatchConfig where
  maxNumReqs : ℕ
  maxModelLen : ℕ
  vocabSize : ℕ
  isPoolingModel : Bool := false
  groups : List (ℕ × ℕ)

/-- `map_to_kernel_blocks`. -/
def mapToKernelBlocks (blocksPerKvBlock : ℕ) (blockIds : List ℕ) : List ℕ :=
  if blocksPerKvBlock = 1 then blockIds
  else blockIds.flatMap fun b ↦ (range blocksPerKvBlock).map (b * blocksPerKvBlock + ·)

/-- The blocks that a request's row of the block table of group `g` lists. -/
def BatchConfig.kernelBlocks (cfg : BatchConfig) (req : CachedRequestState) (g : ℕ) : List ℕ :=
  mapToKernelBlocks ((cfg.groups.map Prod.fst).getD g 1) (req.blockIds.getD g [])

namespace BlockTableRow

/-- `append_row`. -/
def appendRow (blocks : List ℕ) (row : BlockTableRow) : BlockTableRow :=
  if blocks = [] then row
  else ⟨row.numBlocks + blocks.length, writeSlice row.blocks row.numBlocks blocks⟩

/-- `add_row`. -/
def addRow (blocks : List ℕ) (row : BlockTableRow) : BlockTableRow :=
  ({ row with numBlocks := 0 } : BlockTableRow).appendRow blocks

/-- `clear_row`. -/
def clearRow (row : BlockTableRow) : BlockTableRow :=
  ⟨0, if 0 < row.numBlocks then writeSlice row.blocks 0 (replicate row.numBlocks 0)
    else row.blocks⟩

/-- `move_row`, on the target row. -/
def moveRow (src tgt : BlockTableRow) : BlockTableRow :=
  ⟨src.numBlocks, copyPrefix src.numBlocks src.blocks tgt.blocks⟩

end BlockTableRow

/-- Entry `i` of the buffers and of the dictionaries on row indices. -/
structure Row where
  tokenIdsCpu : ℕ → ℤ
  isTokenIds : ℕ → Bool
  reqPromptEmbeds : Option PromptEmbeds
  numTokensNoSpec : ℕ
  numPromptTokens : ℕ
  numComputedTokensCpu : ℕ
  blockTable : ℕ → BlockTableRow
  requestLoraMapping : ℕ
  temperatureCpu : ℚ
  topPCpu : ℚ
  topKCpu : ℤ
  frequencyPenaltiesCpu : ℚ
  presencePenaltiesCpu : ℚ
  repetitionPenaltiesCpu : ℚ
  numAcceptedTokensCpu : ℕ
  specNumAcceptedTokensCpu : ℕ
  generators : Option ℕ
  badWordsTokenIds : Option (List (List ℕ))
  logitsProcessingNeedsTokenIds : Bool

/-- The `top_k` that is stored: the whole vocabulary when the request sets no smaller one. -/
def BatchConfig.topK (cfg : BatchConfig) (p : SamplingParams) : ℤ :=
  if 0 < p.topK ∧ p.topK < cfg.vocabSize then p.topK else cfg.vocabSize

namespace Row

section

variable (cfg : BatchConfig)

/-- What `add_request` writes for every request. -/
def addTokens (req : CachedRequestState) (row : Row) : Row :=
  let tokenIdsCpu :=
    match req.promptTokenIds with
    | some ids => writeSlice row.tokenIdsCpu 0 ids
    | none => row.tokenIdsCpu
  { row with
    numPromptTokens := req.numPromptTokens
    tokenIdsCpu := writeSlice tokenIdsCpu req.numPromptTokens req.outputTokenIds
    isTokenIds := writeSlice (writeSlice row.isTokenIds 0 req.promptIsToken)
      req.numPromptTokens (replicate req.outputTokenIds.length true)
    reqPromptEmbeds := req.promptEmbeds <|> row.reqPromptEmbeds
    numTokensNoSpec := req.numTokens
    numComputedTokensCpu := req.numComputedTokens
    blockTable := fun g ↦ (row.blockTable g).addRow (cfg.kernelBlocks req g)
    numAcceptedTokensCpu := 1
    specNumAcceptedTokensCpu := 1
    requestLoraMapping := req.loraId }

/-- What `add_request` writes for a request with sampling parameters. -/
def addSampling (p : SamplingParams) (generator : Option ℕ) (row : Row) : Row :=
  { row with
    temperatureCpu := if p.isGreedy then 0 else p.temperature
    topPCpu := p.topP
    topKCpu := cfg.topK p
    frequencyPenaltiesCpu := p.frequencyPenalty
    presencePenaltiesCpu := p.presencePenalty
    repetitionPenaltiesCpu := p.repetitionPenalty
    generators := generator <|> row.generators
    badWordsTokenIds :=
      if p.badWordsTokenIds = [] then row.badWordsTokenIds else some p.badWordsTokenIds }

/-- What `add_request` writes for a request with pooling parameters. -/
def addPooling (q : PoolingParams) (row : Row) : Row :=
  { row with logitsProcessingNeedsTokenIds := q.requiresTokenIds }

/-- What `remove_request` resets. -/
def remove (row : Row) : Row :=
  let row := { row with
    blockTable := fun g ↦ (row.blockTable g).clearRow
    requestLoraMapping := 0 }
  if cfg.isPoolingModel then row else { row with generators := none, badWordsTokenIds := none }

/-- The row `dst` with what both `swap_states` and `condense` copy to it from `src`: the first `n`
tokens of the token buffers, the counts and the parameters. -/
def copyFrom (n : ℕ) (src dst : Row) : Row :=
  let row := { dst with
    tokenIdsCpu := copyPrefix n src.tokenIdsCpu dst.tokenIdsCpu
    isTokenIds := copyPrefix n src.isTokenIds dst.isTokenIds
    numTokensNoSpec := src.numTokensNoSpec
    numPromptTokens := src.numPromptTokens
    numComputedTokensCpu := src.numComputedTokensCpu
    requestLoraMapping := src.requestLoraMapping }
  if cfg.isPoolingModel then row
  else
    { row with
      temperatureCpu := src.temperatureCpu
      topPCpu := src.topPCpu
      topKCpu := src.topKCpu
      frequencyPenaltiesCpu := src.frequencyPenaltiesCpu
      presencePenaltiesCpu := src.presencePenaltiesCpu
      repetitionPenaltiesCpu := src.repetitionPenaltiesCpu
      numAcceptedTokensCpu := src.numAcceptedTokensCpu
      specNumAcceptedTokensCpu := src.specNumAcceptedTokensCpu }

/-- The row `dst` after `swap_states` has put the contents of `src` there. -/
def swapFrom (n : ℕ) (src dst : Row) : Row :=
  let row := { src.copyFrom cfg n dst with
    reqPromptEmbeds := src.reqPromptEmbeds
    blockTable := src.blockTable }
  if cfg.isPoolingModel then row
  else { row with generators := src.generators, badWordsTokenIds := src.badWordsTokenIds }

/-- The row `dst` after `condense` has moved the contents of `src` there. A dictionary entry is
moved only if there is one. -/
def moveFrom (n : ℕ) (src dst : Row) : Row :=
  let row := { src.copyFrom cfg n dst with
    reqPromptEmbeds := src.reqPromptEmbeds <|> dst.reqPromptEmbeds
    blockTable := fun g ↦ (src.blockTable g).moveRow (dst.blockTable g) }
  if cfg.isPoolingModel then row
  else
    { row with
      generators := src.generators <|> dst.generators
      badWordsTokenIds := src.badWordsTokenIds <|> dst.badWordsTokenIds }

/-- The source of a move of `condense`, whose dictionary entries are popped. -/
def movedAway (src : Row) : Row :=
  let row := { src with reqPromptEmbeds := none }
  if cfg.isPoolingModel then row else { row with generators := none, badWordsTokenIds := none }

end

end Row

/-! ### The batch -/

/-- The sets of request ids by what the sampling parameters ask for. -/
inductive ReqSet
  | greedyReqs
  | randomReqs
  | topPReqs
  | topKReqs
  | frequencyPenaltiesReqs
  | presencePenaltiesReqs
  | repetitionPenaltiesReqs
  | hasAllowedTokenIds
  deriving DecidableEq

/-- `add_request` adds a request with these parameters to the set. -/
def ReqSet.joins (cfg : BatchConfig) (p : SamplingParams) : ReqSet → Bool
  | greedyReqs => p.isGreedy
  | randomReqs => !p.isGreedy
  | topPReqs => p.topP < 1
  | topKReqs => 0 < p.topK ∧ p.topK < cfg.vocabSize
  | frequencyPenaltiesReqs => p.frequencyPenalty ≠ 0
  | presencePenaltiesReqs => p.presencePenalty ≠ 0
  | repetitionPenaltiesReqs => p.repetitionPenalty ≠ 1
  | hasAllowedTokenIds => p.allowedTokenIds ≠ []

/-- What the operations of the batch raise. -/
inductive BatchError
  /-- An `assert` fails. -/
  | assertion
  /-- `removed_append` after the removed indices have been read. -/
  | removedRead
  /-- A `KeyError`. -/
  | key
  /-- A token id outside the vocabulary. -/
  | index
  /-- A list does not fit into its row. -/
  | shape
  /-- A request with neither sampling nor pooling parameters. -/
  | unrecognizedRequest
  deriving DecidableEq

/-- The persistent batch, with the removed indices of its `BatchUpdateBuilder`. -/
structure InputBatch where
  reqIds : List (Option ℕ)
  reqIdToIndex : List (ℕ × ℕ)
  reqOutputTokenIds : List (Option (List ℤ))
  specTokenIds : List (List ℤ)
  rows : ℕ → Row
  allowedTokenIdsMask : Option (ℕ → ℕ → Bool)
  reqSets : ReqSet → Finset ℕ
  numLogprobs : ℕ → Option ℤ
  logprobTokenIds : ℕ → Option (List ℕ)
  poolingParams : ℕ → Option PoolingParams
  loraIdToRequestIds : ℕ → Option (Finset ℕ)
  loraIdToLoraRequest : ℕ → Option LoRARequest
  removed : List ℕ
  isRemovedSorted : Bool

namespace InputBatch

/-- An empty batch. The sampling buffers are allocated without initialisation, so that they contain
whatever the memory contained. -/
def init (cfg : BatchConfig) (memory : ℕ → Row) : InputBatch where
  reqIds := []
  reqIdToIndex := []
  reqOutputTokenIds := []
  specTokenIds := replicate cfg.maxNumReqs []
  rows := fun i ↦
    { memory i with
      tokenIdsCpu := fun _ ↦ 0
      isTokenIds := fun _ ↦ false
      reqPromptEmbeds := none
      numTokensNoSpec := 0
      numPromptTokens := 0
      numComputedTokensCpu := 0
      blockTable := fun _ ↦ ⟨0, fun _ ↦ 0⟩
      requestLoraMapping := 0
      numAcceptedTokensCpu := 1
      specNumAcceptedTokensCpu := 1
      generators := none
      badWordsTokenIds := none
      logitsProcessingNeedsTokenIds := false }
  allowedTokenIdsMask := none
  reqSets := fun _ ↦ ∅
  numLogprobs := fun _ ↦ none
  logprobTokenIds := fun _ ↦ none
  poolingParams := fun _ ↦ none
  loraIdToRequestIds := fun _ ↦ none
  loraIdToLoraRequest := fun _ ↦ none
  removed := []
  isRemovedSorted := false

variable (cfg : BatchConfig) (s : InputBatch)

def numReqs : ℕ := s.reqIdToIndex.length

/-- The mask of row `i`; without a mask tensor no token is masked. -/
def maskRow (i v : ℕ) : Bool :=
  match s.allowedTokenIdsMask with
  | none => false
  | some m => m i v

/-- The `removed` property: in descending order, sorted when first read. -/
def sortedRemoved : List ℕ :=
  if s.isRemovedSorted then s.removed else s.removed.insertionSort (· ≥ ·)

/-- `_register_add_request`: the lowest gap, or the end of the batch. -/
def registerAddRequest : Except BatchError (ℕ × InputBatch) :=
  let (i, s) :=
    match s.sortedRemoved.getLast? with
    | some i => (i, { s with removed := s.sortedRemoved.dropLast, isRemovedSorted := true })
    | none => (s.numReqs, s)
  if i < cfg.maxNumReqs then .ok (i, s) else .error .assertion

section

variable (req : CachedRequestState)

/-- Enter a request in the lists and the index. -/
def place (i : ℕ) : InputBatch :=
  { s with
    reqIds := if i = s.reqIds.length then s.reqIds ++ [some req.reqId]
      else s.reqIds.set i (some req.reqId)
    reqOutputTokenIds := if i = s.reqIds.length
      then s.reqOutputTokenIds ++ [some req.outputTokenIds]
      else s.reqOutputTokenIds.set i (some req.outputTokenIds)
    specTokenIds := if i = s.reqIds.length then s.specTokenIds ++ [[]] else s.specTokenIds.set i []
    reqIdToIndex := Dict.set s.reqIdToIndex req.reqId i }

/-- The mask tensor after a request with these allowed tokens is added; it is allocated when it is
needed first, and **not touched for a request without a restriction**. -/
def addMask (p : SamplingParams) (i : ℕ) (mask : Option (ℕ → ℕ → Bool)) : Option (ℕ → ℕ → Bool) :=
  if p.allowedTokenIds = [] then mask
  else some (update (mask.getD fun _ _ ↦ false) i fun v ↦ v ∉ p.allowedTokenIds)

/-- The batch with the sampling parameters of the request in row `i`. -/
def withSampling (i : ℕ) (p : SamplingParams) : InputBatch :=
  { s with
    reqSets := fun k ↦ if k.joins cfg p then insert req.reqId (s.reqSets k) else s.reqSets k
    rows := update s.rows i ((s.rows i).addSampling cfg p req.generator)
    numLogprobs := match p.logprobs with
      | some n => update s.numLogprobs req.reqId
          (some (if n = -1 then cfg.vocabSize else n))
      | none => s.numLogprobs
    logprobTokenIds := match p.logprobTokenIds with
      | some ids => update s.logprobTokenIds req.reqId (some ids)
      | none => s.logprobTokenIds
    allowedTokenIdsMask := addMask p i s.allowedTokenIdsMask }

/-- The batch with the pooling parameters of the request in row `i`. -/
def withPooling (i : ℕ) (q : PoolingParams) : InputBatch :=
  { s with
    poolingParams := update s.poolingParams req.reqId (some q)
    rows := update s.rows i ((s.rows i).addPooling q) }

/-- The parameters of a request, by its kind. -/
def addParams (i : ℕ) : Except BatchError InputBatch :=
  match req.samplingParams, req.poolingParams with
  | some p, _ =>
    if ∀ v ∈ p.allowedTokenIds, v < cfg.vocabSize then .ok (s.withSampling cfg req i p)
    else .error .index
  | none, some q => .ok (s.withPooling req i q)
  | none, none => .error .unrecognizedRequest

/-- The LoRA dictionaries after a request is added. -/
def addLora : InputBatch :=
  match req.loraRequest with
  | some l =>
    { s with
      loraIdToRequestIds := update s.loraIdToRequestIds l.loraIntId
        (some (insert req.reqId ((s.loraIdToRequestIds l.loraIntId).getD ∅)))
      loraIdToLoraRequest := update s.loraIdToLoraRequest l.loraIntId (some l) }
  | none => s

/-- The token ids and the blocks of a request fit into a row. -/
def Fits : Prop :=
  req.numTokens ≤ cfg.maxModelLen ∧ req.blockIds.length = cfg.groups.length ∧
    ∀ g < cfg.groups.length, (cfg.kernelBlocks req g).length ≤ (cfg.groups.map Prod.snd).getD g 0

instance : Decidable (Fits cfg req) :=
  inferInstanceAs (Decidable (_ ∧ _ ∧ _))

/-- `add_request`. -/
def addRequest : Except BatchError InputBatch := do
  let (i, s) ← s.registerAddRequest cfg
  if Fits cfg req then
    let s := s.place req i
    let s := { s with rows := update s.rows i ((s.rows i).addTokens cfg req) }
    let s ← s.addParams cfg req i
    .ok (s.addLora req)
  else .error .shape

end

/-- `update_req_spec_token_ids`. -/
def updateReqSpecTokenIds (r : ℕ) (specTokenIds : List ℤ) : Except BatchError InputBatch :=
  match get? s.reqIdToIndex r with
  | none => .error .key
  | some i =>
    let row := s.rows i
    if specTokenIds = [] then .ok { s with specTokenIds := s.specTokenIds.set i [] }
    else if row.numTokensNoSpec + specTokenIds.length ≤ cfg.maxModelLen then
      .ok { s with
        rows := update s.rows i { row with
          tokenIdsCpu := writeSlice row.tokenIdsCpu row.numTokensNoSpec specTokenIds
          isTokenIds := writeSlice row.isTokenIds row.numTokensNoSpec
            (replicate specTokenIds.length true) }
        specTokenIds := s.specTokenIds.set i specTokenIds }
    else .error .shape

/-- The LoRA dictionaries after a request of row `i` is removed. -/
def discardLora (r i : ℕ) : Except BatchError InputBatch :=
  let loraId := (s.rows i).requestLoraMapping
  if loraId = 0 then .ok s
  else
    match s.loraIdToRequestIds loraId, s.loraIdToLoraRequest loraId with
    | none, _ => .error .key
    | some ids, loraRequest =>
      if (ids.erase r).Nonempty then
        .ok { s with loraIdToRequestIds :=
          Function.update s.loraIdToRequestIds loraId (some (ids.erase r)) }
      else if loraRequest = none then .error .key
      else
        .ok { s with
          loraIdToRequestIds := update s.loraIdToRequestIds loraId none
          loraIdToLoraRequest := update s.loraIdToLoraRequest loraId none }

/-- The rows of the batch after the request of row `i` is removed. -/
def withoutRow (r i : ℕ) : InputBatch :=
  { s with
    reqIdToIndex := pop s.reqIdToIndex r
    removed := s.removed ++ [i]
    reqIds := s.reqIds.set i none
    reqOutputTokenIds := s.reqOutputTokenIds.set i none
    specTokenIds := s.specTokenIds.set i []
    rows := update s.rows i ((s.rows i).remove cfg) }

/-- The tables on request ids and the mask after the request of row `i` is removed. -/
def withoutParams (r i : ℕ) : InputBatch :=
  if cfg.isPoolingModel then { s with poolingParams := update s.poolingParams r none }
  else
    { s with
      reqSets := fun k ↦ (s.reqSets k).erase r
      numLogprobs := update s.numLogprobs r none
      logprobTokenIds := update s.logprobTokenIds r none
      allowedTokenIdsMask :=
        s.allowedTokenIdsMask.map fun m ↦ update m i fun _ ↦ false }

/-- `remove_request`; an unknown request is ignored. -/
def removeRequest (r : ℕ) : Except BatchError InputBatch :=
  match get? s.reqIdToIndex r with
  | none => .ok s
  | some i =>
    if s.isRemovedSorted then .error .removedRead
    else do
      let s ← s.discardLora r i
      .ok ((s.withoutRow cfg r i).withoutParams cfg r i)

/-- `_get_active_token_count`. -/
def activeTokenCount (i : ℕ) : ℕ :=
  (s.rows i).numTokensNoSpec + (s.specTokenIds.getD i []).length

/-- The batch after the requests `id₁` and `id₂` of the rows `i₁` and `i₂`, with the entries `at₁`
and `at₂` of the index, are exchanged. The mask rows are **assigned as views**. -/
def exchanged (i₁ i₂ id₁ id₂ at₁ at₂ : ℕ) : InputBatch :=
  let n := max (s.activeTokenCount i₁) (s.activeTokenCount i₂)
  { s with
    reqIds := (s.reqIds.set i₁ (some id₂)).set i₂ (some id₁)
    reqOutputTokenIds := (s.reqOutputTokenIds.set i₁ (s.reqOutputTokenIds.getD i₂ none)).set i₂
      (s.reqOutputTokenIds.getD i₁ none)
    specTokenIds := (s.specTokenIds.set i₁ (s.specTokenIds.getD i₂ [])).set i₂
      (s.specTokenIds.getD i₁ [])
    reqIdToIndex := Dict.set (Dict.set s.reqIdToIndex id₁ at₂) id₂ at₁
    rows := update
      (update s.rows i₁ ((s.rows i₂).swapFrom cfg n (s.rows i₁))) i₂
      ((s.rows i₁).swapFrom cfg n (s.rows i₂))
    allowedTokenIdsMask := if cfg.isPoolingModel then s.allowedTokenIdsMask
      else s.allowedTokenIdsMask.map fun m ↦ assignViews m i₁ i₂ }

/-- `swap_states`. -/
def swapStates (i₁ i₂ : ℕ) : Except BatchError InputBatch :=
  match s.reqIds[i₁]?, s.reqIds[i₂]? with
  | some (some id₁), some (some id₂) =>
    match get? s.reqIdToIndex id₁, get? s.reqIdToIndex id₂ with
    | some at₁, some at₂ => .ok (s.exchanged cfg i₁ i₂ id₁ id₂ at₁ at₂)
    | _, _ => .error .key
  | _, _ => .error .assertion

/-! ### Condensing -/

/-- The rows up to the last non-empty one: `while last_req_index in empty_req_indices:
last_req_index -= 1`, where the count is `last_req_index + 1`. -/
def usedRows (removed : List ℕ) : ℕ → ℕ
  | 0 => 0
  | n + 1 => if n ∈ removed then usedRows removed n else n + 1

/-- The batch after the request `reqId` of the row `last` has moved to the row `empty`. The mask row
of the source **keeps its contents**. -/
def movedDown (reqId last empty : ℕ) (rest : List ℕ) : InputBatch :=
  let n := s.activeTokenCount last
  { s with
    removed := rest.reverse
    reqIds := (s.reqIds.set empty (some reqId)).set last none
    reqOutputTokenIds := (s.reqOutputTokenIds.set empty (s.reqOutputTokenIds.getD last none)).set
      last none
    reqIdToIndex := Dict.set s.reqIdToIndex reqId empty
    specTokenIds := (s.specTokenIds.set empty (s.specTokenIds.getD last [])).set last []
    rows := update
      (update s.rows empty ((s.rows last).moveFrom cfg n (s.rows empty))) last
      ((s.rows last).movedAway cfg)
    allowedTokenIdsMask := if cfg.isPoolingModel then s.allowedTokenIdsMask
      else s.allowedTokenIdsMask.map fun m ↦ update m empty (m last) }

/-- One move of `condense`, from the last request to the lowest gap. -/
def moveDown (last empty : ℕ) (rest : List ℕ) : Except BatchError InputBatch :=
  match s.reqIds[last]? with
  | some (some reqId) => .ok (s.movedDown cfg reqId last empty rest)
  | _ => .error .assertion

/-- The loop of `condense` over the removed indices, the lowest first; `n` is
`last_req_index + 1`. -/
def condenseLoop : List ℕ → ℕ → InputBatch → Except BatchError InputBatch
  | [], _, s => .ok s
  | empty :: rest, n, s =>
    let n := usedRows (empty :: rest) n
    if n ≤ empty + 1 then .ok s
    else do
      let s ← s.moveDown cfg (n - 1) empty rest
      condenseLoop rest (n - 1) s

/-- Trim the lists to the batch size. -/
def trim (n : ℕ) : InputBatch :=
  { s with
    reqIds := s.reqIds.take n
    reqOutputTokenIds := s.reqOutputTokenIds.take n
    specTokenIds := s.specTokenIds.take n }

/-- `condense`. -/
def condense : Except BatchError InputBatch :=
  let removed := s.sortedRemoved
  let s := { s with removed := removed, isRemovedSorted := true }
  if removed = [] then .ok s
  else if s.numReqs = 0 then .ok (s.trim 0)
  else do
    let n := s.numReqs
    let s ← condenseLoop cfg removed.reverse (n + removed.length) s
    .ok (s.trim n)

/-- `refresh_metadata`, as far as the removed indices are concerned. -/
def refreshMetadata : InputBatch := { s with removed := [], isRemovedSorted := false }

end InputBatch

end OneCatVllm.Batch
