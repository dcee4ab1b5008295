import OneCatVllm.Worker.InputBatch

/-!
# What a row of the persistent batch says about its request

`Row.Matches` says that a row contains the tokens, counts, blocks, LoRA id and sampling parameters
of a request with its draft tokens. `add_request` makes such a row from **any** row whose dictionary
entries are gone, and a swap or a move makes such a row from a matching one, as soon as it copies
the active tokens.
-/

namespace OneCatVllm.Batch

open CachedRequestState List Rows

/-- A request in the batch, with the draft tokens that are scheduled for it. -/
structure LiveRequest where
  req : CachedRequestState
  specTokenIds : List ℤ := []

namespace LiveRequest

/-- The tokens that the row of the request contains. -/
def numActive (e : LiveRequest) : ℕ := e.req.numTokens + e.specTokenIds.length

/-- The tokens that the request may not sample. -/
def masks (e : LiveRequest) (v : ℕ) : Bool :=
  match e.req.samplingParams with
  | some p => p.allowedTokenIds ≠ [] ∧ v ∉ p.allowedTokenIds
  | none => false

end LiveRequest

/-- A request of the model's own kind, with allowed tokens of the vocabulary. -/
def Recognized (cfg : BatchConfig) (req : CachedRequestState) : Prop :=
  if cfg.isPoolingModel then req.samplingParams = none ∧ req.poolingParams.isSome
  else ∃ p ∈ req.samplingParams, ∀ v ∈ p.allowedTokenIds, v < cfg.vocabSize

variable {cfg : BatchConfig} {req : CachedRequestState}

section

variable (h : Recognized cfg req) (hp : cfg.isPoolingModel = true)

include h hp

theorem Recognized.samplingParams_eq_none : req.samplingParams = none := by
  rw [Recognized, if_pos hp] at h
  exact h.1

theorem Recognized.not_mem_samplingParams (p : SamplingParams) : p ∉ req.samplingParams := by
  rw [h.samplingParams_eq_none hp]
  exact Option.not_mem_none p

end

theorem Recognized.exists_samplingParams (h : Recognized cfg req)
    (hp : ¬ cfg.isPoolingModel = true) :
    ∃ p, req.samplingParams = some p ∧ ∀ v ∈ p.allowedTokenIds, v < cfg.vocabSize := by
  rw [Recognized, if_neg hp] at h
  exact h

namespace Row

/-- The sampling part of a row. -/
structure Samples (cfg : BatchConfig) (row : Row) (p : SamplingParams) (generator : Option ℕ) :
    Prop where
  temperatureCpu : row.temperatureCpu = if p.isGreedy then 0 else p.temperature
  topPCpu : row.topPCpu = p.topP
  topKCpu : row.topKCpu = cfg.topK p
  frequencyPenaltiesCpu : row.frequencyPenaltiesCpu = p.frequencyPenalty
  presencePenaltiesCpu : row.presencePenaltiesCpu = p.presencePenalty
  repetitionPenaltiesCpu : row.repetitionPenaltiesCpu = p.repetitionPenalty
  generators : row.generators = generator
  badWordsTokenIds : row.badWordsTokenIds =
    if p.badWordsTokenIds = [] then none else some p.badWordsTokenIds

/-- The token part of a row. -/
structure Spells (row : Row) (e : LiveRequest) : Prop where
  numPromptTokens : row.numPromptTokens = e.req.numPromptTokens
  numTokensNoSpec : row.numTokensNoSpec = e.req.numTokens
  prompt : ∀ ids ∈ e.req.promptTokenIds, Holds row.tokenIdsCpu 0 ids
  output : Holds row.tokenIdsCpu e.req.numPromptTokens e.req.outputTokenIds
  spec : Holds row.tokenIdsCpu e.req.numTokens e.specTokenIds
  isPrompt : Holds row.isTokenIds 0 e.req.promptIsToken
  isOutput : Holds row.isTokenIds e.req.numPromptTokens (replicate e.req.outputTokenIds.length true)
  isSpec : Holds row.isTokenIds e.req.numTokens (replicate e.specTokenIds.length true)

/-- **The row of a request.** -/
structure Matches (cfg : BatchConfig) (row : Row) (e : LiveRequest) : Prop extends
    Spells row e where
  numComputedTokensCpu : row.numComputedTokensCpu = e.req.numComputedTokens
  promptEmbeds : ∀ em ∈ e.req.promptEmbeds, row.reqPromptEmbeds = some em
  numBlocks : ∀ g, (row.blockTable g).numBlocks = (cfg.kernelBlocks e.req g).length
  blocks : ∀ g, Holds (row.blockTable g).blocks 0 (cfg.kernelBlocks e.req g)
  requestLoraMapping : row.requestLoraMapping = e.req.loraId
  sampling : ∀ p ∈ e.req.samplingParams, row.Samples cfg p e.req.generator

/-- No dictionary on row indices that only a sampling request sets has an entry for the row. -/
def Cleared (row : Row) : Prop := row.generators = none ∧ row.badWordsTokenIds = none

variable {row src dst : Row} {e : LiveRequest} {n : ℕ}

/-! ### Adding -/

theorem spells_addTokens (cfg : BatchConfig) (req : CachedRequestState) (row : Row) :
    (row.addTokens cfg req).Spells ⟨req, []⟩ where
  numPromptTokens := rfl
  numTokensNoSpec := rfl
  prompt ids hids := by
    have hp : req.promptTokenIds = some ids := hids
    have hn : req.numPromptTokens = ids.length := by
      simp only [CachedRequestState.numPromptTokens, hp]
    simp only [addTokens, hp]
    exact holds_writeSlice.writeSlice_after (by omega)
  output := holds_writeSlice
  spec := holds_nil
  isPrompt :=
    holds_writeSlice.writeSlice_after (by rw [req.length_promptIsToken]; omega)
  isOutput := holds_writeSlice
  isSpec := holds_nil

theorem addRow_spec (row : BlockTableRow) (blocks : List ℕ) :
    (row.addRow blocks).numBlocks = blocks.length ∧ Holds (row.addRow blocks).blocks 0 blocks := by
  rw [BlockTableRow.addRow, BlockTableRow.appendRow]
  split_ifs with h
  · subst h
    exact ⟨rfl, holds_nil⟩
  · have hholds : Holds (writeSlice row.blocks 0 blocks) 0 blocks := holds_writeSlice
    exact ⟨Nat.zero_add _, hholds⟩

/-- An added request without sampling parameters has its row. -/
theorem matches_addPooling (h : req.samplingParams = none) (q : PoolingParams) :
    ((row.addTokens cfg req).addPooling q).Matches cfg ⟨req, []⟩ where
  toSpells := { spells_addTokens cfg req row with }
  numComputedTokensCpu := rfl
  promptEmbeds em hem := by
    have hp : req.promptEmbeds = some em := hem
    simp [addTokens, addPooling, hp]
  numBlocks g := (addRow_spec _ _).1
  blocks g := (addRow_spec _ _).2
  requestLoraMapping := rfl
  sampling p hp := by
    cases h ▸ hp

theorem samples_addSampling (h : row.Cleared) (p : SamplingParams) (generator : Option ℕ) :
    (row.addSampling cfg p generator).Samples cfg p generator where
  temperatureCpu := rfl
  topPCpu := rfl
  topKCpu := rfl
  frequencyPenaltiesCpu := rfl
  presencePenaltiesCpu := rfl
  repetitionPenaltiesCpu := rfl
  generators := by
    show (generator <|> row.generators) = generator
    rw [h.1]
    cases generator <;> rfl
  badWordsTokenIds := by
    show (if p.badWordsTokenIds = [] then row.badWordsTokenIds else _) = _
    rw [h.2]

/-- **An added request has its row**, whatever the row contained before, when its dictionary entries
are gone. -/
theorem matches_addSampling {p : SamplingParams} (h : row.Cleared)
    (hp : req.samplingParams = some p) :
    ((row.addTokens cfg req).addSampling cfg p req.generator).Matches cfg ⟨req, []⟩ where
  toSpells := { spells_addTokens cfg req row with }
  numComputedTokensCpu := rfl
  promptEmbeds em hem := by
    have hp : req.promptEmbeds = some em := hem
    simp [addTokens, addSampling, hp]
  numBlocks g := (addRow_spec _ _).1
  blocks g := (addRow_spec _ _).2
  requestLoraMapping := rfl
  sampling q hq := by
    cases hp.symm.trans hq
    have hcleared : (row.addTokens cfg req).Cleared := h
    exact samples_addSampling hcleared p req.generator

/-- Draft tokens go behind the tokens of the request. -/
theorem Matches.setSpec (h : row.Matches cfg e) (specTokenIds : List ℤ) :
    ({ row with
      tokenIdsCpu := writeSlice row.tokenIdsCpu row.numTokensNoSpec specTokenIds
      isTokenIds := writeSlice row.isTokenIds row.numTokensNoSpec
        (replicate specTokenIds.length true) } : Row).Matches cfg
      { e with specTokenIds := specTokenIds } := { h with
  prompt := fun ids hids ↦ by
    have hp : e.req.promptTokenIds = some ids := hids
    refine (h.prompt ids hids).writeSlice_after ?_
    rw [h.numTokensNoSpec, numTokens]
    simp only [CachedRequestState.numPromptTokens, hp]
    omega
  output := h.output.writeSlice_after (by rw [h.numTokensNoSpec, numTokens])
  spec := by
    rw [h.numTokensNoSpec]
    exact holds_writeSlice
  isPrompt := h.isPrompt.writeSlice_after (by
    rw [h.numTokensNoSpec, numTokens, e.req.length_promptIsToken]
    omega)
  isOutput := h.isOutput.writeSlice_after (by
    rw [h.numTokensNoSpec, numTokens, length_replicate])
  isSpec := by
    rw [h.numTokensNoSpec]
    exact holds_writeSlice
  sampling := fun p hp ↦ { h.sampling p hp with } }

/-- Without draft tokens. -/
theorem Matches.clearSpec (h : row.Matches cfg e) : row.Matches cfg { e with specTokenIds := [] } :=
  { h with spec := holds_nil, isSpec := holds_nil, sampling := h.sampling }

/-! ### Moving -/

/-- The tokens of a row are all active. -/
theorem Spells.copyPrefix (h : src.Spells e) (hn : e.numActive ≤ n) (dst : Row) :
    ({ dst with
      numTokensNoSpec := src.numTokensNoSpec
      numPromptTokens := src.numPromptTokens
      tokenIdsCpu := copyPrefix n src.tokenIdsCpu dst.tokenIdsCpu
      isTokenIds := copyPrefix n src.isTokenIds dst.isTokenIds } : Row).Spells e := by
  have hactive : e.req.numPromptTokens + e.req.outputTokenIds.length + e.specTokenIds.length ≤ n :=
    hn
  refine ⟨h.numPromptTokens, h.numTokensNoSpec, fun ids hids ↦ ?_, ?_, ?_, ?_, ?_, ?_⟩
  · have hp : e.req.promptTokenIds = some ids := hids
    have hlen : e.req.numPromptTokens = ids.length := by
      simp only [CachedRequestState.numPromptTokens, hp]
    exact (h.prompt ids hids).copyPrefix (by omega)
  · exact h.output.copyPrefix (by omega)
  · exact h.spec.copyPrefix hn
  · exact h.isPrompt.copyPrefix (by rw [e.req.length_promptIsToken]; omega)
  · exact h.isOutput.copyPrefix (by rw [length_replicate]; omega)
  · exact h.isSpec.copyPrefix (by rw [length_replicate]; exact hn)

section

variable (h : src.Matches cfg e) (hn : e.numActive ≤ n) (hrec : Recognized cfg e.req)

include h hn hrec

/-- **A swap takes the request along.** -/
theorem Matches.swapFrom (dst : Row) : (src.swapFrom cfg n dst).Matches cfg e := by
  have hspells := h.toSpells.copyPrefix hn dst
  unfold Row.swapFrom Row.copyFrom
  split_ifs with hpool <;>
    refine { hspells, h with sampling := fun p hp ↦ ?_ }
  · exact absurd hp (hrec.not_mem_samplingParams hpool p)
  · exact { h.sampling p hp with }

/-- **A move takes the request along**, into a row whose dictionary entries are gone. -/
theorem Matches.moveFrom (hdst : dst.Cleared) : (src.moveFrom cfg n dst).Matches cfg e := by
  have hspells := h.toSpells.copyPrefix hn dst
  have hembeds : ∀ em ∈ e.req.promptEmbeds,
      (src.reqPromptEmbeds <|> dst.reqPromptEmbeds) = some em := by
    intro em hem
    rw [h.promptEmbeds em hem]
    rfl
  have hblocks : ∀ g, Holds ((src.blockTable g).moveRow (dst.blockTable g)).blocks 0
      (cfg.kernelBlocks e.req g) := fun g ↦
    (h.blocks g).copyPrefix (by rw [h.numBlocks g, Nat.zero_add])
  unfold Row.moveFrom Row.copyFrom
  split_ifs with hpool <;>
    refine { hspells, h with
      promptEmbeds := hembeds, blocks := hblocks, sampling := fun p hp ↦ ?_ }
  · exact absurd hp (hrec.not_mem_samplingParams hpool p)
  · have hs := h.sampling p hp
    refine { hs with generators := ?_, badWordsTokenIds := ?_ }
    · rw [hdst.1, ← hs.generators]
      cases src.generators <;> rfl
    · rw [hdst.2, ← hs.badWordsTokenIds]
      cases src.badWordsTokenIds <;> rfl

end

theorem Cleared.remove (h : cfg.isPoolingModel = true → row.Cleared) :
    (row.remove cfg).Cleared := by
  unfold Row.remove
  split_ifs with hpool
  · exact h hpool
  · exact ⟨rfl, rfl⟩

theorem Cleared.movedAway (h : cfg.isPoolingModel = true → row.Cleared) :
    (row.movedAway cfg).Cleared := by
  unfold Row.movedAway
  split_ifs with hpool
  · exact h hpool
  · exact ⟨rfl, rfl⟩

end Row

end OneCatVllm.Batch
