import OneCatVllm.Kv.BlockTable
import OneCatVllm.Lib.Grid
import OneCatVllm.Request

/-!
# Recurrent states in the prefix cache

With `mamba_cache_mode = "align"` a recurrent layer keeps one state block per scheduled chunk. The
scheduler cuts a prefill into chunks (`_mamba_block_aligned_split`), the manager gives each chunk a
running state block and pads the block table with the null block in between (`allocate_new_blocks`),
and `cache_blocks` enters the blocks of the table that hold a state into the prefix index. A block
with index `i` is found under the hash of the first `(i + 1) * block_size` tokens, so it has to hold
the state after exactly those tokens.

The model follows one request through its prefill. Some things are not in the source's data: a block
carries the number of tokens whose state it holds (`StateBlock.state`), which the forward pass
writes, and two logs (`cached`, `chunkEnds`) keep what entered the prefix index and where the chunks
of this prefill ended.
-/

namespace OneCatVllm

open Grid List

variable {H E : Type}

/-! ### Configuration -/

/-- What the scheduler, the coordinator and the manager of the recurrent group are configured
with. -/
structure MambaConfig where
  /-- `mamba_state_block_size`, the block size of the group. -/
  blockSize : ℕ
  blockSize_pos : 0 < blockSize
  /-- `coordinator.lcm_block_size`; the block size itself where there is one group. -/
  lcmBlockSize : ℕ
  blockSize_dvd : blockSize ∣ lcmBlockSize
  /-- `prefix_cache_retention_interval`. -/
  retentionInterval : Option ℕ
  /-- `configure_retention` raises otherwise. -/
  lcm_dvd_interval : ∀ i ∈ retentionInterval, lcmBlockSize ∣ i
  /-- `cache_config.mamba_tail_checkpoint`. -/
  mambaTailCheckpoint : Bool := true
  /-- `Scheduler.use_eagle`. -/
  useEagle : Bool := false
  /-- `coordinator.eagle_group_ids`. -/
  eagleGroupIds : List ℕ := []
  /-- `MambaManager.use_eagle`. -/
  managerUseEagle : Bool := false
  maxNumScheduledTokens : ℕ
  numSpeculativeBlocks : ℕ := 0

namespace MambaConfig

variable (cfg : MambaConfig)

/-- `Scheduler.mamba_state_retention_interval`: sparse only where the group's own blocks are the
cache's alignment. -/
def mambaStateRetentionInterval : Option ℕ :=
  if cfg.lcmBlockSize = cfg.blockSize then cfg.retentionInterval else none

/-- `Scheduler.mamba_dense_boundaries_on_contention`. -/
def mambaDenseBoundariesOnContention : Bool :=
  cfg.mambaStateRetentionInterval.isSome && decide (cfg.maxNumScheduledTokens ≤ cfg.blockSize)

/-- `KVCacheCoordinator.get_replay_boundaries`, as a set. -/
def getReplayBoundaries (r : Request H E) (alignment : ℕ) : List ℕ :=
  let resend := (r.numTokens - 1) / alignment * alignment
  let extension := r.numTokens / alignment * alignment
  if cfg.eagleGroupIds = [] then [resend, extension]
  else [resend - alignment, extension - alignment]

end MambaConfig

/-! ### The scheduler's chunks -/

/-- What one scheduler step offers a prefilling request. -/
structure PrefillStep where
  /-- The tokens that the step's budget leaves to the request. -/
  numNewTokens : ℕ
  /-- `len(self.running) + len(self.waiting) > 1`. -/
  contention : Bool := false
  /-- `partial_prefix_stops(request, start, end)`: positions to snapshot. -/
  partialPrefixStops : List ℕ := []
  /-- The computed tokens whose steps have been processed. -/
  processedComputedTokens : ℕ

/-- `prefill_end`: resumed requests replay their output tokens as a prefill. -/
def Request.prefillEnd (r : Request H E) : ℕ := max r.numPromptTokens (r.numTokens - 1)

namespace MambaConfig

variable (cfg : MambaConfig)

section

variable (r : Request H E) (start : ℕ) (p : PrefillStep)

/-- `skip_tail`: the rest of the prompt fits this step and no tail checkpoint is wanted. -/
def skipTail : Bool :=
  decide (r.prefillEnd ≤ start + p.numNewTokens) && !cfg.mambaTailCheckpoint

/-- The retention interval in force in a step. -/
def stepRetentionInterval : Option ℕ :=
  if cfg.mambaDenseBoundariesOnContention && p.contention then none
  else cfg.mambaStateRetentionInterval

/-- `retained_boundaries`. -/
def retainedBoundaries : List ℕ :=
  match cfg.stepRetentionInterval p with
  | none => [next cfg.blockSize start]
  | some interval =>
    (if cfg.skipTail r start p then [] else cfg.getReplayBoundaries r cfg.blockSize) ++
      if interval = 0 then [] else [next interval start]

/-- `last_cache_position`. -/
def lastCachePosition : ℕ :=
  let lastToken := r.numTokens - 1
  let position := lastToken - lastToken % cfg.blockSize
  if cfg.skipTail r start p then 0
  else if cfg.useEagle then position - cfg.blockSize else position

/-- The end of the chunk before the stops: whole blocks, as long as that advances. -/
def alignedEnd : ℕ :=
  let stop := start + p.numNewTokens
  let aligned := stop / cfg.blockSize * cfg.blockSize
  if stop < r.prefillEnd ∧ start < aligned then aligned else stop

/-- The positions at which a chunk must not pass. -/
def stops : List ℕ :=
  cfg.retainedBoundaries r start p ++
    cfg.lastCachePosition r start p ::
    r.sharedPrefixBoundary / cfg.blockSize * cfg.blockSize :: p.partialPrefixStops

/-- The end of the chunk: the first stop inside it. -/
def chunkEnd : ℕ :=
  let stop := cfg.alignedEnd r start p
  (((cfg.stops r start p).filter fun s ↦ start < s ∧ s < stop).min?).getD stop

/-- `Scheduler._mamba_block_aligned_split`. -/
def mambaBlockAlignedSplit : ℕ :=
  if r.prefillEnd ≤ start then p.numNewTokens else cfg.chunkEnd r start p - start

end

end MambaConfig

/-! ### The manager's block table -/

/-- An entry of the block table. -/
inductive StateBlock
  | null
  /-- A block no chunk has run on: just taken from the pool, or kept for draft tokens. -/
  | fresh
  /-- The block holds the state after `numTokens` tokens. -/
  | state (numTokens : ℕ)
  deriving DecidableEq

/-- What a forward pass that ends at `stop` leaves in its running state block. The null block is
never written. -/
def StateBlock.write (stop : ℕ) : StateBlock → StateBlock
  | null => null
  | _ => state stop

/-- The manager's data about one request, with the request's computed tokens. -/
structure MambaState where
  numComputedTokens : ℕ
  /-- `req_to_blocks`. -/
  reqToBlocks : List StateBlock
  /-- `num_cached_block`. -/
  numCachedBlock : ℕ
  /-- Membership in `_allocated_block_reqs`. -/
  allocated : Bool := false
  lastStateBlockIdx : List ℕ := []
  /-- The blocks that entered the prefix index, with their indices. -/
  cached : List (ℕ × StateBlock) := []
  /-- The ends of the chunks that have run. -/
  chunkEnds : List ℕ := []
  deriving DecidableEq

namespace MambaConfig

variable (cfg : MambaConfig)

/-- `MambaManager.remove_skipped_blocks`. -/
def removeSkippedBlocks (processed : ℕ) (st : MambaState) : MambaState :=
  let numSkippedBlocks := (processed - 1) / cfg.blockSize
  let blocks :=
    (removeBlocksBelow .null (min numSkippedBlocks st.reqToBlocks.length) st.reqToBlocks).1
  let releaseBefore := cdiv processed cfg.blockSize - 1
  { st with
    reqToBlocks := (st.lastStateBlockIdx.filter (· < releaseBefore)).foldl
      (fun bs idx ↦ bs.set idx .null) blocks
    lastStateBlockIdx := st.lastStateBlockIdx.filter (releaseBefore ≤ ·) }

section

variable (r : Request H E) (numTokens : ℕ)

/-- `MambaManager.allocate_new_blocks`; `none` where an assertion fails. -/
def allocateNewBlocks (st : MambaState) : Option MambaState :=
  let numSpec := cfg.numSpeculativeBlocks
  let numRequiredBlocks := cdiv numTokens cfg.blockSize + numSpec
  let prevBlockLen := st.reqToBlocks.length
  if numRequiredBlocks = prevBlockLen then some st
  else if prevBlockLen < numRequiredBlocks then
    let lastState :=
      if st.allocated then st.lastStateBlockIdx ++ [prevBlockLen - 1 - numSpec]
      else if 0 < prevBlockLen then st.lastStateBlockIdx ++ [prevBlockLen - 1]
      else st.lastStateBlockIdx
    let reused := extendTable .null st.allocated numSpec numRequiredBlocks st.reqToBlocks
    let numNewBlocks := numRequiredBlocks - reused.length
    if numNewBlocks ≤ if st.allocated then 1 else numSpec + 1 then
      some
        { st with
          reqToBlocks := reused ++ replicate numNewBlocks .fresh
          lastStateBlockIdx := lastState
          allocated := true }
    else none
  else none

/-- The forward pass of a chunk that ends at `stop`: it advances the running state block, the last
one before the speculative blocks. -/
def forward (stop : ℕ) (st : MambaState) : MambaState :=
  { st with
    numComputedTokens := stop
    chunkEnds := st.chunkEnds ++ [stop]
    reqToBlocks := st.reqToBlocks.modify (cdiv stop cfg.blockSize - 1) (.write stop) }

/-! ### Admission to the prefix index -/

/-- `MambaManager.reachable_block_mask`, as a predicate on the block index; `none` admits every
block. -/
def reachableBlockMask (startBlock : ℕ) (boundaries : List ℕ) : Option (ℕ → Bool) :=
  match cfg.retentionInterval with
  | none => none
  | some interval =>
    if cfg.lcmBlockSize ≠ cfg.blockSize then none
    else
      let perSegment := interval / cfg.blockSize
      if interval ≠ 0 ∧ perSegment ≤ 1 then none
      else
        let first := (startBlock + perSegment) / perSegment * perSegment - 1
        some fun i ↦
          (decide (interval ≠ 0) && decide (first ≤ i ∧ (i - first) % perSegment = 0)) ||
            boundaries.any fun boundary ↦
              boundary / cfg.lcmBlockSize * cfg.lcmBlockSize / cfg.blockSize = i + 1

/-- The boundaries `cache_blocks` keeps besides the periodic ones. -/
def keptBoundaries : List ℕ :=
  cfg.getReplayBoundaries r cfg.lcmBlockSize ++
    if r.sharedPrefixBoundary = 0 then [] else [r.sharedPrefixBoundary]

/-- `MambaManager.cache_blocks` with `BlockPool.cache_full_blocks`: the blocks with an index from
`num_cached_block` on that are not null and not masked. -/
def cacheBlocks (st : MambaState) : MambaState :=
  let numFullBlocks := numTokens / cfg.blockSize
  if numFullBlocks ≤ st.numCachedBlock then st
  else
    let mask := (cfg.reachableBlockMask st.numCachedBlock (cfg.keptBoundaries r)).getD fun _ ↦ true
    let new := (range' st.numCachedBlock (numFullBlocks - st.numCachedBlock)).filterMap
      fun i ↦ match st.reqToBlocks[i]? with
        | some block => if block = .null ∨ ¬ mask i then none else some (i, block)
        | none => none
    { st with cached := st.cached ++ new, numCachedBlock := numFullBlocks }

/-- `HybridKVCacheCoordinator.cache_blocks`: the tokens the group may cache out of `numTokens`
computed ones. With one group `lcmBlockSize` is the block size and this rounds nothing off. -/
def coordinatorTokens : ℕ :=
  let aligned := numTokens / cfg.lcmBlockSize * cfg.lcmBlockSize
  if cfg.managerUseEagle ∧ 0 < aligned then min numTokens (aligned + cfg.blockSize) else aligned

/-- The tokens of a request that `allocate_slots` lets into the cache. -/
def cacheableTokens : ℕ :=
  if r.cacheOutputTokens then r.numTokens else r.numPromptTokens

/-! ### One prefill step -/

/-- The state `allocate_slots` starts from when a request enters with `hit` computed tokens: the
hit state is the last block of the table. A hit inside a block is continued on a private copy that
is not in the index (`_redirect_partial_hit`). -/
def ofHit (hit : ℕ) : MambaState where
  numComputedTokens := hit
  reqToBlocks :=
    if hit = 0 then [] else replicate ((hit - 1) / cfg.blockSize) .null ++ [.state hit]
  numCachedBlock := hit / cfg.blockSize

/-- The blocks of a chunk that ends at `stop`: freed, allocated, written by the forward pass, and
entered into the index, in the order of `allocate_slots`. The index entries are made before the
pass runs; what they hold is what the pass leaves in them. -/
def runChunk (processed stop : ℕ) (st : MambaState) : Option MambaState :=
  (cfg.allocateNewBlocks stop (cfg.removeSkippedBlocks processed st)).map fun st' ↦
    cfg.cacheBlocks r (cfg.coordinatorTokens (min stop (cacheableTokens r))) (cfg.forward stop st')

/-- One scheduler step of a prefill. It offers at most the tokens that are left, and nothing is
scheduled where the split returns zero. -/
def prefillStep (st : MambaState) (p : PrefillStep) : Option MambaState :=
  let start := st.numComputedTokens
  let numNewTokens := cfg.mambaBlockAlignedSplit r start p
  if start < r.prefillEnd ∧ start + p.numNewTokens ≤ r.numTokens ∧
      p.processedComputedTokens ≤ start ∧ 0 < numNewTokens then
    cfg.runChunk r p.processedComputedTokens (start + numNewTokens) st
  else none

end

end MambaConfig

end OneCatVllm
