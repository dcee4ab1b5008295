import OneCatVllm.Kv.BlockTable
import OneCatVllm.Kv.Lookup

/-!
# The single-type managers

The managers of `vllm/v1/core/single_type_kv_cache_manager.py`, one for each KV cache group: the
tokens that attention has moved past (`get_num_skipped_tokens`), the removal of their blocks
(`remove_skipped_blocks`), and the blocks of a sliding window that enter the prefix index
(`reachable_block_mask`).
-/

namespace OneCatVllm

open Grid

variable {H X E : Type}

/-! ### Groups and their tables -/

/-- The pool over one sequence of free blocks per range, which the linked lists refine. -/
abbrev ListPool (H X : Type) : Type := BlockPool QueueLists H X

/-- A KV cache group and its manager's constants. `blockSize` of the spec is the global one. -/
structure GroupSpec where
  spec : KVCacheSpec
  useEagle : Bool
  deriving DecidableEq

/-- What a manager knows about one request. -/
structure GroupTable where
  /-- `req_to_blocks`. -/
  blocks : List ℕ := []
  lastStateBlockIdx : List ℕ := []
  deriving DecidableEq

namespace GroupSpec

variable (g : GroupSpec)

abbrev blockSize : ℕ := g.spec.blockSize

/-- `get_num_skipped_tokens`. -/
def numSkippedTokens (numComputedTokens : ℕ) : ℕ :=
  match g.spec.kind with
  | .fullAttention => 0
  | .slidingWindow w => numComputedTokens + 1 - w
  | .chunkedLocalAttention c => numComputedTokens / c * c
  | .mamba _ _ => numComputedTokens - 1
  | .crossAttention => 0

/-- The whole blocks that are skipped. -/
def numSkippedBlocks (numComputedTokens : ℕ) : ℕ :=
  g.numSkippedTokens numComputedTokens / g.blockSize

end GroupSpec

/-! ### Removal -/

/-- `free_blocks` where there is something to free. -/
def BlockPool.freeSome (cfg : PoolConfig H X E) (bs : List ℕ) (reuseFirst : Bool)
    (p : ListPool H X) : Except KvError (ListPool H X) :=
  if bs = [] then .ok p else p.freeBlocks cfg bs reuseFirst

section Removal

variable (cfg : PoolConfig H X E)

/-- `_remove_blocks_in_range(0, last)`: blocks inside `hold` keep normal eviction priority. -/
def removeBlocksInRange (last : ℕ) (hold : Option (ℕ × ℕ)) (reuseFirst : Bool) (t : GroupTable)
    (p : ListPool H X) : Except KvError (GroupTable × ListPool H X) := do
  let (blocks, removed) := removeBlocksBelow 0 (min last t.blocks.length) t.blocks
  let held := fun x : ℕ × ℕ ↦ hold.any fun h ↦ decide (h.1 ≤ x.1 ∧ x.1 < h.2)
  let p ← p.freeSome cfg ((removed.filter (!held ·)).map (·.2)) reuseFirst
  let p ← p.freeSome cfg ((removed.filter held).map (·.2)) false
  return ({ t with blocks := blocks }, p)

/-- `_cached_window_at_last_boundary`, with the coordinator's alignment and lookbehind flag. -/
def cachedWindowAtLastBoundary (g : GroupSpec) (alignmentTokens : Option ℕ)
    (mambaReplayLookbehind : Bool) (w : ℕ) (numPromptTokens : ℕ) : Option (ℕ × ℕ) :=
  if cfg.enableCaching = false then none
  else
    let alignment := alignmentTokens.getD g.blockSize
    let boundary :=
      if mambaReplayLookbehind then (numPromptTokens / alignment - 1) * alignment
      else (numPromptTokens - 1 - if g.useEagle then g.blockSize else 0) / alignment * alignment
    if boundary = 0 then none
    else
      let need := contiguousBlocksForHit w g.blockSize g.useEagle
      let stop := boundary / g.blockSize + if g.useEagle then 1 else 0
      some (stop - need, stop)

/-- One superseded state block of a Mamba table is released. -/
def releaseStateBlock (tp : GroupTable × ListPool H X) (idx : ℕ) :
    Except KvError (GroupTable × ListPool H X) :=
  match tp.1.blocks[idx]? with
  | none => .error .index
  | some b =>
    if b = 0 then .ok tp
    else do
      let p ← tp.2.freeBlocks cfg [b] false
      return ({ tp.1 with blocks := tp.1.blocks.set idx 0 }, p)

/-- The part of `MambaManager.remove_skipped_blocks` with `align`. -/
def releaseStateBlocks (g : GroupSpec) (processed : ℕ) (t : GroupTable) (p : ListPool H X) :
    Except KvError (GroupTable × ListPool H X) := do
  let releaseBefore := cdiv processed g.blockSize - 1
  let (t, p) ←
    (t.lastStateBlockIdx.filter (· < releaseBefore)).foldlM (releaseStateBlock cfg) (t, p)
  return ({ t with lastStateBlockIdx := t.lastStateBlockIdx.filter (releaseBefore ≤ ·) }, p)

/-- `remove_skipped_blocks` of the group's manager. -/
def removeSkippedBlocks (alignmentTokens : Option ℕ) (mambaReplayLookbehind : Bool) (g : GroupSpec)
    (processed numPromptTokens : ℕ) (t : GroupTable) (p : ListPool H X) :
    Except KvError (GroupTable × ListPool H X) :=
  match g.spec.kind with
  | .slidingWindow w =>
    removeBlocksInRange cfg (g.numSkippedBlocks processed)
      (cachedWindowAtLastBoundary cfg g alignmentTokens mambaReplayLookbehind w numPromptTokens)
      true t p
  | .mamba true _ => do
    let (t, p) ← removeBlocksInRange cfg (g.numSkippedBlocks processed) none false t p
    releaseStateBlocks cfg g processed t p
  | _ => removeBlocksInRange cfg (g.numSkippedBlocks processed) none false t p

end Removal

/-! ### Caching -/

/-- `SlidingWindowManager.reachable_block_mask`: the blocks that a hit can consult, for an alignment
above the block size. -/
def slidingWindowMask (g : GroupSpec) (w alignmentTokens start stop : ℕ) : Option (List Bool) :=
  let perSegment := alignmentTokens / g.blockSize
  let need := contiguousBlocksForHit w g.blockSize g.useEagle
  if perSegment ≤ need then none
  else
    let shift := if g.useEagle then 1 else 0
    some ((List.range' start (stop - start)).map fun i ↦
      decide (shift ≤ i ∧ perSegment - need ≤ (i - shift) % perSegment))

end OneCatVllm
