import Mathlib.Algebra.GroupWithZero.Nat
import Mathlib.Data.List.SplitBy
import Mathlib.Data.Multiset.AddSub
import OneCatVllm.Hash.ExtraKeys
import OneCatVllm.Kv.FreeQueue

/-!
# The block pool

`BlockPool` of `vllm/v1/core/block_pool.py`: reference counts, the free queues, the prefix index
`BlockHashToBlockMap` and the queue of cache events.

Blocks are their ids; block `0` is the null block. A key of the index is a block hash with a group
id. The pool is generic in its **free queues**: `LinkedQueues` gives the code, `QueueLists` the
abstract pool that it refines. What the source takes from its environment is in `PoolConfig`: the
byte operations on hashes, and how a hash appears in an event.
-/

namespace OneCatVllm

open FreeQueue List

open Function (update)

variable {Q H X E : Type}

/-! ### Configuration -/

/-- The arguments of `_PartitionedBlockQueue`: the ids below `stateBlocks` serve the state groups,
the others serve the rest. -/
structure Partition where
  stateBlocks : ℕ
  stateGroupIds : List ℕ
  deriving DecidableEq

/-- The arguments of `BlockPool.__init__`, which raises unless the three conditions hold, and what
the pool takes from its environment. -/
structure PoolConfig (H X E : Type) where
  numGpuBlocks : ℕ
  numGpuBlocks_pos : 0 < numGpuBlocks
  enableCaching : Bool
  hashBlockSize : ℕ
  hashBlockSize_pos : 0 < hashBlockSize
  enableKvCacheEvents : Bool
  stateRange : Option Partition
  stateRange_bounds : ∀ part ∈ stateRange, 1 < part.stateBlocks ∧ part.stateBlocks < numGpuBlocks
  /-- `maybe_convert_block_hash`: a hash as events show it. -/
  maybeConvertBlockHash : H → X
  /-- Concatenation of hashes, for groups with larger blocks than the hasher's. -/
  joinHashes : List H → H
  /-- The digest of prompt embeddings, for the extra keys in events. -/
  sha256 : List E → H

namespace PoolConfig

/-- The queue that a block belongs to. -/
def rangeOf (cfg : PoolConfig H X E) (b : ℕ) : BlockRange :=
  match cfg.stateRange with
  | none => .history
  | some part => if b < part.stateBlocks then .state else .history

/-- `_PartitionedBlockQueue.for_group`; a plain pool has one queue for all groups. -/
def forGroup (cfg : PoolConfig H X E) (g : Option ℕ) : Except KvError BlockRange :=
  match cfg.stateRange, g with
  | none, _ => .ok .history
  | some _, none => .error .assertion
  | some part, some g => .ok (if g ∈ part.stateGroupIds then .state else .history)

/-- `request.block_hashes` at the granularity of a group: `BlockHashListWithBlockSize` when the
group's blocks are larger. -/
def blockHashList (cfg : PoolConfig H X E) (blockSize : ℕ) (hashes : List H) :
    Except KvError (List H) :=
  if blockSize = cfg.hashBlockSize then .ok hashes
  else if blockSize % cfg.hashBlockSize ≠ 0 then .error .assertion
  else
    let scaleFactor := blockSize / cfg.hashBlockSize
    .ok ((range (hashes.length / scaleFactor)).map fun i ↦
      cfg.joinHashes ((hashes.drop (i * scaleFactor)).take scaleFactor))

end PoolConfig

/-! ### The prefix index -/

/-- The value stored for a key: mostly one block, else a dict of blocks. -/
inductive CachedBlocks
  | one (b : ℕ)
  | many (bs : List ℕ)
  deriving DecidableEq

/-- `BlockHashToBlockMap._cache`. -/
abbrev BlockHashToBlockMap (H : Type) : Type := H × ℕ → Option CachedBlocks

namespace BlockHashToBlockMap

/-- `BlockHashToBlockMap.__init__`. -/
def empty : BlockHashToBlockMap H := fun _ ↦ none

/-- `BlockHashToBlockMap.get_one_block`. -/
def getOneBlock (m : BlockHashToBlockMap H) (key : H × ℕ) : Option ℕ :=
  match m key with
  | none => none
  | some (.one b) => some b
  | some (.many bs) => bs.head?

variable [DecidableEq H]

/-- `BlockHashToBlockMap.insert`. A dict keeps the place of a block it has. -/
def insert (key : H × ℕ) (b : ℕ) (m : BlockHashToBlockMap H) : BlockHashToBlockMap H :=
  match m key with
  | none => update m key (some (.one b))
  | some (.one b') => update m key (some (.many (if b' = b then [b] else [b', b])))
  | some (.many bs) => update m key (some (.many (if b ∈ bs then bs else bs ++ [b])))

/-- `BlockHashToBlockMap.pop`: whether the block was found, and the index without it. -/
def pop (key : H × ℕ) (b : ℕ) (m : BlockHashToBlockMap H) : Bool × BlockHashToBlockMap H :=
  match m key with
  | none => (false, m)
  | some (.one b') => if b' = b then (true, update m key none) else (false, m)
  | some (.many bs) =>
    let rest := bs.filter (· ≠ b)
    (decide (b ∈ bs), update m key (if rest = [] then none else some (.many rest)))

end BlockHashToBlockMap

/-! ### Events -/

/-- `BlockStored`: a run of blocks that entered the index. -/
structure BlockStored (H X : Type) where
  blockHashes : List X
  parentBlockHash : Option X
  tokenIds : List ℕ
  blockSize : ℕ
  loraId : Option ℕ
  loraName : Option String
  extraKeys : List (Option (List (ExtraKey H)))
  groupIdx : ℕ

/-- `KVCacheEvent`. -/
inductive KVCacheEvent (H X : Type)
  | blockStored (e : BlockStored H X)
  | blockRemoved (blockHashes : List X) (groupIdx : ℕ)
  | allBlocksCleared

/-! ### The pool -/

/-- `BlockPool`, with the fields of its blocks. -/
structure BlockPool (Q H X : Type) where
  refCnt : ℕ → ℤ
  blockHash : ℕ → Option (H × ℕ)
  cachedBlockHashToBlock : BlockHashToBlockMap H
  freeBlockQueue : Q
  kvEventQueue : List (KVCacheEvent H X)

namespace BlockPool

/-- The pool around its queues, before the first call. -/
def init (q : Q) : BlockPool Q H X where
  refCnt := fun _ ↦ 0
  blockHash := fun _ ↦ none
  cachedBlockHashToBlock := .empty
  freeBlockQueue := q
  kvEventQueue := []

/-- The free queues of `BlockPool.__init__`: one over all blocks, from which the null block is
popped; a partitioned pool then builds two new queues over the two ranges. -/
def initQueues (cfg : PoolConfig H X E) : Except KvError LinkedQueues := do
  let initialQueue :=
    (LinkedQueues.empty.init .state []).init .history (range cfg.numGpuBlocks)
  let (_, queue) ← initialQueue.popleft .history
  match cfg.stateRange with
  | none => return queue
  | some part =>
    return (queue.init .state (range' 1 (part.stateBlocks - 1))).init .history
      (range' part.stateBlocks (cfg.numGpuBlocks - part.stateBlocks))

/-- `BlockPool.get_cached_block` for one group. -/
def getCachedBlock (p : BlockPool Q H X) (h : H) (g : ℕ) : Option ℕ :=
  p.cachedBlockHashToBlock.getOneBlock (h, g)

section Calls

variable [FreeQueue Q] [DecidableEq H] (cfg : PoolConfig H X E)

/-- `BlockPool.get_num_free_blocks`. -/
def getNumFreeBlocks (g : Option ℕ) (p : BlockPool Q H X) : ℤ :=
  match cfg.stateRange, g with
  | some part, some g =>
    numFreeBlocks (if g ∈ part.stateGroupIds then .state else .history) p.freeBlockQueue
  | some _, none =>
    numFreeBlocks .state p.freeBlockQueue + numFreeBlocks .history p.freeBlockQueue
  | none, _ => numFreeBlocks .history p.freeBlockQueue

/-- `BlockPool._maybe_evict_cached_block`. -/
def maybeEvictCachedBlock (b : ℕ) (p : BlockPool Q H X) : BlockPool Q H X :=
  match p.blockHash b with
  | none => p
  | some key =>
    match p.cachedBlockHashToBlock.pop key b with
    | (false, index) => { p with cachedBlockHashToBlock := index }
    | (true, index) =>
      { p with
        cachedBlockHashToBlock := index
        blockHash := update p.blockHash b none
        kvEventQueue :=
          if cfg.enableKvCacheEvents then
            p.kvEventQueue ++ [.blockRemoved [cfg.maybeConvertBlockHash key.1] key.2]
          else p.kvEventQueue }

/-- One iteration of the loop of `get_new_blocks` over the popped blocks. -/
def claimBlock (p : BlockPool Q H X) (b : ℕ) : Except KvError (BlockPool Q H X) :=
  let p := if cfg.enableCaching then p.maybeEvictCachedBlock cfg b else p
  if p.refCnt b = 0 then .ok { p with refCnt := update p.refCnt b (p.refCnt b + 1) }
  else .error .refCntNotZero

/-- `BlockPool.get_new_blocks`. -/
def getNewBlocks (n : ℕ) (g : Option ℕ) (p : BlockPool Q H X) :
    Except KvError (List ℕ × BlockPool Q H X) :=
  if (n : ℤ) > p.getNumFreeBlocks cfg g then .error .noFreeBlocks
  else do
    let r ← cfg.forGroup g
    let (ret, queue) ← popleftN r n p.freeBlockQueue
    let p ← ret.foldlM (claimBlock cfg) { p with freeBlockQueue := queue }
    return (ret, p)

/-- A block without references is in the free queue and leaves it when touched. -/
def unqueue (p : BlockPool Q H X) (b : ℕ) : Except KvError Q :=
  if p.refCnt b = 0 ∧ b ≠ 0 then remove (cfg.rangeOf b) b p.freeBlockQueue
  else .ok p.freeBlockQueue

/-- One iteration of the loop of `touch`. -/
def touchBlock (p : BlockPool Q H X) (b : ℕ) : Except KvError (BlockPool Q H X) := do
  let queue ← unqueue cfg p b
  return { p with freeBlockQueue := queue, refCnt := update p.refCnt b (p.refCnt b + 1) }

/-- `BlockPool.touch`. -/
def touch (bs : List ℕ) (p : BlockPool Q H X) : Except KvError (BlockPool Q H X) :=
  bs.foldlM (touchBlock cfg) p

/-- The blocks of one range, for the queue of that range. -/
def inRange (r : BlockRange) (bs : List ℕ) : List ℕ := bs.filter (cfg.rangeOf · = r)

/-- `append_n` of the queue, or of both queues of a partitioned pool. A plain pool's blocks are all
in the history range. -/
def appendBlocks (bs : List ℕ) (q : Q) : Except KvError Q := do
  let q ← appendN .state (inRange cfg .state bs) q
  appendN .history (inRange cfg .history bs) q

/-- `prepend_n` of the queue, or of both queues of a partitioned pool. -/
def prependBlocks (bs : List ℕ) (q : Q) : Except KvError Q := do
  let q ← prependN .state (inRange cfg .state bs) q
  prependN .history (inRange cfg .history bs) q

/-- `block.ref_cnt -= 1` for every block of a list. -/
def decrementAll (bs : List ℕ) (refCnt : ℕ → ℤ) : ℕ → ℤ :=
  bs.foldl (fun ref b ↦ update ref b (ref b - 1)) refCnt

/-- The blocks of a list whose last reference went away. -/
def freedBlocks (bs : List ℕ) (refCnt : ℕ → ℤ) : List ℕ := bs.filter fun b ↦ refCnt b = 0 ∧ b ≠ 0

/-- Freed blocks return to the queue: with caching, those without a reusable prefix to its front. -/
def requeue (freed : List ℕ) (reuseFirst : Bool) (p : BlockPool Q H X) : Except KvError Q :=
  if cfg.enableCaching then do
    let q ← prependBlocks cfg
      (freed.filter fun b ↦ reuseFirst = true ∨ p.blockHash b = none) p.freeBlockQueue
    appendBlocks cfg (freed.filter fun b ↦ reuseFirst = false ∧ p.blockHash b ≠ none) q
  else appendBlocks cfg freed p.freeBlockQueue

/-- `BlockPool.free_blocks`. -/
def freeBlocks (bs : List ℕ) (reuseFirst : Bool) (p : BlockPool Q H X) :
    Except KvError (BlockPool Q H X) := do
  let refCnt := decrementAll bs p.refCnt
  let queue ← requeue cfg (freedBlocks bs refCnt) reuseFirst p
  return { p with refCnt := refCnt, freeBlockQueue := queue }

/-- `BlockPool.evict_blocks`. -/
def evictBlocks (ids : List ℕ) (p : BlockPool Q H X) : Except KvError (BlockPool Q H X) :=
  ids.foldlM (fun p b ↦ if b < cfg.numGpuBlocks then .ok (p.maybeEvictCachedBlock cfg b)
    else .error .assertion) p

/-- `BlockPool.reset_prefix_cache`. -/
def resetPrefixCache (p : BlockPool Q H X) : Bool × BlockPool Q H X :=
  if (cfg.numGpuBlocks : ℤ) - p.getNumFreeBlocks cfg none ≠ 1 then (false, p)
  else (true,
    { p with
      cachedBlockHashToBlock := .empty
      blockHash := fun b ↦ if b < cfg.numGpuBlocks then none else p.blockHash b
      kvEventQueue :=
        if cfg.enableKvCacheEvents then p.kvEventQueue ++ [.allBlocksCleared]
        else p.kvEventQueue })

/-- `BlockPool.take_events`. -/
def takeEvents (p : BlockPool Q H X) : List (KVCacheEvent H X) × BlockPool Q H X :=
  if cfg.enableKvCacheEvents then (p.kvEventQueue, { p with kvEventQueue := [] }) else ([], p)

end Calls

/-! ### Caching full blocks -/

section Cache

variable [DecidableEq H] (cfg : PoolConfig H X E)

/-- The arguments of `cache_full_blocks`. -/
structure CacheCall (H E : Type) where
  request : Request H E
  blocks : List ℕ
  numCachedBlocks : ℕ
  numFullBlocks : ℕ
  blockSize : ℕ
  kvCacheGroupId : ℕ
  blockMask : Option (List Bool)

section

variable (c : CacheCall H E)

/-- `new_full_blocks`. -/
def CacheCall.newFullBlocks : List ℕ :=
  (c.blocks.take c.numFullBlocks).drop c.numCachedBlocks

/-- `not block_mask[i]`, when there is a mask. -/
def CacheCall.masked (i : ℕ) : Bool :=
  match c.blockMask with
  | none => false
  | some mask => mask[i]? == some false

/-- The loop of `cache_full_blocks` over the new full blocks, from index `i` on; the second result
is `event_block_indices`. -/
def cacheLoop (newHashes : List H) :
    List ℕ → ℕ → BlockPool Q H X → Except KvError (BlockPool Q H X × List ℕ)
  | [], _, p => .ok (p, [])
  | b :: bs, i, p =>
    -- null and masked blocks stay out of the index
    if b = 0 ∨ c.masked i = true then cacheLoop newHashes bs (i + 1) p
    else if p.blockHash b ≠ none then .error .assertion
    else match newHashes[i]? with
      | none => .error .assertion
      | some h => do
        let key := (h, c.kvCacheGroupId)
        let p' :=
          { p with
            blockHash := update p.blockHash b (some key)
            cachedBlockHashToBlock := p.cachedBlockHashToBlock.insert key b }
        let (p'', indices) ← cacheLoop newHashes bs (i + 1) p'
        return (p'', (c.numCachedBlocks + i) :: indices)

/-- `groupby(enumerate(event_block_indices), lambda item: item[1] - item[0])`. -/
def indexRuns (indices : List ℕ) : List (List ℕ) :=
  (indices.zipIdx.splitBy fun x y ↦ (x.1 : ℤ) - x.2 == (y.1 : ℤ) - y.2).map (·.map Prod.fst)

/-- The extra keys of the blocks of a run, with the cursor that survives from run to run. -/
def runExtraKeys : List ℕ → ℤ → List (Option (List (ExtraKey H))) × ℤ
  | [], cur => ([], cur)
  | i :: is, cur =>
    let res := generateBlockHashExtraKeys cfg.sha256 c.request (i * c.blockSize)
      ((i + 1) * c.blockSize) cur
    let rest := runExtraKeys is res.2
    (res.1 :: rest.1, rest.2)

/-- The event of one run; the extra keys were computed before. -/
def storedEvent (hashes : List H) (run : List ℕ) (extraKeys : List (Option (List (ExtraKey H)))) :
    BlockStored H X :=
  let start := run.headD 0
  let stop := run.getLastD 0 + 1
  { blockHashes := run.filterMap fun i ↦ hashes[i]?.map cfg.maybeConvertBlockHash
    parentBlockHash :=
      if start > 0 then hashes[start - 1]?.map cfg.maybeConvertBlockHash else none
    tokenIds :=
      (c.request.allTokenIds.drop (start * c.blockSize)).take ((stop - start) * c.blockSize)
    blockSize := c.blockSize
    loraId := c.request.loraRequest.map (·.loraIntId)
    loraName := c.request.loraRequest.map (·.loraName)
    extraKeys := extraKeys
    groupIdx := c.kvCacheGroupId }

/-- The loop of `cache_full_blocks` over the runs. -/
def storedEvents (hashes : List H) : List (List ℕ) → ℤ → List (BlockStored H X)
  | [], _ => []
  | run :: runs, cur =>
    let keys := runExtraKeys cfg c run cur
    storedEvent cfg c hashes run keys.1 :: storedEvents hashes runs keys.2

/-- `BlockPool.cache_full_blocks`. -/
def cacheFullBlocks (p : BlockPool Q H X) : Except KvError (BlockPool Q H X) :=
  if c.numCachedBlocks ≥ c.numFullBlocks then .ok p
  else if c.request.blockHashes.length < c.numFullBlocks then .error .assertion
  else if c.blockMask.any (·.length ≠ c.newFullBlocks.length) then .error .assertion
  else do
    let hashes ← cfg.blockHashList c.blockSize c.request.blockHashes
    let (p, indices) ← cacheLoop c (hashes.drop c.numCachedBlocks) c.newFullBlocks 0 p
    return if cfg.enableKvCacheEvents then
        { p with
          kvEventQueue := p.kvEventQueue ++
            (storedEvents cfg c hashes (indexRuns indices) 0).map .blockStored }
      else p

end

end Cache

end BlockPool

/-! ### Calls -/

/-- A call of the pool. -/
inductive PoolCall (H E : Type)
  | getNewBlocks (n : ℕ) (g : Option ℕ)
  | touch (bs : List ℕ)
  | freeBlocks (bs : List ℕ) (reuseFirst : Bool)
  | cacheFullBlocks (c : BlockPool.CacheCall H E)
  | evictBlocks (ids : List ℕ)
  | resetPrefixCache
  | takeEvents

/-- A pool with what its callers have: the events they took, the references they hold and the
results of their allocations. -/
structure PoolState (Q H X : Type) where
  pool : BlockPool Q H X
  taken : List (KVCacheEvent H X)
  held : Multiset ℕ
  returned : List (List ℕ)

namespace PoolState

/-- The references of a list of blocks; the null block's are not counted. -/
def references (bs : List ℕ) : Multiset ℕ := ↑(bs.filter (· ≠ 0))

/-- The pool of a new engine. -/
def init (q : Q) : PoolState Q H X where
  pool := .init q
  taken := []
  held := 0
  returned := []

section

variable [FreeQueue Q] [DecidableEq H] (cfg : PoolConfig H X E) (s : PoolState Q H X)

/-- One call; it has no successor when it raises. -/
def call : PoolCall H E → Except KvError (PoolState Q H X)
  | .getNewBlocks n g => do
    let (ret, p) ← s.pool.getNewBlocks cfg n g
    return { s with pool := p, held := s.held + references ret, returned := s.returned ++ [ret] }
  | .touch bs => do
    let p ← s.pool.touch cfg bs
    return { s with pool := p, held := s.held + references bs }
  | .freeBlocks bs reuseFirst => do
    let p ← s.pool.freeBlocks cfg bs reuseFirst
    return { s with pool := p, held := s.held - references bs }
  | .cacheFullBlocks c => do
    let p ← s.pool.cacheFullBlocks cfg c
    return { s with pool := p }
  | .evictBlocks ids => do
    let p ← s.pool.evictBlocks cfg ids
    return { s with pool := p }
  | .resetPrefixCache => .ok { s with pool := (s.pool.resetPrefixCache cfg).2 }
  | .takeEvents =>
    .ok { s with pool := (s.pool.takeEvents cfg).2, taken := s.taken ++ (s.pool.takeEvents cfg).1 }

/-- One call as a transition. -/
def step (c : PoolCall H E) : Option (PoolState Q H X) := (s.call cfg c).toOption

end

end PoolState

end OneCatVllm
