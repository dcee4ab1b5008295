import Mathlib.Data.List.Sort
import OneCatVllm.Lib.Grid

/-!
# The lookup of offloaded blocks

How the scheduler side of the offloading connector finds the tokens of a request that can be loaded
from the offload tier. Full-attention groups need all blocks from the locally computed tokens on,
groups with a sliding window the blocks of their last window, Mamba groups one state. Each group may
lower the end of the hit, in steps of its own block size. A group that lowers it after a window was
looked up makes the window groups be looked up again, and a deferred answer that may not matter any
more makes all groups be looked up again.

The offload manager is a parameter: **any state and any answers**, which may differ from one lookup
of a key to the next.
-/

namespace OneCatVllm.Offload

open Grid

/-- What `OffloadingManager.lookup` returns: `True`, `False` or `None`. -/
inductive Answer
  | present
  | absent
  | deferred
  deriving DecidableEq

/-! ### Groups -/

/-- The kinds of cache specs that the connector tells apart; a window is given in tokens. -/
inductive GroupKind
  | fullAttention
  | slidingWindow (window : ℕ)
  | mamba
  deriving DecidableEq

/-- `GroupOffloadConfig`, with the fields that lookups read. -/
structure GroupOffloadConfig where
  groupIdx : ℕ
  offloadedBlockSize : ℕ
  kind : GroupKind
  deriving DecidableEq

namespace GroupOffloadConfig

/-- `get_sliding_window_size_in_blocks`: `none` for full attention. -/
def slidingWindowSizeInBlocks (g : GroupOffloadConfig) : Option ℕ :=
  match g.kind with
  | .fullAttention => none
  | .slidingWindow window => some (cdiv window g.offloadedBlockSize)
  | .mamba => some 1

/-- The sort key of `_sliding_window_groups`. -/
def slidingWindowSortKey (g : GroupOffloadConfig) : ℕ := g.slidingWindowSizeInBlocks.getD 0

end GroupOffloadConfig

/-- `SchedulerOffloadConfig`: the groups with a prefix cache, and the cache mode of all Mamba
groups, which have one block size in the mode `align` (asserted by `resolve_mamba_align_size`). -/
structure SchedulerOffloadConfig where
  kvGroupConfigs : List GroupOffloadConfig
  hashBlockSize : ℕ
  mambaAlign : Bool
  hashBlockSize_pos : 0 < hashBlockSize
  dvd : ∀ g ∈ kvGroupConfigs, hashBlockSize ∣ g.offloadedBlockSize
  pos : ∀ g ∈ kvGroupConfigs, 0 < g.offloadedBlockSize
  window_pos : ∀ g ∈ kvGroupConfigs, ∀ window, g.kind = .slidingWindow window → 0 < window
  nodup : (kvGroupConfigs.map GroupOffloadConfig.groupIdx).Nodup
  aligned : mambaAlign = true → ∀ g ∈ kvGroupConfigs, ∀ g' ∈ kvGroupConfigs,
    g.kind = .mamba → g'.kind = .mamba → g.offloadedBlockSize = g'.offloadedBlockSize

namespace SchedulerOffloadConfig

variable (cfg : SchedulerOffloadConfig)

/-- `resolve_mamba_align_size`. -/
def mambaAlignSize : Option ℕ :=
  if cfg.mambaAlign then
    (cfg.kvGroupConfigs.find? (·.kind = .mamba)).map GroupOffloadConfig.offloadedBlockSize
  else none

/-- `_eagle_state_shift`. -/
def eagleStateShift (useEagle : Bool) : Option ℕ := if useEagle then cfg.mambaAlignSize else none

def fullAttentionGroups : List GroupOffloadConfig :=
  cfg.kvGroupConfigs.filter (·.slidingWindowSizeInBlocks.isNone)

/-- `_sliding_window_groups`: the largest windows first. -/
def slidingWindowGroups : List GroupOffloadConfig :=
  (cfg.kvGroupConfigs.filter (·.slidingWindowSizeInBlocks.isSome)).insertionSort
    fun g g' ↦ g'.slidingWindowSortKey ≤ g.slidingWindowSortKey

/-- `_lookup_groups`. -/
def lookupGroups : List GroupOffloadConfig := cfg.fullAttentionGroups ++ cfg.slidingWindowGroups

end SchedulerOffloadConfig

/-! ### Keys -/

/-- A request, with one hash for each full hash block. -/
structure OffloadRequest (cfg : SchedulerOffloadConfig) (H : Type) where
  numTokens : ℕ
  blockHashes : List H
  length_blockHashes : blockHashes.length = numTokens / cfg.hashBlockSize

/-- A key: a block hash and a group, as packed by `make_offload_key`. -/
abbrev OffloadKey (H : Type) := H × ℕ

variable {cfg : SchedulerOffloadConfig} {H M : Type}

/-- `offload_keys` of a group, after `update_offload_keys`: the last hash of every offloaded
block. -/
def OffloadRequest.offloadKeys (req : OffloadRequest cfg H) (g : GroupOffloadConfig) :
    List (OffloadKey H) :=
  let hashBlockSizeFactor := g.offloadedBlockSize / cfg.hashBlockSize
  (List.range (req.blockHashes.length / hashBlockSizeFactor)).filterMap fun i ↦
    req.blockHashes[hashBlockSizeFactor * i + hashBlockSizeFactor - 1]?.map (·, g.groupIdx)

/-! ### The lookup of one group -/

section Lookup

variable {Key : Type} (lookup : M → Key → Answer × M)

/-- The loop of `_maximal_prefix_lookup`. Deferred blocks count as hits, to start their lookups. -/
def maximalPrefixLoop : List Key → ℕ → Bool → M → Option ℕ × M
  | [], hitCount, deferLookup, m => (if deferLookup then none else some hitCount, m)
  | key :: keys, hitCount, deferLookup, m =>
    match lookup m key with
    | (.present, m) => maximalPrefixLoop keys (hitCount + 1) deferLookup m
    | (.deferred, m) => maximalPrefixLoop keys (hitCount + 1) true m
    | (.absent, m) => (if deferLookup then none else some hitCount, m)

/-- `_maximal_prefix_lookup`: the number of hits from the start. -/
def maximalPrefixLookup (keys : List Key) (m : M) : Option ℕ × M :=
  maximalPrefixLoop lookup keys 0 false m

/-- The loop of `_sliding_window_lookup`, from the last key to the first. -/
def slidingWindowLoop (slidingWindowSize : ℕ) : List Key → ℕ → Bool → M → Option ℕ × M
  | [], consecutiveHits, deferLookup, m => (if deferLookup then none else some consecutiveHits, m)
  | key :: keys, consecutiveHits, deferLookup, m =>
    match lookup m key with
    | (.present, m) =>
      if consecutiveHits + 1 = slidingWindowSize then
        (if deferLookup then none else some (keys.length + slidingWindowSize), m)
      else slidingWindowLoop slidingWindowSize keys (consecutiveHits + 1) deferLookup m
    | (.deferred, m) => slidingWindowLoop slidingWindowSize keys 0 true m
    | (.absent, m) => slidingWindowLoop slidingWindowSize keys 0 deferLookup m

/-- `_sliding_window_lookup`: the end of the last window of hits. -/
def slidingWindowLookup (slidingWindowSize : ℕ) (keys : List Key) (m : M) : Option ℕ × M :=
  slidingWindowLoop lookup slidingWindowSize keys.reverse 0 false m

/-- The lookup of one group. -/
def groupLookup (g : GroupOffloadConfig) (keys : List Key) (m : M) : Option ℕ × M :=
  match g.slidingWindowSizeInBlocks with
  | none => maximalPrefixLookup lookup keys m
  | some size => slidingWindowLookup lookup size keys m

end Lookup

/-! ### All groups -/

/-- Which groups are looked up again: the next value of `lookup_groups`. -/
inductive Rerun
  | done
  | slidingWindow
  | all
  deriving DecidableEq

/-- The variables of `_lookup`. -/
structure LookupState where
  maxHitSizeTokens : ℕ
  numHitTokens : ℕ := 0
  deferLookup : Bool := false
  eagleStateShift : Option ℕ
  lookupGroups : Rerun := .done
  lookedUpSlidingWindow : Bool := false
  externalFullAttentionHitTokens : ℕ := 0
  deriving DecidableEq

namespace LookupState

/-- The start of a pass. -/
def startPass (st : LookupState) : LookupState :=
  { st with lookupGroups := .done, lookedUpSlidingWindow := false }

/-- The end of the hit before a group is looked up: with EAGLE the first window group moves it to
the state before, and it does not lie behind the keys of the group. -/
def startGroup (g : GroupOffloadConfig) (numKeys : ℕ) (st : LookupState) : LookupState :=
  let st := match st.eagleStateShift, g.slidingWindowSizeInBlocks with
    | some shift, some _ => { st with
        maxHitSizeTokens := st.maxHitSizeTokens / shift * shift - shift
        eagleStateShift := none }
    | _, _ => st
  { st with maxHitSizeTokens := min st.maxHitSizeTokens (numKeys * g.offloadedBlockSize) }

/-- What the lookup of a group says: a deferred lookup, or the end of its hit. -/
def confirm (g : GroupOffloadConfig) (startBlockIdx : ℕ) (numHitBlocks : Option ℕ)
    (st : LookupState) : LookupState :=
  match numHitBlocks with
  | none => { st with deferLookup := true }
  | some numHitBlocks =>
    let groupHitTokens := g.offloadedBlockSize * (startBlockIdx + numHitBlocks)
    { st with
      maxHitSizeTokens := min st.maxHitSizeTokens groupHitTokens
      externalFullAttentionHitTokens :=
        if g.slidingWindowSizeInBlocks.isNone then
          max st.externalFullAttentionHitTokens groupHitTokens
        else st.externalFullAttentionHitTokens }

/-- Which groups have to be looked up again when the hit has become shorter. -/
def reschedule (newNumHitTokens : ℕ) (st : LookupState) : LookupState :=
  if newNumHitTokens < st.numHitTokens then
    if st.deferLookup then { st with deferLookup := false, lookupGroups := .all }
    else if st.lookedUpSlidingWindow ∧ st.lookupGroups = .done then
      { st with lookupGroups := .slidingWindow }
    else st
  else st

/-- The end of the body of the inner loop. -/
def finishGroup (g : GroupOffloadConfig) (newNumHitTokens : ℕ) (st : LookupState) : LookupState :=
  { st.reschedule newNumHitTokens with
    lookedUpSlidingWindow := st.lookedUpSlidingWindow || g.slidingWindowSizeInBlocks.isSome
    numHitTokens := newNumHitTokens }

end LookupState

variable (lookup : M → OffloadKey H → Answer × M) (req : OffloadRequest cfg H)
  (numComputedTokens : ℕ)

/-- The keys of a group that are looked up. -/
def OffloadRequest.lookupKeys (g : GroupOffloadConfig) (maxHitSizeTokens : ℕ) :
    List (OffloadKey H) :=
  let offloadKeys := req.offloadKeys g
  let numBlocks := min (cdiv maxHitSizeTokens g.offloadedBlockSize) offloadKeys.length
  (offloadKeys.take numBlocks).drop (numComputedTokens / g.offloadedBlockSize)

/-- The body of the inner loop of `_lookup`; `none` when it returns zero. -/
def lookupGroup (g : GroupOffloadConfig) (st : LookupState) (m : M) : Option LookupState × M :=
  let st := st.startGroup g (req.offloadKeys g).length
  if st.maxHitSizeTokens - numComputedTokens < g.offloadedBlockSize then (none, m)
  else
    let (numHitBlocks, m) :=
      groupLookup lookup g (req.lookupKeys numComputedTokens g st.maxHitSizeTokens) m
    if numHitBlocks = some 0 then (none, m)
    else
      let st := st.confirm g (numComputedTokens / g.offloadedBlockSize) numHitBlocks
      let newNumHitTokens := st.maxHitSizeTokens - numComputedTokens
      if newNumHitTokens < g.offloadedBlockSize then (none, m)
      else (some (st.finishGroup g newNumHitTokens), m)

/-- The inner loop. -/
def lookupPass : List GroupOffloadConfig → LookupState → M → Option LookupState × M
  | [], st, m => (some st, m)
  | g :: gs, st, m =>
    match lookupGroup lookup req numComputedTokens g st m with
    | (none, m) => (none, m)
    | (some st, m) => lookupPass gs st m

/-- The groups of the next pass. -/
def Rerun.groups (cfg : SchedulerOffloadConfig) : Rerun → List GroupOffloadConfig
  | .done => []
  | .slidingWindow => cfg.slidingWindowGroups
  | .all => cfg.lookupGroups

/-- The outer loop, for at most the given number of passes; `none` when zero is returned or the
passes are used up. -/
def lookupPasses : ℕ → List GroupOffloadConfig → LookupState → M → Option LookupState × M
  | _, [], st, m => (some st, m)
  | 0, _ :: _, _, m => (none, m)
  | passes + 1, g :: gs, st, m =>
    match lookupPass lookup req numComputedTokens (g :: gs) st.startPass m with
    | (none, m) => (none, m)
    | (some st, m) => lookupPasses passes (st.lookupGroups.groups cfg) st m

/-- The outer loop as the source has it, without a bound: it ends, and with which result. -/
inductive LoopEnds : List GroupOffloadConfig → LookupState → M → Option LookupState × M → Prop
  | done (st m) : LoopEnds [] st m (some st, m)
  | zero {g gs st m m'} :
      lookupPass lookup req numComputedTokens (g :: gs) st.startPass m = (none, m') →
      LoopEnds (g :: gs) st m (none, m')
  | again {g gs st m st' m' res} :
      lookupPass lookup req numComputedTokens (g :: gs) st.startPass m = (some st', m') →
      LoopEnds (st'.lookupGroups.groups cfg) st' m' res → LoopEnds (g :: gs) st m res

/-- The end of the hit at the start: with window groups the last token is computed again, and Mamba
states exist at block boundaries. -/
def OffloadRequest.initialHitSize : ℕ :=
  if cfg.slidingWindowGroups = [] then req.numTokens
  else
    match cfg.mambaAlignSize with
    | none => req.numTokens - 1
    | some size => (req.numTokens - 1) / size * size

/-- The variables before the first pass. -/
def OffloadRequest.initialState (useEagle : Bool) : LookupState where
  maxHitSizeTokens := req.initialHitSize
  eagleStateShift := cfg.eagleStateShift useEagle

/-- The keys that a hit would load. -/
def OffloadRequest.hitKeys (numHitTokens : ℕ) (g : GroupOffloadConfig) : List (OffloadKey H) :=
  let numBlocks := cdiv (numComputedTokens + numHitTokens) g.offloadedBlockSize
  let keys := ((req.offloadKeys g).take numBlocks).drop (numComputedTokens / g.offloadedBlockSize)
  match g.slidingWindowSizeInBlocks with
  | none => keys
  | some size => keys.drop (keys.length - size)

/-- **`_lookup`**: the number of tokens that can be loaded, or `none` when the request has to wait.
Every pass but the last shortens the hit, so that there are at most as many passes as tokens. -/
def lookupTokens [DecidableEq H] (useEagle : Bool) (blocksBeingLoaded : List (OffloadKey H))
    (m : M) : Option ℕ × M :=
  match lookupPasses lookup req numComputedTokens (req.numTokens + 1) cfg.lookupGroups
      (req.initialState useEagle) m with
  | (none, m) => (some 0, m)
  | (some st, m) =>
    if st.deferLookup then (none, m)
    else if ∃ g ∈ cfg.kvGroupConfigs, ∃ key ∈ req.hitKeys numComputedTokens st.numHitTokens g,
        key ∈ blocksBeingLoaded then (none, m)
    else (some st.numHitTokens, m)

end OneCatVllm.Offload
