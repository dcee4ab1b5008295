import Mathlib.Data.Multiset.Filter
import OneCatVllm.Lib.Blocks
import OneCatVllm.Lib.Transition
import OneCatVllm.Kv.PoolSpec

/-!
# The prefix index and its events

**Exactness.** A block is listed in the index under a key exactly when the key is its block hash.

**Replay.** A listener keeps the multiset of the pairs (group, hash) it was told about. It always
holds one pair for every cached block, so its view and the pool's agree after every call.

Both are kept by every call of the pool, whatever its arguments and its queues: nothing here depends
on reference counts.
-/

namespace OneCatVllm

open BlockHashToBlockMap BlockPool Fallible Function List Nat Transition

variable {Q H X E : Type} {α β : Type*}

/-! ### Keys -/

variable {key : H × ℕ} {b : ℕ}

namespace BlockHashToBlockMap

/-- The blocks of an entry. -/
def entryBlocks : Option CachedBlocks → List ℕ
  | none => []
  | some (.one b) => [b]
  | some (.many bs) => bs

/-- The blocks listed under a key. -/
def blocks (m : BlockHashToBlockMap H) (key : H × ℕ) : List ℕ := entryBlocks (m key)

@[simp] theorem blocks_empty (key : H × ℕ) : blocks (empty : BlockHashToBlockMap H) key = [] := rfl

variable [DecidableEq H] {m : BlockHashToBlockMap H} {key' : H × ℕ} {b' : ℕ}

theorem mem_blocks_update {v : Option CachedBlocks} {P : Prop}
    (hv : key' = key → (b' ∈ entryBlocks v ↔ P)) (hne : key' ≠ key → (b' ∈ m.blocks key' ↔ P)) :
    b' ∈ blocks (update m key v) key' ↔ P := by
  rw [blocks, update_apply]
  split_ifs with h
  · exact hv h
  · exact hne h

theorem mem_blocks_insert :
    b' ∈ blocks (m.insert key b) key' ↔ (key' = key ∧ b' = b) ∨ b' ∈ m.blocks key' := by
  have hother : key' ≠ key → (b' ∈ m.blocks key' ↔ (key' = key ∧ b' = b) ∨ b' ∈ m.blocks key') :=
    fun hne ↦ ⟨.inr, fun h ↦ h.resolve_left fun h ↦ hne h.1⟩
  unfold insert
  rcases hm : m key with - | ⟨b₀ | bs⟩
  · refine mem_blocks_update (fun hk ↦ ?_) hother
    simp [hk, blocks, hm, entryBlocks]
  · refine mem_blocks_update (fun hk ↦ ?_) hother
    by_cases hb : b₀ = b
    · simp [hk, blocks, hm, entryBlocks, hb]
    · simp [hk, blocks, hm, entryBlocks, hb, or_comm]
  · refine mem_blocks_update (fun hk ↦ ?_) hother
    by_cases hb : b ∈ bs
    · simp only [hk, blocks, hm, entryBlocks, if_pos hb, true_and]
      exact ⟨.inr, fun h ↦ h.elim (fun he ↦ he ▸ hb) fun h ↦ h⟩
    · simp [hk, blocks, hm, entryBlocks, hb, or_comm]

theorem pop_fst : (m.pop key b).1 = decide (b ∈ m.blocks key) := by
  unfold pop blocks
  rcases m key with - | ⟨b₀ | bs⟩
  · rfl
  · by_cases hb : b₀ = b
    · simp [hb, entryBlocks]
    · simp [hb, Ne.symm hb, entryBlocks]
  · rfl

theorem mem_blocks_pop :
    b' ∈ blocks (m.pop key b).2 key' ↔ b' ∈ m.blocks key' ∧ ¬ (key' = key ∧ b' = b) := by
  have hother : key' ≠ key → (b' ∈ m.blocks key' ↔ b' ∈ m.blocks key' ∧ ¬ (key' = key ∧ b' = b)) :=
    fun hne ↦ ⟨fun h ↦ ⟨h, fun h ↦ hne h.1⟩, And.left⟩
  unfold pop
  rcases hm : m key with - | ⟨b₀ | bs⟩
  · refine ⟨fun h ↦ ⟨h, ?_⟩, And.left⟩
    rintro ⟨rfl, -⟩
    simp [blocks, hm, entryBlocks] at h
  · by_cases hb : b₀ = b
    · simp only [hb, if_true]
      refine mem_blocks_update (fun hk ↦ ?_) hother
      simp [hk, blocks, hm, entryBlocks, hb]
    · simp only [hb, if_false]
      refine ⟨fun h ↦ ⟨h, ?_⟩, And.left⟩
      rintro ⟨rfl, rfl⟩
      simp [blocks, hm, entryBlocks, Ne.symm hb] at h
  · refine mem_blocks_update (fun hk ↦ ?_) hother
    have hrest : entryBlocks (if bs.filter (· ≠ b) = [] then none
        else some (.many (bs.filter (· ≠ b)))) = bs.filter (· ≠ b) := by
      split_ifs with hnil
      · exact hnil.symm
      · rfl
    rw [hrest]
    simp [hk, blocks, hm, entryBlocks]

end BlockHashToBlockMap

variable {cfg : PoolConfig H X E} {p : BlockPool Q H X}

namespace BlockPool

variable [DecidableEq H]

/-- A block that is listed under its hash is evicted. -/
theorem maybeEvictCachedBlock_of_listed (hb : p.blockHash b = some key)
    (hmem : b ∈ p.cachedBlockHashToBlock.blocks key) :
    p.maybeEvictCachedBlock cfg b =
      { p with
        cachedBlockHashToBlock := (p.cachedBlockHashToBlock.pop key b).2
        blockHash := update p.blockHash b none
        kvEventQueue :=
          if cfg.enableKvCacheEvents then
            p.kvEventQueue ++ [.blockRemoved [cfg.maybeConvertBlockHash key.1] key.2]
          else p.kvEventQueue } := by
  have hpop : p.cachedBlockHashToBlock.pop key b = (true, (p.cachedBlockHashToBlock.pop key b).2) :=
    Prod.ext (by rw [pop_fst, decide_eq_true hmem]) rfl
  rw [maybeEvictCachedBlock, hb]
  simp only
  rw [hpop]

end BlockPool

/-! ### The listener -/

/-- The pair that stands for a key in events. -/
def PoolConfig.pairOf (cfg : PoolConfig H X E) (key : H × ℕ) : ℕ × X :=
  (key.2, cfg.maybeConvertBlockHash key.1)

/-- **The cached pairs**: one for every block with a hash. -/
def cachedPairs (cfg : PoolConfig H X E) (blockHash : ℕ → Option (H × ℕ)) : Multiset (ℕ × X) :=
  ↑((range cfg.numGpuBlocks).filterMap fun b ↦ (blockHash b).map cfg.pairOf)

theorem filterMap_perm_cons {l : List α} (hl : l.Nodup) {a : α} (ha : a ∈ l) {f g : α → Option β}
    {x : β} (hfa : f a = none) (hga : g a = some x) (hother : ∀ b, b ≠ a → g b = f b) :
    (l.filterMap g).Perm (x :: l.filterMap f) := by
  obtain ⟨l₁, l₂, rfl⟩ := append_of_mem ha
  have hnotMem : a ∉ l₁ ++ l₂ := (nodup_middle.1 hl).notMem
  have hcongr : (l₁ ++ l₂).filterMap g = (l₁ ++ l₂).filterMap f :=
    filterMap_congr fun b hb ↦ hother b fun hba ↦ hnotMem (hba ▸ hb)
  rw [filterMap_append, filterMap_append] at hcongr
  rw [filterMap_append, filterMap_cons_some hga, filterMap_append,
    filterMap_cons_none hfa, ← hcongr]
  exact perm_middle

variable {blockHash : ℕ → Option (H × ℕ)} {start len : ℕ} {c : CacheCall H E} {hashes : List H}
  {bs : List ℕ}

/-- A block that enters the index adds its pair. -/
theorem cachedPairs_update_some (hlt : b < cfg.numGpuBlocks) (hnone : blockHash b = none) :
    cachedPairs cfg (update blockHash b (some key)) =
      cfg.pairOf key ::ₘ cachedPairs cfg blockHash := by
  refine Multiset.coe_eq_coe.2 (filterMap_perm_cons nodup_range (mem_range.2 hlt) ?_ ?_ ?_)
  · rw [hnone]
    rfl
  · rw [update_self]
    rfl
  · intro b' hb'
    rw [update_of_ne hb']

/-- A block that leaves the index takes its pair away. -/
theorem cachedPairs_update_none (hlt : b < cfg.numGpuBlocks) (hsome : blockHash b = some key) :
    cachedPairs cfg blockHash = cfg.pairOf key ::ₘ cachedPairs cfg (update blockHash b none) := by
  rw [← cachedPairs_update_some hlt (update_self ..), update_idem, ← hsome, update_eq_self]

section Listener

variable [DecidableEq X]

/-- A listener that is told of one event. -/
def replay (pairs : Multiset (ℕ × X)) : KVCacheEvent H X → Multiset (ℕ × X)
  | .blockStored e => pairs + ↑(e.blockHashes.map (e.groupIdx, ·))
  | .blockRemoved hashes g => pairs - ↑(hashes.map (g, ·))
  | .allBlocksCleared => 0

/-- What a listener holds after a sequence of events. -/
def replayAll (events : List (KVCacheEvent H X)) : Multiset (ℕ × X) := events.foldl replay 0

theorem replayAll_append_singleton (events : List (KVCacheEvent H X)) (e : KVCacheEvent H X) :
    replayAll (events ++ [e]) = replay (replayAll events) e := by
  rw [replayAll, foldl_append]
  rfl

end Listener

/-! ### Stored runs -/

/-- **A stored run.** The event describes the blocks `start, …, start + len - 1` of a caching call:
their hashes, their tokens, and as parent the hash of the block before them. Each of them is a
non-null block of the call. -/
structure DescribesRun (cfg : PoolConfig H X E) (c : CacheCall H E) (hashes : List H)
    (start len : ℕ) (e : BlockStored H X) : Prop where
  len_pos : 0 < len
  inHashes : start + len ≤ hashes.length
  blockHashes : e.blockHashes = ((hashes.drop start).take len).map cfg.maybeConvertBlockHash
  tokenIds : e.tokenIds =
    ((range' start len).map (Blocks.blockAt c.blockSize c.request.allTokenIds)).flatten
  parent : e.parentBlockHash =
    if start = 0 then none else hashes[start - 1]?.map cfg.maybeConvertBlockHash
  groupIdx : e.groupIdx = c.kvCacheGroupId
  blocks : ∀ i, start ≤ i → i < start + len → ∃ b, c.blocks[i]? = some b ∧ b ≠ 0

/-- The event describes a run of one of the caching calls that were made. -/
def StoredRun (cfg : PoolConfig H X E) (made : CacheCall H E → Prop) (e : BlockStored H X) : Prop :=
  ∃ (c : CacheCall H E) (hashes : List H) (start len : ℕ), made c ∧
    cfg.blockHashList c.blockSize c.request.blockHashes = .ok hashes ∧
    DescribesRun cfg c hashes start len e

theorem isChain_zipIdx (l : List α) (n : ℕ) : (l.zipIdx n).IsChain fun x y ↦ y.2 = x.2 + 1 := by
  have hplaces := isChain_range' n l.length 1
  rwa [← zipIdx_map_snd, isChain_map] at hplaces

theorem eq_range'_of_isChain {a : ℕ} {l : List ℕ} (h : (a :: l).IsChain fun x y ↦ y = x + 1) :
    a :: l = range' a (l.length + 1) := by
  induction l generalizing a with
  | nil => rfl
  | cons a' l ih =>
    obtain ⟨rfl, hrest⟩ := isChain_cons_cons.1 h
    exact congrArg (cons a) (ih hrest)

/-- The runs split the indices. -/
theorem flatten_indexRuns (indices : List ℕ) : (indexRuns indices).flatten = indices := by
  rw [indexRuns, ← map_flatten, flatten_splitBy, zipIdx_map_fst]

/-- **Every run is an interval.** Neighbours of a group have equal differences of index and place,
and their places are one apart. -/
theorem exists_eq_range' {indices run : List ℕ} (h : run ∈ indexRuns indices) :
    ∃ start len, 0 < len ∧ run = range' start len := by
  obtain ⟨group, hgroup, rfl⟩ := mem_map.1 h
  have hplaces : group.IsChain fun x y ↦ y.2 = x.2 + 1 := by
    refine IsChain.infix (isChain_zipIdx indices 0) ?_
    have hinfix := infix_of_mem_flatten hgroup
    rwa [flatten_splitBy] at hinfix
  have hkeys := isChain_of_mem_splitBy hgroup
  have hstep : (group.map Prod.fst).IsChain fun x y ↦ y = x + 1 := by
    rw [isChain_map]
    refine isChain_iff_getElem.2 fun i hi ↦ ?_
    have hplace := isChain_iff_getElem.1 hplaces i hi
    have hkey := eq_of_beq (isChain_iff_getElem.1 hkeys i hi)
    omega
  rcases hrun : group.map Prod.fst with - | ⟨a, l⟩
  · exact absurd (map_eq_nil_iff.1 hrun) (ne_nil_of_mem_splitBy hgroup)
  · rw [hrun] at hstep
    exact ⟨a, l.length + 1, succ_pos _, eq_range'_of_isChain hstep⟩

/-- The hashes of an interval of blocks. -/
theorem filterMap_range' (f : α → β) (l : List α) (h : start + len ≤ l.length) :
    ((range' start len).filterMap fun i ↦ l[i]?.map f) = ((l.drop start).take len).map f := by
  induction len generalizing start with
  | zero => rfl
  | succ len ih =>
    have hlt : start < l.length := by omega
    rw [range'_succ, filterMap_cons_some
        (by rw [getElem?_eq_getElem hlt]; rfl), ih (by omega),
      drop_eq_getElem_cons hlt, take_succ_cons, map_cons]

/-- The tokens of an interval of blocks. -/
theorem take_drop_eq_flatten (l : List α) (size start len : ℕ) :
    (l.drop (start * size)).take (len * size) =
      ((range' start len).map (Blocks.blockAt size l)).flatten := by
  induction len generalizing start with
  | zero => simp
  | succ len ih =>
    rw [range'_succ, map_cons, flatten_cons, ← ih, succ_mul, add_comm,
      take_add, drop_drop, ← succ_mul]
    rfl

theorem describesRun_storedEvent (hlen : 0 < len) (hhashes : start + len ≤ hashes.length)
    (hblocks : ∀ i, start ≤ i → i < start + len → ∃ b, c.blocks[i]? = some b ∧ b ≠ 0)
    (keys : List (Option (List (ExtraKey H)))) :
    DescribesRun cfg c hashes start len (storedEvent cfg c hashes (range' start len) keys) := by
  obtain ⟨n, rfl⟩ : ∃ n, len = n + 1 := ⟨len - 1, by omega⟩
  have hstart : (range' start (n + 1)).headD 0 = start := rfl
  have hstop : (range' start (n + 1)).getLastD 0 + 1 = start + (n + 1) := by
    rw [range'_concat, getLastD_concat]
    omega
  refine ⟨hlen, hhashes, filterMap_range' _ _ hhashes, ?_, ?_, rfl, hblocks⟩
  · show (c.request.allTokenIds.drop (_ * c.blockSize)).take ((_ - _) * c.blockSize) = _
    rw [hstop, hstart, Nat.add_sub_cancel_left, take_drop_eq_flatten]
  · show (if _ > 0 then _ else _) = _
    rw [hstart]
    rcases Nat.eq_zero_or_pos start with rfl | hpos
    · rfl
    · rw [if_pos hpos, if_neg hpos.ne']

/-! ### What every call keeps -/

/-- **Exactness.** Every key lists exactly the blocks that have it as hash. -/
def IndexExact (p : BlockPool Q H X) : Prop :=
  ∀ key b, b ∈ p.cachedBlockHashToBlock.blocks key ↔ p.blockHash b = some key

/-- **Exactness and replay**, for the events taken so far and those still queued. -/
structure Tracked [DecidableEq X] (cfg : PoolConfig H X E) (made : CacheCall H E → Prop)
    (taken : List (KVCacheEvent H X)) (p : BlockPool Q H X) : Prop where
  exact : IndexExact p
  cached_lt : ∀ b, p.blockHash b ≠ none → b < cfg.numGpuBlocks
  replayed : cfg.enableKvCacheEvents = true →
    replayAll (taken ++ p.kvEventQueue) = cachedPairs cfg p.blockHash
  stored : ∀ e, KVCacheEvent.blockStored e ∈ taken ++ p.kvEventQueue → StoredRun cfg made e

variable {made : CacheCall H E → Prop} {taken : List (KVCacheEvent H X)} {p' : BlockPool Q H X}

namespace Tracked

variable [DecidableEq X]

variable [DecidableEq H]

theorem maybeEvictCachedBlock (h : Tracked cfg made taken p) (b : ℕ) :
    Tracked cfg made taken (p.maybeEvictCachedBlock cfg b) := by
  rcases hb : p.blockHash b with - | key
  · rwa [BlockPool.maybeEvictCachedBlock, hb]
  rw [maybeEvictCachedBlock_of_listed hb ((h.exact key b).2 hb)]
  refine ⟨fun key' b' ↦ ?_, fun b' hb' ↦ ?_, fun hevents ↦ ?_, fun e he ↦ ?_⟩
  · rw [mem_blocks_pop, h.exact]
    rcases eq_or_ne b' b with rfl | hne
    · rw [hb]
      simp [eq_comm]
    · simp [hne]
  · rcases eq_or_ne b' b with rfl | hne
    · exact absurd (update_self ..) hb'
    · exact h.cached_lt b' fun hnone ↦ hb' ((update_of_ne hne ..).trans hnone)
  · -- The event takes away the pair of the block that left.
    have hlt : b < cfg.numGpuBlocks := h.cached_lt b (by rw [hb]; exact Option.some_ne_none key)
    rw [if_pos hevents, ← append_assoc, replayAll_append_singleton, h.replayed hevents,
      cachedPairs_update_none hlt hb]
    show (cfg.pairOf key ::ₘ _) - {cfg.pairOf key} = _
    rw [Multiset.sub_singleton, Multiset.erase_cons_head]
  · refine h.stored e ?_
    split_ifs at he with hevents
    · simpa using he
    · exact he

end Tracked

/-! ### Caching -/

section

variable (cfg : PoolConfig H X E) (c : CacheCall H E) (hashes : List H)

/-- The pair of the block at an index of a caching call. -/
def indexPair (k : ℕ) : Option (ℕ × X) :=
  hashes[k]?.map fun h ↦ cfg.pairOf (h, c.kvCacheGroupId)

/-- What the caching loop does from index `i` on: each block it enters is one of the call's non-null
blocks and adds its pair. -/
structure CacheLoopSpec (bs : List ℕ) (i : ℕ) (p p' : BlockPool Q H X) (indices : List ℕ) :
    Prop where
  events : p'.kvEventQueue = p.kvEventQueue
  exact : IndexExact p → IndexExact p'
  cached_lt : (∀ b, p.blockHash b ≠ none → b < cfg.numGpuBlocks) →
    ∀ b, p'.blockHash b ≠ none → b < cfg.numGpuBlocks
  pairs : cachedPairs cfg p'.blockHash =
    cachedPairs cfg p.blockHash + ↑(indices.filterMap (indexPair cfg c hashes))
  indices : ∀ k ∈ indices, k < hashes.length ∧
    ∃ j b, k = c.numCachedBlocks + (i + j) ∧ bs[j]? = some b ∧ b ≠ 0

end

theorem cacheLoop_spec [DecidableEq H] {i : ℕ} {p p' : BlockPool Q H X} {indices : List ℕ}
    (hbs : ∀ b ∈ bs, b < cfg.numGpuBlocks)
    (h : cacheLoop c (hashes.drop c.numCachedBlocks) bs i p = .ok (p', indices)) :
    CacheLoopSpec cfg c hashes bs i p p' indices := by
  induction bs generalizing i p indices with
  | nil =>
    cases h
    refine ⟨rfl, id, fun h ↦ h, ?_, nofun⟩
    rw [filterMap_nil, Multiset.coe_nil, Multiset.add_zero]
  | cons b bs ih =>
    have hrest : ∀ b ∈ bs, b < cfg.numGpuBlocks := fun b hb ↦ hbs b (mem_cons_of_mem _ hb)
    -- The indices of the remaining blocks.
    have hshift : ∀ {k : ℕ},
        (∃ j b', k = c.numCachedBlocks + (i + 1 + j) ∧ bs[j]? = some b' ∧ b' ≠ 0) →
        ∃ j b', k = c.numCachedBlocks + (i + j) ∧ (b :: bs)[j]? = some b' ∧ b' ≠ 0 := by
      rintro k ⟨j, b', rfl, hb'⟩
      exact ⟨j + 1, b', by omega, hb'⟩
    unfold cacheLoop at h
    by_cases hskip : b = 0 ∨ c.masked i = true
    · rw [if_pos hskip] at h
      obtain ⟨he, hx, hlt, hp, hi⟩ := ih hrest h
      exact ⟨he, hx, hlt, hp, fun k hk ↦ ⟨(hi k hk).1, hshift (hi k hk).2⟩⟩
    rw [if_neg hskip] at h
    by_cases hhash : p.blockHash b ≠ none
    · rw [if_pos hhash] at h
      cases h
    rw [if_neg hhash] at h
    have hnone : p.blockHash b = none := not_not.1 hhash
    rcases hget : (hashes.drop c.numCachedBlocks)[i]? with - | hash
    · rw [hget] at h
      cases h
    rw [hget] at h
    obtain ⟨⟨p₁, rest⟩, hloop, hret⟩ := bind_eq_ok.1 h
    cases hret
    obtain ⟨he, hx, hlt, hp, hi⟩ := ih hrest hloop
    have hget' : hashes[c.numCachedBlocks + i]? = some hash := by rw [← getElem?_drop, hget]
    refine ⟨he, fun hexact ↦ hx fun key b' ↦ ?_, fun h ↦ hlt fun b' hb' ↦ ?_, ?_, ?_⟩
    · -- The new key of the block; no other key had it.
      rw [mem_blocks_insert, hexact key b']
      rcases eq_or_ne b' b with rfl | hne
      · rw [hnone]
        simp [eq_comm]
      · simp [hne]
    · rcases eq_or_ne b' b with rfl | hne
      · exact hbs b' mem_cons_self
      · exact h b' fun hnone ↦ hb' ((update_of_ne hne ..).trans hnone)
    · have hpair : indexPair cfg c hashes (c.numCachedBlocks + i) =
          some (cfg.pairOf (hash, c.kvCacheGroupId)) := by rw [indexPair, hget']; rfl
      rw [hp, cachedPairs_update_some (hbs b mem_cons_self) hnone,
        filterMap_cons_some hpair, ← Multiset.cons_coe, Multiset.cons_add, Multiset.add_cons]
    · intro k hk
      rcases mem_cons.1 hk with rfl | hk
      · exact ⟨(List.getElem?_eq_some_iff.1 hget').1, 0, b, by omega, rfl,
          fun hb ↦ hskip (.inl hb)⟩
      · exact ⟨(hi k hk).1, hshift (hi k hk).2⟩

/-- Replaying the events of the runs adds the pairs of all their blocks. -/
theorem replayAll_storedEvents [DecidableEq X] (c : CacheCall H E) (hashes : List H)
    (runs : List (List ℕ)) (cur : ℤ) (events : List (KVCacheEvent H X)) :
    replayAll (events ++ (storedEvents cfg c hashes runs cur).map .blockStored) =
      replayAll events +
        (↑(runs.flatten.filterMap (indexPair cfg c hashes)) : Multiset (ℕ × X)) := by
  induction runs generalizing cur events with
  | nil =>
    rw [flatten_nil, filterMap_nil, Multiset.coe_nil, Multiset.add_zero]
    exact congrArg replayAll (append_nil events)
  | cons run runs ih =>
    have hpairs : (run.filterMap fun i ↦ hashes[i]?.map cfg.maybeConvertBlockHash).map
        (c.kvCacheGroupId, ·) = run.filterMap (indexPair cfg c hashes) := by
      rw [map_filterMap]
      refine filterMap_congr fun i _ ↦ ?_
      rw [Option.map_map]
      rfl
    have hevents : events ++ (storedEvents cfg c hashes (run :: runs) cur).map
        .blockStored = events ++ [.blockStored (storedEvent cfg c hashes run
          (runExtraKeys cfg c run cur).1)] ++ (storedEvents cfg c hashes runs
            (runExtraKeys cfg c run cur).2).map .blockStored := by
      rw [append_assoc]
      rfl
    rw [hevents, ih, replayAll_append_singleton, flatten_cons, filterMap_append,
      ← Multiset.coe_add, ← Multiset.add_assoc, ← hpairs]
    rfl

/-- Every event of the runs comes from one of them. -/
theorem mem_storedEvents {runs : List (List ℕ)} {cur : ℤ} {e : BlockStored H X}
    (h : e ∈ storedEvents cfg c hashes runs cur) :
    ∃ run ∈ runs, ∃ keys, e = storedEvent cfg c hashes run keys := by
  induction runs generalizing cur with
  | nil => exact absurd h not_mem_nil
  | cons run runs ih =>
    rcases mem_cons.1 h with rfl | h
    · exact ⟨run, mem_cons_self, _, rfl⟩
    · obtain ⟨run', hrun', hkeys⟩ := ih h
      exact ⟨run', mem_cons_of_mem _ hrun', hkeys⟩

namespace Tracked

variable [DecidableEq X]

section

variable (h : Tracked cfg made taken p)

include h

theorem cacheFullBlocks [DecidableEq H] (hmade : made c)
    (hblocks : ∀ b ∈ c.blocks, b < cfg.numGpuBlocks) (hcall : p.cacheFullBlocks cfg c = .ok p') :
    Tracked cfg made taken p' := by
  rcases cacheFullBlocks_cases hcall with rfl | ⟨hashes, p₁, indices, hhashes, hloop, rfl⟩
  · exact h
  have hnew : ∀ b ∈ c.newFullBlocks, b < cfg.numGpuBlocks := fun b hb ↦
    hblocks b (mem_of_mem_take (mem_of_mem_drop hb))
  have hspec : CacheLoopSpec cfg c hashes c.newFullBlocks 0 p p₁ indices :=
    cacheLoop_spec hnew hloop
  split_ifs with hevents
  · refine ⟨hspec.exact h.exact, hspec.cached_lt h.cached_lt, fun _ ↦ ?_, fun e he ↦ ?_⟩
    · rw [← append_assoc, replayAll_storedEvents, flatten_indexRuns, hspec.events,
        h.replayed hevents, hspec.pairs]
    · rw [← append_assoc, hspec.events, mem_append] at he
      rcases he with he | he
      · exact h.stored e he
      -- A new event describes a run of this call.
      obtain ⟨e', he', hee⟩ := mem_map.1 he
      obtain rfl : e' = e := KVCacheEvent.blockStored.inj hee
      obtain ⟨run, hrun, keys, rfl⟩ := mem_storedEvents he'
      obtain ⟨start, len, hlen, rfl⟩ := exists_eq_range' hrun
      have hindex : ∀ i, start ≤ i → i < start + len → i < hashes.length ∧
          ∃ b, c.blocks[i]? = some b ∧ b ≠ 0 := by
        intro i hi hi'
        have hmem : i ∈ indices := by
          rw [← flatten_indexRuns indices]
          exact mem_flatten.2 ⟨_, hrun, mem_range'_1.2 ⟨hi, hi'⟩⟩
        obtain ⟨hlt, j, b, rfl, hb, hb0⟩ := hspec.indices i hmem
        rw [CacheCall.newFullBlocks, getElem?_drop, getElem?_take] at hb
        split_ifs at hb
        exact ⟨hlt, b, by rwa [zero_add], hb0⟩
      have hhash : start + len ≤ hashes.length := by
        have := (hindex (start + len - 1) (by omega) (by omega)).1
        omega
      exact ⟨c, hashes, start, len, hmade, hhashes, describesRun_storedEvent hlen hhash
        (fun i hi hi' ↦ (hindex i hi hi').2) keys⟩
  · refine ⟨hspec.exact h.exact, hspec.cached_lt h.cached_lt, fun h ↦ absurd h hevents, ?_⟩
    rw [hspec.events]
    exact h.stored

theorem evictBlocks [DecidableEq H] {ids : List ℕ} (hcall : p.evictBlocks cfg ids = .ok p') :
    Tracked cfg made taken p' := by
  refine foldlM_invariant hcall h fun {p b p'} _ hp hstep ↦ ?_
  split_ifs at hstep
  cases hstep
  exact hp.maybeEvictCachedBlock b

/-- A reset empties the index and the listener's view. -/
theorem resetPrefixCache [FreeQueue Q] : Tracked cfg made taken (p.resetPrefixCache cfg).2 := by
  unfold BlockPool.resetPrefixCache
  by_cases hused : (cfg.numGpuBlocks : ℤ) - p.getNumFreeBlocks cfg none ≠ 1
  · rwa [if_pos hused]
  rw [if_neg hused]
  have hnone : ∀ b, (if b < cfg.numGpuBlocks then none else p.blockHash b) = none := by
    intro b
    split_ifs with hb
    · rfl
    · exact not_not.1 fun hsome ↦ hb (h.cached_lt b hsome)
  refine ⟨fun key b ↦ ?_, fun b hb ↦ absurd (hnone b) hb, fun hevents ↦ ?_, fun e he ↦ ?_⟩
  · dsimp only
    rw [hnone]
    simp
  · rw [if_pos hevents, ← append_assoc, replayAll_append_singleton, cachedPairs]
    simp [hnone, replay]
  · refine h.stored e ?_
    split_ifs at he with hevents
    · simpa using he
    · exact he

/-- The events handed out stay in the listener's past. -/
theorem takeEvents : Tracked cfg made (taken ++ (p.takeEvents cfg).1) (p.takeEvents cfg).2 := by
  unfold BlockPool.takeEvents
  split_ifs with hevents
  · refine ⟨h.exact, h.cached_lt, ?_, ?_⟩
    · rw [append_nil]
      exact h.replayed
    · rw [append_nil]
      exact h.stored
  · rwa [append_nil]

end

section Queues

variable [FreeQueue Q]

section

variable (h : Tracked cfg made taken p)

include h

theorem getNewBlocks [DecidableEq H] {n : ℕ} {g : Option ℕ} {ret : List ℕ}
    (hcall : p.getNewBlocks cfg n g = .ok (ret, p')) : Tracked cfg made taken p' := by
  obtain ⟨-, r, queue, -, -, hloop⟩ := getNewBlocks_eq_ok.1 hcall
  refine foldlM_invariant hloop { h with }
    fun {p b p'} _ hp hstep ↦ ?_
  obtain ⟨-, rfl⟩ := claimBlock_eq_ok.1 hstep
  split
  · exact { hp.maybeEvictCachedBlock b with }
  · exact { hp with }

theorem touch (hcall : p.touch cfg bs = .ok p') : Tracked cfg made taken p' := by
  refine foldlM_invariant hcall h fun {p b p'} _ hp hstep ↦ ?_
  obtain ⟨queue, -, rfl⟩ := touchBlock_eq_ok.1 hstep
  exact { hp with }

theorem freeBlocks {reuseFirst : Bool}
    (hcall : p.freeBlocks cfg bs reuseFirst = .ok p') : Tracked cfg made taken p' := by
  obtain ⟨queue, -, rfl⟩ := freeBlocks_eq_ok.1 hcall
  exact { h with }

end

end Queues

end Tracked

/-! ### Runs -/

/-- The blocks that a call caches are blocks of the pool. -/
def PoolCall.BlocksInPool (cfg : PoolConfig H X E) : PoolCall H E → Prop
  | .cacheFullBlocks c => ∀ b ∈ c.blocks, b < cfg.numGpuBlocks
  | _ => True

instance decidableBlocksInPool (cfg : PoolConfig H X E) :
    ∀ c : PoolCall H E, Decidable (c.BlocksInPool cfg)
  | .cacheFullBlocks _ => inferInstanceAs (Decidable (∀ _ ∈ _, _))
  | .getNewBlocks .. | .touch .. | .freeBlocks .. | .evictBlocks .. | .resetPrefixCache
  | .takeEvents => .isTrue trivial

/-- A new pool has an empty index and no events. -/
theorem tracked_init [DecidableEq X] (made : CacheCall H E → Prop) (q : Q) :
    Tracked cfg made (PoolState.init q : PoolState Q H X).taken (PoolState.init q).pool := by
  refine ⟨fun key b ↦ ⟨nofun, nofun⟩, fun b hb ↦ absurd rfl hb, fun _ ↦ ?_, nofun⟩
  rw [cachedPairs]
  simp [PoolState.init, init, replayAll]

section Runs

variable [DecidableEq X] [DecidableEq H] [FreeQueue Q]

/-- **One call.** -/
theorem Tracked.step {s s' : PoolState Q H X}
    {c : PoolCall H E} (h : Tracked cfg made s.taken s.pool) (hc : c.BlocksInPool cfg)
    (hmade : ∀ cache, c = .cacheFullBlocks cache → made cache) (hstep : s.step cfg c = some s') :
    Tracked cfg made s'.taken s'.pool := by
  have hcall := toOption_eq_some.1 hstep
  cases c with
  | getNewBlocks n g =>
    obtain ⟨⟨ret, p⟩, hp, hret⟩ := bind_eq_ok.1 hcall
    cases hret
    exact h.getNewBlocks hp
  | touch bs =>
    obtain ⟨p, hp, hret⟩ := bind_eq_ok.1 hcall
    cases hret
    exact h.touch hp
  | freeBlocks bs reuseFirst =>
    obtain ⟨p, hp, hret⟩ := bind_eq_ok.1 hcall
    cases hret
    exact h.freeBlocks hp
  | cacheFullBlocks c =>
    obtain ⟨p, hp, hret⟩ := bind_eq_ok.1 hcall
    cases hret
    exact h.cacheFullBlocks (hmade c rfl) hc hp
  | evictBlocks ids =>
    obtain ⟨p, hp, hret⟩ := bind_eq_ok.1 hcall
    cases hret
    exact h.evictBlocks hp
  | resetPrefixCache =>
    cases hcall
    exact h.resetPrefixCache
  | takeEvents =>
    cases hcall
    exact h.takeEvents

/-- **The index is exact and the events replay to it.** After any sequence of calls of the pool,
over any free queues: a block is listed under a key exactly when the key is its hash; the events
emitted so far, taken or queued, replay to the multiset of cached pairs; and every stored event
describes a run of blocks of one of the caching calls. -/
theorem index_exact_and_events_replay {q : Q} {calls : List (PoolCall H E)} {s : PoolState Q H X}
    (hblocks : ∀ c ∈ calls, c.BlocksInPool cfg)
    (hexec : exec (PoolState.step cfg) calls (PoolState.init q) = some s) :
    (∀ key b, b ∈ s.pool.cachedBlockHashToBlock.blocks key ↔ s.pool.blockHash b = some key) ∧
    (cfg.enableKvCacheEvents = true →
      replayAll (s.taken ++ s.pool.kvEventQueue) = cachedPairs cfg s.pool.blockHash) ∧
    ∀ e, KVCacheEvent.blockStored e ∈ s.taken ++ s.pool.kvEventQueue →
      StoredRun cfg (fun c ↦ PoolCall.cacheFullBlocks c ∈ calls) e := by
  have h := exec_invariant
    (P := fun s ↦ Tracked cfg (fun c ↦ .cacheFullBlocks c ∈ calls) s.taken s.pool) hexec
    (tracked_init _ q) fun {s s' c} hmem hs hstep ↦
      hs.step (hblocks c hmem) (fun cache hc ↦ hc ▸ hmem) hstep
  exact ⟨h.exact, h.replayed, h.stored⟩

end Runs

/-- A pool of four blocks of two tokens, with numbers as hashes. -/
def fourBlocks : PoolConfig ℕ ℕ ℕ where
  numGpuBlocks := 4
  numGpuBlocks_pos := succ_pos (nat_lit 3)
  enableCaching := true
  hashBlockSize := 2
  hashBlockSize_pos := Nat.two_pos
  enableKvCacheEvents := true
  stateRange := none
  stateRange_bounds := nofun
  maybeConvertBlockHash := id
  joinHashes := sum
  sha256 := sum

/-- A request of four tokens whose two blocks are hashed. -/
def fourTokens : Request ℕ ℕ :=
  { Request.ofNew (H := ℕ) { requestId := 0, promptTokenIds := some [1, 2, 3, 4] } 4 with
    blockHashes := [10, 11] }

/-- Two blocks are cached and freed; the one at the back of the prefix is reused. -/
def reuseCalls : List (PoolCall ℕ ℕ) :=
  [.getNewBlocks 2 (some 0),
    .cacheFullBlocks
      { request := fourTokens, blocks := [1, 2], numCachedBlocks := 0, numFullBlocks := 2,
        blockSize := 2, kvCacheGroupId := 0, blockMask := none },
    .takeEvents, .freeBlocks [2, 1] false, .getNewBlocks 2 (some 0)]

theorem index_exact_and_events_replay_reuseCalls : ∃ q s, initQueues fourBlocks = .ok q ∧
    exec (PoolState.step fourBlocks) reuseCalls (PoolState.init q) = some s ∧
    s.returned = [[1, 2], [3, 2]] ∧ s.pool.blockHash 1 = some (10, 0) ∧
    ((∀ key b, b ∈ s.pool.cachedBlockHashToBlock.blocks key ↔ s.pool.blockHash b = some key) ∧
    (fourBlocks.enableKvCacheEvents = true →
      replayAll (s.taken ++ s.pool.kvEventQueue) = cachedPairs fourBlocks s.pool.blockHash) ∧
    ∀ e, KVCacheEvent.blockStored e ∈ s.taken ++ s.pool.kvEventQueue →
      StoredRun fourBlocks (fun c ↦ PoolCall.cacheFullBlocks c ∈ reuseCalls) e) := by
  obtain ⟨q, s, hq, hs, hreturned, hhash⟩ : ∃ q s, initQueues fourBlocks = .ok q ∧
      exec (PoolState.step fourBlocks) reuseCalls (PoolState.init q) = some s ∧
      s.returned = [[1, 2], [3, 2]] ∧ s.pool.blockHash 1 = some (10, 0) := by
    refine ⟨_, _, rfl, rfl, ?_, ?_⟩ <;> decide
  exact ⟨q, s, hq, hs, hreturned, hhash, index_exact_and_events_replay (by decide) hs⟩

end OneCatVllm
