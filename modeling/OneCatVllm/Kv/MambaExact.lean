import OneCatVllm.Kv.MambaTable
import OneCatVllm.Lib.Transition
import Mathlib.Data.List.MinMax

/-!
# Exactness of the cached recurrent states

A block with index `i` of the prefix index must hold the state after exactly `(i + 1) * block_size`
tokens. The chunk rule and the admission mask are written apart, and agree through one fact: an
**admitted** boundary is a **stop** of the scheduler, so no chunk passes it. There is one exception.
The last chunk of a prompt without tail checkpoint does not stop at the replay boundaries, which the
mask still admits; a chunk that starts inside a block then carries the state of its start under the
hash of the next boundary (`SkipsReplay`).
-/

namespace OneCatVllm

open Grid List MambaConfig Nat Transition

variable {H E : Type} (cfg : MambaConfig) {r : Request H E} {start stop i : ℕ} {p : PrefillStep}
  {e : ℕ × StateBlock} {st st' : MambaState}

namespace MambaConfig

/-! ### The scheduler stops -/

theorem alignedEnd_le : cfg.alignedEnd r start p ≤ start + p.numNewTokens := by
  rw [alignedEnd]
  split_ifs
  · exact div_mul_le_self _ _
  · exact le_rfl

theorem chunkEnd_le_alignedEnd : cfg.chunkEnd r start p ≤ cfg.alignedEnd r start p := by
  rw [chunkEnd]
  rcases h : ((cfg.stops r start p).filter fun s ↦
    start < s ∧ s < cfg.alignedEnd r start p).min? with - | s
  · exact le_rfl
  · have hs := (mem_filter.1 (min?_mem h)).2
    exact (of_decide_eq_true hs).2.le

/-- **A chunk never passes a stop.** -/
theorem chunkEnd_le_stop {s : ℕ} (hs : s ∈ cfg.stops r start p) (hlt : start < s) :
    cfg.chunkEnd r start p ≤ s := by
  rcases lt_or_ge s (cfg.alignedEnd r start p) with hlt' | hge
  · have hmem : s ∈ (cfg.stops r start p).filter fun s ↦
        start < s ∧ s < cfg.alignedEnd r start p :=
      mem_filter.2 ⟨hs, decide_eq_true ⟨hlt, hlt'⟩⟩
    obtain ⟨m, hm⟩ := Option.isSome_iff_exists.1 (isSome_min?_of_mem hmem)
    rw [chunkEnd, hm]
    exact (min?_eq_some_iff.1 hm).2 s hmem
  · exact (cfg.chunkEnd_le_alignedEnd).trans hge

/-- Beyond a position that no stop precedes, only the budget ends a chunk. -/
theorem lt_chunkEnd {s : ℕ} (hend : s < cfg.alignedEnd r start p)
    (hs : ∀ t ∈ cfg.stops r start p, start < t → s < t) : s < cfg.chunkEnd r start p := by
  rw [chunkEnd]
  rcases h : ((cfg.stops r start p).filter fun s ↦
    start < s ∧ s < cfg.alignedEnd r start p).min? with - | t
  · exact hend
  · obtain ⟨hmem, ht⟩ := mem_filter.1 (min?_mem h)
    exact hs t hmem (of_decide_eq_true ht).1

/-! ### The cache admits -/

/-- The mask of `cache_blocks` lets block `i` into the prefix index. -/
def Admits (r : Request H E) (startBlock i : ℕ) : Prop :=
  ((cfg.reachableBlockMask startBlock (cfg.keptBoundaries r)).getD fun _ ↦ true) i = true

theorem dvd_of_mem_getReplayBoundaries {b alignment : ℕ}
    (h : b ∈ cfg.getReplayBoundaries r alignment) : alignment ∣ b := by
  simp only [getReplayBoundaries] at h
  split_ifs at h <;> rcases mem_pair.1 h with rfl | rfl
  · exact Nat.dvd_mul_left _ _
  · exact Nat.dvd_mul_left _ _
  · exact dvd_sub (Nat.dvd_mul_left _ _) (Nat.dvd_refl _)
  · exact dvd_sub (Nat.dvd_mul_left _ _) (Nat.dvd_refl _)

variable {startBlock : ℕ}

/-- The periodic part of the mask: every `per`-th block, counted from the first. -/
theorem periodic_iff {per : ℕ} (hper : 0 < per) (hi : startBlock ≤ i) :
    ((startBlock + per) / per * per - 1 ≤ i ∧
      (i - ((startBlock + per) / per * per - 1)) % per = 0) ↔ per ∣ i + 1 := by
  have hfirst : (startBlock + per) / per * per = next per startBlock := by
    rw [add_div_right _ hper, Grid.next]
  have hpos := lt_next (n := startBlock) hper
  rw [hfirst, ← dvd_iff_mod_eq_zero]
  have hsub : i - (next per startBlock - 1) = i + 1 - next per startBlock := by omega
  rw [hsub]
  constructor
  · rintro ⟨hle, hdvd⟩
    have := (Nat.dvd_add_right (dvd_next (n := startBlock))).2 hdvd
    rwa [Nat.add_sub_cancel' (by omega)] at this
  · intro hdvd
    have hle := next_le hdvd (by omega : startBlock < i + 1)
    exact ⟨by omega, dvd_sub hdvd dvd_next⟩

/-- A boundary of the mask, rounded down, is the end of block `i`. -/
theorem boundary_iff {b boundary : ℕ} (hb : 0 < b) :
    boundary / b * b / b = i + 1 ↔ boundary / b * b = (i + 1) * b := by
  rw [Nat.mul_div_cancel _ hb, Nat.mul_left_inj hb.ne']

theorem any_keptBoundaries_iff (hlcm : cfg.lcmBlockSize = cfg.blockSize) :
    ((cfg.keptBoundaries r).any fun boundary ↦
        boundary / cfg.blockSize * cfg.blockSize / cfg.blockSize = i + 1) = true ↔
      (i + 1) * cfg.blockSize ∈ cfg.getReplayBoundaries r cfg.blockSize ∨
        r.sharedPrefixBoundary / cfg.blockSize * cfg.blockSize = (i + 1) * cfg.blockSize := by
  have hb := cfg.blockSize_pos
  have hpos : 0 < (i + 1) * cfg.blockSize := Nat.mul_pos i.succ_pos hb
  simp only [keptBoundaries, hlcm, any_append, Bool.or_eq_true, any_eq_true,
    decide_eq_true_eq, boundary_iff hb]
  refine or_congr ⟨?_, fun h ↦ ⟨_, h, Nat.div_mul_cancel (Nat.dvd_mul_left _ _)⟩⟩ ⟨?_, fun h ↦ ?_⟩
  · rintro ⟨b, hmem, he⟩
    rw [Nat.div_mul_cancel (cfg.dvd_of_mem_getReplayBoundaries hmem)] at he
    exact he ▸ hmem
  · rintro ⟨b, hmem, he⟩
    split_ifs at hmem
    · exact absurd hmem not_mem_nil
    · rwa [mem_singleton.1 hmem] at he
  · -- A shared prefix that was never recorded has no boundary.
    have hne : r.sharedPrefixBoundary ≠ 0 := fun h0 ↦ by
      rw [h0, Nat.zero_div] at h
      omega
    exact ⟨_, by rw [if_neg hne]; exact mem_singleton_self _, h⟩

variable {interval : ℕ}

/-- **What a sparse cache admits**: the periodic boundaries, the replay boundaries, and the boundary
of a shared prefix. -/
theorem admits_iff (hlcm : cfg.lcmBlockSize = cfg.blockSize)
    (hinterval : cfg.retentionInterval = some interval) (hi : startBlock ≤ i) :
    cfg.Admits r startBlock i ↔
      (interval ≠ 0 ∧ interval ∣ (i + 1) * cfg.blockSize) ∨
        (i + 1) * cfg.blockSize ∈ cfg.getReplayBoundaries r cfg.blockSize ∨
        r.sharedPrefixBoundary / cfg.blockSize * cfg.blockSize = (i + 1) * cfg.blockSize := by
  have hb := cfg.blockSize_pos
  have hdvd : cfg.blockSize ∣ interval := hlcm ▸ cfg.lcm_dvd_interval interval hinterval
  obtain ⟨per, rfl⟩ := hdvd
  have hper : cfg.blockSize * per / cfg.blockSize = per := Nat.mul_div_cancel_left per hb
  have hperiod : cfg.blockSize * per ∣ (i + 1) * cfg.blockSize ↔ per ∣ i + 1 := by
    rw [mul_comm (i + 1), Nat.mul_dvd_mul_iff_left hb]
  rw [Admits, reachableBlockMask, hinterval]
  simp only [hlcm, ne_eq, not_true_eq_false, if_false, hper]
  rcases Nat.eq_zero_or_pos per with rfl | hpos
  · -- Interval zero: no periodic boundary.
    simp only [Nat.mul_zero, not_true_eq_false, false_and, if_false, Option.getD_some,
      decide_false, Bool.false_and, Bool.false_or, false_or]
    exact cfg.any_keptBoundaries_iff hlcm
  · have hne : cfg.blockSize * per ≠ 0 := (Nat.mul_pos hb hpos).ne'
    simp only [hne, not_false_eq_true, true_and, hperiod]
    by_cases hle : per ≤ 1
    · -- One block per segment: the mask is absent and every block is a periodic boundary.
      have hone : per = 1 := by omega
      rw [hone]
      simp
    · rw [if_neg hle, Option.getD_some, Bool.or_eq_true, decide_true, Bool.true_and,
        decide_eq_true_eq, periodic_iff hpos hi, cfg.any_keptBoundaries_iff hlcm]

/-! ### Where the two disagree -/

/-- **The step drops a boundary that the cache keeps.** The request stands inside a block, the rest
of its prompt fits the step, and the end of the block is a replay boundary that the step passes:
without a tail checkpoint the replay boundaries are no stops, and neither is the end of the block
for another reason. -/
@[mk_iff]
structure SkipsReplay (r : Request H E) (start : ℕ) (p : PrefillStep) : Prop where
  inside : ¬ cfg.blockSize ∣ start
  tail : cfg.skipTail r start p = true
  sparse : (cfg.stepRetentionInterval p).isSome = true
  replay : next cfg.blockSize start ∈ cfg.getReplayBoundaries r cfg.blockSize
  cacheable : next cfg.blockSize start ≤ cacheableTokens r
  fits : next cfg.blockSize start < start + p.numNewTokens
  aperiodic : ∀ interval ∈ cfg.retentionInterval,
    interval ≠ 0 → ¬ interval ∣ next cfg.blockSize start
  unshared : r.sharedPrefixBoundary / cfg.blockSize * cfg.blockSize ≠ next cfg.blockSize start
  unsnapshot : ∀ s ∈ p.partialPrefixStops, start < s → next cfg.blockSize start < s

instance (r : Request H E) (start : ℕ) (p : PrefillStep) : Decidable (cfg.SkipsReplay r start p) :=
  decidable_of_iff' _ (cfg.skipsReplay_iff r start p)

variable {cfg}

/-- A step with an interval in force is sparse for the cache as well. -/
theorem of_stepRetentionInterval (h : cfg.stepRetentionInterval p = some interval) :
    cfg.lcmBlockSize = cfg.blockSize ∧ cfg.retentionInterval = some interval := by
  rw [stepRetentionInterval] at h
  split_ifs at h
  rw [mambaStateRetentionInterval] at h
  split_ifs at h with hlcm
  exact ⟨hlcm, h⟩

/-- Without an interval in force a chunk ends at the end of its block. -/
theorem chunkEnd_le_next (h : cfg.stepRetentionInterval p = none) :
    cfg.chunkEnd r start p ≤ next cfg.blockSize start := by
  refine cfg.chunkEnd_le_stop (mem_append_left _ ?_) (lt_next cfg.blockSize_pos)
  rw [retainedBoundaries, h]
  exact mem_singleton_self _

/-- **An admitted boundary is a stop**: a chunk that starts inside block `i` ends there if the cache
admits the block, the skipped replay boundaries apart. -/
theorem chunkEnd_le_of_admits (hi : startBlock ≤ i)
    (hnext : next cfg.blockSize start = (i + 1) * cfg.blockSize)
    (hcacheable : next cfg.blockSize start ≤ cacheableTokens r)
    (hadmits : cfg.Admits r startBlock i) (hinside : ¬ cfg.blockSize ∣ start)
    (hskip : ¬ cfg.SkipsReplay r start p) : cfg.chunkEnd r start p ≤ next cfg.blockSize start := by
  have hlt := lt_next (n := start) cfg.blockSize_pos
  rcases hstep : cfg.stepRetentionInterval p with - | interval
  · exact chunkEnd_le_next hstep
  obtain ⟨hlcm, hinterval⟩ := of_stepRetentionInterval hstep
  have hretained : cfg.retainedBoundaries r start p =
      (if cfg.skipTail r start p then [] else cfg.getReplayBoundaries r cfg.blockSize) ++
        if interval = 0 then [] else [next interval start] := by
    rw [retainedBoundaries, hstep]
  -- The two kinds of boundary that are always stops.
  have hperiodic : interval ≠ 0 → interval ∣ next cfg.blockSize start →
      cfg.chunkEnd r start p ≤ next cfg.blockSize start := fun h0 hdvd ↦ by
    refine (cfg.chunkEnd_le_stop (mem_append_left _ ?_)
      (lt_next (pos_of_ne_zero h0))).trans (next_le hdvd hlt)
    rw [hretained, if_neg h0]
    exact mem_append_right _ (mem_singleton_self _)
  have hshared : r.sharedPrefixBoundary / cfg.blockSize * cfg.blockSize =
      next cfg.blockSize start → cfg.chunkEnd r start p ≤ next cfg.blockSize start := fun he ↦ by
    refine cfg.chunkEnd_le_stop (mem_append_right _ ?_) hlt
    rw [he]
    exact mem_cons_of_mem _ mem_cons_self
  rcases (cfg.admits_iff hlcm hinterval hi).1 hadmits with ⟨h0, hdvd⟩ | hreplay | he
  · exact hperiodic h0 (hnext ▸ hdvd)
  · rw [← hnext] at hreplay
    by_cases htail : cfg.skipTail r start p = true
    · by_contra hpast
      rw [not_le] at hpast
      refine hskip ⟨hinside, htail, by rw [hstep]; rfl, hreplay, hcacheable, ?_, ?_, ?_, ?_⟩
      · exact hpast.trans_le (cfg.chunkEnd_le_alignedEnd.trans cfg.alignedEnd_le)
      · intro i' hi' h0 hdvd
        cases hinterval.symm.trans hi'
        exact absurd (hperiodic h0 hdvd) (not_le.2 hpast)
      · exact fun he ↦ absurd (hshared he) (not_le.2 hpast)
      · intro s hs hlts
        have hmem : s ∈ cfg.stops r start p :=
          mem_append_right _ (mem_cons_of_mem _ (mem_cons_of_mem _ hs))
        exact hpast.trans_le (cfg.chunkEnd_le_stop hmem hlts)
    · refine cfg.chunkEnd_le_stop (mem_append_left _ ?_) hlt
      rw [hretained, if_neg htail]
      exact mem_append_left _ hreplay
  · exact hshared (hnext ▸ he)

/-- A step that drops a replay boundary passes it. -/
theorem SkipsReplay.lt_chunkEnd (h : cfg.SkipsReplay r start p) :
    next cfg.blockSize start < cfg.chunkEnd r start p := by
  obtain ⟨interval, hstep⟩ := Option.isSome_iff_exists.1 h.sparse
  obtain ⟨hlcm, hinterval⟩ := of_stepRetentionInterval hstep
  have htail := h.tail
  simp only [skipTail, Bool.and_eq_true, decide_eq_true_eq] at htail
  -- A boundary of the grid after the start is the end of the block or lies beyond it.
  have hgrid : ∀ s, cfg.blockSize ∣ s → start < s → s ≠ next cfg.blockSize start →
      next cfg.blockSize start < s :=
    fun s hdvd hlt hne ↦ lt_of_le_of_ne (next_le hdvd hlt) (Ne.symm hne)
  refine MambaConfig.lt_chunkEnd cfg ?_ fun s hs hlt ↦ ?_
  · rw [alignedEnd, if_neg fun hend ↦ absurd hend.1 (not_lt.2 htail.1)]
    exact h.fits
  · rw [stops, retainedBoundaries, hstep, lastCachePosition] at hs
    simp only [h.tail, if_true, nil_append, mem_append, mem_cons] at hs
    rcases hs with hs | rfl | rfl | hs
    · split_ifs at hs with h0
      · exact absurd hs not_mem_nil
      · rw [mem_singleton] at hs
        have hdvd : interval ∣ s := hs ▸ dvd_next
        have hblock : cfg.blockSize ∣ interval := hlcm ▸ cfg.lcm_dvd_interval interval hinterval
        exact hgrid s (Nat.dvd_trans hblock hdvd) hlt fun he ↦
          h.aperiodic interval hinterval h0 (he ▸ hdvd)
    · omega
    · exact hgrid _ (Nat.dvd_mul_left _ _) hlt h.unshared
    · exact h.unsnapshot s hs hlt

/-! ### One chunk -/

theorem coordinatorTokens_le (n : ℕ) : cfg.coordinatorTokens n ≤ n := by
  simp only [coordinatorTokens]
  split_ifs
  · exact min_le_left _ _
  · exact div_mul_le_self _ _

/-- With one alignment the coordinator rounds only inside a block. -/
theorem coordinatorTokens_div (hlcm : cfg.lcmBlockSize = cfg.blockSize) (n : ℕ) :
    cfg.coordinatorTokens n / cfg.blockSize = n / cfg.blockSize := by
  have hb := cfg.blockSize_pos
  have hlt : n < n / cfg.blockSize * cfg.blockSize + cfg.blockSize := by
    rw [← succ_mul]
    exact lt_next hb
  simp only [coordinatorTokens, hlcm]
  split_ifs
  · rw [min_eq_left hlt.le]
  · exact Nat.mul_div_cancel _ hb

/-- **What one chunk does.** The entries before the running block are old ones or null, the running
block holds the state of the chunk's end, and the blocks that enter the index are those that the
mask admits among the new full ones. -/
structure ChunkRun (cfg : MambaConfig) (r : Request H E) (start stop : ℕ) (st st' : MambaState) :
    Prop where
  computed : st'.numComputedTokens = stop
  ends : st'.chunkEnds = st.chunkEnds ++ [stop]
  shaped : st'.Shaped cfg stop
  running : st'.reqToBlocks[cdiv stop cfg.blockSize - 1]? = some (.state stop)
  old : ∀ i b, i + 1 < cdiv stop cfg.blockSize → st'.reqToBlocks[i]? = some b → b ≠ .null →
    i < cdiv start cfg.blockSize ∧ st.reqToBlocks[i]? = some b
  source : cdiv start cfg.blockSize < cdiv stop cfg.blockSize → 0 < cdiv start cfg.blockSize →
    st'.reqToBlocks[cdiv start cfg.blockSize - 1]? = st.reqToBlocks[cdiv start cfg.blockSize - 1]?
  numCached : st'.numCachedBlock = max st.numCachedBlock
    (cfg.coordinatorTokens (min stop (cacheableTokens r)) / cfg.blockSize)
  mem_cached : ∀ e, e ∈ st'.cached ↔ e ∈ st.cached ∨
    (st.numCachedBlock ≤ e.1 ∧
      e.1 < cfg.coordinatorTokens (min stop (cacheableTokens r)) / cfg.blockSize ∧
      st'.reqToBlocks[e.1]? = some e.2 ∧ e.2 ≠ .null ∧ cfg.Admits r st.numCachedBlock e.1)

/-- What `cache_blocks` enters into the index. -/
theorem mem_cacheBlocks_cached {numTokens : ℕ} :
    e ∈ (cfg.cacheBlocks r numTokens st).cached ↔ e ∈ st.cached ∨
      (st.numCachedBlock ≤ e.1 ∧ e.1 < numTokens / cfg.blockSize ∧
        st.reqToBlocks[e.1]? = some e.2 ∧ e.2 ≠ .null ∧ cfg.Admits r st.numCachedBlock e.1) := by
  obtain ⟨i, b⟩ := e
  rw [cacheBlocks]
  split_ifs with hle
  · refine ⟨.inl, fun h ↦ h.resolve_right fun ⟨h₁, h₂, _⟩ ↦ ?_⟩
    omega
  · simp only [mem_append, mem_filterMap, mem_range'_1]
    refine or_congr Iff.rfl ⟨?_, ?_⟩
    · rintro ⟨j, ⟨hj, hj'⟩, hj''⟩
      rcases hget : st.reqToBlocks[j]? with - | block <;> rw [hget] at hj''
      · cases hj''
      · dsimp only at hj''
        split_ifs at hj'' with hmask
        cases hj''
        rw [not_or, not_not] at hmask
        exact ⟨hj, by omega, hget, hmask⟩
    · rintro ⟨h₁, h₂, hget, hmask⟩
      refine ⟨i, ⟨h₁, by omega⟩, ?_⟩
      rw [hget]
      dsimp only
      rw [if_neg (by rw [not_or, not_not]; exact hmask)]

theorem cacheBlocks_numCachedBlock (numTokens : ℕ) (st : MambaState) :
    (cfg.cacheBlocks r numTokens st).numCachedBlock =
      max st.numCachedBlock (numTokens / cfg.blockSize) := by
  rw [cacheBlocks]
  split_ifs with hle
  · rw [max_eq_left hle]
  · rw [max_eq_right (not_le.1 hle).le]

/-- Caching changes nothing but the index and its mark. -/
theorem cacheBlocks_frame (numTokens : ℕ) (st : MambaState) :
    (cfg.cacheBlocks r numTokens st).numComputedTokens = st.numComputedTokens ∧
      (cfg.cacheBlocks r numTokens st).reqToBlocks = st.reqToBlocks ∧
      (cfg.cacheBlocks r numTokens st).allocated = st.allocated ∧
      (cfg.cacheBlocks r numTokens st).chunkEnds = st.chunkEnds := by
  rw [cacheBlocks]
  split_ifs <;> exact ⟨rfl, rfl, rfl, rfl⟩

theorem forward_getElem?_ne (st : MambaState) (hi : i ≠ cdiv stop cfg.blockSize - 1) :
    (cfg.forward stop st).reqToBlocks[i]? = st.reqToBlocks[i]? := by
  simp [forward, Ne.symm hi]

/-- The forward pass leaves the state of its end in the running block. -/
theorem forward_running (h : st.Shaped cfg stop) (hpos : 0 < stop) :
    (cfg.forward stop st).reqToBlocks[cdiv stop cfg.blockSize - 1]? = some (.state stop) := by
  have hc := cdiv_pos cfg.blockSize_pos hpos
  have hlt : cdiv stop cfg.blockSize - 1 < st.reqToBlocks.length := by
    rw [h.length]
    omega
  have hlive := h.live (cdiv stop cfg.blockSize - 1) (by omega)
  simp only [forward, getElem?_modify, getElem?_eq_getElem hlt] at hlive ⊢
  rcases hb : st.reqToBlocks[cdiv stop cfg.blockSize - 1] with - | - | n
  · exact absurd (congrArg some hb) hlive
  · rfl
  · rfl

theorem forward_shaped (h : st.Shaped cfg stop) (hpos : 0 < stop) :
    (cfg.forward stop st).Shaped cfg stop where
  length := (length_modify _ _ _).trans h.length
  live i hi := by
    rcases eq_or_ne i (cdiv stop cfg.blockSize - 1) with rfl | hne
    · rw [forward_running h hpos]
      nofun
    · rw [forward_getElem?_ne st hne]
      exact h.live i hi

/-- **The specification of a chunk.** -/
theorem runChunk_spec {processed : ℕ} (hst : st.Shaped cfg start) (hp : processed ≤ start)
    (hlt : start < stop) :
    ∃ st', cfg.runChunk r processed stop st = some st' ∧ ChunkRun cfg r start stop st st' := by
  have hpos := zero_lt_of_lt hlt
  have hfreed := cfg.removeSkippedBlocks_freed hp st
  have hst₁ : (cfg.removeSkippedBlocks processed st).Shaped cfg start := hst.freed rfl hfreed
  obtain ⟨st₂, h₂, hall⟩ := cfg.allocateNewBlocks_spec hst₁ hlt
  obtain ⟨-, hcached, hlog, hends⟩ := hall.frame
  set numTokens := cfg.coordinatorTokens (min stop (cacheableTokens r)) with hn
  obtain ⟨hcomp, hblocks, hallocated, hends'⟩ :=
    cfg.cacheBlocks_frame numTokens (cfg.forward stop st₂)
  have hshaped := forward_shaped hall.shaped hpos
  refine ⟨_, by rw [runChunk, h₂]; rfl, ?_⟩
  refine ⟨hcomp, ?_, ⟨?_, ?_⟩, ?_, fun i b hi hget hne ↦ ?_, fun hcc hc₀ ↦ ?_, ?_, fun e ↦ ?_⟩
  · rw [hends']
    exact congrArg (· ++ [stop]) hends
  · rw [hblocks, hallocated]
    exact hshaped.length
  · rw [hblocks]
    exact hshaped.live
  · rw [hblocks]
    exact forward_running hall.shaped hpos
  · -- An entry before the running block is skipped and null, or stood there before.
    rw [hblocks, forward_getElem?_ne st₂ (by omega)] at hget
    rcases lt_or_ge i (cdiv start cfg.blockSize) with hlt' | hge
    · rw [hall.below i hlt'] at hget
      refine ⟨hlt', (hfreed.eq_or_null i).elim (fun he ↦ he ▸ hget) fun he ↦ ?_⟩
      exact absurd (Option.some.inj (hget.symm.trans he)) hne
    · exact absurd (Option.some.inj (hget.symm.trans (hall.skipped i hge hi))) hne
  · rw [hblocks, forward_getElem?_ne st₂ (by omega), hall.below _ (by omega), hfreed.kept _ le_rfl]
  · rw [cacheBlocks_numCachedBlock]
    exact congrArg (max · _) hcached
  · rw [mem_cacheBlocks_cached, hblocks]
    show e ∈ st₂.cached ∨ (st₂.numCachedBlock ≤ e.1 ∧ _ ∧ _ ∧ _ ∧
      cfg.Admits r st₂.numCachedBlock e.1) ↔ _
    rw [hcached, hlog]
    rfl

/-- The blocks that a chunk leaves among the full ones: an old full block, the running block of a
chunk that ends with its block, or the block the chunk **started inside** and left behind. -/
theorem ChunkRun.block (h : ChunkRun cfg r start stop st st')
    {b : StateBlock} (hi : (i + 1) * cfg.blockSize ≤ stop) (hget : st'.reqToBlocks[i]? = some b)
    (hne : b ≠ .null) :
    ((i + 1) * cfg.blockSize ≤ start ∧ st.reqToBlocks[i]? = some b) ∨
      ((i + 1) * cfg.blockSize = stop ∧ b = .state stop) ∨
      (¬ cfg.blockSize ∣ start ∧ next cfg.blockSize start = (i + 1) * cfg.blockSize ∧
        next cfg.blockSize start < stop) := by
  have hb := cfg.blockSize_pos
  rcases lt_or_ge (i + 1) (cdiv stop cfg.blockSize) with hlt | hge
  · obtain ⟨hi', hold⟩ := h.old i b hlt hget hne
    rcases le_or_gt ((i + 1) * cfg.blockSize) start with hle | hgt
    · exact .inl ⟨hle, hold⟩
    · refine .inr (.inr ?_)
      rw [lt_cdiv_iff hb] at hi' hlt
      -- The start lies strictly inside block `i`.
      have hinside : ¬ cfg.blockSize ∣ start := fun hdvd ↦ by
        obtain ⟨k, rfl⟩ := hdvd
        rw [mul_comm cfg.blockSize k] at hi' hgt
        have h₁ := Nat.lt_of_mul_lt_mul_right hi'
        have h₂ := Nat.lt_of_mul_lt_mul_right hgt
        omega
      have hcdiv : cdiv start cfg.blockSize = i + 1 :=
        le_antisymm ((cdiv_le_iff hb).2 hgt.le) ((lt_cdiv_iff hb).2 hi')
      rw [next_eq_cdiv_mul hb hinside, hcdiv]
      exact ⟨hinside, rfl, hlt⟩
  · have hstop : (i + 1) * cfg.blockSize = stop :=
      le_antisymm hi ((cdiv_le_iff hb).1 hge)
    have hcdiv : cdiv stop cfg.blockSize = i + 1 := by
      refine le_antisymm hge ((lt_cdiv_iff hb).2 ?_)
      rw [← hstop]
      exact Nat.mul_lt_mul_of_pos_right i.lt_succ_self hb
    have hrun := h.running
    rw [hcdiv] at hrun
    exact .inr (.inl ⟨hstop, Option.some.inj (hget.symm.trans hrun)⟩)

end MambaConfig

/-! ### Runs -/

/-- The entry is exact: its block was the running state block of a chunk that ended with it. -/
def MambaState.ExactEntry (cfg : MambaConfig) (st : MambaState) (e : ℕ × StateBlock) : Prop :=
  e.2 = .state ((e.1 + 1) * cfg.blockSize) ∧ (e.1 + 1) * cfg.blockSize ∈ st.chunkEnds

instance (st : MambaState) (e : ℕ × StateBlock) : Decidable (st.ExactEntry cfg e) :=
  inferInstanceAs (Decidable (_ ∧ _))

/-- **The invariant of a prefill.** The running block holds the state of the computed tokens, and
every full block that may still enter the index is exact. -/
structure MambaState.Tracked (cfg : MambaConfig) (r : Request H E) (st : MambaState) : Prop where
  shaped : st.Shaped cfg st.numComputedTokens
  running : 0 < st.numComputedTokens →
    st.reqToBlocks[cdiv st.numComputedTokens cfg.blockSize - 1]? =
      some (.state st.numComputedTokens)
  numCached : st.numCachedBlock * cfg.blockSize ≤ st.numComputedTokens
  pending : ∀ i b, st.numCachedBlock ≤ i → (i + 1) * cfg.blockSize ≤ st.numComputedTokens →
    (i + 1) * cfg.blockSize ≤ cacheableTokens r → st.reqToBlocks[i]? = some b →
    b ≠ .null → st.ExactEntry cfg (i, b)
  cached : ∀ e ∈ st.cached, st.ExactEntry cfg e

theorem MambaConfig.getElem?_ofHit {hit : ℕ} (hpos : 0 < hit)
    (hi : cdiv hit cfg.blockSize ≤ i + 1) : (cfg.ofHit hit).reqToBlocks[i]? =
      [StateBlock.state hit][i - (cdiv hit cfg.blockSize - 1)]? := by
  have hblocks : (cfg.ofHit hit).reqToBlocks =
      replicate (cdiv hit cfg.blockSize - 1) .null ++ [.state hit] := by
    rw [cdiv_eq cfg.blockSize_pos hpos]
    exact if_neg hpos.ne'
  rw [hblocks, getElem?_append_right, length_replicate]
  rw [length_replicate]
  omega

theorem MambaState.shaped_ofHit (hit : ℕ) : (cfg.ofHit hit).Shaped cfg hit := by
  have hb := cfg.blockSize_pos
  rcases Nat.eq_zero_or_pos hit with rfl | hpos
  · have hzero : cdiv 0 cfg.blockSize = 0 := le_zero.1 ((cdiv_le_iff hb).2 (zero_le _))
    exact ⟨hzero.symm, fun i _ ↦ nofun⟩
  · refine ⟨?_, fun i hi ↦ ?_⟩
    · show (if hit = 0 then [] else _).length = cdiv hit cfg.blockSize
      rw [if_neg hpos.ne', length_append, length_replicate, cdiv_eq hb hpos]
      rfl
    · rw [cfg.getElem?_ofHit hpos hi, getElem?_singleton]
      split_ifs <;> nofun

theorem MambaState.tracked_ofHit (r : Request H E) (hit : ℕ) : (cfg.ofHit hit).Tracked cfg r := by
  have hb := cfg.blockSize_pos
  refine ⟨shaped_ofHit cfg hit, fun hpos ↦ ?_, div_mul_le_self _ _, fun i b hi hi' ↦ ?_, nofun⟩
  · change 0 < hit at hpos
    show (cfg.ofHit hit).reqToBlocks[cdiv hit cfg.blockSize - 1]? = some (.state hit)
    rw [cfg.getElem?_ofHit hpos (by omega), Nat.sub_self, getElem?_cons_zero]
  · -- The blocks of the hit are in the index already.
    exact absurd ((le_div_iff_mul_le hb).2 hi') (not_le.2 (lt_succ_of_le hi))

section Step

variable {cfg}

/-- The inversion of a prefill step: it runs the chunk up to `chunkEnd`. -/
theorem MambaState.Tracked.chunkRun (h : st.Tracked cfg r)
    (hs : cfg.prefillStep r st p = some st') :
    st.numComputedTokens < cfg.chunkEnd r st.numComputedTokens p ∧
      ChunkRun cfg r st.numComputedTokens (cfg.chunkEnd r st.numComputedTokens p) st st' := by
  simp only [prefillStep] at hs
  split_ifs at hs with hguard
  obtain ⟨hprefill, -, hprocessed, hnew⟩ := hguard
  rw [mambaBlockAlignedSplit, if_neg (not_le.2 hprefill)] at hs hnew
  have hlt : st.numComputedTokens < cfg.chunkEnd r st.numComputedTokens p := by omega
  rw [Nat.add_sub_cancel' hlt.le] at hs
  obtain ⟨st'', hs'', hrun⟩ :=
    runChunk_spec h.shaped hprocessed hlt
  cases hs.symm.trans hs''
  exact ⟨hlt, hrun⟩

/-- A chunk that leaves a block behind with no boundary in force is impossible. -/
theorem MambaConfig.sparse_of_lt_chunkEnd (h : next cfg.blockSize start < cfg.chunkEnd r start p) :
    ∃ interval, cfg.lcmBlockSize = cfg.blockSize ∧ cfg.retentionInterval = some interval := by
  rcases hstep : cfg.stepRetentionInterval p with - | interval
  · exact absurd (chunkEnd_le_next hstep) (not_le.2 h)
  · exact ⟨interval, of_stepRetentionInterval hstep⟩

theorem MambaState.ExactEntry.mono (h : st.ExactEntry cfg e)
    (hends : st'.chunkEnds = st.chunkEnds ++ [stop]) : st'.ExactEntry cfg e :=
  ⟨h.1, hends ▸ mem_append_left _ h.2⟩

/-- **Step lemma.** A step that drops no replay boundary keeps the invariant. -/
theorem MambaState.Tracked.step (h : st.Tracked cfg r)
    (hskip : ¬ cfg.SkipsReplay r st.numComputedTokens p)
    (hs : cfg.prefillStep r st p = some st') : st'.Tracked cfg r := by
  have hb := cfg.blockSize_pos
  obtain ⟨hadvance, hrun⟩ := h.chunkRun hs
  set start := st.numComputedTokens with hstart
  set stop := cfg.chunkEnd r start p with hstop
  set full := cfg.coordinatorTokens (min stop (cacheableTokens r)) / cfg.blockSize with hfull
  have hfull_le : full * cfg.blockSize ≤ min stop (cacheableTokens r) :=
    (div_mul_le_self _ _).trans (coordinatorTokens_le _)
  have hended : ∀ {i b}, (i + 1) * cfg.blockSize = stop → b = .state stop →
      st'.ExactEntry cfg (i, b) := fun hi hbl ↦ by
    refine ⟨by rw [hbl, ← hi], ?_⟩
    rw [hrun.ends, ← hi]
    exact mem_append_right _ (mem_singleton_self _)
  refine ⟨by rw [hrun.computed]; exact hrun.shaped, fun _ ↦ ?_, ?_, ?_, ?_⟩
  · rw [hrun.computed]
    exact hrun.running
  · rw [hrun.computed, hrun.numCached]
    rcases max_choice st.numCachedBlock full with hm | hm <;> rw [hm]
    · exact h.numCached.trans hadvance.le
    · exact hfull_le.trans (min_le_left _ _)
  · intro i b hi hi' hcache hget hne
    rw [hrun.computed] at hi'
    rw [hrun.numCached] at hi
    rcases hrun.block hi' hget hne with ⟨hle, hold⟩ | ⟨he, hbl⟩ | ⟨-, hnext, hpast⟩
    · exact (h.pending i b (by omega) hle hcache hold hne).mono hrun.ends
    · exact hended he hbl
    · -- The block left behind is behind the mark as well.
      obtain ⟨-, hlcm, -⟩ := sparse_of_lt_chunkEnd hpast
      have hlt : i + 1 ≤ full := by
        rw [hfull, coordinatorTokens_div hlcm, le_div_iff_mul_le hb]
        exact le_min hi' hcache
      omega
  · intro e he
    rcases (hrun.mem_cached e).1 he with hold | ⟨hi, hlt, hget, hne, hadmits⟩
    · exact (h.cached e hold).mono hrun.ends
    have hi' := (mul_le_mul_right cfg.blockSize (succ_le_of_lt hlt)).trans hfull_le
    rcases hrun.block (hi'.trans (min_le_left _ _)) hget hne with
      ⟨hle, hold⟩ | ⟨he, hbl⟩ | ⟨hinside, hnext, hpast⟩
    · exact (h.pending e.1 e.2 hi hle (hi'.trans (min_le_right _ _)) hold hne).mono hrun.ends
    · exact hended he hbl
    · have hcache := hnext ▸ hi'.trans (min_le_right _ _)
      exact absurd (chunkEnd_le_of_admits hi hnext hcache hadmits hinside hskip) (not_le.2 hpast)

/-- **The other direction.** A step that drops a replay boundary enters the block it leaves behind,
with the state of its start, under the hash of the boundary. -/
theorem MambaState.Tracked.wrong_of_skipsReplay (h : st.Tracked cfg r)
    (hskip : cfg.SkipsReplay r st.numComputedTokens p)
    (hs : cfg.prefillStep r st p = some st') : ∃ e ∈ st'.cached, ¬ st'.ExactEntry cfg e := by
  have hb := cfg.blockSize_pos
  obtain ⟨-, hrun⟩ := h.chunkRun hs
  have hpast := hskip.lt_chunkEnd
  obtain ⟨interval, hlcm, hinterval⟩ := sparse_of_lt_chunkEnd hpast
  set start := st.numComputedTokens with hstart
  have hpos : 0 < start := pos_of_ne_zero fun h0 ↦ hskip.inside (h0 ▸ Nat.dvd_zero _)
  obtain ⟨i, hi⟩ : ∃ i, cdiv start cfg.blockSize = i + 1 :=
    exists_eq_succ_of_ne_zero (cdiv_pos hb hpos).ne'
  have hnext : next cfg.blockSize start = (i + 1) * cfg.blockSize := by
    rw [next_eq_cdiv_mul hb hskip.inside, hi]
  have hcached : st.numCachedBlock ≤ i := by
    have hlt : st.numCachedBlock < cdiv start cfg.blockSize := by
      rw [lt_cdiv_iff hb]
      exact lt_of_le_of_ne h.numCached fun he ↦ hskip.inside (he ▸ Nat.dvd_mul_left _ _)
    omega
  refine ⟨(i, .state start), (hrun.mem_cached _).2 (.inr ⟨hcached, ?_, ?_, nofun, ?_⟩), ?_⟩
  · rw [coordinatorTokens_div hlcm, lt_iff_add_one_le, le_div_iff_mul_le hb, ← hnext]
    exact le_min hpast.le hskip.cacheable
  · have hsource := hrun.source ((lt_cdiv_iff hb).2 (by rwa [hi, ← hnext])) (by omega)
    rw [hi] at hsource
    have hrunning := h.running hpos
    rw [hi] at hrunning
    exact hsource.trans hrunning
  · exact (cfg.admits_iff hlcm hinterval hcached).2 (.inr (.inl (hnext ▸ hskip.replay)))
  · rintro ⟨hstate, -⟩
    exact hskip.inside ((StateBlock.state.inj hstate).symm ▸ Nat.dvd_mul_left _ _)

end Step

/-- **The cached recurrent states are exact** along every prefill whose steps drop no replay
boundary, from any number of computed tokens; and the next step keeps them exact if and only if it
drops none either. -/
theorem recurrent_states_exact (r : Request H E) (hit : ℕ) {st : MambaState}
    (hrun : Run (cfg.prefillStep r) (fun st p ↦ ¬ cfg.SkipsReplay r st.numComputedTokens p)
      (cfg.ofHit hit) st) :
    (∀ e ∈ st.cached, st.ExactEntry cfg e) ∧
      ∀ p st', cfg.prefillStep r st p = some st' →
        ((∀ e ∈ st'.cached, st'.ExactEntry cfg e) ↔
          ¬ cfg.SkipsReplay r st.numComputedTokens p) := by
  have h : st.Tracked cfg r :=
    hrun.invariant (MambaState.tracked_ofHit cfg r hit) fun h hskip hs ↦ h.step hskip hs
  refine ⟨h.cached, fun p st' hs ↦ ⟨fun hall hskip ↦ ?_, fun hskip ↦ (h.step hskip hs).cached⟩⟩
  obtain ⟨e, he, hwrong⟩ := h.wrong_of_skipsReplay hskip hs
  exact hwrong (hall e he)

/-! ### A prompt of ten tokens -/

/-- Blocks of four tokens, only replay and shared-prefix boundaries retained, and no tail
checkpoint. -/
def noTailCheckpoint : MambaConfig where
  blockSize := 4
  blockSize_pos := succ_pos (nat_lit 3)
  lcmBlockSize := 4
  blockSize_dvd := by decide
  retentionInterval := some 0
  lcm_dvd_interval := by decide
  mambaTailCheckpoint := false
  maxNumScheduledTokens := 16

/-- A prompt of ten tokens. -/
def tenTokens : Request ℕ ℕ :=
  .ofNew { requestId := 0, promptTokenIds := some [1, 2, 3, 4, 5, 6, 7, 8, 9, 10] } 10

/-- **A wrong state in the index.** The chunks end at tokens 4, 5 and 10: the second budget leaves
room for one token, and the third chunk passes the replay boundary 8 from inside the block. The
state after five tokens is entered under the hash of the first eight. -/
theorem tail_chunk_caches_early_state :
    ∃ st, exec (noTailCheckpoint.prefillStep tenTokens)
        [⟨4, true, [], 0⟩, ⟨1, true, [], 4⟩, ⟨5, true, [], 5⟩] (noTailCheckpoint.ofHit 0) =
        some st ∧
      (1, .state 5) ∈ st.cached ∧ ¬ ∀ e ∈ st.cached, st.ExactEntry noTailCheckpoint e := by
  refine ⟨_, rfl, ?_, ?_⟩ <;> decide

/-- The same prompt entered with a hit of five tokens, and a second chunk that ends with its
block. -/
theorem recurrent_states_exact_tenTokens :
    ∃ st, exec (noTailCheckpoint.prefillStep tenTokens)
        [⟨3, true, [], 5⟩, ⟨2, true, [], 8⟩] (noTailCheckpoint.ofHit 5) = some st ∧
      st.cached = [(1, .state 8)] ∧ ∀ e ∈ st.cached, st.ExactEntry noTailCheckpoint e := by
  have hallowed : Allowed (noTailCheckpoint.prefillStep tenTokens)
      (fun st p ↦ ¬ noTailCheckpoint.SkipsReplay tenTokens st.numComputedTokens p)
      [⟨3, true, [], 5⟩, ⟨2, true, [], 8⟩] (noTailCheckpoint.ofHit 5) := by decide
  refine ⟨_, rfl, by decide, ?_⟩
  exact (recurrent_states_exact noTailCheckpoint tenTokens 5 (.of_exec .start hallowed rfl)).1

end OneCatVllm
