import OneCatVllm.Lib.Fallible
import OneCatVllm.Kv.Pool

/-!
# What a call of the pool does

One inversion lemma per call: what a call that returned has checked, and the pool it leaves.
-/

namespace OneCatVllm

namespace BlockPool

open Except Fallible
open Function (update)

variable {Q H X E : Type} [FreeQueue Q] [DecidableEq H] {cfg : PoolConfig H X E}
  {p p' : BlockPool Q H X} {b : ℕ} {bs ret : List ℕ} {c : CacheCall H E}

omit [FreeQueue Q] in
/-- Eviction changes neither references nor queues. -/
theorem maybeEvictCachedBlock_frame (cfg : PoolConfig H X E) (p : BlockPool Q H X) (b : ℕ) :
    (p.maybeEvictCachedBlock cfg b).refCnt = p.refCnt ∧
      (p.maybeEvictCachedBlock cfg b).freeBlockQueue = p.freeBlockQueue := by
  unfold maybeEvictCachedBlock
  split
  · exact ⟨rfl, rfl⟩
  · split <;> exact ⟨rfl, rfl⟩

omit [FreeQueue Q] in
theorem claimBlock_eq_ok : claimBlock cfg p b = .ok p' ↔ p.refCnt b = 0 ∧
    p' = { (if cfg.enableCaching then p.maybeEvictCachedBlock cfg b else p) with
      refCnt := update p.refCnt b (p.refCnt b + 1) } := by
  have hframe : (if cfg.enableCaching then p.maybeEvictCachedBlock cfg b else p).refCnt =
      p.refCnt := by
    split
    · exact (maybeEvictCachedBlock_frame cfg p b).1
    · rfl
  unfold claimBlock
  dsimp only
  rw [hframe]
  by_cases href : p.refCnt b = 0
  · rw [if_pos href]
    exact ⟨fun h ↦ ⟨href, (ok.inj h).symm⟩, fun h ↦ congrArg ok h.2.symm⟩
  · rw [if_neg href]
    exact ⟨nofun, fun h ↦ absurd h.1 href⟩

omit [FreeQueue Q] in
/-- Claiming leaves the queues alone. -/
theorem claimBlocks_queue (h : bs.foldlM (claimBlock cfg) p = .ok p') :
    p'.freeBlockQueue = p.freeBlockQueue := by
  refine foldlM_invariant (P := fun p' ↦ p'.freeBlockQueue = p.freeBlockQueue) h rfl
    fun {p₁ b p₂} _ hp₁ hstep ↦ ?_
  obtain ⟨-, rfl⟩ := claimBlock_eq_ok.1 hstep
  rw [← hp₁]
  split
  · exact (maybeEvictCachedBlock_frame cfg p₁ b).2
  · rfl

theorem getNewBlocks_eq_ok {n : ℕ} {g : Option ℕ} : p.getNewBlocks cfg n g = .ok (ret, p') ↔
    (n : ℤ) ≤ p.getNumFreeBlocks cfg g ∧ ∃ r queue, cfg.forGroup g = .ok r ∧
      FreeQueue.popleftN r n p.freeBlockQueue = .ok (ret, queue) ∧
      ret.foldlM (claimBlock cfg) { p with freeBlockQueue := queue } = .ok p' := by
  unfold getNewBlocks
  by_cases hn : (n : ℤ) > p.getNumFreeBlocks cfg g
  · rw [if_pos hn]
    exact ⟨nofun, fun h ↦ absurd h.1 (not_le.2 hn)⟩
  rw [if_neg hn]
  refine ⟨fun h ↦ ⟨not_lt.1 hn, ?_⟩, ?_⟩
  · obtain ⟨r, hr, h⟩ := bind_eq_ok.1 h
    obtain ⟨⟨bs, queue⟩, hpop, h⟩ := bind_eq_ok.1 h
    obtain ⟨p₁, hloop, hret⟩ := bind_eq_ok.1 h
    cases hret
    exact ⟨r, queue, hr, hpop, hloop⟩
  · rintro ⟨-, r, queue, hr, hpop, hloop⟩
    exact bind_eq_ok.2 ⟨r, hr, bind_eq_ok.2 ⟨(ret, queue), hpop, bind_eq_ok.2 ⟨p', hloop, rfl⟩⟩⟩

omit [DecidableEq H] in
theorem touchBlock_eq_ok : touchBlock cfg p b = .ok p' ↔ ∃ queue, unqueue cfg p b = .ok queue ∧
    p' = { p with freeBlockQueue := queue, refCnt := update p.refCnt b (p.refCnt b + 1) } := by
  rw [touchBlock, bind_eq_ok]
  refine exists_congr fun queue ↦ and_congr Iff.rfl ?_
  rw [pure_eq_ok, eq_comm]

omit [DecidableEq H] in
theorem freeBlocks_eq_ok {reuseFirst : Bool} : p.freeBlocks cfg bs reuseFirst = .ok p' ↔
    ∃ queue, requeue cfg (freedBlocks bs (decrementAll bs p.refCnt)) reuseFirst p = .ok queue ∧
      p' = { p with freeBlockQueue := queue, refCnt := decrementAll bs p.refCnt } := by
  rw [freeBlocks, bind_eq_ok]
  refine exists_congr fun queue ↦ and_congr Iff.rfl ?_
  rw [pure_eq_ok, eq_comm]

omit [FreeQueue Q] in
/-- Evicting changes neither references nor queues. -/
theorem evictBlocks_frame {ids : List ℕ} (h : p.evictBlocks cfg ids = .ok p') :
    p'.refCnt = p.refCnt ∧ p'.freeBlockQueue = p.freeBlockQueue := by
  refine foldlM_invariant
    (P := fun p' ↦ p'.refCnt = p.refCnt ∧ p'.freeBlockQueue = p.freeBlockQueue) h ⟨rfl, rfl⟩
    fun {p₁ b p₂} _ hp₁ hstep ↦ ?_
  split_ifs at hstep
  cases hstep
  obtain ⟨href, hqueue⟩ := maybeEvictCachedBlock_frame cfg p₁ b
  exact ⟨href.trans hp₁.1, hqueue.trans hp₁.2⟩

omit [DecidableEq H] in
theorem resetPrefixCache_frame (cfg : PoolConfig H X E) (p : BlockPool Q H X) :
    (p.resetPrefixCache cfg).2.refCnt = p.refCnt ∧
      (p.resetPrefixCache cfg).2.freeBlockQueue = p.freeBlockQueue := by
  unfold resetPrefixCache
  split <;> exact ⟨rfl, rfl⟩

omit [FreeQueue Q] [DecidableEq H] in
theorem takeEvents_frame (cfg : PoolConfig H X E) (p : BlockPool Q H X) :
    (p.takeEvents cfg).2.refCnt = p.refCnt ∧
      (p.takeEvents cfg).2.freeBlockQueue = p.freeBlockQueue := by
  unfold takeEvents
  split <;> exact ⟨rfl, rfl⟩

omit [FreeQueue Q] in
theorem cacheLoop_frame {hashes : List H} {i : ℕ} {indices : List ℕ}
    (h : cacheLoop c hashes bs i p = .ok (p', indices)) :
    p'.refCnt = p.refCnt ∧ p'.freeBlockQueue = p.freeBlockQueue := by
  induction bs generalizing i p indices with
  | nil =>
    cases h
    exact ⟨rfl, rfl⟩
  | cons b bs ih =>
    unfold cacheLoop at h
    by_cases hskip : b = 0 ∨ c.masked i = true
    · rw [if_pos hskip] at h
      exact ih h
    rw [if_neg hskip] at h
    by_cases hhash : p.blockHash b ≠ none
    · rw [if_pos hhash] at h
      cases h
    rw [if_neg hhash] at h
    rcases hget : hashes[i]? with - | hash
    · rw [hget] at h
      cases h
    · rw [hget] at h
      obtain ⟨⟨p₁, rest⟩, hloop, hret⟩ := bind_eq_ok.1 h
      cases hret
      have hframe := ih hloop
      exact hframe

omit [FreeQueue Q] in
/-- **The two outcomes of a caching call**: nothing to do, or the loop and then its events. -/
theorem cacheFullBlocks_cases (h : p.cacheFullBlocks cfg c = .ok p') :
    p' = p ∨ ∃ hashes p₁ indices,
      cfg.blockHashList c.blockSize c.request.blockHashes = .ok hashes ∧
      cacheLoop c (hashes.drop c.numCachedBlocks) c.newFullBlocks 0 p = .ok (p₁, indices) ∧
      p' = if cfg.enableKvCacheEvents then
          { p₁ with
            kvEventQueue := p₁.kvEventQueue ++
              (storedEvents cfg c hashes (indexRuns indices) 0).map .blockStored }
        else p₁ := by
  unfold cacheFullBlocks at h
  by_cases hdone : c.numCachedBlocks ≥ c.numFullBlocks
  · rw [if_pos hdone] at h
    exact .inl (ok.inj h).symm
  rw [if_neg hdone] at h
  by_cases hlen : c.request.blockHashes.length < c.numFullBlocks
  · rw [if_pos hlen] at h
    cases h
  rw [if_neg hlen] at h
  by_cases hmask : c.blockMask.any (·.length ≠ c.newFullBlocks.length) = true
  · rw [if_pos hmask] at h
    cases h
  rw [if_neg hmask] at h
  obtain ⟨hashes, hhashes, h⟩ := bind_eq_ok.1 h
  obtain ⟨⟨p₁, indices⟩, hloop, hret⟩ := bind_eq_ok.1 h
  exact .inr ⟨hashes, p₁, indices, hhashes, hloop, (pure_eq_ok.1 hret).symm⟩

omit [FreeQueue Q] in
/-- Caching changes neither references nor queues. -/
theorem cacheFullBlocks_frame (h : p.cacheFullBlocks cfg c = .ok p') :
    p'.refCnt = p.refCnt ∧ p'.freeBlockQueue = p.freeBlockQueue := by
  rcases cacheFullBlocks_cases h with rfl | ⟨hashes, p₁, indices, -, hloop, rfl⟩
  · exact ⟨rfl, rfl⟩
  · have hframe := cacheLoop_frame hloop
    split
    · exact hframe
    · exact hframe

end BlockPool

end OneCatVllm
