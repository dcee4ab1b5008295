import OneCatVllm.Kv.PrefixIndex

/-!
# Where a prefix-cache hit comes from

A block that `get_cached_block` returns was entered under that hash by an earlier call of
`cache_full_blocks`, and **no later `get_new_blocks` handed it out**: what the request of that call
wrote to it was not overwritten. Every call is inspected once (`step_blockHash`): it enters a block
that was not entered, or it leaves the block's hash alone and does not hand the block out.
-/

namespace OneCatVllm

open BlockHashToBlockMap BlockPool PoolState Fallible Function List Transition

variable {Q H X E : Type} [DecidableEq H] [DecidableEq X] {cfg : PoolConfig H X E} {b i : ℕ}
  {key : H × ℕ} {p p' : BlockPool Q H X} {c : CacheCall H E} {bs : List ℕ}
  {made : CacheCall H E → Prop} {taken : List (KVCacheEvent H X)}

/-- The call has block `b` to enter under `key`: a new full block that is neither null nor masked,
with the hash of the request at its place. -/
def BlockPool.CacheCall.Stores (cfg : PoolConfig H X E) (c : CacheCall H E) (b : ℕ)
    (key : H × ℕ) : Prop :=
  ∃ hashes i, cfg.blockHashList c.blockSize c.request.blockHashes = .ok hashes ∧
    c.newFullBlocks[i]? = some b ∧ b ≠ 0 ∧ c.masked i = false ∧
      hashes[c.numCachedBlocks + i]? = some key.1 ∧ key.2 = c.kvCacheGroupId

omit [DecidableEq X] in
theorem maybeEvictCachedBlock_keeps {b' : ℕ}
    (h : (p.maybeEvictCachedBlock cfg b').blockHash b = some key) : p.blockHash b = some key := by
  rw [maybeEvictCachedBlock] at h
  split at h
  · exact h
  · split at h
    · exact h
    · exact (Option.ite_none_left_eq_some.1 ((update_apply ..).symm.trans h)).2

/-- A block that is handed out loses its hash. -/
theorem claimBlocks_blockHash (hcache : cfg.enableCaching = true) (h : Tracked cfg made taken p)
    (hclaim : bs.foldlM (claimBlock cfg) p = .ok p') (hb : p'.blockHash b = some key) :
    b ∉ bs ∧ p.blockHash b = some key := by
  induction bs generalizing p with
  | nil =>
    cases hclaim
    exact ⟨not_mem_nil, hb⟩
  | cons b' bs ih =>
    obtain ⟨p₁, hp₁, hrest⟩ := foldlM_cons_eq_ok.1 hclaim
    obtain ⟨-, rfl⟩ := claimBlock_eq_ok.1 hp₁
    rw [if_pos hcache] at hrest
    obtain ⟨hnot, hkept⟩ := ih (by exact { h.maybeEvictCachedBlock b' with }) hrest
    have hold := maybeEvictCachedBlock_keeps hkept
    refine ⟨fun hmem ↦ (mem_cons.1 hmem).elim (fun heq ↦ ?_) hnot, hold⟩
    subst heq
    rw [maybeEvictCachedBlock_of_listed hold ((h.exact key b).2 hold)] at hkept
    cases (update_self ..).symm.trans hkept

omit [DecidableEq X] in
theorem cacheLoop_blockHash {hashes : List H} {indices : List ℕ}
    (h : cacheLoop c hashes bs i p = .ok (p', indices)) (hb : p'.blockHash b = some key) :
    p.blockHash b = some key ∨
      ∃ j, bs[j]? = some b ∧ b ≠ 0 ∧ c.masked (i + j) = false ∧ hashes[i + j]? = some key.1 ∧
        key.2 = c.kvCacheGroupId := by
  induction bs generalizing i p indices with
  | nil =>
    cases h
    exact .inl hb
  | cons b' bs ih =>
    rw [cacheLoop] at h
    split_ifs at h with hskip
    · exact (ih h).imp_right fun ⟨j, hj⟩ ↦ ⟨j + 1, by rwa [Nat.add_right_comm] at hj⟩
    · split at h
      · cases h
      · next hash hhash =>
        obtain ⟨⟨p₁, rest⟩, hloop, hret⟩ := bind_eq_ok.1 h
        cases hret
        rcases ih hloop with hold | ⟨j, hj⟩
        · rcases eq_or_ne b b' with rfl | hne
          · cases (update_self ..).symm.trans hold
            rw [not_or, Bool.not_eq_true] at hskip
            exact .inr ⟨0, rfl, hskip.1, hskip.2, hhash, rfl⟩
          · exact .inl ((update_of_ne hne ..).symm.trans hold)
        · exact .inr ⟨j + 1, by rwa [Nat.add_right_comm] at hj⟩

section Runs

/-- How often `get_new_blocks` returned the block. -/
def PoolState.timesHandedOut (s : PoolState Q H X) (b : ℕ) : ℕ := s.returned.flatten.count b

variable [FreeQueue Q]

/-- Runs of the pool. -/
abbrev Reaches (cfg : PoolConfig H X E) : PoolState Q H X → PoolState Q H X → Prop :=
  Run (step cfg) fun _ c ↦ c.BlocksInPool cfg

variable {s s' : PoolState Q H X} {call : PoolCall H E}

/-- **One call** enters a block under a hash it did not have, or leaves the hash alone and does not
hand the block out. -/
theorem step_blockHash (hcache : cfg.enableCaching = true)
    (h : Tracked cfg made s.taken s.pool) (hstep : s.step cfg call = some s')
    (hb : s'.pool.blockHash b = some key) :
    (∃ c, call = .cacheFullBlocks c ∧ c.Stores cfg b key ∧ s.pool.blockHash b ≠ some key) ∨
      s.pool.blockHash b = some key ∧ s'.timesHandedOut b = s.timesHandedOut b := by
  have hcall := toOption_eq_some.1 hstep
  cases call with
  | getNewBlocks n g =>
    obtain ⟨⟨ret, p⟩, hp, hret⟩ := bind_eq_ok.1 hcall
    cases hret
    obtain ⟨-, r, queue, -, -, hclaim⟩ := getNewBlocks_eq_ok.1 hp
    obtain ⟨hnot, hold⟩ := claimBlocks_blockHash hcache (by exact { h with }) hclaim hb
    exact .inr ⟨hold, by simp [timesHandedOut, count_eq_zero_of_not_mem hnot]⟩
  | cacheFullBlocks c =>
    obtain ⟨p, hp, hret⟩ := bind_eq_ok.1 hcall
    cases hret
    rcases cacheFullBlocks_cases hp with rfl | ⟨hashes, p₁, indices, hhashes, hloop, rfl⟩
    · exact .inr ⟨hb, rfl⟩
    · have hb₁ : p₁.blockHash b = some key := by
        split at hb <;> exact hb
      by_cases hold : s.pool.blockHash b = some key
      · exact .inr ⟨hold, rfl⟩
      · obtain hnew | ⟨j, hj, hnull, hmask, hhash, hg⟩ := cacheLoop_blockHash hloop hb₁
        · exact absurd hnew hold
        rw [zero_add] at hmask hhash
        rw [getElem?_drop] at hhash
        exact .inl ⟨c, rfl, ⟨hashes, j, hhashes, hj, hnull, hmask, hhash, hg⟩, hold⟩
  | touch bs =>
    obtain ⟨p, hp, hret⟩ := bind_eq_ok.1 hcall
    cases hret
    refine .inr ⟨?_, rfl⟩
    refine foldlM_invariant
      (P := fun p ↦ p.blockHash b = some key → s.pool.blockHash b = some key) hp id
      (fun {p₁ b p₂} _ hp₁ hstep ↦ ?_) hb
    obtain ⟨queue, -, rfl⟩ := touchBlock_eq_ok.1 hstep
    exact hp₁
  | freeBlocks bs reuseFirst =>
    obtain ⟨p, hp, hret⟩ := bind_eq_ok.1 hcall
    cases hret
    obtain ⟨queue, -, rfl⟩ := freeBlocks_eq_ok.1 hp
    exact .inr ⟨hb, rfl⟩
  | evictBlocks ids =>
    obtain ⟨p, hp, hret⟩ := bind_eq_ok.1 hcall
    cases hret
    refine .inr ⟨?_, rfl⟩
    refine foldlM_invariant
      (P := fun p ↦ p.blockHash b = some key → s.pool.blockHash b = some key) hp id
      (fun {p₁ b p₂} _ hp₁ hstep ↦ ?_) hb
    split_ifs at hstep
    cases hstep
    exact hp₁ ∘ maybeEvictCachedBlock_keeps
  | resetPrefixCache =>
    cases hcall
    rw [BlockPool.resetPrefixCache] at hb
    split at hb
    · exact .inr ⟨hb, rfl⟩
    · exact .inr ⟨(Option.ite_none_left_eq_some.1 hb).2, rfl⟩
  | takeEvents =>
    cases hcall
    rw [BlockPool.takeEvents] at hb
    split at hb <;> exact .inr ⟨hb, rfl⟩

end Runs

end OneCatVllm
