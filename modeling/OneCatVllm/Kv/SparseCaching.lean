import OneCatVllm.Kv.Managers
import OneCatVllm.Kv.WindowLookup

/-!
# Sparse caching for sliding windows

When the hits of a hybrid model are aligned to more than one block of a sliding-window group, the
group enters only the blocks into the prefix index that an aligned hit can consult
(`SlidingWindowManager.reachable_block_mask`), out of the tokens up to the last aligned boundary
(`HybridKVCacheCoordinator.cache_blocks`). A pool filled that way is compared with one in which
every request cached all its full blocks: a lookup finds the same length in both, unless the window
is a single token and there is no eagle block. Then the mask selects **no** block, while the search
still asks for one.
-/

namespace OneCatVllm

open Bool Except Grid List Nat WindowQuery

/-- A request whose blocks are in the pool: the hashes of its blocks and its computed tokens. -/
structure CachingRequest (H : Type) where
  blockHashes : List H
  numComputedTokens : ℕ

variable {H : Type}

section Model

variable [DecidableEq H] (g : GroupSpec) (w alignment : ℕ)

/-- The tokens a group may cache (`HybridKVCacheCoordinator.cache_blocks`). -/
def tokensToCache (numComputedTokens : ℕ) : ℕ :=
  let aligned := numComputedTokens / alignment * alignment
  if g.useEagle ∧ 0 < aligned then min numComputedTokens (aligned + g.blockSize) else aligned

/-- The mask of `cache_blocks` for the first `numFullBlocks` blocks; `none` admits all of them. -/
def windowMask (numFullBlocks : ℕ) : Option (List Bool) :=
  if alignment ≤ g.blockSize then none else slidingWindowMask g w alignment 0 numFullBlocks

/-- Whether a request caches its block `i`: sparsely, or all full blocks. -/
def cachesBlock (sparse : Bool) (r : CachingRequest H) (i : ℕ) : Bool :=
  if sparse then
    let numFullBlocks := tokensToCache g alignment r.numComputedTokens / g.blockSize
    decide (i < numFullBlocks) && (windowMask g w alignment numFullBlocks).all (·.getD i false)
  else decide (i < r.numComputedTokens / g.blockSize)

/-- The row of block `i` of a prefix in the pool that the requests have filled. -/
def poolRow (sparse : Bool) (requests : List (CachingRequest H)) (hashes : List H) (i : ℕ) :
    Option HitRow :=
  if ∃ r ∈ requests, ∃ j < r.blockHashes.length, r.blockHashes[j]? = hashes[i]? ∧
      cachesBlock g w alignment sparse r j = true then some [] else none

/-- The lookup of a prefix in that pool. -/
def poolQuery (requests : List (CachingRequest H)) (hashes : List H) (maxLength : ℕ)
    (sparse : Bool) : WindowQuery where
  look := poolRow g w alignment sparse requests hashes
  blockSize := g.blockSize
  blockSize_pos := g.spec.blockSize_pos
  maxLength := maxLength
  eagle := g.useEagle
  alignment := alignment
  window := w

end Model

/-- The chained hashes do not collide: equal hashes are those of equal prefixes. -/
def NoCollision {H : Type} (requests : List (CachingRequest H)) (hashes : List H) : Prop :=
  ∀ r ∈ requests, ∀ i j, i < r.blockHashes.length → r.blockHashes[i]? = hashes[j]? →
    i = j ∧ ∀ l ≤ j, r.blockHashes[l]? = hashes[l]?

section Sparse

variable [DecidableEq H] {g : GroupSpec} {w alignment maxLength k i peek : ℕ}
  {requests : List (CachingRequest H)} {hashes : List H} {sparse : Bool} {r : CachingRequest H}

theorem cached_poolRow_iff (hcoll : NoCollision requests hashes) :
    Cached (poolRow g w alignment sparse requests hashes) i ↔
      ∃ r ∈ requests, i < r.blockHashes.length ∧ (∀ l ≤ i, r.blockHashes[l]? = hashes[l]?) ∧
        cachesBlock g w alignment sparse r i = true := by
  rw [Cached, poolRow]
  split_ifs with h
  · obtain ⟨r, hr, j, hj, heq, hcaches⟩ := h
    obtain ⟨rfl, hpre⟩ := hcoll r hr j i hj heq
    exact iff_of_true rfl ⟨r, hr, hj, hpre, hcaches⟩
  · refine iff_of_false false_ne_true ?_
    rintro ⟨r, hr, hi, hpre, hcaches⟩
    exact h ⟨r, hr, i, hi, hpre i le_rfl, hcaches⟩

omit [DecidableEq H] in
theorem cachesBlock_of_sparse (h : cachesBlock g w alignment true r i = true) :
    cachesBlock g w alignment false r i = true := by
  have hlt := of_decide_eq_true (and_eq_true_iff.1 h).1
  refine decide_eq_true (hlt.trans_le (Nat.div_le_div_right ?_))
  rw [tokensToCache]
  split_ifs
  · exact min_le_left _ _
  · exact div_mul_le_self _ _

/-- The blocks of a match at an aligned boundary `k` are not masked. -/
theorem windowMask_all {j n : ℕ} (hpeek : peek = if g.useEagle = true then 1 else 0)
    (hdvd : g.blockSize ∣ alignment) (hk : 0 < k) (hak : alignment ∣ k * g.blockSize)
    (hj : alignment = g.blockSize ∨
      k + peek ≤ j + contiguousBlocksForHit w g.blockSize g.useEagle) (hlt : j < k + peek)
    (hn : j < n) : (windowMask g w alignment n).all (·.getD j false) = true := by
  rw [windowMask]
  split_ifs with hal
  · rfl
  rw [slidingWindowMask]
  rw [← hpeek]
  split_ifs with hmask
  · rfl
  -- An alignment is a number of blocks, and `k` a multiple of it.
  obtain ⟨per, rfl⟩ := hdvd
  have hper : g.blockSize * per / g.blockSize = per :=
    Nat.mul_div_cancel_left _ g.spec.blockSize_pos
  rw [hper] at hmask ⊢
  obtain ⟨q, rfl⟩ : per ∣ k := by
    rw [mul_comm k] at hak
    exact Nat.dvd_of_mul_dvd_mul_left g.spec.blockSize_pos hak
  obtain ⟨q, rfl⟩ : ∃ q', q = q' + 1 := ⟨q - 1, by
    have := Nat.pos_of_mul_pos_left hk
    omega⟩
  have hle := hj.resolve_left fun heq ↦ hal heq.le
  rw [Nat.mul_add] at hle hlt
  show (map _ _).getD j false = true
  rw [getD_eq_getElem?_getD, getElem?_map, getElem?_range' (by omega)]
  refine decide_eq_true ⟨by omega, ?_⟩
  have hmod : (0 + 1 * j - peek) % per = per - (per * q + per - (j - peek)) := by
    have heq : 0 + 1 * j - peek = per - (per * q + per - (j - peek)) + per * q := by omega
    rw [heq, add_mul_mod_self_left, mod_eq_of_lt (by omega)]
  omega

omit [DecidableEq H] in
/-- **One request** that has cached the last block of a match has cached all of it. -/
theorem cachesBlock_sparse {j : ℕ} (hpeek : peek = if g.useEagle = true then 1 else 0)
    (hdvd : g.blockSize ∣ alignment) (ha : 0 < alignment) (hk : 0 < k)
    (hak : alignment ∣ k * g.blockSize) (hj : alignment = g.blockSize ∨
      k + peek ≤ j + contiguousBlocksForHit w g.blockSize g.useEagle) (hlt : j < k + peek)
    (h : cachesBlock g w alignment false r (k + peek - 1) = true) :
    cachesBlock g w alignment true r j = true := by
  have hb : 0 < g.blockSize := g.spec.blockSize_pos
  have hfull : (k + peek) * g.blockSize ≤ r.numComputedTokens := by
    have hlt := of_decide_eq_true h
    exact (le_div_iff_mul_le hb).1 (by omega)
  have haligned : k * g.blockSize ≤ r.numComputedTokens / alignment * alignment := by
    obtain ⟨q, hq⟩ := hak
    rw [hq, mul_comm]
    refine mul_le_mul_right _ ((le_div_iff_mul_le ha).2 ?_)
    rw [mul_comm, ← hq]
    exact (mul_le_mul_right _ (le_add_right k peek)).trans hfull
  have hkb : 0 < k * g.blockSize := Nat.mul_pos hk hb
  have hn : j < tokensToCache g alignment r.numComputedTokens / g.blockSize := by
    refine hlt.trans_le ((le_div_iff_mul_le hb).2 ?_)
    rw [tokensToCache]
    rcases heagle : g.useEagle with - | - <;> rw [heagle] at hpeek
    · rw [hpeek]
      exact haligned
    · rw [if_pos ⟨rfl, hkb.trans_le haligned⟩]
      refine le_min hfull ?_
      rw [hpeek, if_pos rfl, Nat.add_mul]
      omega
  exact and_eq_true_iff.2 ⟨decide_eq_true hn, windowMask_all hpeek hdvd hk hak hj hlt hn⟩

variable (hcoll : NoCollision requests hashes) (hdvd : g.blockSize ∣ alignment) (ha : 0 < alignment)
include hcoll

theorem cached_of_sparse
    (h : Cached (poolQuery g w alignment requests hashes maxLength true).look i) :
    Cached (poolQuery g w alignment requests hashes maxLength false).look i := by
  obtain ⟨r, hr, hi, hpre, hcaches⟩ := (cached_poolRow_iff hcoll).1 h
  exact (cached_poolRow_iff hcoll).2 ⟨r, hr, hi, hpre, cachesBlock_of_sparse hcaches⟩

include hdvd ha

/-- **The two pools have the same matches**, provided that a match has a block. -/
theorem isMatch_sparse_iff (hk : 0 < k)
    (hneed : 0 < contiguousBlocksForHit w g.blockSize g.useEagle ∨ alignment = g.blockSize) :
    (poolQuery g w alignment requests hashes maxLength false).IsMatch k ↔
      (poolQuery g w alignment requests hashes maxLength true).IsMatch k := by
  set Q := poolQuery g w alignment requests hashes maxLength false with hQ
  constructor
  · rintro ⟨hmem, hlast⟩
    obtain ⟨r, hr, hi, hpre, hcaches⟩ := (cached_poolRow_iff hcoll).1 hlast
    obtain ⟨hak, hle, -⟩ := (mem_hits_iff hk).1 hmem
    have hcached : ∀ j < k + Q.peek, alignment = g.blockSize ∨
        k + Q.peek ≤ j + contiguousBlocksForHit w g.blockSize g.useEagle →
        Cached (poolRow g w alignment true requests hashes) j := fun j hlt hj ↦
      (cached_poolRow_iff hcoll).2 ⟨r, hr, by omega, fun l hl ↦ hpre l (by omega),
        cachesBlock_sparse rfl hdvd ha hk hak hj hlt hcaches⟩
    have hspan : contiguousBlocksForHit w g.blockSize g.useEagle = Q.span + Q.peek := rfl
    refine ⟨(mem_hits_iff hk).2 ⟨hak, hle, fun j hj hlt ↦ hcached j hlt (.inr ?_)⟩,
      hcached _ (sub_lt (by omega) one_pos) (hneed.symm.imp_right fun h ↦ ?_)⟩
    · change k ≤ j + Q.span at hj
      omega
    · show k + Q.peek ≤ k + Q.peek - 1 + contiguousBlocksForHit w g.blockSize g.useEagle
      omega
  · rintro ⟨hmem, hlast⟩
    obtain ⟨hak, hle, hall⟩ := (mem_hits_iff hk).1 hmem
    exact ⟨(mem_hits_iff hk).2
      ⟨hak, hle, fun j hj hlt ↦ cached_of_sparse hcoll (hall j hj hlt)⟩,
      cached_of_sparse hcoll hlast⟩

omit hdvd ha in
/-- With no block to match, the mask admits nothing. -/
theorem not_cached_sparse (hneed : contiguousBlocksForHit w g.blockSize g.useEagle = 0)
    (hal : g.blockSize < alignment) (i : ℕ) :
    ¬ Cached (poolRow g w alignment true requests hashes) i := by
  rw [cached_poolRow_iff hcoll]
  rintro ⟨r, -, -, -, hcaches⟩
  have hper : 0 < alignment / g.blockSize := div_pos hal.le g.spec.blockSize_pos
  have hall := (and_eq_true_iff.1 hcaches).2
  rw [windowMask, if_neg (not_le.2 hal), slidingWindowMask, hneed] at hall
  rw [if_neg (not_le.2 hper)] at hall
  change (map _ _).getD i false = true at hall
  rw [getD_eq_getElem?_getD, getElem?_map] at hall
  rcases hi : (range' 0 _)[i]? with - | j <;> rw [hi] at hall
  · cases hall
  · exact absurd (of_decide_eq_true hall).2 (not_le.2 (mod_lt _ hper))

/-- **Sparse caching loses no hits** exactly when a match has a block, the alignment is the block
size, or there was nothing to hit: no request has cached the first aligned part of the prefix. -/
theorem sparse_hit_eq_iff (numGroups : ℕ) :
    ((poolQuery g w alignment requests hashes maxLength true).hit numGroups).map length =
      ((poolQuery g w alignment requests hashes maxLength false).hit numGroups).map length ↔
    2 ≤ w ∨ g.useEagle = true ∨ alignment = g.blockSize ∨
      ¬ (alignment ≤ maxLength ∧ Cached (poolRow g w alignment false requests hashes)
        (alignment / g.blockSize - 1)) := by
  have hb : 0 < g.blockSize := g.spec.blockSize_pos
  by_cases hneed : 0 < contiguousBlocksForHit w g.blockSize g.useEagle ∨ alignment = g.blockSize
  · refine iff_of_true (hit_length_congr (fun k hk ↦
      (isMatch_sparse_iff hcoll hdvd ha hk hneed).symm) numGroups) ?_
    rcases hneed with hneed | heq
    · rcases lt_or_ge w 2 with hw | hw
      · rw [contiguousBlocksForHit, le_zero.1 ((cdiv_le_iff hb).2 (by omega))] at hneed
        exact .inr (.inl (not_not.1 fun heagle ↦ by simp [heagle] at hneed))
      · exact .inl hw
    · exact .inr (.inr (.inl heq))
  -- A window of one token without EAGLE: the mask admits nothing, the search asks for a block.
  obtain ⟨hzero, hne⟩ := not_or.1 hneed
  replace hzero := le_zero.1 (not_lt.1 hzero)
  have hal : g.blockSize < alignment := lt_of_le_of_ne (le_of_dvd ha hdvd) (Ne.symm hne)
  set Q := poolQuery g w alignment requests hashes maxLength false with hQ
  have hspan : Q.span + Q.peek = 0 := hzero
  have heagle : g.useEagle = false := by
    refine eq_false_iff.2 fun h ↦ ?_
    have hpeek : Q.peek = 1 := if_pos h
    omega
  have hw : w < 2 := by
    by_contra hw
    have := cdiv_pos hb (by omega : 0 < w - 1)
    change 0 < Q.span at this
    omega
  obtain ⟨rows, found, k, hrows, hstop, hlen⟩ :=
    (poolQuery g w alignment requests hashes maxLength true).exists_stopsAt numGroups
  obtain ⟨rows', found', k', hrows', hstop', hlen'⟩ := Q.exists_stopsAt numGroups
  have hlast : 0 < k' → found' = true := fun hk ↦ by
    rcases found' with - | -
    · have := hstop'.short rfl hk
      omega
    · rfl
  have hk : k = 0 := by
    rcases found with - | -
    · by_contra hk
      have hshort : k < Q.span := hstop.short rfl (pos_of_ne_zero hk)
      omega
    · exact absurd (hstop.complete rfl).2 (not_cached_sparse hcoll hzero hal _)
  have hlength : rows'.length = k' := by
    rw [hlen']
    split_ifs with hk'
    · exact hk'.symm
    · rw [hlast (pos_of_ne_zero hk'), show Q.eagle = false from heagle]
      show k' + Q.peek = k'
      omega
  have hmul : alignment / g.blockSize * g.blockSize = alignment := Nat.div_mul_cancel hdvd
  have hper : 0 < alignment / g.blockSize := div_pos hal.le hb
  rw [hrows, hrows', or_iff_right (by omega), or_iff_right (by simp [heagle]), or_iff_right hne]
  show ok rows.length = ok rows'.length ↔ _
  rw [ok.injEq, hlen, if_pos hk, hlength]
  constructor
  · rintro hk' ⟨hmax, hcached⟩
    have hroom : alignment / g.blockSize ≤ Q.numBlocks := Nat.div_le_div_right hmax
    refine absurd (hstop'.greatest _ hper ((mem_hits_iff hper).2
      ⟨?_, hroom, fun j hj hlt ↦ by omega⟩) (by omega) ?_) (by omega)
    · exact ⟨1, hmul.trans (mul_one alignment).symm⟩
    · rwa [show Q.peek = 0 by omega]
  · intro hcond
    by_contra hk'
    have hpos : 0 < k' := pos_of_ne_zero (Ne.symm hk')
    have hle : alignment ≤ k' * g.blockSize := le_of_dvd (Nat.mul_pos hpos hb) hstop'.mem.1
    refine hcond ⟨hle.trans hstop'.mem.2.2.1, ?_⟩
    have hper' : alignment / g.blockSize ≤ k' :=
      Nat.le_of_mul_le_mul_right (hmul.le.trans hle) hb
    obtain ⟨r, hr, hi, hpre, hcaches⟩ :=
      (cached_poolRow_iff hcoll).1 (hstop'.complete (hlast hpos)).2
    refine (cached_poolRow_iff hcoll).2 ⟨r, hr, by omega, fun l hl ↦ hpre l (by omega), ?_⟩
    exact decide_eq_true (lt_of_le_of_lt (by omega) (of_decide_eq_true hcaches))

end Sparse

/-- A group with a window of `w` tokens in blocks of four, and a request that has computed sixteen
tokens. -/
def windowGroup (w : ℕ) : GroupSpec :=
  ⟨⟨.slidingWindow w, 4, threeCached.blockSize_pos, 0⟩, false⟩

def sixteenComputed : CachingRequest ℕ := ⟨[1, 2, 3, 4], 16⟩

/-- **A window of one token**: the prefix is found when all blocks are cached, and not otherwise. -/
theorem sparse_loses_window_one :
    ((poolQuery (windowGroup 1) 1 8 [sixteenComputed] [1, 2, 3, 4] 16 false).hit 1).map
        length = .ok 4 ∧
      ((poolQuery (windowGroup 1) 1 8 [sixteenComputed] [1, 2, 3, 4] 16 true).hit 1).map
        length = .ok 0 := by
  decide

/-- A window of five tokens. -/
theorem sparse_hit_eq_five :
    ((poolQuery (windowGroup 5) 5 8 [sixteenComputed] [1, 2, 3, 4] 16 true).hit 1).map
        length =
      ((poolQuery (windowGroup 5) 5 8 [sixteenComputed] [1, 2, 3, 4] 16 false).hit 1).map
        length := by
  refine (sparse_hit_eq_iff ?_ (by decide) (by decide) 1).2 (.inl (by decide))
  intro r hr i j hi heq
  obtain rfl := mem_singleton.1 hr
  have hnodup : (sixteenComputed.blockHashes).Nodup := by decide
  obtain rfl := (getElem?_inj hi hnodup).1 heq
  exact ⟨rfl, fun _ _ ↦ rfl⟩

end OneCatVllm
