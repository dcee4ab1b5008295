import OneCatVllm.Lib.Transition
import OneCatVllm.Kv.PoolBalance

/-!
# The pool with linked queues refines the abstract pool

The two pools differ only in their free queues. **Each call has related outcomes** on related pools:
both raise the same error, or both return, with the same results and related pools. The queue
operations need their preconditions here, which the balance of the abstract pool provides: a block
that is appended is in no queue, a block that is removed is in the queue of its range.

Along a run of disciplined calls the linked queues therefore represent, at every moment, the
sequences of the abstract pool, in which a block is free exactly once or in use.
-/

namespace OneCatVllm

open BlockPool Fallible Ledger List Multiset PoolState QueueLists Transition
open PoolState (references)

variable {Q Q' H X E : Type} {cfg : PoolConfig H X E}

namespace BlockPool

/-- The pool around other queues. -/
def withQueue (q : Q') (p : BlockPool Q H X) : BlockPool Q' H X where
  refCnt := p.refCnt
  blockHash := p.blockHash
  cachedBlockHashToBlock := p.cachedBlockHashToBlock
  freeBlockQueue := q
  kvEventQueue := p.kvEventQueue

/-! ### Parts that do not touch the queues -/

section Frame

variable [DecidableEq H]

section

variable (q : Q') (p : BlockPool Q H X)

theorem maybeEvictCachedBlock_withQueue (b : ℕ) :
    (p.withQueue q).maybeEvictCachedBlock cfg b = (p.maybeEvictCachedBlock cfg b).withQueue q := by
  have hhash : (p.withQueue q).blockHash b = p.blockHash b := rfl
  unfold maybeEvictCachedBlock
  rw [hhash]
  rcases p.blockHash b with - | key
  · rfl
  · have hindex : (p.withQueue q).cachedBlockHashToBlock = p.cachedBlockHashToBlock := rfl
    dsimp only
    rw [hindex]
    rcases p.cachedBlockHashToBlock.pop key b with ⟨found, index⟩
    cases found <;> rfl

theorem claimBlock_withQueue (b : ℕ) :
    claimBlock cfg (p.withQueue q) b = (claimBlock cfg p b).map (withQueue q) := by
  have hevict : (if cfg.enableCaching then (p.withQueue q).maybeEvictCachedBlock cfg b
      else p.withQueue q) =
      (if cfg.enableCaching then p.maybeEvictCachedBlock cfg b else p).withQueue q := by
    split
    · exact maybeEvictCachedBlock_withQueue q p b
    · rfl
  unfold claimBlock
  dsimp only
  rw [hevict]
  generalize (if cfg.enableCaching then p.maybeEvictCachedBlock cfg b else p) = p₁
  have href : (p₁.withQueue q).refCnt = p₁.refCnt := rfl
  rw [href]
  split <;> rfl

theorem evictBlocks_withQueue (ids : List ℕ) :
    (p.withQueue q).evictBlocks cfg ids = (p.evictBlocks cfg ids).map (withQueue q) := by
  refine foldlM_map fun p b ↦ ?_
  split
  · rw [maybeEvictCachedBlock_withQueue]
    rfl
  · rfl

theorem cacheLoop_withQueue (c : CacheCall H E) (hashes : List H) (bs : List ℕ) (i : ℕ) :
    cacheLoop c hashes bs i (p.withQueue q) =
      (cacheLoop c hashes bs i p).map fun r ↦ (r.1.withQueue q, r.2) := by
  induction bs generalizing i p with
  | nil => rfl
  | cons b bs ih =>
    have hhash : (p.withQueue q).blockHash = p.blockHash := rfl
    unfold cacheLoop
    rw [hhash]
    split
    · exact ih ..
    split
    · rfl
    rcases hashes[i]? with - | hash
    · rfl
    · set p₁ : BlockPool Q H X :=
        { p with
          blockHash := Function.update p.blockHash b (some (hash, c.kvCacheGroupId))
          cachedBlockHashToBlock :=
            p.cachedBlockHashToBlock.insert (hash, c.kvCacheGroupId) b } with hp₁
      show (cacheLoop c hashes bs (i + 1) (p₁.withQueue q) >>= _) =
        Except.map _ (cacheLoop c hashes bs (i + 1) p₁ >>= _)
      rw [ih]
      rcases cacheLoop c hashes bs (i + 1) p₁ with e | ⟨p', indices⟩ <;> rfl

theorem cacheFullBlocks_withQueue (c : CacheCall H E) :
    (p.withQueue q).cacheFullBlocks cfg c = (p.cacheFullBlocks cfg c).map (withQueue q) := by
  unfold cacheFullBlocks
  split
  · rfl
  split
  · rfl
  split
  · rfl
  rcases cfg.blockHashList c.blockSize c.request.blockHashes with e | hashes
  · rfl
  · show (cacheLoop c _ _ 0 (p.withQueue q) >>= _) = _
    rw [cacheLoop_withQueue]
    rcases hloop : cacheLoop c (hashes.drop c.numCachedBlocks) c.newFullBlocks 0 p with
      e | ⟨p', indices⟩
    · show _ = Except.map _ (cacheLoop c _ _ 0 p >>= _)
      rw [hloop]
      rfl
    · show _ = Except.map _ (cacheLoop c _ _ 0 p >>= _)
      rw [hloop]
      refine congrArg Except.ok ?_
      split <;> rfl

end

end Frame

/-! ### Queue operations -/

variable {c : LinkedQueues} {t : BlockPool QueueLists H X} {q : QueueLists} {owners : Multiset ℕ}
  {bs : List ℕ} {b : ℕ}

/-- After an operation on the state queue, the history blocks of a list are still in no queue. -/
theorem notMem_put_state {l : List ℕ} (hno : ∀ b ∈ bs, ∀ r, b ∉ q r)
    (hl : ∀ b ∈ l, b ∈ q .state ∨ cfg.rangeOf b = .state) :
    ∀ b ∈ inRange cfg .history bs, ∀ r, b ∉ q.put .state l r := by
  intro b hb r
  obtain ⟨hb, hr⟩ := mem_filter.1 hb
  cases r with
  | state =>
    intro hmem
    rcases hl b hmem with hq | hstate
    · exact hno b hb .state hq
    · rw [of_decide_eq_true hr] at hstate
      exact absurd hstate (by decide)
  | history => exact hno b hb .history

theorem rangeOf_of_mem_inRange {r : BlockRange} (hb : b ∈ inRange cfg r bs) :
    cfg.rangeOf b = r := of_decide_eq_true (mem_filter.1 hb).2

section

variable (cfg : PoolConfig H X E) (h : Represents c q) (hbs : bs.Nodup)
  (hno : ∀ b ∈ bs, ∀ r, b ∉ q r)

include h hbs hno

theorem represents_appendBlocks :
    ∃ c', appendBlocks cfg bs c = .ok c' ∧ Represents c' fun r ↦ q r ++ inRange cfg r bs := by
  have hstate : ∀ b ∈ inRange cfg .state bs, ∀ r, b ∉ q r := fun b hb ↦
    hno b (mem_of_mem_filter hb)
  obtain ⟨c₁, hc₁, h₁⟩ := h.appendN (hbs.filter _) hstate
  have hhistory := notMem_put_state (l := q .state ++ inRange cfg .state bs) hno fun b hb ↦
    (mem_append.1 hb).imp_right rangeOf_of_mem_inRange
  obtain ⟨c₂, hc₂, h₂⟩ := h₁.appendN (hbs.filter _) hhistory
  exact ⟨c₂, bind_eq_ok.2 ⟨c₁, hc₁, hc₂⟩, h₂.congr fun r ↦ by cases r <;> rfl⟩

theorem represents_prependBlocks :
    ∃ c', prependBlocks cfg bs c = .ok c' ∧ Represents c' fun r ↦ inRange cfg r bs ++ q r := by
  have hstate : ∀ b ∈ inRange cfg .state bs, ∀ r, b ∉ q r := fun b hb ↦
    hno b (mem_of_mem_filter hb)
  obtain ⟨c₁, hc₁, h₁⟩ := h.prependN (hbs.filter _) hstate
  have hhistory := notMem_put_state (l := inRange cfg .state bs ++ q .state) hno fun b hb ↦
    ((mem_append.1 hb).imp_left rangeOf_of_mem_inRange).symm
  obtain ⟨c₂, hc₂, h₂⟩ := h₁.prependN (hbs.filter _) hhistory
  exact ⟨c₂, bind_eq_ok.2 ⟨c₁, hc₁, hc₂⟩, h₂.congr fun r ↦ by cases r <;> rfl⟩

end

/-! ### Related pools -/

/-- **The linked pool refines the abstract one**: the queues represent the sequences, everything
else is the same. -/
structure Refines (p : BlockPool LinkedQueues H X) (t : BlockPool QueueLists H X) : Prop where
  eq : p = t.withQueue p.freeBlockQueue
  represents : Represents p.freeBlockQueue t.freeBlockQueue

variable {p : BlockPool LinkedQueues H X}

theorem refines_withQueue (h : Represents c t.freeBlockQueue) : Refines (t.withQueue c) t :=
  ⟨rfl, h⟩

section

variable (h : p.Refines t)

include h

theorem Refines.getNumFreeBlocks (g : Option ℕ) :
    p.getNumFreeBlocks cfg g = t.getNumFreeBlocks cfg g := by
  have hcount : ∀ r, FreeQueue.numFreeBlocks r p.freeBlockQueue =
      FreeQueue.numFreeBlocks r t.freeBlockQueue := h.represents.count
  simp only [BlockPool.getNumFreeBlocks, hcount]

theorem Refines.getNewBlocks [DecidableEq H] (n : ℕ) (g : Option ℕ) :
    Related (fun x y ↦ x.1 = y.1 ∧ x.2.Refines y.2) (p.getNewBlocks cfg n g)
      (t.getNewBlocks cfg n g) := by
  unfold BlockPool.getNewBlocks
  rw [h.getNumFreeBlocks]
  by_cases hn : (n : ℤ) > t.getNumFreeBlocks cfg g
  · rw [if_pos hn, if_pos hn]
    exact .error _
  rw [if_neg hn, if_neg hn]
  rcases hr : cfg.forGroup g with e | r
  · exact .error _
  have hlen : n ≤ (t.freeBlockQueue r).length := by
    rw [getNumFreeBlocks_eq hr] at hn
    omega
  obtain ⟨c', hpop, hrep⟩ := h.represents.popleftN hlen
  have hpop' : FreeQueue.popleftN r n t.freeBlockQueue = .ok ((t.freeBlockQueue r).take n,
      t.freeBlockQueue.put r ((t.freeBlockQueue r).drop n)) := if_pos hlen
  show Related _ (FreeQueue.popleftN r n p.freeBlockQueue >>= _)
    (FreeQueue.popleftN r n t.freeBlockQueue >>= _)
  rw [show FreeQueue.popleftN r n p.freeBlockQueue = _ from hpop, hpop']
  set t₁ : BlockPool QueueLists H X :=
    { t with freeBlockQueue := t.freeBlockQueue.put r ((t.freeBlockQueue r).drop n) }
  have hp₁ : { p with freeBlockQueue := c' } = t₁.withQueue c' := by rw [h.eq]; rfl
  show Related _ (foldlM (claimBlock cfg) { p with freeBlockQueue := c' } _ >>= _)
    (foldlM (claimBlock cfg) t₁ _ >>= _)
  rw [hp₁, foldlM_map fun p b ↦ claimBlock_withQueue c' p b]
  rcases hloop : foldlM (claimBlock cfg) t₁ _ with e | t'
  · exact .error e
  · have hqueue : t'.freeBlockQueue = t₁.freeBlockQueue := claimBlocks_queue hloop
    exact .ok ⟨rfl, refines_withQueue (by rwa [hqueue])⟩

theorem Refines.touchBlock (hmem : t.refCnt b = 0 → b ≠ 0 → b ∈ t.freeBlockQueue (cfg.rangeOf b)) :
    Related Refines (touchBlock cfg p b) (touchBlock cfg t b) := by
  have href : p.refCnt = t.refCnt := by rw [h.eq]; rfl
  by_cases hfree : t.refCnt b = 0 ∧ b ≠ 0
  · obtain ⟨c', hc', hrep⟩ := h.represents.remove (hmem hfree.1 hfree.2)
    have hp : unqueue cfg p b = .ok c' := by
      rw [unqueue, href, if_pos hfree]
      exact hc'
    have ht : unqueue cfg t b = .ok (t.freeBlockQueue.put (cfg.rangeOf b)
        ((t.freeBlockQueue (cfg.rangeOf b)).erase b)) := by
      rw [unqueue, if_pos hfree]
      exact if_pos (hmem hfree.1 hfree.2)
    rw [touchBlock_eq_ok.2 ⟨_, hp, rfl⟩, touchBlock_eq_ok.2 ⟨_, ht, rfl⟩]
    exact .ok ⟨by rw [h.eq]; rfl, hrep⟩
  · have hp : unqueue cfg p b = .ok p.freeBlockQueue := by rw [unqueue, href, if_neg hfree]
    have ht : unqueue cfg t b = .ok t.freeBlockQueue := if_neg hfree
    rw [touchBlock_eq_ok.2 ⟨_, hp, rfl⟩, touchBlock_eq_ok.2 ⟨_, ht, rfl⟩]
    exact .ok ⟨by rw [h.eq]; rfl, h.represents⟩

theorem Refines.touch (hbal : t.Balances cfg owners) (hbs : ∀ b ∈ bs, b < cfg.numGpuBlocks) :
    Related Refines (p.touch cfg bs) (t.touch cfg bs) := by
  induction bs generalizing p t owners with
  | nil => exact .ok h
  | cons b bs ih =>
    have hb := hbs b mem_cons_self
    obtain ⟨t₁, ht₁, hbal₁⟩ := hbal.touchBlock hb
    have hrel : Related Refines (BlockPool.touchBlock cfg p b) (BlockPool.touchBlock cfg t b) :=
      h.touchBlock fun hzero hb0 ↦
        hbal.mem_free.2 ⟨⟨Nat.pos_of_ne_zero hb0, hb⟩, rfl, hzero⟩
    obtain ⟨p₁, hp₁, h₁⟩ := hrel.exists_ok_left ht₁
    have hrest := ih h₁ hbal₁ fun c hc ↦ hbs c (mem_cons_of_mem _ hc)
    show Related Refines (BlockPool.touchBlock cfg p b >>= _) (BlockPool.touchBlock cfg t b >>= _)
    rw [hp₁, ht₁]
    exact hrest

/-- Freed blocks that are in no queue return to the linked queues as to the sequences. -/
theorem Refines.requeue {freed : List ℕ} (hnodup : freed.Nodup)
    (hno : ∀ b ∈ freed, ∀ r, b ∉ t.freeBlockQueue r) (reuseFirst : Bool) :
    Related Represents (requeue cfg freed reuseFirst p) (requeue cfg freed reuseFirst t) := by
  have hhash : p.blockHash = t.blockHash := by rw [h.eq]; rfl
  unfold BlockPool.requeue
  rw [hhash]
  split_ifs with hcaching
  · set front := freed.filter fun b ↦ decide (reuseFirst = true ∨ t.blockHash b = none) with hfront
    set back := freed.filter fun b ↦ decide (reuseFirst = false ∧ t.blockHash b ≠ none) with hback
    obtain ⟨c₁, hc₁, h₁⟩ := represents_prependBlocks cfg h.represents (hnodup.filter _)
      fun b hb ↦ hno b (mem_of_mem_filter hb)
    -- The two parts have no block in common.
    have hback' : ∀ b ∈ back, ∀ r, b ∉ inRange cfg r front ++ t.freeBlockQueue r := by
      intro b hb r hmem
      obtain ⟨hbf, hcond⟩ := mem_filter.1 hb
      rcases mem_append.1 hmem with hmem | hmem
      · have hcond' := (mem_filter.1 (mem_of_mem_filter hmem)).2
        obtain ⟨hreuse, hsome⟩ := of_decide_eq_true hcond
        rcases of_decide_eq_true hcond' with hr | hn
        · rw [hreuse] at hr
          exact absurd hr (by decide)
        · exact hsome hn
      · exact hno b hbf r hmem
    obtain ⟨c₂, hc₂, h₂⟩ := represents_appendBlocks cfg h₁ (hnodup.filter _) hback'
    rw [hc₁, prependBlocks_eq]
    show Related Represents (appendBlocks cfg back c₁) (appendBlocks cfg back _)
    rw [hc₂, appendBlocks_eq]
    exact .ok h₂
  · obtain ⟨c₁, hc₁, h₁⟩ := represents_appendBlocks cfg h.represents hnodup hno
    rw [hc₁, appendBlocks_eq]
    exact .ok h₁

theorem Refines.freeBlocks (hbal : t.Balances cfg owners) (hnodup : (bs.filter (· ≠ 0)).Nodup)
    (hown : references bs ≤ owners) (reuseFirst : Bool) :
    Related Refines (p.freeBlocks cfg bs reuseFirst) (t.freeBlocks cfg bs reuseFirst) := by
  have href : p.refCnt = t.refCnt := by rw [h.eq]; rfl
  set freed := freedBlocks bs (decrementAll bs t.refCnt) with hfreed
  have hsub : ∀ b ∈ freed, b ∈ bs.filter (· ≠ 0) := fun b hb ↦ by
    obtain ⟨hb, hcond⟩ := mem_filter.1 hb
    exact mem_filter.2 ⟨hb, decide_eq_true (of_decide_eq_true hcond).2⟩
  have hfreedNodup : freed.Nodup := hnodup.sublist
    (monotone_filter_right bs fun b hb ↦ decide_eq_true (of_decide_eq_true hb).2)
  have hno : ∀ b ∈ freed, ∀ r, b ∉ t.freeBlockQueue r := fun b hb r ↦
    hbal.notMem_free_of_mem_owners (mem_of_le hown (mem_coe.2 (hsub b hb)))
  have hqueue : Related Represents (BlockPool.requeue cfg freed reuseFirst p) _ :=
    h.requeue hfreedNodup hno reuseFirst
  show Related Refines (BlockPool.requeue cfg (freedBlocks bs (decrementAll bs p.refCnt)) _ p >>= _)
    (BlockPool.requeue cfg freed _ t >>= _)
  rw [href]
  refine hqueue.bind fun {c' q'} hrep ↦ .ok ⟨?_, hrep⟩
  rw [h.eq]
  rfl

theorem Refines.resetPrefixCache :
    (p.resetPrefixCache cfg).2.Refines (t.resetPrefixCache cfg).2 := by
  unfold BlockPool.resetPrefixCache
  rw [h.getNumFreeBlocks]
  split
  · exact h
  · refine ⟨?_, h.represents⟩
    rw [h.eq]
    rfl

theorem Refines.takeEvents (cfg : PoolConfig H X E) :
    (p.takeEvents cfg).1 = (t.takeEvents cfg).1 ∧
      (p.takeEvents cfg).2.Refines (t.takeEvents cfg).2 := by
  have hevents : p.kvEventQueue = t.kvEventQueue := by rw [h.eq]; rfl
  unfold BlockPool.takeEvents
  split
  · refine ⟨hevents, ?_, h.represents⟩
    rw [h.eq]
    rfl
  · exact ⟨rfl, h⟩

/-- Calls that leave the queues alone. -/
theorem Refines.of_map {x : Except KvError (BlockPool LinkedQueues H X)}
    {y : Except KvError (BlockPool QueueLists H X)} (hx : x = y.map (withQueue p.freeBlockQueue))
    (hy : ∀ {t'}, y = .ok t' → t'.freeBlockQueue = t.freeBlockQueue) : Related Refines x y := by
  subst hx
  cases y with
  | error e => exact .error e
  | ok t' => exact .ok (refines_withQueue (by rw [hy rfl]; exact h.represents))

end

end BlockPool

/-! ### Calls -/

/-- What callers keep to: they touch blocks of the pool, and give back references that they hold, no
block twice in one call. -/
def PoolCall.Disciplined (cfg : PoolConfig H X E) (held : Multiset ℕ) : PoolCall H E → Prop
  | .touch bs => ∀ b ∈ bs, b < cfg.numGpuBlocks
  | .freeBlocks bs _ => (bs.filter (· ≠ 0)).Nodup ∧ references bs ≤ held
  | _ => True

instance decidableDisciplined (cfg : PoolConfig H X E) (held : Multiset ℕ) :
    ∀ c : PoolCall H E, Decidable (c.Disciplined cfg held)
  | .touch _ => inferInstanceAs (Decidable (∀ _ ∈ _, _))
  | .freeBlocks _ _ => inferInstanceAs (Decidable (_ ∧ _))
  | .getNewBlocks .. | .cacheFullBlocks .. | .evictBlocks .. | .resetPrefixCache
  | .takeEvents => .isTrue trivial

variable {s : PoolState LinkedQueues H X} {t : PoolState QueueLists H X}

namespace PoolState

/-- Related pools with the same callers. -/
structure Refines (s : PoolState LinkedQueues H X) (t : PoolState QueueLists H X) : Prop where
  pool : s.pool.Refines t.pool
  taken : s.taken = t.taken
  held : s.held = t.held
  returned : s.returned = t.returned

variable [DecidableEq H] {t' : PoolState QueueLists H X} {c : PoolCall H E}

/-- **Every disciplined call keeps the balance.** -/
theorem balances_call (hbal : t.pool.Balances cfg t.held) (hc : c.Disciplined cfg t.held)
    (hcall : t.call cfg c = .ok t') : t'.pool.Balances cfg t'.held := by
  cases c with
  | getNewBlocks n g =>
    obtain ⟨⟨ret, p⟩, hp, hret⟩ := bind_eq_ok.1 hcall
    cases hret
    obtain ⟨r, hr, hn⟩ := le_of_getNewBlocks_eq_ok hp
    obtain ⟨p', hp', -, hbal'⟩ := hbal.getNewBlocks hr hn
    cases hp.symm.trans hp'
    -- No free block is the null block.
    have hret : ((t.pool.freeBlockQueue r).take n).filter (· ≠ 0) =
        (t.pool.freeBlockQueue r).take n := by
      refine filter_eq_self.2 fun b hb ↦ decide_eq_true ?_
      exact (hbal.mem_free.1 (mem_of_mem_take hb)).1.1.ne'
    rwa [references, hret]
  | touch bs =>
    obtain ⟨p, hp, hret⟩ := bind_eq_ok.1 hcall
    cases hret
    obtain ⟨p', hp', hbal'⟩ := hbal.touch hc
    cases hp.symm.trans hp'
    exact hbal'
  | freeBlocks bs reuseFirst =>
    obtain ⟨p, hp, hret⟩ := bind_eq_ok.1 hcall
    cases hret
    obtain ⟨p', hp', hbal'⟩ := hbal.freeBlocks hc.1 hc.2 reuseFirst
    cases hp.symm.trans hp'
    exact hbal'
  | cacheFullBlocks c =>
    obtain ⟨p, hp, hret⟩ := bind_eq_ok.1 hcall
    cases hret
    exact hbal.congr (cacheFullBlocks_frame hp)
  | evictBlocks ids =>
    obtain ⟨p, hp, hret⟩ := bind_eq_ok.1 hcall
    cases hret
    exact hbal.congr (evictBlocks_frame hp)
  | resetPrefixCache =>
    cases hcall
    exact hbal.congr (resetPrefixCache_frame cfg t.pool)
  | takeEvents =>
    cases hcall
    exact hbal.congr (takeEvents_frame cfg t.pool)

/-- **Every disciplined call has related outcomes.** -/
theorem Refines.call (h : s.Refines t) (hbal : t.pool.Balances cfg t.held)
    (hc : c.Disciplined cfg t.held) : Related Refines (s.call cfg c) (t.call cfg c) := by
  cases c with
  | getNewBlocks n g =>
    refine (h.pool.getNewBlocks n g).bind fun {x y} hxy ↦ .ok ⟨hxy.2, h.taken, ?_, ?_⟩
    · rw [h.held, hxy.1]
    · rw [h.returned, hxy.1]
  | touch bs =>
    refine (h.pool.touch hbal hc).bind fun {x y} hxy ↦ .ok ⟨hxy, h.taken, ?_, h.returned⟩
    rw [h.held]
  | freeBlocks bs reuseFirst =>
    refine (h.pool.freeBlocks hbal hc.1 hc.2 reuseFirst).bind fun {x y} hxy ↦
      .ok ⟨hxy, h.taken, ?_, h.returned⟩
    rw [h.held]
  | cacheFullBlocks c =>
    have hmap : s.pool.cacheFullBlocks cfg c =
        (t.pool.cacheFullBlocks cfg c).map (withQueue s.pool.freeBlockQueue) := by
      rw [← cacheFullBlocks_withQueue, ← h.pool.eq]
    exact (h.pool.of_map hmap fun hp ↦ (cacheFullBlocks_frame hp).2).bind
      fun {x y} hxy ↦ .ok ⟨hxy, h.taken, h.held, h.returned⟩
  | evictBlocks ids =>
    have hmap : s.pool.evictBlocks cfg ids =
        (t.pool.evictBlocks cfg ids).map (withQueue s.pool.freeBlockQueue) := by
      rw [← evictBlocks_withQueue, ← h.pool.eq]
    exact (h.pool.of_map hmap fun hp ↦ (evictBlocks_frame hp).2).bind
      fun {x y} hxy ↦ .ok ⟨hxy, h.taken, h.held, h.returned⟩
  | resetPrefixCache => exact .ok ⟨h.pool.resetPrefixCache, h.taken, h.held, h.returned⟩
  | takeEvents =>
    obtain ⟨hevents, hpool⟩ := h.pool.takeEvents cfg
    refine .ok ⟨hpool, ?_, h.held, h.returned⟩
    rw [h.taken, hevents]

end PoolState

/-! ### The start -/

/-- The sequences of a new pool. -/
def initLists (cfg : PoolConfig H X E) : QueueLists :=
  match cfg.stateRange with
  | none => put (fun _ ↦ []) .history (range' 1 (cfg.numGpuBlocks - 1))
  | some part => put (fun _ ↦ range' 1 (part.stateBlocks - 1)) .history
      (range' part.stateBlocks (cfg.numGpuBlocks - part.stateBlocks))

/-- **The queues of a new pool** are built without an error and represent its sequences. -/
theorem exists_initQueues (cfg : PoolConfig H X E) :
    ∃ c, initQueues cfg = .ok c ∧ Represents c (initLists cfg) := by
  have hpos := cfg.numGpuBlocks_pos
  have hrange : List.range cfg.numGpuBlocks = 0 :: range' 1 (cfg.numGpuBlocks - 1) := by
    obtain ⟨n, hn⟩ : ∃ n, cfg.numGpuBlocks = n + 1 := ⟨cfg.numGpuBlocks - 1, by omega⟩
    rw [hn, range_eq_range', range'_succ, Nat.add_sub_cancel]
  -- One queue over all blocks, without its first block.
  have hall : Represents ((LinkedQueues.empty.init .state []).init .history
      (List.range cfg.numGpuBlocks)) (put (fun _ ↦ []) .history (List.range cfg.numGpuBlocks)) :=
    .of_init .nil nodup_range nofun fun _ _ _ ↦ ⟨rfl, rfl⟩
  obtain ⟨c₁, hpop, h₁⟩ := hall.popleft (by rw [put_self, hrange])
  have h₁' : Represents c₁ (put (fun _ ↦ []) .history (range' 1 (cfg.numGpuBlocks - 1))) :=
    h₁.congr fun r ↦ by cases r <;> rfl
  unfold initQueues initLists
  rcases hs : cfg.stateRange with - | part
  · refine ⟨c₁, bind_eq_ok.2 ⟨_, hpop, rfl⟩, h₁'⟩
  · refine ⟨_, bind_eq_ok.2 ⟨_, hpop, rfl⟩, .of_init nodup_range' nodup_range' ?_ ?_⟩
    · intro b hb hb'
      rw [mem_range'_1] at hb hb'
      omega
    · intro b hb hb'
      refine h₁'.unlinked b fun r ↦ ?_
      cases r with
      | state => exact not_mem_nil
      | history =>
        rw [put_self]
        rw [mem_range'_1] at hb hb' ⊢
        omega

/-- A new pool is balanced: nothing is held. -/
theorem balances_init (cfg : PoolConfig H X E) :
    (init (initLists cfg) : BlockPool QueueLists H X).Balances cfg 0 := by
  refine Balanced.init (fun r ↦ ?_) fun {r b} ↦ ?_
  · unfold initLists
    rcases cfg.stateRange with - | part
    · cases r
      · exact .nil
      · exact nodup_range'
    · cases r <;> exact nodup_range'
  · show b ∈ initLists cfg r ↔ (0 < b ∧ b < cfg.numGpuBlocks) ∧ cfg.rangeOf b = r
    unfold initLists PoolConfig.rangeOf
    rcases hs : cfg.stateRange with - | part
    · cases r with
      | state =>
        show b ∈ [] ↔ _
        simp
      | history =>
        show b ∈ range' 1 _ ↔ _
        rw [mem_range'_1]
        simp only [and_true]
        omega
    · obtain ⟨hlow, hhigh⟩ := cfg.stateRange_bounds part hs
      cases r with
      | state =>
        show b ∈ range' 1 _ ↔ _
        rw [mem_range'_1]
        simp only [ite_eq_left_iff, reduceCtorEq, imp_false, not_lt, not_le]
        omega
      | history =>
        show b ∈ range' part.stateBlocks _ ↔ _
        rw [mem_range'_1]
        simp only [ite_eq_right_iff, reduceCtorEq, imp_false, not_lt]
        omega

/-! ### Runs -/

/-- **The free-queue invariant.** The linked lists represent the sequences `q`: pointers inverse to
each other from head to tail, counters equal to the lengths. A block without references occurs once,
in the queue of its range; a block in use and the null block occur in none. -/
structure QueueInvariant (cfg : PoolConfig H X E) (p : BlockPool LinkedQueues H X)
    (q : QueueLists) : Prop where
  represents : Represents p.freeBlockQueue q
  free : ∀ b, cfg.Usable b → p.refCnt b = 0 →
    ∀ r, (q r).count b = if cfg.rangeOf b = r then 1 else 0
  used : ∀ b, cfg.Usable b → p.refCnt b ≠ 0 → 0 < p.refCnt b ∧ ∀ r, b ∉ q r
  null : ∀ r, 0 ∉ q r
  range : ∀ r, ∀ b ∈ q r, cfg.Usable b ∧ cfg.rangeOf b = r

theorem PoolState.Refines.queueInvariant (h : s.Refines t) (hbal : t.pool.Balances cfg t.held) :
    QueueInvariant cfg s.pool t.pool.freeBlockQueue := by
  have href : s.pool.refCnt = t.pool.refCnt := by rw [h.pool.eq]; rfl
  refine ⟨h.pool.represents, fun b hb hzero r ↦ ?_, fun b hb hne ↦ ?_, fun r hmem ↦ ?_,
    fun r b hmem ↦ ?_⟩
  · rw [href] at hzero
    split
    · next hr => exact hbal.count_free hb hr hzero
    · next hr => exact count_eq_zero_of_not_mem fun hmem ↦ hr (hbal.mem_free.1 hmem).2.1
  · rw [href] at hne ⊢
    have hpos : 0 < t.pool.refCnt b := by
      have hnonneg := hbal.ref_nonneg hb
      omega
    exact ⟨hpos, fun r ↦ hbal.notMem_free hpos⟩
  · exact absurd (hbal.mem_free.1 hmem).1.1 (lt_irrefl 0)
  · obtain ⟨hv, hr, -⟩ := hbal.mem_free.1 hmem
    exact ⟨hv, hr⟩

/-- **The pool refines an abstract pool of sequences.** For every sequence of disciplined calls on a
new pool, plain or partitioned: the same calls on the abstract pool return the same blocks, the
linked queues represent its sequences, the free-queue invariant holds, and the next call raises on
the one pool exactly when it raises on the other. -/
theorem linked_pool_refines_sequences [DecidableEq H] {c₀ : LinkedQueues}
    {calls : List (PoolCall H E)} {s : PoolState LinkedQueues H X} (hinit : initQueues cfg = .ok c₀)
    (hallowed : Allowed (step cfg) (fun s c ↦ c.Disciplined cfg s.held) calls (init c₀))
    (hexec : exec (step cfg) calls (init c₀) = some s) :
    ∃ t : PoolState QueueLists H X,
      exec (step cfg) calls (init (initLists cfg)) = some t ∧
      s.Refines t ∧ QueueInvariant cfg s.pool t.pool.freeBlockQueue ∧
      ∀ c : PoolCall H E, c.Disciplined cfg s.held →
        ∀ e, s.call cfg c = .error e ↔ t.call cfg c = .error e := by
  obtain ⟨c, hc, hrep⟩ := exists_initQueues cfg
  cases hinit.symm.trans hc
  have hstart : (init c₀ : PoolState LinkedQueues H X).Refines
      (init (initLists cfg)) ∧
      (init (initLists cfg) : PoolState QueueLists H X).pool.Balances cfg 0 :=
    ⟨⟨⟨rfl, hrep⟩, rfl, rfl, rfl⟩, balances_init cfg⟩
  obtain ⟨t, ht, href, hbal⟩ := exec_simulation
    (R := fun s t : PoolState _ H X ↦ s.Refines t ∧ t.pool.Balances cfg t.held)
    (fun {s t c s'} hR hdisc hstep ↦ by
      obtain ⟨href, hbal⟩ := hR
      rw [href.held] at hdisc
      obtain ⟨t', ht', href'⟩ := (href.call hbal hdisc).exists_ok (toOption_eq_some.1 hstep)
      exact ⟨t', toOption_eq_some.2 ht', href', balances_call hbal hdisc ht'⟩)
    hstart hallowed hexec
  refine ⟨t, ht, href, href.queueInvariant hbal, fun c hdisc e ↦ ?_⟩
  rw [href.held] at hdisc
  exact (href.call hbal hdisc).error_iff

/-- Seven blocks, two of them for the state group `1`. -/
def partitionedPool : PoolConfig ℕ ℕ ℕ where
  numGpuBlocks := 7
  numGpuBlocks_pos := by decide
  enableCaching := true
  hashBlockSize := 2
  hashBlockSize_pos := by decide
  enableKvCacheEvents := false
  stateRange := some ⟨3, [1]⟩
  stateRange_bounds := by decide
  maybeConvertBlockHash := id
  joinHashes := sum
  sha256 := sum

/-- Blocks are shared, freed in both ranges and handed out again; one leaves from the middle. -/
def sharingCalls : List (PoolCall ℕ ℕ) :=
  [.getNewBlocks 3 (some 0), .getNewBlocks 1 (some 1), .touch [4],
    .freeBlocks [5, 4, 3, 1] false, .touch [3], .freeBlocks [4, 0] true, .getNewBlocks 2 (some 0)]

theorem exec_sharingCalls : ∃ c₀ s, initQueues partitionedPool = .ok c₀ ∧
    Allowed (step partitionedPool) (fun s c ↦ c.Disciplined partitionedPool s.held) sharingCalls
      (init c₀) ∧
    exec (step partitionedPool) sharingCalls (init c₀) = some s ∧
    s.returned = [[3, 4, 5], [1], [4, 5]] := by
  refine ⟨_, _, rfl, ?_, rfl, ?_⟩ <;> decide

theorem linked_pool_refines_sequences_sharingCalls : ∃ c₀ s,
    initQueues partitionedPool = .ok c₀ ∧
    exec (step partitionedPool) sharingCalls (init c₀) = some s ∧
    s.returned = [[3, 4, 5], [1], [4, 5]] ∧
    ∃ t : PoolState QueueLists ℕ ℕ,
      exec (step partitionedPool) sharingCalls (init (initLists partitionedPool)) = some t ∧
      s.Refines t ∧ QueueInvariant partitionedPool s.pool t.pool.freeBlockQueue ∧
      ∀ c : PoolCall ℕ ℕ, c.Disciplined partitionedPool s.held →
        ∀ e, s.call partitionedPool c = .error e ↔ t.call partitionedPool c = .error e := by
  obtain ⟨c₀, s, hc₀, hallowed, hs, hreturned⟩ := exec_sharingCalls
  exact ⟨c₀, s, hc₀, hs, hreturned, linked_pool_refines_sequences hc₀ hallowed hs⟩

/-- **Allocation is exact.** After any disciplined calls there is an order of the blocks of a
group's range that nobody holds, and `get_new_blocks` returns the first `n` of them, or raises if
there are fewer. -/
theorem getNewBlocks_exact_of_run [DecidableEq H] {c₀ : LinkedQueues} {g : Option ℕ}
    {r : BlockRange} (hinit : initQueues cfg = .ok c₀) (hr : cfg.forGroup g = .ok r)
    (h : Run (step cfg) (fun s c ↦ c.Disciplined cfg s.held) (init c₀) s) :
    ∃ free : List ℕ, free.Nodup ∧
      (∀ b, b ∈ free ↔ cfg.Usable b ∧ cfg.rangeOf b = r ∧ b ∉ s.held) ∧
      ∀ n ret, (∃ p, s.pool.getNewBlocks cfg n g = .ok (ret, p)) ↔
        n ≤ free.length ∧ ret = free.take n := by
  obtain ⟨t, href, hbal⟩ : ∃ t, s.Refines t ∧ t.pool.Balances cfg t.held := by
    refine h.invariant (P := fun s ↦ ∃ t, s.Refines t ∧ t.pool.Balances cfg t.held) ?_
      fun {s s' c} ⟨t, href, hbal⟩ hdisc hstep ↦ ?_
    · obtain ⟨c, hc, hrep⟩ := exists_initQueues cfg
      cases hinit.symm.trans hc
      exact ⟨init (initLists cfg), ⟨⟨rfl, hrep⟩, rfl, rfl, rfl⟩, balances_init cfg⟩
    · rw [href.held] at hdisc
      obtain ⟨t', ht', href'⟩ := (href.call hbal hdisc).exists_ok (toOption_eq_some.1 hstep)
      exact ⟨t', href', balances_call hbal hdisc ht'⟩
  refine ⟨t.pool.freeBlockQueue r, hbal.nodup r, fun b ↦ ?_, fun n ret ↦ ⟨?_, ?_⟩⟩
  · rw [href.held, hbal.mem_free]
    refine and_congr_right fun hb ↦ and_congr_right fun _ ↦ ?_
    rw [hbal.ref_eq hb, Int.natCast_eq_zero, Multiset.count_eq_zero]
  · rintro ⟨p, hp⟩
    obtain ⟨⟨_, t'⟩, ht', rfl, -⟩ := (href.pool.getNewBlocks n g).exists_ok hp
    obtain ⟨r', hr', hn⟩ := le_of_getNewBlocks_eq_ok ht'
    cases hr.symm.trans hr'
    obtain ⟨t₁, ht₁, -⟩ := hbal.getNewBlocks hr hn
    cases ht'.symm.trans ht₁
    exact ⟨hn, rfl⟩
  · rintro ⟨hn, rfl⟩
    obtain ⟨t', ht', -⟩ := hbal.getNewBlocks hr hn
    obtain ⟨⟨_, p⟩, hp, rfl, -⟩ := (href.pool.getNewBlocks n g).exists_ok_left ht'
    exact ⟨p, hp⟩

/-- Block 3 is free but not of the range of group `1`. -/
theorem getNewBlocks_exact_sharingCalls : ∃ c₀ s, initQueues partitionedPool = .ok c₀ ∧
    exec (step partitionedPool) sharingCalls (init c₀) = some s ∧
    ∃ free : List ℕ, free.Nodup ∧
      (∀ b, b ∈ free ↔ partitionedPool.Usable b ∧ partitionedPool.rangeOf b = .state ∧
        b ∉ s.held) ∧
      ∀ n ret, (∃ p, s.pool.getNewBlocks partitionedPool n (some 1) = .ok (ret, p)) ↔
        n ≤ free.length ∧ ret = free.take n := by
  obtain ⟨c₀, s, hc₀, hok, hs, -⟩ := exec_sharingCalls
  exact ⟨c₀, s, hc₀, hs, getNewBlocks_exact_of_run hc₀ rfl (.of_exec .start hok hs)⟩

end OneCatVllm
