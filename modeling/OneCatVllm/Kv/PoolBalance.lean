import OneCatVllm.Lib.Ledger
import OneCatVllm.Kv.PoolSpec

/-!
# The balance of the pool

The abstract pool, over one sequence of free blocks per range. Its reference counts, its sequences
and the references that callers hold form a **balanced ledger**, in which the null block takes no
part. Calls that keep to the ledger never raise: a block that is touched while free is in its
sequence, and a block that is freed returns to the sequence of its range.

Each rule is stated for arbitrary owners, so that a caller can apply it to its own part of them.
-/

namespace OneCatVllm

open Fallible Function Ledger List QueueLists
open Function (update)
open PoolState (references)
open scoped List

variable {Q H X E : Type} {cfg : PoolConfig H X E}

/-- The blocks that can be handed out: those of the pool but the null block. -/
def PoolConfig.Usable (cfg : PoolConfig H X E) (b : ℕ) : Prop := 0 < b ∧ b < cfg.numGpuBlocks

instance (cfg : PoolConfig H X E) : DecidablePred cfg.Usable := fun b ↦
  inferInstanceAs (Decidable (0 < b ∧ b < cfg.numGpuBlocks))

/-- **The pool is balanced** when the given references are the ones handed out. -/
def BlockPool.Balances (cfg : PoolConfig H X E) (p : BlockPool QueueLists H X)
    (owners : Multiset ℕ) : Prop :=
  Balanced cfg.Usable cfg.rangeOf p.refCnt p.freeBlockQueue owners

namespace BlockPool

variable {p p' : BlockPool QueueLists H X} {owners : Multiset ℕ} {bs : List ℕ} {b n : ℕ}
  {g : Option ℕ} {r : BlockRange}

/-! ### Reference counts -/

/-- Decrementing along a list subtracts how often a block occurs in it. -/
theorem decrementAll_apply (bs : List ℕ) (ref : ℕ → ℤ) (b : ℕ) :
    decrementAll bs ref b = ref b - bs.count b := by
  induction bs generalizing ref with
  | nil => simp [decrementAll]
  | cons c bs ih =>
    have hstep : decrementAll (c :: bs) ref = decrementAll bs (update ref c (ref c - 1)) := rfl
    rw [hstep, ih]
    rcases eq_or_ne b c with rfl | hne
    · rw [update_self, count_cons_self]
      omega
    · rw [update_of_ne hne, count_cons_of_ne hne.symm]

theorem update_add_one (ref : ℕ → ℤ) (b c : ℕ) :
    update ref b (ref b + 1) c = ref c + [b].count c := by
  rcases eq_or_ne c b with rfl | hne
  · rw [update_self, count_singleton_self]
    rfl
  · rw [update_of_ne hne, count_eq_zero_of_not_mem (by simpa using hne)]
    omega

/-- The balance is a matter of references and queues only. -/
theorem Balances.congr (h : p.Balances cfg owners)
    (hp : p'.refCnt = p.refCnt ∧ p'.freeBlockQueue = p.freeBlockQueue) :
    p'.Balances cfg owners := by
  rw [Balances, hp.1, hp.2]
  exact h

/-! ### Allocation -/

/-- Claiming fresh blocks succeeds and gives each of them a reference. -/
theorem exists_claimBlocks [DecidableEq H] (cfg : PoolConfig H X E) {p : BlockPool Q H X}
    (hnodup : bs.Nodup) (hzero : ∀ b ∈ bs, p.refCnt b = 0) :
    ∃ p', bs.foldlM (claimBlock cfg) p = .ok p' ∧ p'.freeBlockQueue = p.freeBlockQueue ∧
      ∀ c, p'.refCnt c = p.refCnt c + bs.count c := by
  induction bs generalizing p with
  | nil => exact ⟨p, rfl, rfl, fun c ↦ by simp⟩
  | cons b bs ih =>
    obtain ⟨hb, hrest⟩ := nodup_cons.1 hnodup
    obtain ⟨p₁, hp₁, hclaim⟩ : ∃ p₁, claimBlock cfg p b = .ok p₁ ∧ p₁ =
        { (if cfg.enableCaching then p.maybeEvictCachedBlock cfg b else p) with
          refCnt := update p.refCnt b (p.refCnt b + 1) } :=
      ⟨_, claimBlock_eq_ok.2 ⟨hzero b mem_cons_self, rfl⟩, rfl⟩
    have hqueue : p₁.freeBlockQueue = p.freeBlockQueue := by
      rw [hclaim]
      split
      · exact (maybeEvictCachedBlock_frame cfg p b).2
      · rfl
    have hcount : ∀ c, p₁.refCnt c = p.refCnt c + [b].count c := by
      rw [hclaim]
      exact update_add_one p.refCnt b
    have hzero₁ : ∀ c ∈ bs, p₁.refCnt c = 0 := by
      intro c hc
      have hcb : c ∉ [b] := fun h ↦ hb (mem_singleton.1 h ▸ hc)
      rw [hcount, hzero c (mem_cons_of_mem _ hc), count_eq_zero_of_not_mem hcb]
      rfl
    obtain ⟨p', hp', hq', hc'⟩ := ih hrest hzero₁
    refine ⟨p', foldlM_cons_eq_ok.2 ⟨p₁, hp₁, hp'⟩, hq'.trans hqueue, fun c ↦ ?_⟩
    have happend : ([b] ++ bs).count c = [b].count c + bs.count c := count_append
    rw [singleton_append] at happend
    rw [hc', hcount, happend, Int.natCast_add, Int.add_assoc]

/-- The free blocks of the range that serves a group. -/
theorem getNumFreeBlocks_eq (hr : cfg.forGroup g = .ok r) :
    p.getNumFreeBlocks cfg g = (p.freeBlockQueue r).length := by
  unfold PoolConfig.forGroup at hr
  unfold getNumFreeBlocks
  rcases hs : cfg.stateRange with - | part
  · simp only [hs] at hr ⊢
    cases hr
    rfl
  · rcases g with - | g
    · simp only [hs] at hr
      cases hr
    · simp only [hs] at hr ⊢
      cases hr
      rfl

/-- **Allocation.** When the group's range has enough free blocks, the call takes the first ones. -/
theorem Balances.getNewBlocks [DecidableEq H] (h : p.Balances cfg owners)
    (hr : cfg.forGroup g = .ok r) (hn : n ≤ (p.freeBlockQueue r).length) :
    ∃ p', p.getNewBlocks cfg n g = .ok ((p.freeBlockQueue r).take n, p') ∧
      p'.freeBlockQueue = p.freeBlockQueue.put r ((p.freeBlockQueue r).drop n) ∧
      p'.Balances cfg (owners + ((p.freeBlockQueue r).take n : Multiset ℕ)) := by
  set q := p.freeBlockQueue with hq
  have hsub : ∀ b ∈ (q r).take n, p.refCnt b = 0 := fun b hb ↦
    (h.mem_free.1 (mem_of_mem_take hb)).2.2
  obtain ⟨p', hp', hqueue, hcount⟩ := exists_claimBlocks cfg
    (p := { p with freeBlockQueue := q.put r ((q r).drop n) })
    ((h.nodup r).sublist (take_sublist n _)) hsub
  refine ⟨p', getNewBlocks_eq_ok.2 ⟨?_, r, _, hr, if_pos hn, hp'⟩, hqueue, ?_⟩
  · rw [getNumFreeBlocks_eq hr]
    exact Int.ofNat_le.2 hn
  · rw [Balances, hqueue]
    refine Balanced.take h ?_ (fun t ht ↦ put_of_ne ht) fun b _ ↦ hcount b
    dsimp only
    rw [put_self, take_append_drop]

/-- An allocation that returned was within the free blocks of the group's range. -/
theorem le_of_getNewBlocks_eq_ok [DecidableEq H] {ret : List ℕ}
    (h : p.getNewBlocks cfg n g = .ok (ret, p')) :
    ∃ r, cfg.forGroup g = .ok r ∧ n ≤ (p.freeBlockQueue r).length := by
  obtain ⟨hn, r, -, hr, -, -⟩ := getNewBlocks_eq_ok.1 h
  rw [getNumFreeBlocks_eq hr] at hn
  exact ⟨r, hr, Int.ofNat_le.1 hn⟩

/-! ### Touching -/

theorem references_cons (b : ℕ) (bs : List ℕ) :
    references (b :: bs) = references [b] + references bs := by
  rcases eq_or_ne b 0 with rfl | hb
  · simp [references]
  · simp [references, hb]

theorem Balances.touchBlock (h : p.Balances cfg owners) (hb : b < cfg.numGpuBlocks) :
    ∃ p', touchBlock cfg p b = .ok p' ∧ p'.Balances cfg (owners + references [b]) := by
  rcases eq_or_ne b 0 with rfl | hb0
  · -- The null block is only counted.
    have hqueue : unqueue cfg p 0 = .ok p.freeBlockQueue := if_neg fun h ↦ h.2 rfl
    refine ⟨_, touchBlock_eq_ok.2 ⟨_, hqueue, rfl⟩, ?_⟩
    have hnil : references [0] = 0 := rfl
    rw [hnil, Multiset.add_zero]
    refine ⟨h.nodup, ?_, ?_, h.valid_of_mem⟩
    · intro s c
      refine h.mem_free.trans (and_congr_right fun hc ↦ and_congr_right fun _ ↦ ?_)
      dsimp only
      rw [update_of_ne hc.1.ne']
    · intro c hc
      rw [← h.ref_eq hc]
      exact update_of_ne hc.1.ne' ..
  · have hv : cfg.Usable b := ⟨Nat.pos_of_ne_zero hb0, hb⟩
    have hone : references [b] = {b} := by simp [references, hb0]
    rw [hone]
    by_cases hzero : p.refCnt b = 0
    · have hmem : b ∈ p.freeBlockQueue (cfg.rangeOf b) := h.mem_free.2 ⟨hv, rfl, hzero⟩
      have hqueue : unqueue cfg p b = .ok (p.freeBlockQueue.put (cfg.rangeOf b)
          ((p.freeBlockQueue (cfg.rangeOf b)).erase b)) := by
        rw [unqueue, if_pos ⟨hzero, hb0⟩]
        exact if_pos hmem
      refine ⟨_, touchBlock_eq_ok.2 ⟨_, hqueue, rfl⟩, Balanced.touch_free h hv hzero ?_ ?_ ?_⟩
      · exact put_self ..
      · exact fun t ht ↦ put_of_ne ht
      · exact fun c _ ↦ update_add_one p.refCnt b c
    · have hqueue : unqueue cfg p b = .ok p.freeBlockQueue := if_neg fun h ↦ hzero h.1
      exact ⟨_, touchBlock_eq_ok.2 ⟨_, hqueue, rfl⟩,
        Balanced.touch_held h hv hzero fun c _ ↦ update_add_one p.refCnt b c⟩

/-- **Touching** blocks of the pool never raises. -/
theorem Balances.touch (h : p.Balances cfg owners) (hbs : ∀ b ∈ bs, b < cfg.numGpuBlocks) :
    ∃ p', p.touch cfg bs = .ok p' ∧ p'.Balances cfg (owners + references bs) := by
  induction bs generalizing p owners with
  | nil => exact ⟨p, rfl, by rwa [references, filter_nil, Multiset.coe_nil, Multiset.add_zero]⟩
  | cons b bs ih =>
    obtain ⟨p₁, hp₁, h₁⟩ := h.touchBlock (hbs b mem_cons_self)
    obtain ⟨p', hp', h'⟩ := ih h₁ fun c hc ↦ hbs c (mem_cons_of_mem _ hc)
    refine ⟨p', foldlM_cons_eq_ok.2 ⟨p₁, hp₁, hp'⟩, ?_⟩
    rwa [references_cons, ← Multiset.add_assoc]

/-! ### Freeing -/

theorem appendBlocks_eq (bs : List ℕ) (q : QueueLists) :
    appendBlocks cfg bs q = .ok fun r ↦ q r ++ inRange cfg r bs := by
  refine congrArg Except.ok (funext fun r ↦ ?_)
  cases r <;> rfl

theorem prependBlocks_eq (bs : List ℕ) (q : QueueLists) :
    prependBlocks cfg bs q = .ok fun r ↦ inRange cfg r bs ++ q r := by
  refine congrArg Except.ok (funext fun r ↦ ?_)
  cases r <;> rfl

/-- Freed blocks join the sequence of their range, in front or behind. -/
theorem exists_requeue (cfg : PoolConfig H X E) (freed : List ℕ) (reuseFirst : Bool)
    (p : BlockPool QueueLists H X) :
    ∃ queue, requeue cfg freed reuseFirst p = .ok queue ∧
      ∀ r, (queue r).Perm (inRange cfg r freed ++ p.freeBlockQueue r) := by
  unfold requeue
  split_ifs with hcaching
  · rw [prependBlocks_eq]
    refine ⟨_, appendBlocks_eq .., fun r ↦ ?_⟩
    set front := freed.filter fun b ↦ decide (reuseFirst = true ∨ p.blockHash b = none) with hfront
    set back := freed.filter fun b ↦ decide (reuseFirst = false ∧ p.blockHash b ≠ none) with hback
    have hsplit : (front ++ back).Perm freed := by
      have hnot : back = freed.filter fun b ↦
          !decide (reuseFirst = true ∨ p.blockHash b = none) := by
        refine filter_congr fun b _ ↦ ?_
        cases reuseFirst <;> simp
      rw [hnot]
      exact filter_append_perm _ freed
    calc inRange cfg r front ++ p.freeBlockQueue r ++ inRange cfg r back
        ~ inRange cfg r front ++ inRange cfg r back ++ p.freeBlockQueue r := by
          rw [append_assoc, append_assoc]
          exact perm_append_comm.append_left _
      _ ~ inRange cfg r freed ++ p.freeBlockQueue r := by
          refine Perm.append_right _ ?_
          rw [inRange, inRange, ← filter_append]
          exact hsplit.filter _
  · exact ⟨_, appendBlocks_eq .., fun r ↦ perm_append_comm⟩

/-- **Freeing** references that are held never raises. -/
theorem Balances.freeBlocks (h : p.Balances cfg owners) (hnodup : (bs.filter (· ≠ 0)).Nodup)
    (hown : references bs ≤ owners) (reuseFirst : Bool) :
    ∃ p', p.freeBlocks cfg bs reuseFirst = .ok p' ∧ p'.Balances cfg (owners - references bs) := by
  set ref' := decrementAll bs p.refCnt with href'
  obtain ⟨queue, hqueue, hperm⟩ := exists_requeue cfg (freedBlocks bs ref') reuseFirst p
  refine ⟨_, freeBlocks_eq_ok.2 ⟨queue, hqueue, rfl⟩, ?_⟩
  have hmem : ∀ {r b}, b ∈ inRange cfg r (freedBlocks bs ref') ↔
      b ∈ bs.filter (· ≠ 0) ∧ ref' b = 0 ∧ cfg.rangeOf b = r := by
    intro r b
    simp only [inRange, freedBlocks, mem_filter, decide_eq_true_eq]
    exact ⟨fun ⟨⟨hb, hz, h0⟩, hr⟩ ↦ ⟨⟨hb, h0⟩, hz, hr⟩, fun ⟨⟨hb, h0⟩, hz, hr⟩ ↦ ⟨⟨hb, hz, h0⟩, hr⟩⟩
  refine Balanced.release h hown (fun b hb ↦ ?_) (fun {r b} ↦ ?_) fun r ↦ ?_
  · show decrementAll bs p.refCnt b = _
    rw [decrementAll_apply, count_filter (by simpa using hb.1.ne')]
  · rw [(hperm r).mem_iff, mem_append, hmem]
  · -- A freed block was held, so it is not free yet.
    refine (hperm r).nodup_iff.2 (nodup_append.2 ⟨?_, h.nodup r, fun a ha b hb hab ↦ ?_⟩)
    · have hsub : (inRange cfg r (freedBlocks bs ref')).Sublist (bs.filter (· ≠ 0)) := by
        refine filter_sublist.trans ?_
        refine monotone_filter_right bs fun b hb ↦ ?_
        exact decide_eq_true (of_decide_eq_true hb).2
      exact hnodup.sublist hsub
    · have hheld : b ∈ owners := Multiset.mem_of_le hown (Multiset.mem_coe.2 (hab ▸ (hmem.1 ha).1))
      exact h.notMem_free_of_mem_owners hheld hb

end BlockPool

end OneCatVllm
