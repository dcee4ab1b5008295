import OneCatVllm.Kv.Managers
import OneCatVllm.Kv.WindowLookup
import OneCatVllm.Lib.Fallible
import OneCatVllm.Lib.Transition

/-!
# Blocks that attention has moved past

Sliding windows and chunked local attention free the blocks in front of the tokens they still read
(`get_num_skipped_tokens`). Two parts of the code rely on it: the lookup of chunked local attention,
which leaves null blocks in front of the chunk, and the **admission cap**, which bounds the blocks a
request holds at a time.

Both are right when the attention chunk is a multiple of the block size. Otherwise a chunk may start
inside a block: the lookup rounds the start **down** to a block boundary, which lies in the chunk
before, and the cap does not count the part of the first block that is already skipped.
-/

namespace OneCatVllm

open Except Fallible Grid List Nat Option Transition

/-! ### The lookup of chunked local attention -/

section Chunked

variable (look : ℕ → Option HitRow) (b chunk : ℕ)

/-- Every block that holds a token of the chunk of `hit`, before `hit`, is a cached one. -/
def ChunkCached (hit : ℕ) (rows : List HitRow) : Prop :=
  ∀ i t, i * b ≤ t → t < (i + 1) * b → hit / chunk * chunk ≤ t → t < hit →
    ∃ r, rows[i]? = some r ∧ look i = some r

/-- `local_attention_start_block_idx`. -/
def localStartBlock (maxLength : ℕ) : ℕ := maxLength / chunk * chunk / b

variable {look b chunk} {maxLength numGroups a : ℕ} {rows : List HitRow} {eagle : Bool}

/-- The rows of a hit: null rows up to the block in which the chunk of the maximum starts, and the
leading run of cached blocks from there. -/
theorem exists_chunkedRun
    (h : chunkedLocalAttentionHit (fun i ↦ .ok (look i)) numGroups b maxLength eagle a chunk =
      .ok rows) :
    ∃ run, rows = replicate (localStartBlock b chunk maxLength) (nullRow numGroups) ++ run ∧
      localStartBlock b chunk maxLength + run.length ≤ maxLength / b ∧
      (∀ j r, run[j]? = some r → look (localStartBlock b chunk maxLength + j) = some r) ∧
      (run = [] ↔ ¬ (localStartBlock b chunk maxLength < maxLength / b ∧
        Cached look (localStartBlock b chunk maxLength))) := by
  have hstart : localStartBlock b chunk maxLength ≤ maxLength / b :=
    Nat.div_le_div_right (div_mul_le_self maxLength chunk)
  have hrun : ∃ run, scanForward (fun i ↦ .ok (look i))
      (maxLength / b - localStartBlock b chunk maxLength) (localStartBlock b chunk maxLength) =
        .ok run ∧ _ := exists_scanForward fun _ _ ↦ rfl
  obtain ⟨run, hscan, hlen, hget⟩ := hrun
  rw [chunkedLocalAttentionHit] at h
  split_ifs at h
  refine ⟨run, ?_, by omega, hget, ?_⟩
  · rw [localStartBlock] at hscan
    dsimp only at h
    rw [hscan] at h
    exact (ok.inj h).symm
  · rcases hn : maxLength / b - localStartBlock b chunk maxLength with - | n
    · rw [hn] at hlen
      exact iff_of_true (length_eq_zero_iff.1 (le_zero.1 hlen)) fun h ↦ by omega
    · rw [hn, scanForward] at hscan
      rcases hlook : look (localStartBlock b chunk maxLength) with - | r <;> rw [hlook] at hscan
      · refine iff_of_true (ok.inj hscan).symm fun h ↦ ?_
        rw [Cached, hlook] at h
        cases h.2
      · refine iff_of_false (fun hnil ↦ ?_) (not_not.2 ⟨by omega, by rw [Cached, hlook]; rfl⟩)
        rw [hnil] at hscan
        generalize scanForward _ n _ = rest at hscan
        rcases rest with e | l <;> cases hscan

/-- **A chunked hit is sound** exactly when it ends at a chunk boundary, or the block in which the
chunk of the maximum starts is cached. -/
theorem chunkCached_iff (hb : 0 < b) (hnull : ∀ i, look i ≠ some (nullRow numGroups))
    (h : chunkedLocalAttentionHit (fun i ↦ .ok (look i)) numGroups b maxLength eagle a chunk =
      .ok rows) :
    ChunkCached look b chunk (rows.length * b) rows ↔
      chunk ∣ localStartBlock b chunk maxLength * b ∨
        localStartBlock b chunk maxLength < maxLength / b ∧
          Cached look (localStartBlock b chunk maxLength) := by
  obtain ⟨run, rfl, hle, hget, hnil⟩ := exists_chunkedRun h
  set s := localStartBlock b chunk maxLength with hs
  rw [length_append, length_replicate]
  by_cases hempty : run = []
  · -- Nothing is cached from the start of the chunk: the hit ends in front of it.
    rw [or_iff_left (hnil.1 hempty), hempty, length_nil, add_zero, append_nil]
    constructor
    · intro hcached
      by_contra hdvd
      have hmod := div_add_mod (s * b) chunk
      have hs0 : 0 < s := pos_of_ne_zero fun h0 ↦ hdvd (by rw [h0]; simp)
      have hlast : (s - 1) * b + b = s * b := by
        rw [← succ_mul, succ_eq_add_one, Nat.sub_add_cancel hs0]
      rw [mul_comm] at hmod
      obtain ⟨r, hr, hlook⟩ := hcached (s - 1) (s * b - 1) (by omega)
        (by rw [Nat.sub_add_cancel hs0]; omega) (by omega) (by omega)
      rw [getElem?_replicate, if_pos (by omega)] at hr
      exact hnull _ (hlook.trans hr.symm)
    · intro hdvd i t _ _ hle hlt
      rw [Nat.div_mul_cancel hdvd] at hle
      omega
  · refine iff_of_true (fun i t hi hit hle' hlt ↦ ?_) (.inr (not_not.1 fun h ↦ hempty (hnil.2 h)))
    have hlen := length_pos_of_ne_nil hempty
    have hend : (s + run.length) * b ≤ maxLength := (le_div_iff_mul_le hb).1 hle
    have hstart : maxLength / chunk * chunk ≤ (s + run.length) * b := by
      have hnext : maxLength / chunk * chunk < (s + 1) * b := lt_mul_of_div_lt s.lt_succ_self hb
      exact hnext.le.trans (mul_le_mul_right b (by omega))
    -- The hit lies in the chunk of the maximum.
    have hchunk : (s + run.length) * b / chunk * chunk = maxLength / chunk * chunk := by
      refine le_antisymm (mul_le_mul_right _ (Nat.div_le_div_right hend)) ?_
      rcases Nat.eq_zero_or_pos chunk with rfl | hc
      · exact le_rfl
      · exact mul_le_mul_right _ ((le_div_iff_mul_le hc).2 hstart)
    have hsi : s ≤ i := by
      refine le_of_lt_succ ((div_lt_iff_lt_mul hb).2 ?_)
      rw [← hchunk]
      exact hle'.trans_lt hit
    have hilt : i < s + run.length := Nat.lt_of_mul_lt_mul_right (hi.trans_lt hlt)
    rw [getElem?_append_right (by rw [length_replicate]; exact hsi),
      length_replicate, getElem?_eq_getElem (by omega)]
    refine ⟨_, rfl, ?_⟩
    rw [← hget (i - s) _ (getElem?_eq_getElem (by omega)), Nat.add_sub_cancel' hsi]

end Chunked

/-! ### What is freed -/

variable {H X E : Type} {g : GroupSpec} {chunk : ℕ} {l : List ℕ}

/-- Removal nulls entries of skipped blocks only. -/
theorem removeBlocksInRange_freed {cfg : PoolConfig H X E} {last : ℕ} {hold : Option (ℕ × ℕ)}
    {reuseFirst : Bool} {t t' : GroupTable} {p p' : ListPool H X}
    (h : removeBlocksInRange cfg last hold reuseFirst t p = .ok (t', p')) :
    Freed 0 last t.blocks t'.blocks := by
  obtain ⟨p₁, -, h⟩ := bind_eq_ok.1 h
  obtain ⟨p₂, -, h⟩ := bind_eq_ok.1 h
  obtain rfl := (Prod.mk.inj (ok.inj h)).1
  exact (Freed.removeBlocksBelow 0 _ _).mono (min_le_left _ _)

/-- **Chunked local attention**: the hit is sound exactly when it ends at a chunk boundary or the
block in which the chunk of the maximum starts is cached, and removal frees no block with a token of
the chunk of the computed tokens. The null block is in no pool's index (`hnull`). -/
theorem chunkedLocalAttention_sound_iff (hkind : g.spec.kind = .chunkedLocalAttention chunk)
    (look : ℕ → Option HitRow) (numGroups maxLength a : ℕ) (eagle : Bool) (rows : List HitRow)
    (hnull : ∀ i, look i ≠ some (nullRow numGroups))
    (h : chunkedLocalAttentionHit (fun i ↦ .ok (look i)) numGroups g.blockSize maxLength eagle a
      chunk = .ok rows) :
    (ChunkCached look g.blockSize chunk (rows.length * g.blockSize) rows ↔
      chunk ∣ localStartBlock g.blockSize chunk maxLength * g.blockSize ∨
        localStartBlock g.blockSize chunk maxLength < maxLength / g.blockSize ∧
          Cached look (localStartBlock g.blockSize chunk maxLength)) ∧
    ∀ (cfg : PoolConfig H X E) (alignment : Option ℕ) (lookbehind : Bool) (numPrompt n : ℕ)
      (t t' : GroupTable) (p p' : ListPool H X),
      removeSkippedBlocks cfg alignment lookbehind g n numPrompt t p = .ok (t', p') →
      ∀ i token, i * g.blockSize ≤ token → token < (i + 1) * g.blockSize →
        n / chunk * chunk ≤ token → t'.blocks[i]? = t.blocks[i]? := by
  refine ⟨chunkCached_iff g.spec.blockSize_pos hnull h, ?_⟩
  intro cfg alignment lookbehind numPrompt n t t' p p' hremove i token _ hlt hle
  simp only [removeSkippedBlocks, hkind] at hremove
  refine (removeBlocksInRange_freed hremove).kept i (le_of_lt_succ ?_)
  rw [GroupSpec.numSkippedBlocks, GroupSpec.numSkippedTokens, hkind]
  exact (div_lt_iff_lt_mul g.spec.blockSize_pos).2 (hle.trans_lt hlt)

/-- A group of chunked local attention with blocks of four tokens. -/
def chunkedGroup (chunk : ℕ) : GroupSpec where
  spec := ⟨.chunkedLocalAttention chunk, 4, WindowQuery.threeCached.blockSize_pos, 0⟩
  useEagle := false

/-- **A hit inside the chunk before.** Seven tokens under chunks of six: the second chunk starts
inside the second block, and the hit of one block is left with a null block for the first. -/
theorem chunked_hit_of_null_block :
    chunkedLocalAttentionHit (fun _ ↦ .ok none) 1 4 7 false 4 6 = .ok [nullRow 1] ∧
      ¬ ChunkCached (fun _ ↦ none) 4 6 4 [nullRow 1] := by
  refine ⟨by decide, fun h ↦ ?_⟩
  obtain ⟨r, -, hr⟩ := h 0 0 (by decide) (by decide) (by decide) (by decide)
  cases hr

/-- Chunks of eight tokens: the second one starts at a block boundary. -/
theorem chunkedLocalAttention_sound_three :
    ChunkCached (fun i ↦ if i < 3 then some [i + 1] else none) 4 8 12 [nullRow 1, nullRow 1, [3]] :=
  (chunkedLocalAttention_sound_iff (H := ℕ) (X := ℕ) (E := ℕ) (g := chunkedGroup 8) rfl
    (fun i ↦ if i < 3 then some [i + 1] else none) 1 15 4 false [nullRow 1, nullRow 1, [3]]
    (fun i ↦ by split_ifs <;> simp [nullRow]) (by decide)).1.2 (.inl (by decide))

/-! ### The admission cap -/

/-- `max_admission_blocks_per_request` of the specs that recycle blocks. -/
def SpecKind.maxAdmissionBlocksPerRequest (b maxInFlightTokens maxModelLen : ℕ) :
    SpecKind → Option ℕ
  | .slidingWindow w => some (cdiv (min (w - 1 + maxInFlightTokens) maxModelLen) b + 1)
  | .chunkedLocalAttention chunk => some (cdiv (min (chunk + maxInFlightTokens) maxModelLen) b)
  | _ => none

/-- A request's table in one group, with its computed tokens and those in flight. `lastProcessed` is
not in the source: the processed tokens at the last successful call. -/
structure HeldBlocks where
  blocks : List ℕ := []
  numComputedTokens : ℕ := 0
  numInFlightTokens : ℕ := 0
  lastProcessed : ℕ := 0
  deriving DecidableEq

/-- One call of `allocate_slots`, with the blocks that the pool hands out (`none`: not enough). -/
structure SlotCall where
  newComputedBlocks : List ℕ := []
  numNewComputedTokens : ℕ := 0
  numExternalComputedTokens : ℕ := 0
  numNewTokens : ℕ
  numLookaheadTokens : ℕ := 0
  newBlocks : Option (List ℕ)

inductive SlotEvent
  | allocateSlots (q : SlotCall)
  /-- A step's output is processed; rejected draft tokens leave the computed ones. -/
  | update (numScheduledTokens numRejected : ℕ)

namespace HeldBlocks

variable (g : GroupSpec) (maxInFlightTokens maxModelLen : ℕ)

section

variable (s : HeldBlocks) (q : SlotCall)

/-- The blocks that are not the null block. -/
def numHeld : ℕ := (s.blocks.filter (· ≠ 0)).length

/-- `total_computed_tokens`. -/
def total : ℕ :=
  s.numComputedTokens + q.numNewComputedTokens + q.numExternalComputedTokens

/-- `num_tokens_need_slot`. -/
def needSlot : ℕ :=
  min (s.total q + q.numNewTokens + q.numLookaheadTokens) maxModelLen

/-- The table without the skipped blocks. -/
def recycled (processed : ℕ) : List ℕ :=
  (removeBlocksBelow 0 (min (g.numSkippedBlocks processed) s.blocks.length) s.blocks).1

/-- The table before new blocks are appended: at admission the blocks of the hit that are not
skipped, behind null blocks. -/
def computedBlocks : List ℕ :=
  if s.blocks = [] then
    replicate (g.numSkippedBlocks (s.total q)) 0 ++
      q.newComputedBlocks.drop (g.numSkippedBlocks (s.total q))
  else s.recycled g (s.total q - s.numInFlightTokens)

/-- `KVCacheManager.allocate_slots` for one group, and the scheduler's bookkeeping after it. -/
def step : SlotEvent → Option HeldBlocks
  | .allocateSlots q =>
    match q.newBlocks with
    | none => some { s with blocks := s.recycled g (s.total q - s.numInFlightTokens) }
    | some new => some
      { blocks := s.computedBlocks g q ++ new
        numComputedTokens := s.total q + q.numNewTokens
        numInFlightTokens := s.numInFlightTokens + q.numNewTokens
        lastProcessed := s.total q - s.numInFlightTokens }
  | .update numScheduledTokens numRejected => some
      { s with
        numComputedTokens := s.numComputedTokens - numRejected
        numInFlightTokens := s.numInFlightTokens - numScheduledTokens }

/-- What the scheduler and the pool do: a hit comes only with an empty table, its null blocks stand
in front, the pool hands out as many blocks as are missing and never the null block, and new, in
flight and lookahead tokens are at most what the cap was computed with. -/
def Possible : SlotEvent → Prop
  | .allocateSlots q =>
    (s.blocks ≠ [] → q.newComputedBlocks = [] ∧ q.numNewComputedTokens = 0 ∧
      q.numExternalComputedTokens = 0) ∧
    q.newComputedBlocks.length ≤ cdiv q.numNewComputedTokens g.blockSize ∧
    0 ∉ q.newComputedBlocks.dropWhile (· = 0) ∧
    q.numNewTokens + s.numInFlightTokens + q.numLookaheadTokens ≤ maxInFlightTokens ∧
    s.total q + q.numNewTokens ≤ maxModelLen ∧
    ∀ new ∈ q.newBlocks, 0 ∉ new ∧
      new.length = cdiv (s.needSlot maxModelLen q) g.blockSize - (s.computedBlocks g q).length
  | .update numScheduledTokens numRejected =>
    numRejected ≤ numScheduledTokens ∧ numScheduledTokens ≤ s.numInFlightTokens

instance : ∀ e, Decidable (s.Possible g maxInFlightTokens maxModelLen e)
  | .allocateSlots _ => inferInstanceAs (Decidable (_ ∧ _))
  | .update _ _ => inferInstanceAs (Decidable (_ ∧ _))

end

end HeldBlocks

/-- Null blocks stand in front. -/
def NullsFirst (l : List ℕ) : Prop := ∀ i j : ℕ, j ≤ i → l[i]? = some 0 → l[j]? = some 0

theorem nullsFirst_of_dropWhile (h : 0 ∉ l.dropWhile (· = 0)) : NullsFirst l := by
  induction l with
  | nil => exact fun _ _ _ h ↦ absurd h nofun
  | cons a l ih =>
    intro i j hj hi
    by_cases ha : a = 0
    · rw [dropWhile_cons, if_pos (by simpa using ha)] at h
      rcases j with - | j
      · rw [ha]
        rfl
      · rcases i with - | i
        · omega
        · exact ih h i j (by omega) hi
    · rw [dropWhile_cons, if_neg (by simpa using ha)] at h
      exact absurd (mem_of_getElem? hi) h

/-- **Removal** nulls all entries before its bound: the ones in front of a null entry already
are. -/
theorem NullsFirst.removeBlocksBelow (h : NullsFirst l) {n i : ℕ} (hn : n ≤ l.length) (hi : i < n) :
    (removeBlocksBelow 0 n l).1[i]? = some 0 := by
  suffices hgen : ∀ (n : ℕ) (l : List ℕ), n ≤ l.length →
      (∀ i j, i < n → j ≤ i → l[i]? = some 0 → l[j]? = some 0) →
      ∀ i < n, (OneCatVllm.removeBlocksBelow 0 n l).1[i]? = some 0 from
    hgen n l hn (fun i j _ ↦ h i j) i hi
  intro n
  induction n with
  | zero => exact fun _ _ _ i hi ↦ absurd hi (not_lt_zero i)
  | succ n ih =>
    intro l hn hl i hi
    rw [OneCatVllm.removeBlocksBelow, getElem?_eq_getElem hn]
    dsimp only
    split_ifs with hnull
    · exact hl n i n.lt_succ_self (le_of_lt_succ hi) (by rw [getElem?_eq_getElem hn, hnull])
    · rcases (le_of_lt_succ hi).eq_or_lt with rfl | hlt
      · rw [(Freed.removeBlocksBelow 0 i _).kept i le_rfl, getElem?_set_self hn]
      · refine ih _ (by rw [length_set]; omega) (fun i j hin hj hz ↦ ?_) i hlt
        rw [getElem?_set_ne (by omega)] at hz ⊢
        exact hl i j (by omega) hj hz

theorem NullsFirst.freed {l' : List ℕ} {n : ℕ} (h : NullsFirst l) (hf : Freed 0 n l l')
    (hn : ∀ i < n, i < l.length → l'[i]? = some 0) : NullsFirst l' := by
  intro i j hj hi
  have hlen : i < l.length := hf.length ▸ (List.getElem?_eq_some_iff.1 hi).1
  rcases lt_or_ge i n with hin | hin
  · exact hn j (by omega) (by omega)
  · rw [hf.kept i hin] at hi
    rcases hf.eq_or_null j with hj' | hj'
    · rw [hj', h i j hj hi]
    · exact hj'

theorem NullsFirst.append {new : List ℕ} (h : NullsFirst l) (hnew : 0 ∉ new) :
    NullsFirst (l ++ new) := by
  intro i j hj hi
  rcases lt_or_ge i l.length with hlt | hge
  · rw [getElem?_append_left (by omega)]
    exact h i j hj (getElem?_append_left hlt ▸ hi)
  · rw [getElem?_append_right hge] at hi
    exact absurd (mem_of_getElem? hi) hnew

/-- Behind `lo` null entries, at most the others are held. -/
theorem length_filter_le_sub {lo : ℕ} (h : ∀ i < lo, i < l.length → l[i]? = some 0) :
    (l.filter (· ≠ 0)).length ≤ l.length - lo := by
  have hnil : (l.take lo).filter (· ≠ 0) = [] := by
    refine filter_eq_nil_iff.2 fun a ha ↦ ?_
    obtain ⟨i, hi⟩ := mem_iff_getElem?.1 ha
    have hlt := (List.getElem?_eq_some_iff.1 hi).1
    rw [length_take] at hlt
    have hzero := (getElem?_of_take hi).symm.trans (h i (by omega) (by omega))
    simpa using some.inj hzero
  calc (l.filter (· ≠ 0)).length
      = ((l.take lo).filter (· ≠ 0) ++ (l.drop lo).filter (· ≠ 0)).length := by
        rw [← filter_append, take_append_drop]
    _ ≤ (l.drop lo).length := by
        rw [hnil]
        exact length_filter_le _ _
    _ = l.length - lo := length_drop

namespace GroupSpec

/-- When the cap is sound: a window has a token, and a chunk is a multiple of the block size. -/
def Recyclable (g : GroupSpec) : Prop :=
  match g.spec.kind with
  | .slidingWindow w => 0 < w
  | .chunkedLocalAttention chunk => 0 < chunk ∧ g.blockSize ∣ chunk
  | _ => False

theorem Recyclable.cases (h : g.Recyclable) :
    (∃ w, g.spec.kind = .slidingWindow w ∧ 0 < w) ∨
      ∃ chunk, g.spec.kind = .chunkedLocalAttention chunk ∧ 0 < chunk ∧ g.blockSize ∣ chunk := by
  rw [Recyclable] at h
  split at h
  · exact .inl ⟨_, ‹_›, h⟩
  · exact .inr ⟨_, ‹_›, h⟩
  · exact h.elim

theorem numSkippedTokens_mono (g : GroupSpec) : Monotone g.numSkippedTokens := by
  intro m n h
  rw [numSkippedTokens, numSkippedTokens]
  rcases g.spec.kind with - | w | chunk | - | -
  · exact le_rfl
  · exact Nat.sub_le_sub_right (succ_le_succ h) w
  · exact mul_le_mul_right _ (Nat.div_le_div_right h)
  · exact Nat.sub_le_sub_right h 1
  · exact le_rfl

theorem numSkippedBlocks_mono (g : GroupSpec) : Monotone g.numSkippedBlocks :=
  fun _ _ h ↦ Nat.div_le_div_right (g.numSkippedTokens_mono h)

theorem Recyclable.numSkippedBlocks_le (h : g.Recyclable) (n : ℕ) :
    g.numSkippedBlocks n ≤ cdiv n g.blockSize := by
  have hb := g.spec.blockSize_pos
  have hle : g.numSkippedTokens n ≤ n := by
    rw [numSkippedTokens]
    rcases h.cases with ⟨w, hkind, hw⟩ | ⟨chunk, hkind, -⟩ <;> rw [hkind]
    · show n + 1 - w ≤ n
      omega
    · exact div_mul_le_self n chunk
  refine Nat.le_of_mul_le_mul_right ?_ hb
  exact (div_mul_le_self _ _).trans (hle.trans ((cdiv_le_iff hb).1 le_rfl))

/-- **The cap**: the blocks between the skipped ones and those of `n` processed tokens and all that
may be in flight. -/
theorem Recyclable.sub_le_cap (h : g.Recyclable) {cap f m : ℕ}
    (hcap : g.spec.kind.maxAdmissionBlocksPerRequest g.blockSize f m = some cap) (n : ℕ) :
    cdiv (min (n + f) m) g.blockSize - g.numSkippedBlocks n ≤ cap := by
  have hb : 0 < g.blockSize := g.spec.blockSize_pos
  -- The blocks of `x ≤ skipped + y` tokens behind `skipped` of them.
  have hbound {x y s : ℕ} (hx : x ≤ s + y) :
      cdiv x g.blockSize ≤ s / g.blockSize + 1 + cdiv y g.blockSize ∧
        (g.blockSize ∣ s → cdiv x g.blockSize ≤ s / g.blockSize + cdiv y g.blockSize) := by
    have hy : y ≤ cdiv y g.blockSize * g.blockSize := (cdiv_le_iff hb).1 le_rfl
    have hs := lt_div_mul_add hb (a := s)
    rw [cdiv_le_iff hb, cdiv_le_iff hb, Nat.add_mul, Nat.add_mul, Nat.add_mul]
    refine ⟨by omega, fun hdvd ↦ ?_⟩
    rw [Nat.div_mul_cancel hdvd]
    omega
  rw [numSkippedBlocks, numSkippedTokens]
  rcases h.cases with ⟨w, hkind, hw⟩ | ⟨chunk, hkind, hpos, hdvd⟩ <;>
    rw [hkind] at hcap ⊢ <;> obtain rfl := some.inj hcap
  · show cdiv (min (n + f) m) g.blockSize - (n + 1 - w) / g.blockSize ≤ _
    have hx : min (n + f) m ≤ n + 1 - w + min (w - 1 + f) m := by omega
    have := (hbound hx).1
    omega
  · show cdiv (min (n + f) m) g.blockSize - n / chunk * chunk / g.blockSize ≤ _
    have hlt := lt_div_mul_add hpos (a := n)
    have hx : min (n + f) m ≤ n / chunk * chunk + min (chunk + f) m := by omega
    have := (hbound hx).2 (Nat.dvd_mul_left_of_dvd hdvd _)
    omega

end GroupSpec

namespace HeldBlocks

/-- **The invariant of a run**, for the processed tokens at the last successful call: the skipped
blocks are null, and the table is no longer than these tokens and all that was in flight need. -/
structure Recycles (g : GroupSpec) (maxInFlightTokens maxModelLen : ℕ) (s : HeldBlocks) : Prop where
  nulls : NullsFirst s.blocks
  skipped : ∀ i < g.numSkippedBlocks s.lastProcessed, i < s.blocks.length → s.blocks[i]? = some 0
  length_le : s.blocks.length ≤
    cdiv (min (s.lastProcessed + maxInFlightTokens) maxModelLen) g.blockSize
  covers : cdiv s.numComputedTokens g.blockSize ≤ s.blocks.length
  processed : s.lastProcessed + s.numInFlightTokens ≤ s.numComputedTokens

variable {f m : ℕ} {s s' : HeldBlocks} {e : SlotEvent} {q : SlotCall}

theorem recycled_freed (processed : ℕ) :
    Freed 0 (g.numSkippedBlocks processed) s.blocks (s.recycled g processed) :=
  (Freed.removeBlocksBelow 0 _ _).mono (min_le_left _ _)

theorem Recycles.recycled_null (h : s.Recycles g f m) {processed i : ℕ}
    (hi : i < g.numSkippedBlocks processed) (hlen : i < s.blocks.length) :
    (s.recycled g processed)[i]? = some 0 :=
  h.nulls.removeBlocksBelow (min_le_right _ _) (lt_min hi hlen)

/-- The table that new blocks are appended to. -/
theorem Recycles.computedBlocks (h : s.Recycles g f m) (hg : g.Recyclable)
    (hq : s.Possible g f m (.allocateSlots q)) :
    NullsFirst (s.computedBlocks g q) ∧
      (∀ i < g.numSkippedBlocks (s.total q - s.numInFlightTokens),
        (s.computedBlocks g q)[i]? = some 0) ∧
      ((s.computedBlocks g q).length ≤ s.blocks.length ∨
        (s.computedBlocks g q).length ≤ cdiv (s.total q) g.blockSize) := by
  obtain ⟨hopen, hlen, hdrop, -⟩ := hq
  have hb := g.spec.blockSize_pos
  rw [HeldBlocks.computedBlocks]
  split_ifs with hnil
  · have hskip := hg.numSkippedBlocks_le (s.total q)
    set k := g.numSkippedBlocks (s.total q) with hk
    have hnulls := nullsFirst_of_dropWhile hdrop
    refine ⟨fun i j hj hi ↦ ?_, fun i hi ↦ ?_, .inr ?_⟩
    · rcases lt_or_ge j k with hlt | hge
      · rw [getElem?_append_left (by rwa [length_replicate]), getElem?_replicate, if_pos hlt]
      · rw [getElem?_append_right (by rw [length_replicate]; omega),
          getElem?_drop] at hi ⊢
        exact hnulls _ _ (by omega) hi
    · have hmono := g.numSkippedBlocks_mono (sub_le (s.total q) s.numInFlightTokens)
      rw [getElem?_append_left (by rw [length_replicate]; omega), getElem?_replicate,
        if_pos (by omega)]
    · have hle : cdiv q.numNewComputedTokens g.blockSize ≤ cdiv (s.total q) g.blockSize :=
        cdiv_mono hb (by rw [total]; omega)
      rw [length_append, length_replicate, length_drop]
      omega
  · obtain ⟨-, hnew, hext⟩ := hopen hnil
    have htotal : s.total q = s.numComputedTokens := by rw [total, hnew, hext]; rfl
    have hcover : g.numSkippedBlocks (s.total q - s.numInFlightTokens) ≤ s.blocks.length :=
      (hg.numSkippedBlocks_le _).trans
        ((cdiv_mono hb (by rw [htotal]; exact sub_le _ _)).trans h.covers)
    refine ⟨h.nulls.freed (recycled_freed _) fun i hi hlt ↦ h.recycled_null hi hlt,
      fun i hi ↦ h.recycled_null hi (by omega), .inl (recycled_freed _).length.le⟩

/-- **One event** keeps the invariant. -/
theorem Recycles.step (h : s.Recycles g f m) (hg : g.Recyclable) (he : s.Possible g f m e)
    (hs : s.step g e = some s') : s'.Recycles g f m := by
  rcases e with q | ⟨numScheduledTokens, numRejected⟩
  · rcases hnew : q.newBlocks with - | new
    · rw [HeldBlocks.step, hnew] at hs
      cases hs
      have hf : Freed 0 _ s.blocks (s.recycled g (s.total q - s.numInFlightTokens)) :=
        recycled_freed _
      refine ⟨h.nulls.freed hf fun i hi hlt ↦ h.recycled_null hi hlt, fun i hi hlt ↦ ?_,
        hf.length.le.trans h.length_le, h.covers.trans hf.length.ge, h.processed⟩
      rcases hf.eq_or_null i with heq | heq
      · exact heq.trans (h.skipped i hi (hf.length ▸ hlt))
      · exact heq
    · obtain ⟨hnulls, hskipped, hlen⟩ := h.computedBlocks hg he
      obtain ⟨-, -, -, hflight, hmax, hpool⟩ := he
      obtain ⟨hzero, hnewlen⟩ := hpool new hnew
      rw [HeldBlocks.step, hnew] at hs
      cases hs
      have hprocessed := h.processed
      have htotal : s.numComputedTokens ≤ s.total q := by rw [total]; omega
      have hb : 0 < g.blockSize := g.spec.blockSize_pos
      have hneed : s.needSlot m q ≤ min (s.total q - s.numInFlightTokens + f) m := by
        rw [needSlot]
        omega
      have hup := cdiv_mono hb hneed
      have htop : cdiv (s.total q + q.numNewTokens) g.blockSize ≤
          cdiv (s.needSlot m q) g.blockSize :=
        cdiv_mono hb (by rw [needSlot]; omega)
      have hlow : cdiv (s.total q) g.blockSize ≤ cdiv (s.total q + q.numNewTokens) g.blockSize :=
        cdiv_mono hb (le_add_right _ _)
      have hold := h.length_le.trans (cdiv_mono hb
        (by omega : _ ≤ min (s.total q - s.numInFlightTokens + f) m))
      refine ⟨hnulls.append hzero, fun i hi hlt ↦ ?_, ?_, ?_, ?_⟩
      · have hget := hskipped i hi
        rw [getElem?_append_left (List.getElem?_eq_some_iff.1 hget).1]
        exact hget
      · show (s.computedBlocks g q ++ new).length ≤
          cdiv (min (s.total q - s.numInFlightTokens + f) m) g.blockSize
        rw [length_append]
        omega
      · show cdiv (s.total q + q.numNewTokens) g.blockSize ≤ (s.computedBlocks g q ++ new).length
        rw [length_append]
        omega
      · show s.total q - s.numInFlightTokens + (s.numInFlightTokens + q.numNewTokens) ≤
          s.total q + q.numNewTokens
        omega
  · obtain ⟨hrejected, hscheduled⟩ := he
    cases hs
    have hprocessed := h.processed
    refine ⟨h.nulls, h.skipped, h.length_le, le_trans (cdiv_mono g.spec.blockSize_pos ?_) h.covers,
      ?_⟩
    · exact sub_le _ _
    · show s.lastProcessed + (s.numInFlightTokens - _) ≤ s.numComputedTokens - numRejected
      omega

/-- **The admission cap** bounds the blocks a request holds, in every run. -/
theorem numHeld_le_cap {cap : ℕ} (hg : g.Recyclable)
    (hcap : g.spec.kind.maxAdmissionBlocksPerRequest g.blockSize f m = some cap)
    (hrun : Run (step g) (Possible g f m) {} s) : s.numHeld ≤ cap := by
  have hinit : Recycles g f m {} := by
    refine ⟨fun _ _ _ h ↦ ?_, fun _ _ h ↦ absurd h (not_lt_zero _), zero_le _, ?_, le_rfl⟩
    · cases h
    · exact (cdiv_le_iff g.spec.blockSize_pos).2 (zero_le _)
  have h := hrun.invariant hinit fun h hok hs ↦ h.step hg hok hs
  exact ((length_filter_le_sub h.skipped).trans
    (Nat.sub_le_sub_right h.length_le _)).trans (hg.sub_le_cap hcap _)

/-- Eleven tokens computed in steps of at most two, and two more scheduled. -/
def thirteenTokens : List SlotEvent :=
  [[1], [], [2], [], [3]].flatMap (fun blocks ↦
    [.allocateSlots { numNewTokens := 2, newBlocks := some blocks }, .update 2 0]) ++
  [.allocateSlots { numNewTokens := 1, newBlocks := some [] }, .update 1 0,
    .allocateSlots { numNewTokens := 2, newBlocks := some [4] }]

/-- **Chunks of six tokens** in blocks of four, with at most two tokens in flight: the request holds
three blocks for tokens 6 to 12, and the cap is two. -/
theorem chunk_inside_block_exceeds_cap :
    SpecKind.maxAdmissionBlocksPerRequest 4 2 100 (chunkedGroup 6).spec.kind = some 2 ∧
      Allowed (step (chunkedGroup 6)) (Possible (chunkedGroup 6) 2 100) thirteenTokens {} ∧
      (exec (step (chunkedGroup 6)) thirteenTokens {}).map numHeld = some 3 := by
  decide

/-- Chunks of eight tokens. -/
theorem numHeld_le_cap_thirteen :
    ∃ s, exec (step (chunkedGroup 8)) thirteenTokens {} = some s ∧ s.numHeld ≤ 3 := by
  obtain ⟨s, hs⟩ := isSome_iff_exists.1
    (show (exec (step (chunkedGroup 8)) thirteenTokens {}).isSome = true by decide)
  have hallowed : Allowed (step (chunkedGroup 8)) (Possible (chunkedGroup 8) 2 100)
    thirteenTokens {} := by decide
  exact ⟨s, hs, numHeld_le_cap (g := chunkedGroup 8)
    (by decide : 0 < 8 ∧ 4 ∣ 8) rfl (Run.of_exec .start hallowed hs)⟩

end HeldBlocks

end OneCatVllm
