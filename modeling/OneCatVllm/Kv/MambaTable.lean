import OneCatVllm.Kv.MambaAlign

/-!
# The block table of a recurrent group

What the three operations on the table do, each as one statement about its entries: freeing only
nulls entries in front of the running state block (`Freed`), and allocation for a chunk keeps the
entries in front, pads with the null block, and ends in a running state block followed by the
speculative ones (`Allocated`).
-/

namespace OneCatVllm

open Grid List

namespace MambaConfig

variable (cfg : MambaConfig)

/-- **Freeing keeps the running state block**, and everything after it. -/
theorem removeSkippedBlocks_freed {processed start : ℕ} (h : processed ≤ start) (st : MambaState) :
    Freed .null (cdiv start cfg.blockSize - 1) st.reqToBlocks
      (cfg.removeSkippedBlocks processed st).reqToBlocks := by
  have hb := cfg.blockSize_pos
  have hcdiv := cdiv_mono hb h
  have hskip : (processed - 1) / cfg.blockSize ≤ cdiv start cfg.blockSize - 1 := by
    rcases Nat.eq_zero_or_pos processed with rfl | hpos
    · simp
    · have hlt : (processed - 1) / cfg.blockSize < cdiv processed cfg.blockSize := by
        rw [lt_cdiv_iff hb]
        have := Nat.div_mul_le_self (processed - 1) cfg.blockSize
        omega
      omega
  refine .trans ((Freed.removeBlocksBelow _ _ _).mono ((min_le_left _ _).trans hskip))
    (Freed.foldl_set (fun i hi ↦ ?_) _)
  have hlt := of_decide_eq_true (mem_filter.1 hi).2
  omega

end MambaConfig

/-! ### Allocation -/

/-- The shape of a table when `numTokens` tokens are computed: one entry per block touched, followed
by the speculative blocks once the manager has allocated any; the running state block and those
after it are real. -/
structure MambaState.Shaped (cfg : MambaConfig) (numTokens : ℕ) (st : MambaState) : Prop where
  length : st.reqToBlocks.length =
    cdiv numTokens cfg.blockSize + if st.allocated then cfg.numSpeculativeBlocks else 0
  live : ∀ i, cdiv numTokens cfg.blockSize ≤ i + 1 → st.reqToBlocks[i]? ≠ some .null

theorem MambaState.Shaped.freed {cfg : MambaConfig} {numTokens : ℕ} {st st' : MambaState}
    (h : st.Shaped cfg numTokens) (hallocated : st'.allocated = st.allocated)
    (hf : Freed .null (cdiv numTokens cfg.blockSize - 1) st.reqToBlocks st'.reqToBlocks) :
    st'.Shaped cfg numTokens where
  length := by rw [hf.length, hallocated, h.length]
  live i hi := by
    rw [hf.kept i (by omega)]
    exact h.live i hi

/-- What `allocate_new_blocks` does to the table between two positions: the blocks touched before
stay, those skipped over are null, and the result has the shape of its end. -/
structure Allocated (cfg : MambaConfig) (start stop : ℕ) (st st' : MambaState) : Prop where
  shaped : st'.Shaped cfg stop
  below : ∀ i < cdiv start cfg.blockSize, st'.reqToBlocks[i]? = st.reqToBlocks[i]?
  skipped : ∀ i, cdiv start cfg.blockSize ≤ i → i + 1 < cdiv stop cfg.blockSize →
    st'.reqToBlocks[i]? = some .null
  frame : st'.numComputedTokens = st.numComputedTokens ∧ st'.numCachedBlock = st.numCachedBlock ∧
    st'.cached = st.cached ∧ st'.chunkEnds = st.chunkEnds

variable {l : List StateBlock} {i m : ℕ}

theorem getElem?_append_fresh_ne_null (h : i < l.length → l[i]? ≠ some .null) :
    (l ++ replicate m StateBlock.fresh)[i]? ≠ some .null := by
  rcases lt_or_ge i l.length with hlt | hge
  · rw [getElem?_append_left hlt]
    exact h hlt
  · rw [getElem?_append_right hge, getElem?_replicate]
    split_ifs <;> nofun

theorem getElem?_append_null (hi : l.length ≤ i) (hm : i < l.length + m) :
    (l ++ replicate m StateBlock.null)[i]? = some .null := by
  rw [getElem?_append_right hi, getElem?_replicate, if_pos (by omega)]

/-- **Allocation never fails an assertion**, and does what `Allocated` says. -/
theorem MambaConfig.allocateNewBlocks_spec (cfg : MambaConfig) {start stop : ℕ} {st : MambaState}
    (hst : st.Shaped cfg start) (hlt : start < stop) :
    ∃ st', cfg.allocateNewBlocks stop st = some st' ∧ Allocated cfg start stop st st' := by
  have hmono := cdiv_mono cfg.blockSize_pos hlt.le
  have hlen := hst.length
  set c := cdiv start cfg.blockSize with hc
  set c' := cdiv stop cfg.blockSize with hc'
  set spec := cfg.numSpeculativeBlocks with hspec
  simp only [allocateNewBlocks, extendTable, ← hc', ← hspec]
  by_cases heq : c' + spec = st.reqToBlocks.length
  · -- The chunk stays inside the running block.
    have hcc : c' = c := by
      split_ifs at hlen <;> omega
    rw [if_pos heq]
    refine ⟨st, rfl, ⟨by rw [← hc', hcc]; exact hlen, fun i hi ↦ hst.live i ?_⟩, fun _ _ ↦ rfl,
      fun i hi hi' ↦ ?_, rfl, rfl, rfl, rfl⟩ <;> omega
  rw [if_neg heq]
  rcases halloc : st.allocated with - | -
  · -- The first allocation: padding, then new blocks.
    simp only [halloc, Bool.false_eq_true, if_false, add_zero] at hlen ⊢
    rw [if_pos (by omega)]
    set padded := st.reqToBlocks ++ replicate (c' + spec - spec - 1 - st.reqToBlocks.length)
      StateBlock.null with hpadded
    have hplen : padded.length = max c (c' - 1) := by
      rw [length_append, length_replicate]
      omega
    rw [if_pos (by omega)]
    refine ⟨_, rfl, ⟨?_, fun i hi ↦ ?_⟩, fun i hi ↦ ?_, fun i hi hi' ↦ ?_, rfl, rfl, rfl, rfl⟩
    · rw [length_append, length_replicate, if_pos rfl]
      omega
    · refine getElem?_append_fresh_ne_null fun hip ↦ ?_
      rw [getElem?_append_left (by omega)]
      exact hst.live i (by omega)
    · rw [getElem?_append_left (by omega), getElem?_append_left (by omega)]
    · rw [getElem?_append_left (by omega), hpadded, getElem?_append_null] <;> omega
  · -- A later allocation: padding, the speculative blocks moved, and one new block.
    simp only [halloc, if_true] at hlen ⊢
    rw [if_pos (by omega), hlen, Nat.add_sub_cancel, Nat.add_sub_cancel]
    set padded := st.reqToBlocks ++ replicate (c' - 1 - (c + spec)) StateBlock.null with hpadded
    have hplen : padded.length = max (c + spec) (c' - 1) := by
      rw [length_append, length_replicate]
      omega
    have hold : ∀ i < c + spec, padded[i]? = st.reqToBlocks[i]? := fun i hi ↦ by
      rw [getElem?_append_left (by omega)]
    obtain ⟨hrlen, hbelow, hnull, hlive⟩ := reuseSpeculativeBlocks_spec (k := c' - 1)
      (by omega : c + spec ≤ padded.length) fun i hi ↦ by
        rcases lt_or_ge i (c + spec) with h | h
        · rw [hold i h]
          exact hst.live i (by omega)
        · rw [getElem?_eq_none (by omega)]
          nofun
    rw [if_pos (by omega)]
    refine ⟨_, rfl, ⟨?_, fun i hi ↦ ?_⟩, fun i hi ↦ ?_, fun i hi hi' ↦ ?_, rfl, rfl, rfl, rfl⟩
    · rw [length_append, length_replicate, if_pos rfl]
      omega
    · exact getElem?_append_fresh_ne_null fun _ ↦ hlive i (by omega)
    · rw [getElem?_append_left (by omega), hbelow i hi, hold i (by omega)]
    · rw [getElem?_append_left (by omega)]
      refine hnull i hi (by omega) ?_
      rcases lt_or_ge i (c + spec) with h | h
      · exact .inl h
      · exact .inr (by rw [hpadded, getElem?_append_null] <;> omega)

end OneCatVllm
