import OneCatVllm.Lib.RoundRobin

/-!
# The KV layout under context parallelism

The tokens of a request are dealt to the ranks in groups of the interleave size. The slot mapping
finds the place of a position in its virtual block, `get_dcp_local_seq_lens` counts the tokens of a
rank from the length of the sequence. **They agree when no group straddles kernel blocks**
(`dense_iff`), while the interleave size is only checked against the blocks of the manager.
-/

namespace OneCatVllm

open List RoundRobin

/-- The sizes of a block table, as `BlockTable` and `VllmConfig` check them. -/
structure CpSizes where
  blockSize : ℕ
  kernelBlockSize : ℕ
  cpWorldSize : ℕ
  interleaveSize : ℕ
  blockSize_pos : 0 < blockSize
  cpWorldSize_pos : 0 < cpWorldSize
  kernelBlockSize_dvd : kernelBlockSize ∣ blockSize
  interleaveSize_dvd : interleaveSize ∣ blockSize

def padSlotId : ℤ := -1

namespace CpSizes

section

variable (c : CpSizes) (row : ℕ → ℕ) (rank : ℕ)

/-- The slot of a position in `_compute_slot_mapping_kernel`. -/
def slotId (pos : ℕ) : ℤ :=
  let virtualBlockSize := c.kernelBlockSize * c.cpWorldSize
  let blockIndex := pos / virtualBlockSize
  let virtualBlockOffset := pos - blockIndex * virtualBlockSize
  let localBlockOffset := virtualBlockOffset / (c.cpWorldSize * c.interleaveSize) *
    c.interleaveSize + virtualBlockOffset % c.interleaveSize
  if virtualBlockOffset / c.interleaveSize % c.cpWorldSize = rank then
    ((row blockIndex * c.kernelBlockSize + localBlockOffset : ℕ) : ℤ)
  else padSlotId

/-- `get_dcp_local_seq_lens` for one request and rank; the subtraction clips at `0`. -/
def dcpLocalSeqLen (seqLen : ℕ) : ℕ :=
  let base := seqLen / c.interleaveSize / c.cpWorldSize * c.interleaveSize
  let remainder := seqLen - base * c.cpWorldSize
  base + min (remainder - rank * c.interleaveSize) c.interleaveSize

/-- Entry `i` of a row. -/
def entry (i : ℕ) : ℤ :=
  ((row (i / c.kernelBlockSize) * c.kernelBlockSize + i % c.kernelBlockSize : ℕ) : ℤ)

/-- **The layout is complete and dense**: each position has a slot on exactly one rank, and the
slots of a rank are the first entries of its row, as many as the attention expects. -/
def Dense (n : ℕ) : Prop :=
  (∀ pos < n, ∃! rank, rank < c.cpWorldSize ∧ c.slotId row rank pos ≠ padSlotId) ∧
    ∀ rank < c.cpWorldSize, ((range n).map (c.slotId row rank)).filter (· ≠ padSlotId) =
      (range (c.dcpLocalSeqLen rank n)).map (c.entry row)

end

variable {c : CpSizes} {row : ℕ → ℕ} {rank : ℕ}

theorem interleaveSize_pos : 0 < c.interleaveSize :=
  Nat.pos_of_dvd_of_pos c.interleaveSize_dvd c.blockSize_pos

theorem dcpLocalSeqLen_eq (n : ℕ) :
    c.dcpLocalSeqLen rank n = RoundRobin.count c.interleaveSize c.cpWorldSize rank n := by
  simp only [dcpLocalSeqLen, Nat.div_div_eq_div_mul, mul_assoc, ← Nat.mod_eq_sub_div_mul,
    mul_comm c.interleaveSize c.cpWorldSize]
  rfl

section

variable (h : c.cpWorldSize = 1 ∨ c.interleaveSize ∣ c.kernelBlockSize) (pos : ℕ)

include h

/-- **Slots as dealt**, if no group straddles kernel blocks. -/
theorem slotId_eq : c.slotId row rank pos =
    if owner c.interleaveSize c.cpWorldSize pos = rank then
      c.entry row (index c.interleaveSize c.cpWorldSize pos)
    else padSlotId := by
  simp only [slotId, entry, ← Nat.mod_eq_sub_div_mul]
  obtain hone | ⟨m, hm⟩ := h
  · simp only [hone, owner, index, Nat.mod_one, one_mul, mul_one, Nat.div_add_mod']
  · rw [hm, index_div interleaveSize_pos, ← index_mod interleaveSize_pos,
      ← owner_mod (m := m) (n := pos)]
    rfl

theorem slotId_ne_iff :
    c.slotId row rank pos ≠ padSlotId ↔ owner c.interleaveSize c.cpWorldSize pos = rank := by
  rw [slotId_eq h, padSlotId, entry]
  split_ifs with heq
  · exact iff_of_true (by omega) heq
  · exact iff_of_false (fun hne ↦ hne rfl) heq

end

/-- Where a group straddles the first two kernel blocks, its slots go on behind the first one. -/
theorem exists_slotId_eq (hone : c.cpWorldSize ≠ 1)
    (hdvd : ¬ c.interleaveSize ∣ c.kernelBlockSize) :
    ∃ pos, c.slotId (fun _ ↦ 0) 0 pos = c.kernelBlockSize := by
  have hI := interleaveSize_pos (c := c)
  obtain ⟨_, k, W, I, _, hW, _, _⟩ := c
  dsimp only at hI hone hdvd
  obtain ⟨howner, hindex⟩ := owner_index hI hW (k / I) (Nat.mod_lt k hI)
  have hk : k / I * I + k % I = k := Nat.div_add_mod' k I
  have hlt : k / I * (W * I) + k % I < k * W := by
    have hmul := Nat.mul_le_mul_left (k % I) (show 2 ≤ W by omega)
    conv_rhs => rw [← hk, Nat.add_mul, mul_assoc, mul_comm I]
    omega
  refine ⟨k / I * (W * I) + k % I, ?_⟩
  simp only [slotId, ← Nat.mod_eq_sub_div_mul, Nat.mod_eq_of_lt hlt, Nat.zero_mul, zero_add]
  exact (if_pos howner).trans (congrArg _ (hindex.trans hk))

/-- **When the layout is complete and dense** for all requests: with one rank, or when the
interleave size divides the kernel block size. -/
theorem dense_iff (c : CpSizes) : (∀ row n, c.Dense row n) ↔
    c.cpWorldSize = 1 ∨ c.interleaveSize ∣ c.kernelBlockSize := by
  refine ⟨fun h ↦ ?_, fun h row n ↦ ⟨fun pos _ ↦ ?_, fun rank hrank ↦ ?_⟩⟩
  · by_contra hnot
    obtain ⟨pos, hpos⟩ := exists_slotId_eq (not_or.1 hnot).1 (not_or.1 hnot).2
    -- an entry of a row of zeros is below the kernel block size
    have hmem : c.slotId (fun _ ↦ 0) 0 pos ∈
        (range (c.dcpLocalSeqLen 0 (pos + 1))).map (c.entry fun _ ↦ 0) := by
      rw [← (h (fun _ ↦ 0) (pos + 1)).2 0 c.cpWorldSize_pos, mem_filter, hpos, padSlotId]
      exact ⟨mem_map.2 ⟨pos, by simp, hpos⟩, by simp⟩
    obtain ⟨i, -, hi⟩ := mem_map.1 hmem
    have := Nat.mod_lt i (Nat.pos_of_dvd_of_pos c.kernelBlockSize_dvd c.blockSize_pos)
    rw [entry] at hi
    omega
  · refine ⟨owner c.interleaveSize c.cpWorldSize pos, ⟨Nat.mod_lt _ c.cpWorldSize_pos, ?_⟩, ?_⟩
    · exact (slotId_ne_iff h pos).2 rfl
    · exact fun rank hrank ↦ ((slotId_ne_iff h pos).1 hrank.2).symm
  · have hlocal : (fun pos ↦ decide (c.slotId row rank pos ≠ padSlotId)) =
        fun pos ↦ decide (owner c.interleaveSize c.cpWorldSize pos = rank) :=
      funext fun pos ↦ decide_eq_decide.2 (slotId_ne_iff h pos)
    rw [dcpLocalSeqLen_eq, ← map_index interleaveSize_pos hrank, map_map, filter_map,
      Function.comp_def, hlocal]
    refine map_congr_left fun pos hmem ↦ ?_
    rw [slotId_eq h, if_pos (by simpa using (mem_filter.1 hmem).2)]
    rfl

/-- Kernel blocks of half the interleave size, on two ranks. -/
def halfBlocks : CpSizes :=
  ⟨32, 16, 2, 32, Nat.succ_pos 31, Nat.two_pos, ⟨2, rfl⟩, ⟨1, rfl⟩⟩

/-- With the kernel blocks of block `3`, the first rank also gets the token at `32`, in the slot of
the token at `16`. -/
theorem not_dense_halfBlocks : ¬ halfBlocks.Dense (fun i ↦ [6, 7].getD i 0) 33 := fun h ↦
  absurd (h.2 0 (by decide)) (by decide)

end CpSizes

end OneCatVllm
