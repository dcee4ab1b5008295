import Mathlib.Algebra.Order.Group.Nat
import Mathlib.Data.List.Basic

/-!
# Block tables

The list operations that the managers perform on a request's block table, over any type of entries
with a null entry: freeing the front part up to the first null entry, and the extension of a table
of recurrent states, which pads with the null entry and moves the speculative blocks to the end.
-/

namespace OneCatVllm

open List

variable {α : Type}

/-- `_remove_blocks_in_range(0, i)`: backward, up to the first null entry. Returns the table and the
freed entries with their indices. -/
def removeBlocksBelow [DecidableEq α] (null : α) : ℕ → List α → List α × List (ℕ × α)
  | 0, blocks => (blocks, [])
  | i + 1, blocks =>
    match blocks[i]? with
    | none => (blocks, [])
    | some b =>
      if b = null then (blocks, [])
      else
        let res := removeBlocksBelow null i (blocks.set i null)
        (res.1, (i, b) :: res.2)

/-- The reuse loop of `MambaManager.allocate_new_blocks`: the speculative blocks that now lie in the
padding move to the end of the table. -/
def reuseSpeculativeBlocks (null : α) (numSkippedBlocks : ℕ) : List ℕ → List α → List α
  | [], blocks => blocks
  | i :: is, blocks =>
    if i < numSkippedBlocks then
      reuseSpeculativeBlocks null numSkippedBlocks is ((blocks ++ [blocks.getD i null]).set i null)
    else blocks

/-- The table of a recurrent group before its new blocks are appended: null blocks up to the running
state block, and the old speculative blocks behind them. -/
def extendTable (null : α) (allocated : Bool) (numSpec numRequiredBlocks : ℕ) (blocks : List α) :
    List α :=
  let numSkippedBlocks := numRequiredBlocks - numSpec - 1
  let padded := blocks ++ replicate (numSkippedBlocks - blocks.length) null
  if allocated then
    reuseSpeculativeBlocks null numSkippedBlocks (range' (blocks.length - numSpec) numSpec) padded
  else padded

/-! ### Freeing -/

/-- `new` is `old` with some of the entries before `n` freed. -/
structure Freed (null : α) (n : ℕ) (old new : List α) : Prop where
  length : new.length = old.length
  eq_or_null (i : ℕ) : new[i]? = old[i]? ∨ new[i]? = some null
  kept : ∀ i, n ≤ i → new[i]? = old[i]?

variable {null : α}

namespace Freed

variable {m n : ℕ} {a b c : List α}

theorem refl (null : α) (n : ℕ) (a : List α) : Freed null n a a :=
  ⟨rfl, fun _ ↦ .inl rfl, fun _ _ ↦ rfl⟩

theorem trans (h : Freed null n a b) (h' : Freed null n b c) : Freed null n a c where
  length := h'.length.trans h.length
  eq_or_null i := by
    rcases h'.eq_or_null i with he | he
    · rw [he]
      exact h.eq_or_null i
    · exact .inr he
  kept i hi := (h'.kept i hi).trans (h.kept i hi)

theorem mono (h : Freed null m a b) (hmn : m ≤ n) : Freed null n a b :=
  ⟨h.length, h.eq_or_null, fun i hi ↦ h.kept i (hmn.trans hi)⟩

theorem set {i : ℕ} (hi : i < n) (a : List α) : Freed null n a (a.set i null) where
  length := length_set
  eq_or_null j := by
    rw [getElem?_set]
    split_ifs with hij hlt
    · exact .inr rfl
    · exact .inl (by rw [← hij, getElem?_eq_none (not_lt.1 hlt)])
    · exact .inl rfl
  kept j hj := getElem?_set_ne (by omega)

theorem foldl_set {l : List ℕ} (hl : ∀ i ∈ l, i < n) (a : List α) :
    Freed null n a (l.foldl (fun bs i ↦ bs.set i null) a) := by
  induction l generalizing a with
  | nil => exact refl null n a
  | cons i l ih =>
    exact (set (hl i mem_cons_self) a).trans (ih (fun j hj ↦ hl j (mem_cons_of_mem i hj)) _)

theorem removeBlocksBelow [DecidableEq α] (null : α) (n : ℕ) (a : List α) :
    Freed null n a (removeBlocksBelow null n a).1 := by
  induction n generalizing a with
  | zero => exact refl null 0 a
  | succ i ih =>
    rw [OneCatVllm.removeBlocksBelow]
    rcases a[i]? with - | b
    · exact refl null _ a
    · dsimp only
      split_ifs
      · exact refl null _ a
      · exact (set i.lt_succ_self a).trans ((ih _).mono i.le_succ)

end Freed

/-! ### Moving the speculative blocks -/

/-- **The reuse loop.** The blocks at `c, …, c + n - 1` that lie in the padding, before `k`, become
null and stand at the end. -/
theorem reuseSpeculativeBlocks_spec {k c n : ℕ} {blocks : List α} (hlen : c + n ≤ blocks.length)
    (hlive : ∀ i, c ≤ i ∧ i < c + n ∨ k ≤ i → blocks[i]? ≠ some null) :
    let res := reuseSpeculativeBlocks null k (range' c n) blocks
    res.length = blocks.length + min n (k - c) ∧
      (∀ i < c, res[i]? = blocks[i]?) ∧
      (∀ i, c ≤ i → i < k → i < c + n ∨ blocks[i]? = some null → res[i]? = some null) ∧
      ∀ i, k ≤ i → res[i]? ≠ some null := by
  induction n generalizing c blocks with
  | zero =>
    refine ⟨by simp [reuseSpeculativeBlocks], fun _ _ ↦ rfl, fun i hci _ h ↦ ?_, fun i hi ↦ ?_⟩
    · exact h.resolve_left (by omega)
    · exact hlive i (.inr hi)
  | succ n ih =>
    rw [range'_succ]
    simp only [reuseSpeculativeBlocks]
    split_ifs with hck
    · set moved := (blocks ++ [blocks.getD c null]).set c null with hmoved
      have hget : ∀ i, i < blocks.length → i ≠ c → moved[i]? = blocks[i]? := fun i hi hic ↦ by
        rw [getElem?_set_ne (Ne.symm hic), getElem?_append_left hi]
      have hc : moved[c]? = some null := by
        rw [getElem?_set_self (by rw [length_append]; omega)]
      have hlast : moved[blocks.length]? = blocks[c]? := by
        rw [getElem?_set_ne (by omega), getElem?_append_right le_rfl, Nat.sub_self,
          getElem?_cons_zero, getD_eq_getElem?_getD, getElem?_eq_getElem (by omega),
          Option.getD_some]
      have hmlen : moved.length = blocks.length + 1 := by simp [hmoved]
      obtain ⟨hl, hbelow, hnull, hend⟩ := ih (by omega : c + 1 + n ≤ moved.length)
        fun i hi ↦ by
          rcases lt_trichotomy i blocks.length with hlt | rfl | hgt
          · rw [hget i hlt (by omega)]
            exact hlive i (by omega)
          · rw [hlast]
            exact hlive c (by omega)
          · rw [getElem?_eq_none (by omega)]
            nofun
      refine ⟨by omega, fun i hi ↦ ?_, fun i hci hik h ↦ ?_, hend⟩
      · rw [hbelow i (by omega), hget i (by omega) (by omega)]
      · rcases eq_or_ne i c with rfl | hne
        · rw [hbelow i (by omega), hc]
        · refine hnull i (by omega) hik (h.imp (fun h ↦ by omega) fun h ↦ ?_)
          have hi : i < blocks.length := (List.getElem?_eq_some_iff.1 h).1
          rw [hget i hi hne, h]
    · refine ⟨by omega, fun _ _ ↦ rfl, fun i hci hik _ ↦ by omega, fun i hi ↦ hlive i (.inr hi)⟩

end OneCatVllm
