import Mathlib.Data.List.Basic
import Mathlib.Algebra.Order.Group.Nat

/-!
# Lists cut into blocks

`blockAt b l j` is the `j`-th block of `b` elements of `l`. The front part of a list, up to a
multiple of the block size, is the same data as its blocks.
-/

namespace Blocks

open Nat

variable {α : Type*} {b i j : ℕ} {l l' : List α}

/-- The `j`-th block of `b` elements. -/
def blockAt (b : ℕ) (l : List α) (j : ℕ) : List α := (l.drop (j * b)).take b

theorem take_succ_mul (b : ℕ) (l : List α) (i : ℕ) :
    l.take ((i + 1) * b) = l.take (i * b) ++ blockAt b l i := by
  rw [succ_mul, List.take_add, blockAt]

theorem blockAt_take (h : j ≤ i) : blockAt b (l.take ((i + 1) * b)) j = blockAt b l j := by
  have hle : j * b + b ≤ (i + 1) * b := by
    rw [← succ_mul]
    exact mul_le_mul_right b (succ_le_succ h)
  rw [blockAt, blockAt, List.drop_take, List.take_take, min_eq_left (by omega)]

/-- **Blocks decide the front part.** -/
theorem forall_blockAt_eq_iff :
    (∀ j ≤ i, blockAt b l j = blockAt b l' j) ↔ l.take ((i + 1) * b) = l'.take ((i + 1) * b) := by
  refine ⟨fun h ↦ ?_, fun h j hj ↦ ?_⟩
  · induction i with
    | zero => simpa [blockAt] using h 0 le_rfl
    | succ i ih =>
      rw [take_succ_mul b l, take_succ_mul b l', ih fun j hj ↦ h j (hj.trans i.le_succ),
        h (i + 1) le_rfl]
  · rw [← blockAt_take hj, h, blockAt_take hj]

end Blocks
