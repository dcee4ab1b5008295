import Mathlib.Algebra.Order.BigOperators.Group.List
import Mathlib.Algebra.Order.Group.Int
import Mathlib.Algebra.Ring.Int.Defs

/-!
# Contiguous intervals

A list of intervals, given by a start `pos` and a length `len`, each of which starts where the one
before it ends. `Contiguous pos len n l` says that the first starts at `n`; `total len l` is the sum
of the lengths, so that the list covers `[n, n + total len l)`.
-/

namespace Intervals

open List

variable {α : Type*} {pos len : α → ℤ} {n d : ℤ} {l l' : List α} {f : α → α}

/-- The sum of the lengths. -/
def total (len : α → ℤ) (l : List α) : ℤ := (l.map len).sum

/-- Each interval starts where the one before it ends. -/
def Contiguous (pos len : α → ℤ) : ℤ → List α → Prop
  | _, [] => True
  | n, a :: l => pos a = n ∧ Contiguous pos len (n + len a) l

@[simp] theorem total_nil : total len [] = 0 := rfl

@[simp] theorem total_cons (a : α) : total len (a :: l) = len a + total len l := by
  simp [total]

@[simp] theorem total_append : total len (l ++ l') = total len l + total len l' := by
  simp [total]

theorem total_nonneg (h : ∀ a ∈ l, 0 ≤ len a) : 0 ≤ total len l := by
  refine sum_nonneg fun x hx ↦ ?_
  obtain ⟨a, ha, rfl⟩ := mem_map.1 hx
  exact h a ha

/-- Intervals of positive length that add up to nothing are none. -/
theorem eq_nil_of_total (h : ∀ a ∈ l, 0 < len a) (htotal : total len l ≤ 0) : l = [] := by
  rcases l with - | ⟨a, l⟩
  · rfl
  · have ha := h a mem_cons_self
    have hl : 0 ≤ total len l := total_nonneg fun b hb ↦ (h b (mem_cons_of_mem a hb)).le
    rw [total_cons] at htotal
    omega

theorem contiguous_append : Contiguous pos len n (l ++ l') ↔
    Contiguous pos len n l ∧ Contiguous pos len (n + total len l) l' := by
  induction l generalizing n with
  | nil => simp [Contiguous]
  | cons a l ih =>
    rw [cons_append, Contiguous, Contiguous, ih, total_cons, and_assoc, add_assoc]

/-- Shifting every interval shifts the whole. -/
theorem contiguous_map (hpos : ∀ a ∈ l, pos (f a) = pos a - d) (hlen : ∀ a ∈ l, len (f a) = len a)
    (h : Contiguous pos len n l) : Contiguous pos len (n - d) (l.map f) := by
  induction l generalizing n with
  | nil => trivial
  | cons a l ih =>
    refine ⟨by rw [hpos a mem_cons_self, h.1], ?_⟩
    have hrest := ih (fun b hb ↦ hpos b (mem_cons_of_mem a hb))
      (fun b hb ↦ hlen b (mem_cons_of_mem a hb)) h.2
    have hn : n - d + len (f a) = n + len a - d := by
      rw [hlen a mem_cons_self]
      omega
    rw [hn]
    exact hrest

theorem total_map (hlen : ∀ a ∈ l, len (f a) = len a) : total len (l.map f) = total len l := by
  rw [total, map_map]
  exact congrArg sum (map_congr_left hlen)

end Intervals
