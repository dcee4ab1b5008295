import Mathlib.Algebra.Order.Group.Nat

/-!
# A grid of block boundaries

The multiples of a block size `b` cut the positions into blocks: `cdiv n b` is the number of blocks
that `n` positions touch, and `next b n` is the first boundary after position `n`. Everything about
them is stated as an order relation between positions, so that users never see a quotient.
-/

namespace Grid

open Nat

variable {b n m k : ℕ}

/-- Ceiling division. -/
def cdiv (n b : ℕ) : ℕ := (n + b - 1) / b

/-- The first boundary after `n`. -/
def next (b n : ℕ) : ℕ := (n / b + 1) * b

section

variable (hb : 0 < b)

include hb

theorem lt_cdiv_iff : k < cdiv n b ↔ k * b < n := by
  rw [cdiv, lt_iff_add_one_le, le_div_iff_mul_le hb, succ_mul]
  omega

theorem cdiv_le_iff : cdiv n b ≤ k ↔ n ≤ k * b := by
  rw [← not_lt, lt_cdiv_iff hb, not_lt]

theorem cdiv_mono (h : n ≤ m) : cdiv n b ≤ cdiv m b :=
  (cdiv_le_iff hb).2 (h.trans ((cdiv_le_iff hb).1 le_rfl))

theorem cdiv_pos (h : 0 < n) : 0 < cdiv n b :=
  (lt_cdiv_iff hb).2 (by rwa [Nat.zero_mul])

theorem cdiv_eq (h : 0 < n) : cdiv n b = (n - 1) / b + 1 := by
  rw [cdiv, ← add_div_right _ hb]
  congr 1
  omega

theorem cdiv_mul (k : ℕ) : cdiv (k * b) b = k := by
  refine le_antisymm ((cdiv_le_iff hb).2 le_rfl) ?_
  have hle : k * b ≤ cdiv (k * b) b * b := (cdiv_le_iff hb).1 le_rfl
  exact Nat.le_of_mul_le_mul_right hle hb

theorem lt_next : n < next b n := by
  rw [next, mul_comm]
  exact lt_mul_div_succ n hb

end

/-- **The first boundary**: no boundary lies between a position and the next one. -/
theorem next_le (hdvd : b ∣ m) (h : n < m) : next b n ≤ m := by
  obtain ⟨k, rfl⟩ := hdvd
  rw [mul_comm b k]
  rw [mul_comm] at h
  exact mul_le_mul_right b (Nat.div_lt_of_lt_mul (by rwa [mul_comm] at h))

theorem dvd_next : b ∣ next b n := Nat.dvd_mul_left b _

/-- A position inside a block lies in the last block it touches. -/
theorem next_eq_cdiv_mul (hb : 0 < b) (h : ¬ b ∣ n) : next b n = cdiv n b * b := by
  have hn : n ≤ cdiv n b * b := (cdiv_le_iff hb).1 le_rfl
  have hlt : n < cdiv n b * b := lt_of_le_of_ne hn fun he ↦ h (he ▸ Nat.dvd_mul_left b _)
  refine le_antisymm (next_le (Nat.dvd_mul_left b _) hlt) ?_
  refine mul_le_mul_right b ((cdiv_le_iff hb).2 ?_)
  exact (lt_next hb).le

end Grid
