import Mathlib.Algebra.Order.Group.Nat
import Mathlib.Data.List.Basic

/-!
# Dealing in groups

Items `0, 1, 2, …` are dealt to `W` hands in turn, `I` at a time. `owner` is the hand that gets an
item, `index` its place there, and `count` the number of items that a hand has got of the first `n`.
-/

namespace RoundRobin

open List Nat

variable {I W n m hand : ℕ}

def owner (I W n : ℕ) : ℕ := n / I % W

def index (I W n : ℕ) : ℕ := n / (W * I) * I + n % I

def count (I W hand n : ℕ) : ℕ := n / (W * I) * I + min (n % (W * I) - hand * I) I

section

variable (hI : 0 < I)

include hI

theorem index_div_self : index I W n / I = n / (W * I) := by
  rw [index, mul_comm _ I, mul_add_div hI, div_eq_of_lt (mod_lt n hI), add_zero]

/-- **Blocks of whole groups**: a hand gets its items of a block of `m` rounds together. -/
theorem index_mod : index I W (n % (I * m * W)) = index I W n % (I * m) := by
  have hblock : I * m * W = W * I * m := by rw [mul_right_comm, mul_comm I]
  rw [hblock, index, mod_mul_right_div_self,
    mod_mod_of_dvd n (Nat.dvd_mul_right_of_dvd (Nat.dvd_mul_left I W) m), mod_mul,
    index_div_self hI, index, mul_add_mod_self_right, mod_mod, mul_comm I, add_comm]

theorem index_div : index I W n / (I * m) = n / (I * m * W) := by
  rw [← Nat.div_div_eq_div_mul, index_div_self hI, Nat.div_div_eq_div_mul, mul_right_comm I,
    mul_comm W]

omit hI in
theorem owner_mod : owner I W (n % (I * m * W)) = owner I W n := by
  rw [owner, mul_assoc, mod_mul_right_div_self, mod_mul_left_mod, owner]

/-- The first hand gets the first items of a round. -/
theorem owner_index (hW : 0 < W) (q : ℕ) {r : ℕ} (hr : r < I) :
    owner I W (q * (W * I) + r) = 0 ∧ index I W (q * (W * I) + r) = q * I + r := by
  have hround : r < W * I := hr.trans_le (Nat.le_mul_of_pos_left I hW)
  constructor
  · rw [owner, ← mul_assoc, mul_comm _ I, mul_add_div hI, div_eq_of_lt hr,
      add_zero, Nat.mul_mod_left]
  · rw [index, mul_comm q, mul_add_div (Nat.mul_pos hW hI), div_eq_of_lt hround,
      add_zero, mul_right_comm, mul_add_mod_self_right, mod_eq_of_lt hr]

variable (hhand : hand < W)

include hhand

/-- The items of a hand after `a` rounds and `u` items of the next one. -/
theorem count_round (a : ℕ) {u : ℕ} (hu : u ≤ W * I) :
    count I W hand (W * I * a + u) = a * I + min (u - hand * I) I := by
  have hround : 0 < W * I := Nat.mul_pos (zero_lt_of_lt hhand) hI
  rw [count, mul_add_div hround, mul_add_mod]
  rcases hu.lt_or_eq with hlt | rfl
  · rw [div_eq_of_lt hlt, mod_eq_of_lt hlt, add_zero]
  · have hle := Nat.mul_le_mul_right I (succ_le_of_lt hhand)
    rw [succ_mul] at hle
    rw [Nat.div_self hround, mod_self, succ_mul]
    omega

/-- **One more item** is counted for its owner, and its index there is the count before. -/
theorem count_succ (n : ℕ) : (owner I W n = hand → index I W n = count I W hand n) ∧
    count I W hand (n + 1) = count I W hand n + if owner I W n = hand then 1 else 0 := by
  have hlt := mod_lt n (Nat.mul_pos (zero_lt_of_lt hhand) hI)
  have hmod : n % (W * I) = n % I + owner I W n * I := by
    rw [mul_comm W, mod_mul, mul_comm I, owner]
  have hin := mod_lt n hI
  have hsucc := count_round hI hhand (n / (W * I)) (succ_le_of_lt hlt)
  rw [add_succ, div_add_mod] at hsucc
  rw [hsucc, index, count, hmod]
  rcases lt_trichotomy (owner I W n) hand with h | h | h
  · have hle := Nat.mul_le_mul_right I (succ_le_of_lt h)
    rw [succ_mul] at hle
    exact ⟨fun heq ↦ absurd heq h.ne, by rw [if_neg h.ne]; omega⟩
  · rw [h, if_pos rfl]
    exact ⟨fun _ ↦ by omega, by omega⟩
  · have hle := Nat.mul_le_mul_right I (succ_le_of_lt h)
    rw [succ_mul] at hle
    exact ⟨fun heq ↦ absurd heq h.ne', by rw [if_neg h.ne']; omega⟩

/-- **A hand is dense**: its items, in order, have the indices `0, 1, 2, …`. -/
theorem map_index (n : ℕ) : ((range n).filter (owner I W · = hand)).map (index I W) =
    range (count I W hand n) := by
  induction n with
  | zero => simp [count]
  | succ n ih =>
    obtain ⟨hindex, hcount⟩ := count_succ hI hhand n
    rw [range_succ, filter_append, map_append, ih, hcount]
    by_cases h : owner I W n = hand
    · simp [h, hindex h, range_succ]
    · simp [h]

end

end RoundRobin
