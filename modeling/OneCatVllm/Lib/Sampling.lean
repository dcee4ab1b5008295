import Mathlib.Algebra.BigOperators.Field
import Mathlib.Algebra.Order.BigOperators.Group.Finset
import Mathlib.Algebra.Order.Field.Basic
import Mathlib.Data.Fintype.BigOperators
import Mathlib.Tactic.Linarith

/-!
# Rejection sampling and sequential sampling

A proposal drawn from a distribution `q` is kept with probability `accept p q`, and otherwise
replaced by a draw in proportion to some weights. With the weights `max (p - q) 0` the result has
**the distribution `p`** (`sum_sampled`): what is kept contributes `min q p`, and the probability
of a replacement is the sum of the weights. A proposal that is fixed is the same with the weights
of the other values (`sum_fixed`).

`mean law n h f` is the mean of `f` over the lists that extend `h` by `n` values, each drawn from a
law that depends on the values before. The mean of a function that vanishes off the lists that take
a given path is the probability of the path times the mean from its end on (`mean_path`).
-/

namespace Sampling

open Finset List

variable {α 𝕜 : Type*} [Fintype α] [Field 𝕜] [LinearOrder 𝕜] [IsStrictOrderedRing 𝕜]

/-- A distribution on a finite type. -/
structure IsDist (f : α → 𝕜) : Prop where
  nonneg : ∀ a, 0 ≤ f a
  sum_eq_one : ∑ a, f a = 1

/-- A distribution in proportion to weights. Weights that are all zero leave it open. -/
def IsProportional (r w : α → 𝕜) : Prop := ∀ a, r a * ∑ b, w b = w a

/-- The probability with which a value is kept, from its probabilities in the target and in the
proposal. -/
def accept (p q : 𝕜) : 𝕜 := if 0 < q then min 1 (p / q) else 0

section Step

variable {p q r w : α → 𝕜} {a : 𝕜} {t d : α}

theorem mul_accept {p q : 𝕜} (hp : 0 ≤ p) (hq : 0 ≤ q) : q * accept p q = min q p := by
  unfold accept
  rcases hq.eq_or_lt with rfl | hpos
  · rw [if_neg (lt_irrefl 0), mul_zero, min_eq_left hp]
  · rw [if_pos hpos, mul_min_of_nonneg _ _ hq, mul_one, mul_div_cancel₀ p hpos.ne']

/-- What is kept of a value and what replacements add to it. -/
theorem min_add_max_sub (p q : 𝕜) : min q p + max (p - q) 0 = p := by
  rcases le_total q p with h | h
  · rw [min_eq_left h, max_eq_left (sub_nonneg.2 h), add_sub_cancel]
  · rw [min_eq_right h, max_eq_right (sub_nonpos.2 h), add_zero]

/-- The probability of a replacement is the sum of the weights of the replacements. -/
theorem sum_rejected (hp : IsDist p) (hq : IsDist q) :
    ∑ v, q v * (1 - accept (p v) (q v)) = ∑ v, max (p v - q v) 0 := by
  have hle : ∑ v, q v * (1 - accept (p v) (q v)) + ∑ v, p v =
      ∑ v, max (p v - q v) 0 + ∑ v, q v := by
    rw [← sum_add_distrib, ← sum_add_distrib]
    refine sum_congr rfl fun v _ ↦ ?_
    rw [mul_sub, mul_accept (hp.nonneg v) (hq.nonneg v)]
    linarith [min_add_max_sub (p v) (q v)]
  rwa [hp.sum_eq_one, hq.sum_eq_one, add_left_inj] at hle

omit [LinearOrder 𝕜] [IsStrictOrderedRing 𝕜] in
/-- The part of a replacement, with proportional weights. Where a replacement has a chance at all,
the weights are not all zero. -/
theorem IsProportional.mul_eq (h : IsProportional r w) (ha : ∑ b, w b = 0 → a = 0) :
    a * r t = a * (w t / ∑ b, w b) := by
  by_cases hw : ∑ b, w b = 0
  · rw [ha hw, zero_mul, zero_mul]
  · rw [← h t, mul_div_cancel_right₀ _ hw]

/-- Without weights for replacements the proposal is the target, and a value that can be proposed
is kept. -/
theorem accept_eq_one (hp : IsDist p) (hq : IsDist q) (hw : ∑ v, max (p v - q v) 0 = 0)
    (hd : q d ≠ 0) : accept (p d) (q d) = 1 := by
  have hrej := sum_rejected hp hq
  rw [hw] at hrej
  have hnonneg : ∀ v ∈ univ, 0 ≤ q v * (1 - accept (p v) (q v)) := by
    intro v _
    rw [mul_sub, mul_one, mul_accept (hp.nonneg v) (hq.nonneg v), sub_nonneg]
    exact min_le_left _ _
  have hzero := (sum_eq_zero_iff_of_nonneg hnonneg).1 hrej d (mem_univ d)
  exact (sub_eq_zero.1 ((mul_eq_zero.1 hzero).resolve_left hd)).symm

variable [DecidableEq α]

/-- **A sampled proposal**, kept or replaced, has the target distribution. -/
theorem sum_sampled (hp : IsDist p) (hq : IsDist q) :
    ∑ d, q d * ((if d = t then accept (p d) (q d) else 0) +
      (1 - accept (p d) (q d)) * (max (p t - q t) 0 / ∑ v, max (p v - q v) 0)) = p t := by
  have hkept : ∑ d, q d * (if d = t then accept (p d) (q d) else 0) = min (q t) (p t) := by
    simp only [mul_ite, mul_zero, sum_ite_eq', mem_univ, if_true]
    exact mul_accept (hp.nonneg t) (hq.nonneg t)
  have hreplaced : (∑ d, q d * (1 - accept (p d) (q d))) *
      (max (p t - q t) 0 / ∑ v, max (p v - q v) 0) = max (p t - q t) 0 := by
    rw [sum_rejected hp hq]
    by_cases hw : ∑ v, max (p v - q v) 0 = 0
    · have hzero := (sum_eq_zero_iff_of_nonneg fun v _ ↦ le_max_right _ _).1 hw t
        (mem_univ t)
      rw [hw, zero_mul, hzero]
    · rw [mul_div_cancel₀ _ hw]
  simp only [mul_add, sum_add_distrib, ← mul_assoc, ← sum_mul]
  rw [hkept, hreplaced, min_add_max_sub]

omit [DecidableEq α] in
theorem accept_one (hp : IsDist p) : accept (p d) 1 = p d := by
  have hle : p d ≤ 1 := by
    rw [← hp.sum_eq_one]
    exact single_le_sum (fun v _ ↦ hp.nonneg v) (mem_univ d)
  rw [accept, if_pos one_pos, div_one, min_eq_right hle]

omit [IsStrictOrderedRing 𝕜] in
theorem sum_others (hp : IsDist p) : ∑ v, (if v = d then 0 else p v) = 1 - p d := by
  have hsplit (v : α) : (if v = d then 0 else p v) = p v - if v = d then p v else 0 := by
    split
    · rw [sub_self]
    · rw [sub_zero]
  simp only [hsplit, sum_sub_distrib, sum_ite_eq', mem_univ, if_true, hp.sum_eq_one]

/-- **A fixed proposal**, kept or replaced, has the target distribution. -/
theorem sum_fixed (hp : IsDist p) :
    (if d = t then accept (p d) 1 else 0) + (1 - accept (p d) 1) *
      ((if t = d then 0 else p t) / ∑ v, if v = d then 0 else p v) = p t := by
  rw [sum_others hp, accept_one hp]
  by_cases hd : d = t
  · rw [if_pos hd, if_pos hd.symm, zero_div, mul_zero, add_zero, hd]
  · rw [if_neg hd, if_neg (Ne.symm hd), zero_add]
    by_cases hone : 1 - p d = 0
    · have hothers := sum_others (d := d) hp
      rw [hone] at hothers
      have hnonneg : ∀ v ∈ univ, 0 ≤ if v = d then 0 else p v := by
        intro v _
        split
        · exact le_rfl
        · exact hp.nonneg v
      have hzero := (sum_eq_zero_iff_of_nonneg hnonneg).1 hothers t (mem_univ t)
      rw [if_neg (Ne.symm hd)] at hzero
      rw [hone, zero_mul, hzero]
    · rw [mul_div_cancel₀ _ hone]

end Step

/-! ### Sequential sampling -/

section Sequential

variable {𝕜 : Type*} [CommSemiring 𝕜] (law : List α → α → 𝕜)

/-- The mean of a function of the lists that extend `h` by `n` values, each drawn from the law after
the values before. -/
def mean : ℕ → List α → (List α → 𝕜) → 𝕜
  | 0, h, f => f h
  | n + 1, h, f => ∑ a, law h a * mean n (h ++ [a]) f

/-- The probability to draw the values of a path after `h`. -/
def path : List α → List α → 𝕜
  | _, [] => 1
  | h, x :: xs => law h x * path (h ++ [x]) xs

variable {law} {f g : List α → 𝕜} {h xs : List α} {m n : ℕ}

theorem mean_congr (hfg : ∀ l, h <+: l → l.length = h.length + n → f l = g l) :
    mean law n h f = mean law n h g := by
  induction n generalizing h with
  | zero => exact hfg h prefix_rfl rfl
  | succ n ih =>
    refine sum_congr rfl fun a _ ↦ ?_
    rw [ih fun l hl hlen ↦ hfg l ((prefix_append h [a]).trans hl) ?_]
    rw [hlen, length_append, length_singleton]
    omega

theorem mean_zero : mean law n h (fun _ ↦ 0) = 0 := by
  induction n generalizing h with
  | zero => rfl
  | succ n ih => exact sum_eq_zero fun a _ ↦ by rw [ih, mul_zero]

theorem mean_const (hlaw : ∀ h, ∑ a, law h a = 1) (c : 𝕜) : mean law n h (fun _ ↦ c) = c := by
  induction n generalizing h with
  | zero => rfl
  | succ n ih => simp only [mean, ih, ← sum_mul, hlaw, one_mul]

/-- **The mean along a path.** -/
theorem mean_path (hf : ∀ l, ¬ h ++ xs <+: l → f l = 0) :
    mean law (xs.length + m) h f = path law h xs * mean law m (h ++ xs) f := by
  induction xs generalizing h with
  | nil => rw [path, one_mul, length_nil, zero_add, append_nil]
  | cons x xs ih =>
    have hstep (a : α) : h ++ [a] ++ xs = h ++ a :: xs := by
      rw [append_assoc, singleton_append]
    have hother (a : α) (ha : a ≠ x) : law h a * mean law (xs.length + m) (h ++ [a]) f = 0 := by
      rw [mean_congr, mean_zero, mul_zero]
      refine fun l hl _ ↦ hf l fun hx ↦ ha ?_
      have hxl : h ++ [x] <+: l :=
        ((prefix_append_right_inj h).2 (prefix_append [x] xs)).trans hx
      have heq := prefix_of_prefix_length_le hl hxl (by simp)
      have := heq.eq_of_length (by simp)
      simpa using this
    rw [length_cons, add_right_comm, mean, sum_eq_single x
      (fun a _ ha ↦ hother a ha) (fun hx ↦ absurd (mem_univ x) hx)]
    rw [ih fun l hl ↦ hf l (hstep x ▸ hl), path, hstep, mul_assoc]

/-- The mean of a function of the lists that take a path. -/
theorem mean_ite_prefix [DecidableEq α] (g : List α → 𝕜) :
    mean law (xs.length + m) [] (fun l ↦ if xs <+: l then g l else 0) =
      path law [] xs * mean law m xs g := by
  rw [mean_path]
  · congr 1
    exact mean_congr fun l hl _ ↦ if_pos hl
  · intro l hl
    exact if_neg hl

end Sequential

end Sampling
