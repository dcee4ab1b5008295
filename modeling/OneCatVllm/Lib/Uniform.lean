import Mathlib.Probability.ProductMeasure

/-!
# Independent uniform numbers

A sequence of independent numbers, each uniform on the unit interval, and the probability of a
**box**: that each of some consecutive numbers lies in a set of its own.
-/

namespace Sampling

open Finset Function MeasureTheory

/-- The uniform law on the unit interval. -/
noncomputable abbrev unitLaw : Measure ℝ := volume.restrict (Set.Ico 0 1)

/-- The law of the uniform numbers: independent, and each uniform on the unit interval. -/
noncomputable def uniformLaw : Measure (ℕ → ℝ) := Measure.infinitePi fun _ ↦ unitLaw

instance isProbabilityMeasure_unitLaw : IsProbabilityMeasure unitLaw :=
  ⟨by rw [Measure.restrict_apply_univ, Real.volume_Ico, sub_zero, ENNReal.ofReal_one]⟩

theorem unitLaw_Iic {r : ℝ} (hr : 0 ≤ r) : unitLaw.real (Set.Iic r) = min 1 r := by
  rw [measureReal_restrict_apply measurableSet_Iic]
  rcases lt_or_ge r 1 with hlt | hge
  · have hset : Set.Iic r ∩ Set.Ico 0 1 = Set.Icc 0 r := by
      ext x
      constructor
      · exact fun h ↦ ⟨h.2.1, h.1⟩
      · exact fun h ↦ ⟨h.2, h.1, lt_of_le_of_lt h.2 hlt⟩
    rw [hset, Real.volume_real_Icc_of_le hr, sub_zero, min_eq_right hlt.le]
  · have hset : Set.Iic r ∩ Set.Ico 0 1 = Set.Ico 0 1 :=
      Set.inter_eq_right.2 fun x hx ↦ (hx.2.le.trans hge : x ≤ r)
    rw [hset, Real.volume_real_Ico_of_le zero_le_one, sub_zero, min_eq_left hge]

variable {sides : ℕ → Set ℝ}

/-- **The probability of a box**: each of the numbers from a position on lies in its set. -/
theorem uniformLaw_box (start k : ℕ) (hsides : ∀ i, MeasurableSet (sides i)) :
    uniformLaw.real {u | ∀ i < k, u (start + i) ∈ sides i} =
      ∏ i ∈ range k, unitLaw.real (sides i) := by
  have hset : {u : ℕ → ℝ | ∀ i < k, u (start + i) ∈ sides i} =
      Set.pi ((range k).map (addLeftEmbedding start)) fun j ↦ sides (j - start) := by
    ext u
    simp only [Set.mem_ofPred_eq, Set.mem_pi, mem_coe, mem_map, mem_range, addLeftEmbedding_apply,
      forall_exists_index, and_imp, forall_apply_eq_imp_iff₂, Nat.add_sub_cancel_left]
  rw [hset, uniformLaw, measureReal_def, Measure.infinitePi_pi _ fun j _ ↦ hsides _,
    ENNReal.toReal_prod, prod_map]
  simp only [addLeftEmbedding_apply, Nat.add_sub_cancel_left]
  rfl

/-- The probability of a box with one more side. -/
theorem uniformLaw_box_and (start k : ℕ) {last : Set ℝ} (hsides : ∀ i, MeasurableSet (sides i))
    (hlast : MeasurableSet last) :
    uniformLaw.real {u | (∀ i < k, u (start + i) ∈ sides i) ∧ u (start + k) ∈ last} =
      (∏ i ∈ range k, unitLaw.real (sides i)) * unitLaw.real last := by
  have hmeas (i : ℕ) : MeasurableSet (update sides k last i) := by
    by_cases hi : i = k
    · rw [hi, update_self]
      exact hlast
    · rw [update_of_ne hi]
      exact hsides i
  have hset : {u : ℕ → ℝ | (∀ i < k, u (start + i) ∈ sides i) ∧ u (start + k) ∈ last} =
      {u | ∀ i < k + 1, u (start + i) ∈ update sides k last i} := by
    ext u
    rw [Set.mem_ofPred_eq, Set.mem_ofPred_eq, Nat.forall_lt_succ_right, update_self]
    refine and_congr_left fun _ ↦ forall₂_congr fun i hi ↦ ?_
    rw [update_of_ne hi.ne]
  rw [hset, uniformLaw_box start (k + 1) hmeas, prod_range_succ, update_self]
  congr 1
  refine prod_congr rfl fun i hi ↦ ?_
  rw [update_of_ne (mem_range.1 hi).ne]

end Sampling
