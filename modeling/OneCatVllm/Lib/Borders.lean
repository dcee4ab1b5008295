import Mathlib.Data.List.Basic

/-!
# Borders of the parts of a text

`IsBorder text v i` says that the first `v` elements of a text are also the last `v` of its first
`i`, with `v < i`. The borders of one part are nested: **the shorter border is a border of the
longer one**. So the borders of a part are found by going from each border to its own longest one,
and the borders of the next part are those that its new element prolongs.
-/

namespace Border

variable {α : Type*} {text : List α} {v w i : ℕ}

/-- The first `v` elements are the last `v` of the first `i`. -/
def IsBorder (text : List α) (v i : ℕ) : Prop :=
  v < i ∧ ∀ j < v, text[j]? = text[i - v + j]?

/-- The border that no other one exceeds. -/
def IsLongest (text : List α) (v i : ℕ) : Prop :=
  IsBorder text v i ∧ ∀ w, IsBorder text w i → w ≤ v

theorem isBorder_zero (hi : 0 < i) : IsBorder text 0 i :=
  ⟨hi, fun _ hj ↦ absurd hj (Nat.not_lt_zero _)⟩

/-- A border of the next part is a border of this one and the element after it. -/
theorem isBorder_succ_iff :
    IsBorder text (v + 1) (i + 1) ↔ IsBorder text v i ∧ text[v]? = text[i]? := by
  simp only [IsBorder, Nat.forall_lt_succ_right, Nat.succ_lt_succ_iff, Nat.add_sub_add_right,
    and_assoc]
  refine and_congr_right fun hlt ↦ ?_
  rw [Nat.sub_add_cancel (Nat.le_of_lt hlt)]

theorem IsBorder.trans (hw : IsBorder text w v) (hv : IsBorder text v i) : IsBorder text w i := by
  obtain ⟨hwv, hw⟩ := hw
  obtain ⟨hvi, hv⟩ := hv
  refine ⟨Nat.lt_trans hwv hvi, fun j hj ↦ ?_⟩
  rw [hw j hj, hv _ (by omega)]
  congr 1
  omega

/-- **Borders are nested.** -/
theorem IsBorder.of_lt (hw : IsBorder text w i) (hv : IsBorder text v i) (hlt : w < v) :
    IsBorder text w v := by
  refine ⟨hlt, fun j hj ↦ ?_⟩
  have hvi := hv.1
  rw [hw.2 j hj, hv.2 (v - w + j) (by omega)]
  congr 1
  omega

end Border
