import Mathlib.Data.List.Infix
import Mathlib.Data.Nat.Find

/-!
# Searching a text

`OccursAt sub text i` says that `sub` is found in `text` at index `i`; `find text sub start` is the
least such index from `start` on, `rfind text sub start` the greatest. A text that grows keeps its
occurrences, and a part of it has those that end in the part. What a search finds is then determined
by the occurrence that **ends first** after some position (`FirstEnd`), which does not depend on how
much of the text is there (`FirstEnd.of_take`).
-/

namespace Substring

open List Nat

variable {α : Type*} {sub text : List α} {i j m lo hi start : ℕ}

/-- `sub` is found in `text` at index `i`. -/
def OccursAt (sub text : List α) (i : ℕ) : Prop := sub <+: text.drop i

instance [DecidableEq α] (sub text : List α) (i : ℕ) : Decidable (OccursAt sub text i) :=
  inferInstanceAs (Decidable (sub <+: text.drop i))

/-- The least index from `start` on at which `sub` is found. -/
def find [DecidableEq α] (text sub : List α) (start : ℕ) : Option ℕ :=
  (range' start (text.length + 1 - start)).find? fun i ↦ decide (OccursAt sub text i)

/-- The greatest index from `start` on at which `sub` is found. -/
def rfind [DecidableEq α] (text sub : List α) (start : ℕ) : Option ℕ :=
  let i := findGreatest (fun i ↦ start ≤ i ∧ OccursAt sub text i) text.length
  if start ≤ i ∧ OccursAt sub text i then some i else none

theorem OccursAt.add_length_le (h : OccursAt sub text i) (hsub : sub ≠ []) :
    i + sub.length ≤ text.length := by
  have hle := h.length_le
  rw [length_drop] at hle
  have := length_pos_iff.2 hsub
  omega

/-- A part of a text has the occurrences that end in it. -/
theorem occursAt_take_iff (hsub : sub ≠ []) :
    OccursAt sub (text.take m) i ↔ OccursAt sub text i ∧ i + sub.length ≤ m := by
  rw [OccursAt, drop_take, prefix_take_iff]
  have := length_pos_iff.2 hsub
  refine and_congr_right fun _ ↦ ?_
  omega

section

variable [DecidableEq α]

section

variable (hsub : sub ≠ [])

include hsub

theorem find_eq_some_iff : find text sub start = some i ↔
    start ≤ i ∧ OccursAt sub text i ∧ ∀ j, start ≤ j → j < i → ¬ OccursAt sub text j := by
  rw [find, find?_range'_eq_some, mem_range'_1]
  simp only [decide_eq_true_eq, Bool.not_eq_true', decide_eq_false_iff_not]
  constructor
  · rintro ⟨hocc, ⟨hstart, -⟩, hmin⟩
    exact ⟨hstart, hocc, hmin⟩
  · rintro ⟨hstart, hocc, hmin⟩
    have := hocc.add_length_le hsub
    exact ⟨hocc, ⟨hstart, by omega⟩, hmin⟩

theorem find_eq_none_iff : find text sub start = none ↔
    ∀ j, start ≤ j → ¬ OccursAt sub text j := by
  rw [find, find?_eq_none]
  simp only [mem_range'_1, decide_eq_true_eq]
  refine ⟨fun h j hj hocc ↦ ?_, fun h j hj ↦ h j hj.1⟩
  have := hocc.add_length_le hsub
  exact h j ⟨hj, by omega⟩ hocc

theorem rfind_eq_none_iff : rfind text sub start = none ↔
    ∀ j, start ≤ j → ¬ OccursAt sub text j := by
  simp only [rfind, ite_eq_right_iff, reduceCtorEq, imp_false]
  refine ⟨fun h j hj hocc ↦ h ?_, fun h hi ↦ h _ hi.1 hi.2⟩
  have := hocc.add_length_le hsub
  exact findGreatest_spec (P := fun i ↦ start ≤ i ∧ OccursAt sub text i)
    (show j ≤ text.length by omega) ⟨hj, hocc⟩

theorem rfind_eq_some (h : rfind text sub start = some i) :
    start ≤ i ∧ OccursAt sub text i ∧ ∀ j, i < j → ¬ OccursAt sub text j := by
  obtain ⟨⟨hstart, hocc⟩, hi⟩ := Option.ite_none_right_eq_some.1 h
  cases hi
  refine ⟨hstart, hocc, fun j hj hocc' ↦ ?_⟩
  have := hocc'.add_length_le hsub
  exact findGreatest_is_greatest hj (by omega) ⟨hstart.trans hj.le, hocc'⟩

end

end

/-! ### The first end of an occurrence -/

/-- An occurrence ends between two positions. -/
def EndsIn (sub text : List α) (lo hi : ℕ) : Prop :=
  ∃ i, OccursAt sub text i ∧ lo < i + sub.length ∧ i + sub.length ≤ hi

instance [DecidableEq α] (sub text : List α) (lo hi : ℕ) : Decidable (EndsIn sub text lo hi) :=
  decidable_of_iff (∃ i < hi + 1, OccursAt sub text i ∧ lo < i + sub.length ∧ i + sub.length ≤ hi)
    ⟨fun ⟨i, _, h⟩ ↦ ⟨i, h⟩, fun ⟨i, h⟩ ↦ ⟨i, by omega, h⟩⟩

/-- `e` is the first end of an occurrence after `lo`. -/
structure FirstEnd (sub text : List α) (lo e : ℕ) : Prop where
  length_le : sub.length ≤ e
  occurs : OccursAt sub text (e - sub.length)
  lt : lo < e
  first : ¬ EndsIn sub text lo (e - 1)

section

variable (h : FirstEnd sub text lo i)

include h

theorem FirstEnd.le_length (hsub : sub ≠ []) : i ≤ text.length := by
  have hle := h.occurs.add_length_le hsub
  omega

theorem FirstEnd.endsIn (hle : i ≤ hi) : EndsIn sub text lo hi := by
  have := h.length_le
  have := h.lt
  exact ⟨_, h.occurs, by omega, by omega⟩

/-- The first end is the first. -/
theorem FirstEnd.le_of_endsIn (hends : EndsIn sub text lo hi) : i ≤ hi := by
  obtain ⟨j, hocc, hlo, hhi⟩ := hends
  by_contra hlt
  exact h.first ⟨j, hocc, hlo, by omega⟩

theorem FirstEnd.eq (h' : FirstEnd sub text lo j) : i = j :=
  le_antisymm (h.le_of_endsIn (h'.endsIn le_rfl)) (h'.le_of_endsIn (h.endsIn le_rfl))

end

theorem endsIn_take_iff (hsub : sub ≠ []) :
    EndsIn sub (text.take m) lo hi ↔ EndsIn sub text lo (min m hi) := by
  constructor
  · rintro ⟨i, hocc, hlo, hhi⟩
    obtain ⟨hocc, hle⟩ := (occursAt_take_iff hsub).1 hocc
    exact ⟨i, hocc, hlo, le_min hle hhi⟩
  · rintro ⟨i, hocc, hlo, hhi⟩
    exact ⟨i, (occursAt_take_iff hsub).2 ⟨hocc, hhi.trans (min_le_left _ _)⟩, hlo,
      hhi.trans (min_le_right _ _)⟩

/-- **The first end does not depend on how much of the text is there.** -/
theorem FirstEnd.of_take (hsub : sub ≠ []) (h : FirstEnd sub (text.take m) lo i) :
    FirstEnd sub text lo i := by
  obtain ⟨hocc, hend⟩ := (occursAt_take_iff hsub).1 h.occurs
  refine ⟨h.length_le, hocc, h.lt, ?_⟩
  rintro ⟨j, hj, hlo, hhi⟩
  exact h.first ((endsIn_take_iff hsub).2 ⟨j, hj, hlo, le_min (by omega) hhi⟩)

/-- Nor does it depend on positions before it at which nothing ends. -/
theorem FirstEnd.mono (h : FirstEnd sub text lo i) (hle : start ≤ lo)
    (hnone : ¬ EndsIn sub text start lo) : FirstEnd sub text start i := by
  refine ⟨h.length_le, h.occurs, hle.trans_lt h.lt, ?_⟩
  rintro ⟨j, hj, hlo, hhi⟩
  rcases le_or_gt (j + sub.length) lo with hjlo | hjlo
  · exact hnone ⟨j, hj, hlo, hjlo⟩
  · exact h.first ⟨j, hj, hjlo, hhi⟩

theorem EndsIn.mono (h : EndsIn sub text lo hi) (hle : start ≤ lo) : EndsIn sub text start hi := by
  obtain ⟨j, hj, hlo, hhi⟩ := h
  exact ⟨j, hj, hle.trans_lt hlo, hhi⟩

/-- What ends behind `start` and not up to `lo` ends behind `lo`. -/
theorem EndsIn.of_not (h : EndsIn sub text start hi) (hnone : ¬ EndsIn sub text start lo) :
    EndsIn sub text lo hi := by
  obtain ⟨j, hj, hlo, hhi⟩ := h
  refine ⟨j, hj, ?_, hhi⟩
  by_contra hle
  exact hnone ⟨j, hj, hlo, not_lt.1 hle⟩

/-- A search finds the first end after the position it starts behind. -/
theorem find_eq_some_iff_firstEnd [DecidableEq α] (hsub : sub ≠ []) :
    find text sub (lo + 1 - sub.length) = some i ↔ FirstEnd sub text lo (i + sub.length) := by
  rw [find_eq_some_iff hsub]
  constructor
  · rintro ⟨hstart, hocc, hmin⟩
    refine ⟨le_add_left _ _, by rwa [Nat.add_sub_cancel], by omega, ?_⟩
    rintro ⟨j, hj, hlo, hhi⟩
    exact hmin j (by omega) (by omega) hj
  · intro h
    have hlt := h.lt
    have hocc := h.occurs
    rw [Nat.add_sub_cancel] at hocc
    refine ⟨by omega, hocc, fun j hj hji hoccj ↦ ?_⟩
    rcases le_or_gt (j + sub.length) lo with hjlo | hjlo
    · omega
    · exact h.first ⟨j, hoccj, hjlo, by omega⟩

theorem find_eq_none_iff_endsIn [DecidableEq α] (hsub : sub ≠ []) :
    find text sub (lo + 1 - sub.length) = none ↔ ¬ EndsIn sub text lo text.length := by
  rw [find_eq_none_iff hsub]
  constructor
  · rintro h ⟨j, hj, hlo, -⟩
    exact h j (by omega) hj
  · intro h j hj hocc
    exact h ⟨j, hocc, by omega, hocc.add_length_le hsub⟩

end Substring
