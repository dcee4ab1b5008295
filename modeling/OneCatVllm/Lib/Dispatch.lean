import Mathlib.Data.List.Nodup
import Mathlib.Algebra.Order.Ring.Nat

/-!
# Dividing receivers among senders

Each receiver is to be served by one sender. With `k` the number of receivers divided by the number
of senders, the sender at place `p` serves the `k` receivers from place `p * k` on, and of the
receivers that are left over the one at place `p`.

The two sides work this out on their own: `targets` from a sender's place, `source` from a
receiver's. They agree: **a receiver is among a sender's targets exactly when that sender is its
source** (`mem_targets_iff`), and every receiver has a source (`exists_source`).
-/

namespace Dispatch

open List Nat Option

variable {α β : Type*} [DecidableEq α] [DecidableEq β] {s : List α} {t : List β} {x : α} {y : β}

/-- The receivers that a sender serves. -/
def targets (s : List α) (t : List β) (x : α) : List β :=
  let k := t.length / s.length
  (t.drop (s.idxOf x * k)).take k ++ (t[s.length * k + s.idxOf x]?).toList

/-- The sender that serves a receiver. -/
def source (s : List α) (t : List β) (y : β) : Option α :=
  let k := t.length / s.length
  if t.idxOf y < s.length * k then s[t.idxOf y / k]? else s[t.idxOf y - s.length * k]?

/-- In a list without repetitions an element stands at one place. -/
theorem getElem?_eq_some_iff_idxOf (hs : s.Nodup) (hx : x ∈ s) {i : ℕ} :
    s[i]? = some x ↔ i = s.idxOf x := by
  constructor
  · intro h
    obtain ⟨hlt, rfl⟩ := List.getElem?_eq_some_iff.1 h
    exact (hs.idxOf_getElem i hlt).symm
  · rintro rfl
    exact getElem?_idxOf hx

omit [DecidableEq β] in
/-- A segment of a list, by places. -/
theorem mem_take_drop {a k : ℕ} :
    y ∈ (t.drop a).take k ↔ ∃ i, a ≤ i ∧ i < a + k ∧ t[i]? = some y := by
  rw [mem_iff_getElem?]
  constructor
  · rintro ⟨j, hj⟩
    rw [getElem?_take, getElem?_drop] at hj
    split at hj
    · exact ⟨a + j, by omega, by omega, hj⟩
    · cases hj
  · rintro ⟨i, hai, hik, hi⟩
    refine ⟨i - a, ?_⟩
    rw [getElem?_take, getElem?_drop, if_pos (by omega)]
    rwa [show a + (i - a) = i by omega]

/-- A sender's targets, by the places of both. -/
theorem mem_targets_iff_idxOf (ht : t.Nodup) (hy : y ∈ t) :
    y ∈ targets s t x ↔
      (s.idxOf x * (t.length / s.length) ≤ t.idxOf y ∧
        t.idxOf y < s.idxOf x * (t.length / s.length) + t.length / s.length) ∨
      t.idxOf y = s.length * (t.length / s.length) + s.idxOf x := by
  rw [targets, mem_append, mem_take_drop, mem_toList, getElem?_eq_some_iff_idxOf ht hy]
  constructor
  · rintro (⟨i, hle, hlt, hi⟩ | h)
    · rw [getElem?_eq_some_iff_idxOf ht hy] at hi
      exact .inl ⟨hi ▸ hle, hi ▸ hlt⟩
    · exact .inr h.symm
  · rintro (⟨hle, hlt⟩ | h)
    · exact .inl ⟨_, hle, hlt, getElem?_idxOf hy⟩
    · exact .inr h.symm

/-- **Senders and receivers agree.** -/
theorem mem_targets_iff (hs : s.Nodup) (ht : t.Nodup) (hx : x ∈ s) (hy : y ∈ t) :
    y ∈ targets s t x ↔ source s t y = some x := by
  rw [mem_targets_iff_idxOf ht hy]
  unfold source
  set k := t.length / s.length
  have hp : s.idxOf x < s.length := idxOf_lt_length_of_mem hx
  have hblock : s.idxOf x * k + k ≤ s.length * k := by
    rw [← succ_mul]
    exact mul_le_mul_right k hp
  dsimp only
  split
  · rename_i hlt
    have hk : 0 < k := Nat.pos_of_mul_pos_left (lt_of_le_of_lt (zero_le _) hlt)
    rw [getElem?_eq_some_iff_idxOf hs hx, Nat.div_eq_iff hk]
    omega
  · rw [getElem?_eq_some_iff_idxOf hs hx]
    omega

omit [DecidableEq α] in
/-- Every receiver has a source, unless there is no sender. -/
theorem exists_source (hs : s ≠ []) (hy : y ∈ t) : ∃ x ∈ s, source s t y = some x := by
  have hq : t.idxOf y < t.length := idxOf_lt_length_of_mem hy
  have hn : 0 < s.length := length_pos_iff.2 hs
  have hdiv : t.length < s.length * (t.length / s.length) + s.length := by
    have := div_add_mod t.length s.length
    have := mod_lt t.length hn
    omega
  unfold source
  set k := t.length / s.length
  dsimp only
  split
  · rename_i hlt
    have hplace : t.idxOf y / k < s.length := Nat.div_lt_of_lt_mul (mul_comm s.length k ▸ hlt)
    exact ⟨_, getElem_mem hplace, getElem?_eq_getElem hplace⟩
  · have hplace : t.idxOf y - s.length * k < s.length := by omega
    exact ⟨_, getElem_mem hplace, getElem?_eq_getElem hplace⟩

omit [DecidableEq β] in
theorem mem_of_mem_targets (h : y ∈ targets s t x) : y ∈ t := by
  rcases mem_append.1 h with h | h
  · exact mem_of_mem_drop (mem_of_mem_take h)
  · exact mem_of_getElem? (mem_toList.1 h)

omit [DecidableEq α] in
theorem mem_of_source_eq_some (h : source s t y = some x) : x ∈ s := by
  unfold source at h
  dsimp only at h
  split at h <;> exact mem_of_getElem? h

/-- No receiver is served twice by one sender. -/
theorem nodup_targets (ht : t.Nodup) (hx : x ∈ s) : (targets s t x).Nodup := by
  have hp : s.idxOf x < s.length := idxOf_lt_length_of_mem hx
  refine nodup_append.2 ⟨(ht.sublist (drop_sublist _ _)).sublist (take_sublist _ _), ?_, ?_⟩
  · rcases t[s.length * (t.length / s.length) + s.idxOf x]? with - | z
    · exact nodup_nil
    · exact nodup_singleton z
  · rintro a ha b hb rfl
    obtain ⟨i, -, hlt, hi⟩ := mem_take_drop.1 ha
    have hmem := mem_of_getElem? hi
    rw [getElem?_eq_some_iff_idxOf ht hmem] at hi
    rw [mem_toList, getElem?_eq_some_iff_idxOf ht hmem] at hb
    set k := t.length / s.length
    have hblock : s.idxOf x * k + k ≤ s.length * k := by
      rw [← succ_mul]
      exact mul_le_mul_right k hp
    omega

end Dispatch
