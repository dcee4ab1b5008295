import Mathlib.Data.List.Nodup

/-!
# Insertion-ordered dictionaries

A dictionary as the list of its items in insertion order. Setting a key that is present replaces its
value in place; a new key goes to the end.
-/

namespace Dict

open List

variable {κ α : Type*}

/-- The keys, in order. -/
def keys (d : List (κ × α)) : List κ := d.map Prod.fst

@[simp] theorem keys_nil : keys ([] : List (κ × α)) = [] := rfl

@[simp] theorem keys_cons (p : κ × α) (d : List (κ × α)) : keys (p :: d) = p.1 :: keys d := rfl

variable [DecidableEq κ] {d : List (κ × α)} {k k' : κ} {v : α}

/-- `d.get(k)`. -/
def get? : List (κ × α) → κ → Option α
  | [], _ => none
  | p :: d, k => if p.1 = k then some p.2 else get? d k

/-- `d[k] = v`. -/
def set : List (κ × α) → κ → α → List (κ × α)
  | [], k, v => [(k, v)]
  | p :: d, k, v => if p.1 = k then (k, v) :: d else p :: set d k v

/-- `d.pop(k, None)`, as far as the dictionary is concerned. -/
def pop (d : List (κ × α)) (k : κ) : List (κ × α) := d.filter (·.1 ≠ k)

theorem keys_set : keys (set d k v) = if k ∈ keys d then keys d else keys d ++ [k] := by
  induction d with
  | nil => simp [set, keys]
  | cons p d ih =>
    unfold set
    by_cases hp : p.1 = k
    · simp [hp]
    · rw [if_neg hp, keys_cons, ih]
      by_cases hk : k ∈ keys d <;> simp [hk, Ne.symm hp]

theorem keys_pop : keys (pop d k) = (keys d).filter (· ≠ k) := by
  simp only [keys, pop, filter_map]
  rfl

theorem nodup_keys_set (h : (keys d).Nodup) : (keys (set d k v)).Nodup := by
  rw [keys_set]
  split_ifs with hk
  · exact h
  · rw [← concat_eq_append]
    exact h.concat hk

theorem nodup_keys_pop (h : (keys d).Nodup) : (keys (pop d k)).Nodup := by
  rw [keys_pop]
  exact h.filter _

@[simp] theorem mem_keys_set : k' ∈ keys (set d k v) ↔ k' = k ∨ k' ∈ keys d := by
  rw [keys_set]
  split_ifs with hk
  · exact ⟨.inr, fun h ↦ h.elim (· ▸ hk) id⟩
  · simp [or_comm]

@[simp] theorem mem_keys_pop : k' ∈ keys (pop d k) ↔ k' ∈ keys d ∧ k' ≠ k := by
  rw [keys_pop]
  simp

@[simp] theorem get?_nil (k : κ) : get? ([] : List (κ × α)) k = none := rfl

theorem get?_eq_none_iff : get? d k = none ↔ k ∉ keys d := by
  induction d with
  | nil => simp
  | cons p d ih =>
    rw [get?]
    split_ifs with h
    · simp [h]
    · simp [ih, Ne.symm h]

theorem mem_keys_iff : k ∈ keys d ↔ ∃ v, get? d k = some v := by
  rw [← not_iff_not, ← get?_eq_none_iff, Option.eq_none_iff_forall_ne_some, not_exists]

theorem pop_eq_self (h : k ∉ keys d) : pop d k = d := by
  refine filter_eq_self.2 fun p hp ↦ ?_
  have hne : p.1 ≠ k := by
    rintro rfl
    exact h (mem_map_of_mem hp)
  simpa using hne

theorem get?_set (k' : κ) : get? (set d k v) k' = if k = k' then some v else get? d k' := by
  induction d with
  | nil => simp [set, get?]
  | cons p d ih =>
    unfold set
    by_cases hp : p.1 = k
    · subst hp
      by_cases hk : p.1 = k' <;> simp [get?, hk]
    · rw [if_neg hp, get?, ih, get?]
      by_cases hpk : p.1 = k'
      · have hk : k ≠ k' := fun h ↦ hp (hpk.trans h.symm)
        simp [hpk, hk]
      · simp [hpk]

theorem get?_pop (k' : κ) : get? (pop d k) k' = if k = k' then none else get? d k' := by
  induction d with
  | nil => simp [pop]
  | cons p d ih =>
    unfold pop at ih ⊢
    by_cases hp : p.1 = k
    · subst hp
      by_cases hk : p.1 = k' <;> simp [get?, hk] at ih ⊢ <;> exact ih
    · rw [filter_cons_of_pos (by simpa using hp), get?, ih, get?]
      by_cases hpk : p.1 = k'
      · have hk : k ≠ k' := fun h ↦ hp (hpk.trans h.symm)
        simp [hpk, hk]
      · simp [hpk]

theorem mem_set {p : κ × α} (h : p ∈ set d k v) : p = (k, v) ∨ p ∈ d := by
  induction d with
  | nil => exact .inl (mem_singleton.1 h)
  | cons q d ih =>
    rw [set] at h
    split at h
    · exact (mem_cons.1 h).imp id (mem_cons_of_mem q)
    · rcases mem_cons.1 h with rfl | h
      · exact .inr mem_cons_self
      · exact (ih h).imp id (mem_cons_of_mem q)

theorem get?_append (d' : List (κ × α)) : get? (d ++ d') k = (get? d k).or (get? d' k) := by
  induction d with
  | nil => rfl
  | cons p d ih =>
    rw [cons_append, get?, get?, ih]
    split <;> rfl

/-! ### Items up to order -/

theorem perm_cons_pop (h : (keys d).Nodup) (hv : get? d k = some v) :
    d.Perm ((k, v) :: pop d k) := by
  induction d with
  | nil => cases hv
  | cons p d ih =>
    obtain ⟨hp, hd⟩ := nodup_cons.1 h
    rw [get?] at hv
    by_cases hk : p.1 = k
    · subst hk
      rw [if_pos rfl] at hv
      cases hv
      rw [pop, filter_cons_of_neg (by simp)]
      exact Perm.cons p (Perm.of_eq (pop_eq_self hp).symm)
    · rw [if_neg hk] at hv
      rw [pop, filter_cons_of_pos (by simpa using hk)]
      exact ((ih hd hv).cons p).trans (.swap ..)

end Dict
