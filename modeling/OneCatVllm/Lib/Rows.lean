import Mathlib.Logic.Equiv.Basic

/-!
# Rows of buffers

A two-dimensional buffer is a function from its rows to their contents, and the contents of a row
are a function on its columns. Writing a list at a column, copying the first columns of another row,
and **the assignment that is meant to exchange two rows but is made on views** of them
(`assignViews`), where the second row reads what the first has just received.
-/

namespace Rows

open Function

variable {α : Type*} {row src dst : ℕ → α} {start n : ℕ} {xs ys : List α}

/-- `row[start : start + len(xs)] = xs`. -/
def writeSlice (row : ℕ → α) (start : ℕ) (xs : List α) : ℕ → α := fun c ↦
  if start ≤ c then xs.getD (c - start) (row c) else row c

/-- The row contains the list from a column on. -/
def Holds (row : ℕ → α) (start : ℕ) (xs : List α) : Prop :=
  ∀ j x, xs[j]? = some x → row (start + j) = x

/-- `dst[:n] = src[:n]`. -/
def copyPrefix (n : ℕ) (src dst : ℕ → α) : ℕ → α := fun c ↦ if c < n then src c else dst c

theorem holds_nil : Holds row start [] := nofun

theorem holds_writeSlice : Holds (writeSlice row start xs) start xs := by
  intro j x hx
  rw [writeSlice, if_pos (Nat.le_add_right start j), Nat.add_sub_cancel_left,
    List.getD_eq_getElem?_getD, hx, Option.getD_some]

/-- Writing behind a list keeps it. -/
theorem Holds.writeSlice_after (h : Holds row start xs) (hn : start + xs.length ≤ n) :
    Holds (writeSlice row n ys) start xs := by
  intro j x hx
  have hj : j < xs.length := (List.getElem?_eq_some_iff.1 hx).1
  rw [writeSlice, if_neg (by omega)]
  exact h j x hx

/-- A copy that covers a list keeps it. -/
theorem Holds.copyPrefix (h : Holds src start xs) (hn : start + xs.length ≤ n) :
    Holds (copyPrefix n src dst) start xs := by
  intro j x hx
  have hj : j < xs.length := (List.getElem?_eq_some_iff.1 hx).1
  rw [Rows.copyPrefix, if_pos (by omega)]
  exact h j x hx

/-! ### Exchanging rows -/

/-- `f[i], f[j] = f[j], f[i]`, where reading a row gives a view of it: the rows are assigned one
after the other, and the second assignment reads the row `i` that the first has written. -/
def assignViews (f : ℕ → α) (i j : ℕ) : ℕ → α :=
  let f' := update f i (f j)
  update f' j (f' i)

/-- **Both rows end up with the second.** -/
theorem assignViews_apply (f : ℕ → α) (i j k : ℕ) :
    assignViews f i j k = if k = i ∨ k = j then f j else f k := by
  simp only [assignViews, update_apply, if_true]
  by_cases hj : k = j
  · rw [if_pos hj, if_pos (.inr hj)]
  · by_cases hi : k = i
    · rw [if_neg hj, if_pos hi, if_pos (.inl hi)]
    · rw [if_neg hj, if_neg hi, if_neg (not_or.2 ⟨hi, hj⟩)]

/-- Exchanging two entries of a list. -/
theorem getElem?_set_set {l : List α} {i j : ℕ} {x y : α} (hi : l[i]? = some x)
    (hj : l[j]? = some y) (k : ℕ) : ((l.set i y).set j x)[k]? = l[Equiv.swap i j k]? := by
  have hil : i < l.length := (List.getElem?_eq_some_iff.1 hi).1
  have hjl : j < l.length := (List.getElem?_eq_some_iff.1 hj).1
  rw [List.getElem?_set, List.getElem?_set, List.length_set]
  by_cases hkj : j = k
  · rw [if_pos hkj, if_pos hjl, ← hkj, Equiv.swap_apply_right, hi]
  · rw [if_neg hkj]
    by_cases hki : i = k
    · rw [if_pos hki, if_pos hil, ← hki, Equiv.swap_apply_left, hj]
    · rw [if_neg hki, Equiv.swap_apply_of_ne_of_ne (Ne.symm hki) (Ne.symm hkj)]

end Rows
