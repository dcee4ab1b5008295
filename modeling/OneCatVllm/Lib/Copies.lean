import Mathlib.Data.List.Perm.Basic
import Mathlib.Data.List.Nodup

/-!
# Lists of copies between cells

A memory is a function from cells, and a list of pairs (source, destination) is carried out **one
copy after another** (`copyAll`) or **at once** (`gatherScatter`: every source is read before the
first destination is written). The content of a cell after the copies is that of the source of the
last copy into it, provided that no earlier copy overwrote that source; the two ways agree when no
source is a destination.
-/

namespace Copies

open Function List

variable {κ α : Type*} [DecidableEq κ] {cs cs' : List (κ × κ)} {m : κ → α} {k : κ}

/-- The copies, one after another. -/
def copyAll : List (κ × κ) → (κ → α) → κ → α
  | [], m => m
  | c :: cs, m => copyAll cs (update m c.2 (m c.1))

/-- The copies at once: all sources are read from the initial memory. -/
def gatherScatter (cs : List (κ × κ)) (m : κ → α) : κ → α :=
  cs.foldl (fun m' c ↦ update m' c.2 (m c.1)) m

theorem copyAll_cons (c : κ × κ) : copyAll (c :: cs) m = copyAll cs (update m c.2 (m c.1)) := rfl

theorem copyAll_append : copyAll (cs ++ cs') m = copyAll cs' (copyAll cs m) := by
  induction cs generalizing m with
  | nil => rfl
  | cons c cs ih => exact ih

/-- A cell that only receives its own content keeps it. -/
theorem copyAll_of_self (h : ∀ c ∈ cs, c.2 = k → c.1 = k) : copyAll cs m k = m k := by
  induction cs generalizing m with
  | nil => rfl
  | cons c cs ih =>
    rw [copyAll_cons, ih fun d hd ↦ h d (mem_cons_of_mem c hd)]
    by_cases hk : c.2 = k
    · rw [← hk, update_self, hk, h c mem_cons_self hk]
    · exact update_of_ne (Ne.symm hk) _ _

/-- A cell that is no destination keeps its content. -/
theorem copyAll_of_notMem (h : ∀ c ∈ cs, c.2 ≠ k) : copyAll cs m k = m k :=
  copyAll_of_self fun c hc hk ↦ absurd hk (h c hc)

/-- **The last copy into a cell** decides its content. -/
theorem copyAll_apply_of_eq {before after : List (κ × κ)} {source : κ}
    (hcs : cs = before ++ (source, k) :: after) (hbefore : ∀ c ∈ before, c.2 ≠ source)
    (hafter : ∀ c ∈ after, c.2 ≠ k) : copyAll cs m k = m source := by
  rw [hcs, copyAll_append, copyAll_cons, copyAll_of_notMem hafter, update_self,
    copyAll_of_notMem hbefore]

/-! ### Copies at once -/

/-- When no source is a destination, copying at once and one after another agree. -/
theorem gatherScatter_eq_copyAll (h : ∀ c ∈ cs, ∀ d ∈ cs, c.1 ≠ d.2) :
    gatherScatter cs m = copyAll cs m := by
  -- the sources keep their initial content `m₀` while the copies are carried out
  suffices hgen : ∀ (l : List (κ × κ)) (m₀ m₁ : κ → α), (∀ c ∈ l, ∀ d ∈ l, c.1 ≠ d.2) →
      (∀ c ∈ l, m₁ c.1 = m₀ c.1) →
      l.foldl (fun m' c ↦ update m' c.2 (m₀ c.1)) m₁ = copyAll l m₁ from
    hgen cs m m h fun _ _ ↦ rfl
  intro l
  induction l with
  | nil => exact fun _ _ _ _ ↦ rfl
  | cons c l ih =>
    intro m₀ m₁ hl hm
    rw [foldl_cons, ← hm c mem_cons_self]
    refine ih m₀ _ (fun d hd e he ↦ hl d (.tail c hd) e (.tail c he)) fun d hd ↦ ?_
    rw [update_of_ne (hl d (.tail c hd) c mem_cons_self)]
    exact hm d (.tail c hd)

end Copies
