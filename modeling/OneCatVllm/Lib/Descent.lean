import Mathlib.Data.List.Basic
import Mathlib.Order.Nat

/-!
# Descending a labelled tree

A tree is given by a partial function `child : α → τ → Option α` from a node and a label to a child.
A **walk** asks at each node for a label (`target`) and enters the child with that label until there
is none (`walk`); the labels it was told are those of the start and of every node it entered. When
the target of a node is the label that an autoregressive model generates after the labels on the
path to the node, the walk is told what the model generates on its own (`decode_eq_of_walk`), and it
is the longest such descent (`le_length_walk`).

The children of a node may be listed by their labels more than once, with the last entry taken:
`lastRow` is the last of `n` rows that satisfies a condition.
-/

namespace Descent

open List Nat

variable {α τ : Type*}

/-! ### Walks -/

section

variable (child : α → τ → Option α) (target : α → τ)

/-- The nodes that a walk of at most `n` steps enters. -/
def walk : ℕ → α → List α
  | 0, _ => []
  | n + 1, a =>
    match child a (target a) with
    | none => []
    | some b => b :: walk n b

/-- Follow a list of labels. -/
def follow : List τ → α → Option α
  | [], a => some a
  | t :: ts, a => (child a t).bind (follow ts)

/-- A tree that can be ranked, with ranks up to `bound`: children rank higher than parents. -/
structure Ranked (rank : α → ℕ) (bound : ℕ) : Prop where
  lt : ∀ {a t b}, child a t = some b → rank a < rank b
  le : ∀ {a t b}, child a t = some b → rank b ≤ bound

end

variable {child : α → τ → Option α} {target : α → τ} {rank : α → ℕ} {bound m n : ℕ} {a b : α}
  {P : α → Prop}

theorem walk_succ_of_none (h : child a (target a) = none) : walk child target (n + 1) a = [] := by
  rw [walk, h]

theorem walk_succ_of_some (h : child a (target a) = some b) :
    walk child target (n + 1) a = b :: walk child target n b := by
  rw [walk, h]

/-- A walk ends at the highest rank. -/
theorem Ranked.walk_eq_nil (h : Ranked child rank bound) (ha : bound ≤ rank a) (n : ℕ) :
    walk child target n a = [] := by
  cases n with
  | zero => rfl
  | succ n =>
    rcases hc : child a (target a) with - | b
    · exact walk_succ_of_none hc
    · have := h.lt hc
      have := h.le hc
      omega

/-- **Enough steps are enough**: more steps than there are ranks above the start change nothing. -/
theorem Ranked.walk_eq (h : Ranked child rank bound) (hm : bound ≤ m + rank a)
    (hn : bound ≤ n + rank a) : walk child target m a = walk child target n a := by
  induction m generalizing n a with
  | zero => rw [h.walk_eq_nil (by omega), h.walk_eq_nil (by omega)]
  | succ m ih =>
    cases n with
    | zero => rw [h.walk_eq_nil (by omega), h.walk_eq_nil (by omega)]
    | succ n =>
      rcases hc : child a (target a) with - | b
      · rw [walk_succ_of_none hc, walk_succ_of_none hc]
      · have := h.lt hc
        have hrest := ih (n := n) (a := b) (by omega) (by omega)
        rw [walk_succ_of_some hc, walk_succ_of_some hc, hrest]

/-- Walks that are told the same agree, at the nodes that satisfy an invariant. -/
theorem walk_congr {child' : α → τ → Option α} {target' : α → τ}
    (heq : ∀ {a}, P a → child' a (target' a) = child a (target a))
    (hstep : ∀ {a b}, P a → child a (target a) = some b → P b) (ha : P a) :
    walk child' target' n a = walk child target n a := by
  induction n generalizing a with
  | zero => rfl
  | succ n ih =>
    rw [walk, walk, heq ha]
    rcases hc : child a (target a) with - | b
    · rfl
    · exact congrArg (b :: ·) (ih (hstep ha hc))

/-- A walk only enters nodes that satisfy an invariant. -/
theorem forall_mem_walk (hstep : ∀ {a b}, P a → child a (target a) = some b → P b) (ha : P a) :
    ∀ b ∈ walk child target n a, P b := by
  induction n generalizing a with
  | zero => exact fun b hb ↦ absurd hb not_mem_nil
  | succ n ih =>
    rcases hc : child a (target a) with - | c
    · rw [walk_succ_of_none hc]
      exact fun b hb ↦ absurd hb not_mem_nil
    · rw [walk_succ_of_some hc]
      intro b hb
      rcases mem_cons.1 hb with rfl | hb
      · exact hstep ha hc
      · exact ih (hstep ha hc) b hb

/-- Following two lists of labels one after the other. -/
theorem follow_append (ts us : List τ) (a : α) :
    follow child (ts ++ us) a = (follow child ts a).bind (follow child us) := by
  induction ts generalizing a with
  | nil => rfl
  | cons t ts ih =>
    rw [cons_append, follow, follow]
    rcases child a t with - | b
    · rfl
    · exact ih b

/-! ### Autoregressive models -/

/-- The first `n` labels that a model generates. -/
def decode (next : List τ → τ) : ℕ → List τ
  | 0 => []
  | n + 1 => decode next n ++ [next (decode next n)]

variable {path : α → List τ} {next : List τ → τ}

section

variable (hpath : ∀ {a t b}, child a t = some b → path b = path a ++ [t])
  (htarget : ∀ {a}, P a → target a = next (path a))
  (hstep : ∀ {a b}, P a → child a (target a) = some b → P b) (ha : P a) {k : ℕ}
  (hk : path a = decode next k)

include hpath htarget hstep ha hk

/-- **A walk is told what the model generates**: after `k` labels, those of its start and of each
node it enters are the following ones, and its end lies on them. -/
theorem decode_eq_of_walk :
    decode next (k + (walk child target n a).length + 1) =
        decode next k ++ (a :: walk child target n a).map target ∧
      path ((a :: walk child target n a).getLast (cons_ne_nil _ _)) =
        decode next (k + (walk child target n a).length) := by
  have hlabel : decode next (k + 1) = decode next k ++ [target a] := by rw [htarget ha, hk, decode]
  induction n generalizing a k with
  | zero => exact ⟨hlabel, hk⟩
  | succ n ih =>
    rcases hc : child a (target a) with - | b
    · simp only [walk_succ_of_none hc]
      exact ⟨hlabel, hk⟩
    · have hb : path b = decode next (k + 1) := by rw [hpath hc, hlabel, hk]
      obtain ⟨hrest, hlast⟩ := ih (hstep ha hc) hb (by rw [htarget (hstep ha hc), hb, decode])
      have hlen : k + ((walk child target n b).length + 1) =
          k + 1 + (walk child target n b).length := by omega
      simp only [walk_succ_of_some hc, length_cons, hlen]
      refine ⟨?_, (congrArg path (getLast_cons (cons_ne_nil _ _))).trans hlast⟩
      rw [hrest, hlabel, append_assoc]
      rfl

/-- **No descent along the generated labels is longer** than the walk. -/
theorem le_length_walk (hrank : Ranked child rank bound) {j : ℕ} {ts : List τ}
    (hts : decode next (k + j) = decode next k ++ ts) (hb : follow child ts a = some b)
    (hn : bound ≤ n + rank a) : j ≤ (walk child target n a).length := by
  induction j generalizing a k n ts with
  | zero => exact zero_le _
  | succ j ih =>
    -- the first label to follow is the next one generated
    have hsplit : ∀ i, ∃ us, decode next (k + 1 + i) = decode next (k + 1) ++ us := by
      intro i
      induction i with
      | zero => exact ⟨[], (append_nil _).symm⟩
      | succ i ih =>
        obtain ⟨us, hus⟩ := ih
        exact ⟨us ++ [next (decode next (k + 1 + i))], by
          rw [← Nat.add_assoc, decode, hus, append_assoc]⟩
    obtain ⟨us, hus⟩ := hsplit j
    have hts' : ts = next (decode next k) :: us := by
      rw [show k + (j + 1) = k + 1 + j by omega, hus, decode, append_assoc] at hts
      exact (append_cancel_left hts).symm
    rw [hts', ← hk, ← htarget ha] at hb
    obtain ⟨c, hc, hb⟩ := Option.bind_eq_some_iff.1 hb
    have hlt := hrank.lt hc
    have hle := hrank.le hc
    have hpc : path c = decode next (k + 1) := by rw [hpath hc, htarget ha, hk, decode]
    obtain ⟨n, rfl⟩ : ∃ n', n = n' + 1 := ⟨n - 1, by omega⟩
    rw [walk_succ_of_some hc, length_cons]
    have := ih (hstep ha hc) hpc hus hb (n := n) (by omega)
    omega

end

/-! ### The last of several rows -/

/-- The last of the rows `1, …, n` that satisfies a condition. -/
def lastRow (q : ℕ → Bool) : ℕ → Option ℕ
  | 0 => none
  | n + 1 => if q (n + 1) then some (n + 1) else lastRow q n

variable {q q' : ℕ → Bool} {r : ℕ}

theorem lastRow_eq_some (h : lastRow q n = some r) : 1 ≤ r ∧ r ≤ n ∧ q r = true := by
  induction n with
  | zero => exact nomatch h
  | succ n ih =>
    rw [lastRow] at h
    split_ifs at h with hq
    · cases h
      exact ⟨succ_pos n, le_rfl, hq⟩
    · obtain ⟨h1, hle, hr⟩ := ih h
      exact ⟨h1, hle.trans (le_succ n), hr⟩

/-- The only row that satisfies the condition is the last one. -/
theorem lastRow_eq_of_unique (h1 : 1 ≤ r) (hr : r ≤ n) (hq : q r = true)
    (huniq : ∀ r', 1 ≤ r' → r' ≤ n → q r' = true → r' = r) : lastRow q n = some r := by
  induction n with
  | zero => omega
  | succ n ih =>
    rw [lastRow]
    split_ifs with hlast
    · rw [huniq (n + 1) (by omega) le_rfl hlast]
    · have hne : r ≠ n + 1 := fun heq ↦ hlast (heq ▸ hq)
      exact ih (by omega) fun r' h1' hr' ↦ huniq r' h1' (by omega)

theorem lastRow_congr (h : ∀ r, 1 ≤ r → r ≤ n → q r = q' r) : lastRow q n = lastRow q' n := by
  induction n with
  | zero => rfl
  | succ n ih =>
    rw [lastRow, lastRow, h (n + 1) (by omega) le_rfl, ih fun r h1 hr ↦ h r h1 (by omega)]

/-- Rows that do not satisfy the condition may be left out at the end. -/
theorem lastRow_eq_of_le (hmn : m ≤ n) (h : ∀ r, m < r → r ≤ n → q r = false) :
    lastRow q n = lastRow q m := by
  induction n with
  | zero => rw [le_zero.1 hmn]
  | succ n ih =>
    rcases eq_or_lt_of_le hmn with rfl | hlt
    · rfl
    · rw [lastRow, h (n + 1) hlt le_rfl, if_neg Bool.false_ne_true,
        ih (by omega) fun r hr hle ↦ h r hr (by omega)]

/-- **The maximum over masked rows** is the last row, or `0` if there is none. -/
theorem foldl_max_eq_lastRow (hzero : q 0 = false) :
    ((List.range (n + 1)).map fun i ↦ if q i then i else 0).foldl max 0 = (lastRow q n).getD 0 := by
  induction n with
  | zero => simp [lastRow, hzero]
  | succ n ih =>
    rw [range_succ, map_append, foldl_append, ih, lastRow]
    rcases hq : q (n + 1) with - | -
    · simp [hq]
    · have hle : (lastRow q n).getD 0 ≤ n := by
        rcases hlast : lastRow q n with - | r
        · exact zero_le _
        · exact (lastRow_eq_some hlast).2.1
      simp only [hq, map_cons, map_nil, foldl_cons, foldl_nil, if_true, Option.getD_some]
      exact max_eq_right (hle.trans (le_succ n))

end Descent
