import Mathlib.Data.List.Infix
import Mathlib.Data.Nat.Find

/-!
# Parsers over input that is still arriving

A parser reads a start of its input and may find that the input ends before it can decide. Besides
success it therefore has three ways to stop: `incomplete` (more input is needed), `backtrack` (this
is not it, an alternative may be) and `cut` (this is wrong, and no alternative is tried).

What makes such a parser fit for a stream is that it is **stable**: whatever it says about the
input it has, other than `incomplete`, it still says when more input follows (`Stable`). The
primitive parsers here are stable and the combinators keep it, so that a grammar built from them is
stable by its form.

A text is read up to a literal by looking for the first index where the literal **may start**
(`FirstStart`): where it is found, or where the input ends before that can be told. With more input
that index can only grow (`FirstStart.le_of_append`).
-/

namespace Partial

open List

variable {τ α β : Type*} {x rest : List τ} {b : β}

/-- What a parser says about the input it has. -/
inductive Res (τ α : Type*)
  | incomplete
  | backtrack
  | cut
  | ok (value : α) (rest : List τ)
  deriving DecidableEq

namespace Res

/-- Go on with the value and the rest. -/
def andThen : Res τ α → (α → List τ → Res τ β) → Res τ β
  | incomplete, _ => incomplete
  | backtrack, _ => backtrack
  | cut, _ => cut
  | ok a rest, f => f a rest

/-- The same answer with more input after the rest. -/
def append (y : List τ) : Res τ α → Res τ α
  | ok a rest => ok a (rest ++ y)
  | r => r

end Res

/-! ### Parsers and combinators -/

/-- The literal `lit`. -/
def literal [DecidableEq τ] (lit x : List τ) : Res τ Unit :=
  if lit <+: x then .ok () (x.drop lit.length)
  else if x <+: lit then .incomplete
  else .backtrack

/-- All items from the front that satisfy `p`; where they end is known only from an item that does
not. -/
def skipWhile (p : τ → Bool) (x : List τ) : Res τ Unit :=
  match x.dropWhile p with
  | [] => .incomplete
  | c :: rest => .ok () (c :: rest)

/-- One parser after the other. -/
def seq (p : List τ → Res τ α) (q : α → List τ → Res τ β) (x : List τ) : Res τ β :=
  (p x).andThen q

/-- Several parsers without a value, one after the other. -/
def skips : List (List τ → Res τ Unit) → List τ → Res τ Unit
  | [], x => .ok () x
  | p :: ps, x => (p x).andThen fun _ ↦ skips ps

/-- A parser's value replaced by another one. -/
def map (f : α → β) (p : List τ → Res τ α) : List τ → Res τ β :=
  seq p fun a rest ↦ .ok (f a) rest

/-- The second parser where the first one backtracks. -/
def orElse (p q : List τ → Res τ α) (x : List τ) : Res τ α :=
  match p x with
  | .backtrack => q x
  | r => r

variable {p : List τ → Res τ α} {q : α → List τ → Res τ β}

theorem seq_eq_ok :
    seq p q x = .ok b rest ↔ ∃ a left, p x = .ok a left ∧ q a left = .ok b rest := by
  unfold seq
  rcases p x with - | - | - | ⟨a, left⟩ <;> simp [Res.andThen]

theorem map_eq_ok {f : α → β} : map f p x = .ok b rest ↔ ∃ a, p x = .ok a rest ∧ f a = b := by
  rw [map, seq_eq_ok]
  constructor
  · rintro ⟨a, left, hp, hf⟩
    cases hf
    exact ⟨a, hp, rfl⟩
  · rintro ⟨a, hp, rfl⟩
    exact ⟨a, rest, hp, rfl⟩

/-! ### Stability -/

/-- **An answer stands when more input follows.** -/
def Stable (p : List τ → Res τ α) : Prop :=
  ∀ x y, p x ≠ .incomplete → p (x ++ y) = (p x).append y

theorem stable_literal [DecidableEq τ] (lit : List τ) : Stable (literal lit) := by
  intro x y hx
  unfold literal at hx ⊢
  by_cases hlit : lit <+: x
  · rw [if_pos hlit, if_pos (hlit.trans (prefix_append x y))]
    rw [drop_append_of_le_length hlit.length_le]
    rfl
  · rw [if_neg hlit] at hx ⊢
    by_cases hpre : x <+: lit
    · rw [if_pos hpre] at hx
      exact absurd rfl hx
    · -- neither is a start of the other, so they differ inside `x`
      have hlit' : ¬ lit <+: x ++ y := fun h ↦ by
        obtain h | h := prefix_or_prefix_of_prefix h (prefix_append x y)
        · exact hlit h
        · exact hpre h
      have hpre' : ¬ x ++ y <+: lit := fun h ↦ hpre ((prefix_append x y).trans h)
      rw [if_neg hlit', if_neg hpre', if_neg hpre]
      rfl

theorem stable_skipWhile (p : τ → Bool) : Stable (skipWhile p) := by
  intro x y hx
  induction x with
  | nil => exact absurd rfl hx
  | cons c x ih =>
    unfold skipWhile at hx ih ⊢
    by_cases hc : p c = true
    · rw [cons_append, dropWhile_cons_of_pos hc, dropWhile_cons_of_pos hc]
      rw [dropWhile_cons_of_pos hc] at hx
      exact ih hx
    · rw [cons_append, dropWhile_cons_of_neg hc, dropWhile_cons_of_neg hc]
      rfl

theorem Res.andThen_append {r : Res τ α} {f : α → List τ → Res τ β} {y : List τ}
    (hf : ∀ a rest, f a rest ≠ .incomplete → f a (rest ++ y) = (f a rest).append y)
    (h : r.andThen f ≠ .incomplete) : (r.append y).andThen f = (r.andThen f).append y := by
  cases r with
  | incomplete => exact absurd rfl h
  | backtrack => rfl
  | cut => rfl
  | ok a rest => exact hf a rest h

theorem Stable.seq (hp : Stable p) (hq : ∀ a, Stable (q a)) : Stable (seq p q) := by
  intro x y hx
  have hne : p x ≠ .incomplete := fun h ↦ hx (by unfold Partial.seq; rw [h]; rfl)
  unfold Partial.seq at hx ⊢
  rw [hp x y hne]
  exact Res.andThen_append (fun a rest ↦ hq a rest y) hx

theorem stable_skips {ps : List (List τ → Res τ Unit)} (h : ∀ p ∈ ps, Stable p) :
    Stable (skips ps) := by
  induction ps with
  | nil => exact fun x y _ ↦ rfl
  | cons p ps ih =>
    exact Stable.seq (h p mem_cons_self)
      fun _ ↦ ih fun q hq ↦ h q (mem_cons_of_mem _ hq)

theorem Stable.map (hp : Stable p) (f : α → β) : Stable (map f p) :=
  hp.seq fun _ _ _ _ ↦ rfl

theorem Stable.orElse {q : List τ → Res τ α} (hp : Stable p) (hq : Stable q) :
    Stable (orElse p q) := by
  intro x y hx
  unfold Partial.orElse at hx ⊢
  rcases h : p x with - | - | - | ⟨a, rest⟩
  · rw [h] at hx
    exact absurd rfl hx
  · rw [h] at hx
    rw [hp x y (by rw [h]; nofun), h]
    exact hq x y hx
  · rw [hp x y (by rw [h]; nofun), h]
    rfl
  · rw [hp x y (by rw [h]; nofun), h]
    rfl

/-! ### The first index where a literal may start -/

section

variable [DecidableEq τ] {lit y : List τ} {n m : ℕ}

theorem literal_eq_backtrack_iff : literal lit x = .backtrack ↔ ¬ lit <+: x ∧ ¬ x <+: lit := by
  unfold literal
  split_ifs with hlit hpre <;> simp [*]

/-- `n` is the first index of `x` where `lit` is found or may be found with more input. -/
structure FirstStart (lit x : List τ) (n : ℕ) : Prop where
  le : n ≤ x.length
  mayStart : literal lit (x.drop n) ≠ .backtrack
  least : ∀ i < n, literal lit (x.drop i) = .backtrack

theorem exists_firstStart (lit x : List τ) : ∃ n, FirstStart lit x n := by
  have hend : literal lit (x.drop x.length) ≠ .backtrack := by
    rw [drop_length, ne_eq, literal_eq_backtrack_iff]
    exact fun h ↦ h.2 nil_prefix
  have hex : ∃ n, literal lit (x.drop n) ≠ .backtrack := ⟨_, hend⟩
  refine ⟨Nat.find hex, Nat.find_min' hex hend, Nat.find_spec hex, fun i hi ↦ ?_⟩
  exact not_not.1 (Nat.find_min hex hi)

/-- **More input moves the index to the back only.** -/
theorem FirstStart.le_of_append (h : FirstStart lit x n) (h' : FirstStart lit (x ++ y) m) :
    n ≤ m := by
  by_contra hlt
  push Not at hlt
  have hback := h.least m hlt
  refine h'.mayStart ?_
  rw [drop_append_of_le_length (by have := h.le; omega),
    stable_literal lit _ y (by rw [hback]; nofun), hback]
  rfl

theorem FirstStart.drop (h : FirstStart lit x m) (hn : n ≤ m) :
    FirstStart lit (x.drop n) (m - n) where
  le := by
    have := h.le
    rw [length_drop]
    omega
  mayStart := by
    rw [drop_drop, Nat.add_sub_cancel' hn]
    exact h.mayStart
  least i hi := by
    rw [drop_drop]
    exact h.least _ (by omega)

end

end Partial
