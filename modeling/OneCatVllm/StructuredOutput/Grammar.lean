import Mathlib.Data.Int.Notation
import Mathlib.Data.Nat.Notation
import Mathlib.Tactic.SplitIfs
import OneCatVllm.Lib.Automaton

/-!
# Grammars of structured output

The grammar of a request, as the backends implement it: an automaton, its current state, and the
states it can be rolled back to. Tokens after termination are accepted without being read.
-/

namespace OneCatVllm

/-- A grammar and its states, the current one first. -/
structure Grammar (Q : Type) where
  automaton : Automaton Q ℤ
  current : Q
  past : List Q

/-- A row of the bitmask: the tokens that it allows. -/
abbrev MaskRow := ℤ → Bool

namespace Grammar

variable {Q : Type} (g : Grammar Q)

def isTerminated : Bool := g.automaton.terminated g.current

/-- `accept_tokens`: whether all tokens were accepted, and the grammar. -/
def acceptTokens (g : Grammar Q) : List ℤ → Bool × Grammar Q
  | [] => (true, g)
  | t :: ts =>
    if g.isTerminated then (true, g)
    else
      match g.automaton.next g.current t with
      | none => (false, g)
      | some q => acceptTokens { g with current := q, past := g.current :: g.past } ts

/-- `rollback`; `none` when there are not so many states to go back to. -/
def rollback (n : ℕ) : Option (Grammar Q) :=
  match (g.current :: g.past).drop n with
  | [] => none
  | q :: qs => some { g with current := q, past := qs }

/-- `validate_tokens`: the first tokens that would be accepted, up to termination. -/
def validateTokens (tokens : List ℤ) : List ℤ := g.automaton.accepted g.current tokens

/-- `fill_bitmask`. -/
def fillBitmask : MaskRow := fun t ↦ (g.automaton.next g.current t).isSome

/-- One row of `_fill_bitmasks`: the grammar's, or the full mask. -/
def maskRow (applyBitmask : Bool) : MaskRow :=
  if applyBitmask && !g.isTerminated then g.fillBitmask else fun _ ↦ true

/-! ### What the operations do to the state -/

variable {g} {t : ℤ}

/-- The grammar after one more token. -/
def push (g : Grammar Q) (q : Q) : Grammar Q := { g with current := q, past := g.current :: g.past }

theorem acceptTokens_fst (ts : List ℤ) :
    (g.acceptTokens ts).1 = (g.automaton.run g.current ts).isSome := by
  induction ts generalizing g with
  | nil => rfl
  | cons t ts ih =>
    rw [acceptTokens, Automaton.run]
    by_cases hg : g.automaton.terminated g.current = true
    · rw [if_pos hg, isTerminated, if_pos hg]
      rfl
    · rw [if_neg hg, isTerminated, if_neg hg]
      rcases g.automaton.next g.current t with - | q
      · rfl
      · exact ih

theorem acceptTokens_singleton {q : Q} (hg : g.isTerminated = false)
    (hq : g.automaton.next g.current t = some q) : g.acceptTokens [t] = (true, g.push q) := by
  rw [acceptTokens, if_neg (by simp [hg]), hq]
  rfl

/-- A token that a row allows is read, or comes after termination. -/
theorem isSome_run_of_maskRow (h : g.maskRow true t = true) :
    (g.automaton.run g.current [t]).isSome = true := by
  rw [Automaton.isSome_run_singleton]
  by_cases hg : g.isTerminated = true
  · exact .inl hg
  · rw [maskRow, if_pos (by simp [hg])] at h
    exact .inr h

end Grammar

end OneCatVllm
