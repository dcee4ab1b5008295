import Mathlib.Data.Option.Basic

/-!
# Partial automata with terminal states

A deterministic automaton with a partial transition function. Some states are terminal: what comes
after one of them is not read. `run` reads a word, `accepted` is the part of a word that is read
before the automaton refuses a letter or terminates.
-/

/-- A partial deterministic automaton. -/
structure Automaton (Q T : Type) where
  next : Q → T → Option Q
  terminated : Q → Bool

namespace Automaton

variable {Q T : Type} {A : Automaton Q T} {q : Q} {t : T} {ts us : List T}

/-- The state after a word; letters after termination are ignored. -/
def run (A : Automaton Q T) : Q → List T → Option Q
  | q, [] => some q
  | q, t :: ts => if A.terminated q then some q else (A.next q t).bind fun q' ↦ run A q' ts

/-- The first part of a word that the automaton reads, up to and including the letter with which it
terminates. -/
def accepted (A : Automaton Q T) : Q → List T → List T
  | _, [] => []
  | q, t :: ts =>
    if A.terminated q then []
    else
      match A.next q t with
      | none => []
      | some q' => t :: accepted A q' ts

@[simp] theorem run_nil : A.run q [] = some q := rfl

theorem run_of_terminated (h : A.terminated q = true) (ts : List T) : A.run q ts = some q := by
  cases ts with
  | nil => rfl
  | cons t ts => rw [run, if_pos h]

theorem run_cons (h : A.terminated q = false) {q' : Q} (ht : A.next q t = some q') :
    A.run q (t :: ts) = A.run q' ts := by
  rw [run, h, ht]
  rfl

/-- Reading a word in two parts. -/
theorem run_append : A.run q (ts ++ us) = (A.run q ts).bind fun q' ↦ A.run q' us := by
  induction ts generalizing q with
  | nil => rfl
  | cons t ts ih =>
    rw [List.cons_append, run, run]
    by_cases hq : A.terminated q = true
    · rw [if_pos hq, if_pos hq, Option.bind_some, run_of_terminated hq]
    · rw [if_neg hq, if_neg hq]
      rcases A.next q t with - | q'
      · rfl
      · exact ih

/-- A first part of a word that is read is read. -/
theorem isSome_run_of_prefix (h : (A.run q us).isSome = true) (hts : ts <+: us) :
    (A.run q ts).isSome = true := by
  obtain ⟨vs, rfl⟩ := hts
  rw [run_append] at h
  rcases hrun : A.run q ts with - | q'
  · rw [hrun] at h
    cases h
  · rfl

/-- A single letter. -/
theorem isSome_run_singleton :
    (A.run q [t]).isSome = true ↔ A.terminated q = true ∨ (A.next q t).isSome = true := by
  rw [run]
  by_cases hq : A.terminated q = true
  · simp [hq]
  · rw [if_neg hq, or_iff_right hq]
    rcases A.next q t with - | q' <;> simp

end Automaton
