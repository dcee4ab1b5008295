import Mathlib.Data.List.Basic

/-!
# Chained hashes

A chained hash folds a sequence of inputs into a sequence of digests: each digest is a function of
the digest before it and of one input. `hashChain f p xs` is that sequence, from the seed `p`.

Two facts carry every use. A chain **splits** at any point (`hashChain_append`): the tail of the
chain is the chain of the tail, seeded with the last digest of the front. And, for an injective
step, a chain **commits** to its inputs (`getElem?_hashChain_eq_iff`): two chains from one seed
agree at index `i` exactly when they agree on every input up to `i`. Nothing is asked of the seed:
the comparison is at one index, so the two chains reach their common seed after the same number of
steps.
-/

namespace HashChain

open Function List Nat

variable {P X : Type*}

/-- The digests of a chain: each input is hashed together with the digest before it. -/
def hashChain (f : P → X → P) : P → List X → List P
  | _, [] => []
  | p, x :: xs => f p x :: hashChain f (f p x) xs

/-- The digest that the next input is chained to. -/
def lastDigest (f : P → X → P) : P → List X → P
  | p, [] => p
  | p, x :: xs => lastDigest f (f p x) xs

variable {f : P → X → P} {p : P} {xs ys : List X} {i : ℕ}

@[simp] theorem hashChain_nil : hashChain f p [] = [] := rfl

@[simp] theorem hashChain_cons (x : X) :
    hashChain f p (x :: xs) = f p x :: hashChain f (f p x) xs := rfl

@[simp] theorem length_hashChain : (hashChain f p xs).length = xs.length := by
  induction xs generalizing p with
  | nil => rfl
  | cons x xs ih => simp [ih]

/-- **Splitting.** -/
theorem hashChain_append :
    hashChain f p (xs ++ ys) = hashChain f p xs ++ hashChain f (lastDigest f p xs) ys := by
  induction xs generalizing p with
  | nil => rfl
  | cons x xs ih => simp [lastDigest, ih]

/-- The digest a chain continues from is its last one, or the seed. -/
theorem getLast?_hashChain_getD : (hashChain f p xs).getLast?.getD p = lastDigest f p xs := by
  induction xs generalizing p with
  | nil => rfl
  | cons x xs ih =>
    rw [hashChain_cons, getLast?_cons, lastDigest, ← ih]
    rfl

/-- **Commitment.** For an injective step, two chains from one seed carry the same digest at an
index exactly when their inputs agree up to that index. -/
theorem getElem?_hashChain_eq_iff (hf : Injective2 f) (hx : i < xs.length) (hy : i < ys.length) :
    (hashChain f p xs)[i]? = (hashChain f p ys)[i]? ↔ xs.take (i + 1) = ys.take (i + 1) := by
  -- The digest at `i` decides the seed as well, so the induction carries two seeds.
  suffices h : ∀ {p q : P} {xs ys : List X} {i : ℕ}, i < xs.length → i < ys.length →
      ((hashChain f p xs)[i]? = (hashChain f q ys)[i]? ↔
        p = q ∧ xs.take (i + 1) = ys.take (i + 1)) by
    simpa using h (p := p) (q := p) hx hy
  intro p q xs
  induction xs generalizing p q with
  | nil => intro ys i hx; exact absurd hx (not_lt_zero i)
  | cons x xs ih =>
    rintro (- | ⟨y, ys⟩) i hx hy
    · exact absurd hy (not_lt_zero i)
    rcases i with - | i
    · simp [hf.eq_iff]
    · have hrec := ih (p := f p x) (q := f q y) (lt_of_succ_lt_succ hx)
        (lt_of_succ_lt_succ hy)
      simp only [hashChain_cons, getElem?_cons_succ, take_succ_cons, hrec, hf.eq_iff, cons.injEq]
      tauto

/-- Two chains from one seed are equal exactly when their inputs are. -/
theorem hashChain_inj (hf : Injective2 f) : hashChain f p xs = hashChain f p ys ↔ xs = ys := by
  refine ⟨fun h ↦ ?_, fun h ↦ h ▸ rfl⟩
  have hlen : xs.length = ys.length := by
    simpa using congrArg length h
  rcases Nat.eq_zero_or_pos xs.length with h0 | h0
  · have hx : xs = [] := length_eq_zero_iff.1 h0
    have hy : ys = [] := length_eq_zero_iff.1 (hlen ▸ h0)
    rw [hx, hy]
  · have hlast : xs.take (xs.length - 1 + 1) = ys.take (xs.length - 1 + 1) :=
      (getElem?_hashChain_eq_iff hf (by omega) (by omega)).1 (by rw [h])
    rwa [Nat.sub_add_cancel h0, take_length, hlen, take_length] at hlast

end HashChain
