import Mathlib.Data.Nat.Notation

/-!
# Computations that may fail

Inversion of a successful computation in `Except`: a successful sequence is two successful
computations, and a successful loop keeps what each of its iterations keeps.
-/

namespace Fallible

open Except List

universe u v

variable {ε : Type u} {α β : Type v} {x : Except ε α} {a : α} {b : β}

/-- **A sequence succeeds** when both its parts do. -/
theorem bind_eq_ok {f : α → Except ε β} : x >>= f = .ok b ↔ ∃ a, x = .ok a ∧ f a = .ok b := by
  cases x with
  | error e => exact ⟨nofun, nofun⟩
  | ok a =>
    refine ⟨fun h ↦ ⟨a, rfl, h⟩, ?_⟩
    rintro ⟨a', ha, h⟩
    cases ha
    exact h

theorem pure_eq_ok {a b : α} : (pure a : Except ε α) = .ok b ↔ a = b :=
  ⟨fun h ↦ ok.inj h, fun h ↦ congrArg ok h⟩

theorem map_eq_ok {f : α → β} : x.map f = .ok b ↔ ∃ a, x = .ok a ∧ f a = b := by
  cases x with
  | error e => exact ⟨nofun, nofun⟩
  | ok a => exact ⟨fun h ↦ ⟨a, rfl, ok.inj h⟩, fun ⟨_, rfl, h⟩ ↦ congrArg ok h⟩

theorem toOption_eq_some : x.toOption = some a ↔ x = .ok a := by
  cases x with
  | error e => exact ⟨nofun, nofun⟩
  | ok b =>
    exact ⟨fun h ↦ congrArg ok (Option.some.inj h),
      fun h ↦ congrArg some (ok.inj h)⟩

variable {σ : Type v} {f : σ → α → Except ε σ} {l : List α} {s s' : σ}

theorem foldlM_cons_eq_ok :
    (a :: l).foldlM f s = .ok s' ↔ ∃ t, f s a = .ok t ∧ l.foldlM f t = .ok s' := by
  rw [foldlM_cons, bind_eq_ok]

/-- **Loop invariants.** -/
theorem foldlM_invariant {P : σ → Prop} (h : l.foldlM f s = .ok s') (hs : P s)
    (hstep : ∀ {s a s'}, a ∈ l → P s → f s a = .ok s' → P s') : P s' := by
  induction l generalizing s with
  | nil => exact pure_eq_ok.1 h ▸ hs
  | cons a l ih =>
    obtain ⟨t, ht, hrest⟩ := foldlM_cons_eq_ok.1 h
    exact ih hrest (hstep mem_cons_self hs ht)
      fun hmem ↦ hstep (mem_cons_of_mem a hmem)

/-- Every iteration of a successful loop succeeds. -/
theorem exists_of_foldlM_eq_ok (h : l.foldlM f s = .ok s') (ha : a ∈ l) :
    ∃ t t', f t a = .ok t' := by
  induction l generalizing s with
  | nil => cases ha
  | cons b l ih =>
    obtain ⟨t, ht, hrest⟩ := foldlM_cons_eq_ok.1 h
    rcases mem_cons.1 ha with rfl | ha
    · exact ⟨s, t, ht⟩
    · exact ih hrest ha

/-- A loop on images of states follows the loop on the states. -/
theorem foldlM_map {τ : Type v} {f' : τ → α → Except ε τ} {g : σ → τ}
    (h : ∀ s a, f' (g s) a = (f s a).map g) : l.foldlM f' (g s) = (l.foldlM f s).map g := by
  induction l generalizing s with
  | nil => rfl
  | cons a l ih =>
    rw [foldlM_cons, foldlM_cons, h]
    cases f s a with
    | error e => rfl
    | ok t => exact ih

/-! ### Two computations side by side -/

/-- **Related outcomes**: both computations fail alike, or both succeed with related results. -/
inductive Related (R : α → β → Prop) : Except ε α → Except ε β → Prop
  | ok {a : α} {b : β} (h : R a b) : Related R (.ok a) (.ok b)
  | error (e : ε) : Related R (.error e) (.error e)

namespace Related

variable {R : α → β → Prop} {y : Except ε β}

section

variable (h : Related R x y)

include h

theorem exists_ok (hx : x = .ok a) : ∃ b, y = .ok b ∧ R a b := by
  cases h with
  | ok hab =>
    cases hx
    exact ⟨_, rfl, hab⟩
  | error e => cases hx

theorem exists_ok_left (hy : y = .ok b) : ∃ a, x = .ok a ∧ R a b := by
  cases h with
  | ok hab =>
    cases hy
    exact ⟨_, rfl, hab⟩
  | error e => cases hy

theorem error_iff {e : ε} : x = .error e ↔ y = .error e := by
  cases h with
  | ok hab => exact ⟨nofun, nofun⟩
  | error e' => exact ⟨fun h ↦ congrArg Except.error (error.inj h),
      fun h ↦ congrArg Except.error (error.inj h)⟩

/-- Sequences of related computations are related. -/
theorem bind {γ δ : Type v} {S : γ → δ → Prop} {f : α → Except ε γ} {g : β → Except ε δ}
    (hfg : ∀ {a b}, R a b → Related S (f a) (g b)) : Related S (x >>= f) (y >>= g) := by
  cases h with
  | ok hab => exact hfg hab
  | error e => exact .error e

end

end Related

/-! ### Descending loops -/

/-- **Repeat a pass** that may lower a bound, until a pass does not lower it; with `once`, after the
first pass. -/
def descend (pass : ℕ → σ → Except ε (ℕ × σ)) (once : Bool) (n : ℕ) (s : σ) : Except ε (ℕ × σ) :=
  match pass n s with
  | .error e => .error e
  | .ok (m, s') =>
    if n ≤ m then .ok (n, s')
    else if once then .ok (m, s')
    else descend pass once m s'
termination_by n

section Descend

variable {pass : ℕ → σ → Except ε (ℕ × σ)} {once : Bool} {n m : ℕ}

section

variable (h : pass n s = .ok (m, s'))

include h

theorem descend_of_le (hle : n ≤ m) : descend pass once n s = .ok (n, s') := by
  rw [descend, h]
  exact if_pos hle

theorem descend_once (hlt : m < n) : descend pass true n s = .ok (m, s') := by
  rw [descend, h]
  exact if_neg (Nat.not_le_of_lt hlt)

theorem descend_of_lt (hlt : m < n) : descend pass false n s = descend pass false m s' := by
  rw [descend, h]
  exact if_neg (Nat.not_le_of_lt hlt)

end

/-- **Descending loops end**, with what the last pass gives: `I` is kept by passes that lower the
bound. -/
theorem descend_invariant {I Q : ℕ → σ → Prop} (hI : I n s)
    (hpass : ∀ {n s}, I n s → ∃ m s', pass n s = .ok (m, s') ∧
      (n ≤ m → Q n s') ∧ (m < n → I m s')) :
    ∃ m s', descend pass false n s = .ok (m, s') ∧ m ≤ n ∧ Q m s' := by
  induction n using Nat.strongRecOn generalizing s with
  | _ n ih =>
    obtain ⟨m, s', hm, hstop, hgo⟩ := hpass hI
    rcases Nat.lt_or_ge m n with hlt | hle
    · obtain ⟨k, t, hk, hle, hQ⟩ := ih m hlt (hgo hlt)
      exact ⟨k, t, descend_of_lt hm hlt ▸ hk, Nat.le_trans hle (Nat.le_of_lt hlt), hQ⟩
    · exact ⟨n, s', descend_of_le hm hle, Nat.le_refl n, hstop hle⟩

end Descend

end Fallible
