import Mathlib.Data.Option.Basic

/-!
# Partial transition functions

A system is given by a function `step : S → L → Option S`: a label performs a transition, or is not
possible in a state. `Run step ok s₀` is the set of states reached from `s₀` by transitions that
each satisfy a condition `ok` in the state they start from; a property of runs is derived from its
preservation by one transition (`Run.invariant`). `exec` performs a list of labels.
-/

namespace Transition

open List Option

variable {S L : Type*} {step : S → L → Option S} {ok : S → L → Prop} {s₀ s s' : S} {ls : List L}
  {P : S → Prop}

/-- The states reached from `s₀` by transitions that satisfy `ok`. -/
inductive Run (step : S → L → Option S) (ok : S → L → Prop) (s₀ : S) : S → Prop
  | start : Run step ok s₀ s₀
  | next {s s' : S} {l : L} : Run step ok s₀ s → ok s l → step s l = some s' → Run step ok s₀ s'

/-- **Invariants.** -/
theorem Run.invariant (h : Run step ok s₀ s) (hstart : P s₀)
    (hstep : ∀ {s s' : S} {l : L}, P s → ok s l → step s l = some s' → P s') : P s := by
  induction h with
  | start => exact hstart
  | next _ hok hs ih => exact hstep ih hok hs

/-- Perform a list of transitions. -/
def exec (step : S → L → Option S) : List L → S → Option S
  | [], s => some s
  | l :: ls, s => (step s l).bind (exec step ls)

/-- **Invariants of a list of transitions**, each of which is one of the list. -/
theorem exec_invariant (h : exec step ls s = some s') (hs : P s)
    (hstep : ∀ {s s' : S} {l : L}, l ∈ ls → P s → step s l = some s' → P s') : P s' := by
  induction ls generalizing s with
  | nil => exact some.inj h ▸ hs
  | cons l ls ih =>
    obtain ⟨t, ht, hrest⟩ := bind_eq_some_iff.1 h
    exact ih hrest (hstep mem_cons_self hs ht)
      fun hl ↦ hstep (mem_cons_of_mem _ hl)

/-- A list of transitions that satisfy `ok` one after the other. -/
def Allowed (step : S → L → Option S) (ok : S → L → Prop) : List L → S → Prop
  | [], _ => True
  | l :: ls, s => ok s l ∧ ∀ s' ∈ step s l, Allowed step ok ls s'

instance decidableAllowed [∀ s l, Decidable (ok s l)] :
    ∀ (ls : List L) (s : S), Decidable (Allowed step ok ls s)
  | [], _ => .isTrue trivial
  | _ :: ls, _ =>
    have : DecidablePred (Allowed step ok ls) := decidableAllowed ls
    inferInstanceAs (Decidable (_ ∧ ∀ _ ∈ _, _))

/-- **Simulation.** When every allowed transition is matched by one with the same label, so is every
list of allowed transitions. -/
theorem exec_simulation {T : Type*} {step' : T → L → Option T} {R : S → T → Prop} {t : T}
    (hsim : ∀ {s t l s'}, R s t → ok s l → step s l = some s' →
      ∃ t', step' t l = some t' ∧ R s' t') (hR : R s t) (hok : Allowed step ok ls s)
    (h : exec step ls s = some s') : ∃ t', exec step' ls t = some t' ∧ R s' t' := by
  induction ls generalizing s t with
  | nil => exact ⟨t, rfl, some.inj h ▸ hR⟩
  | cons l ls ih =>
    obtain ⟨s₁, hs₁, hrest⟩ := bind_eq_some_iff.1 h
    obtain ⟨t₁, ht₁, hR₁⟩ := hsim hR hok.1 hs₁
    obtain ⟨t', ht', hR'⟩ := ih hR₁ (hok.2 s₁ hs₁) hrest
    exact ⟨t', bind_eq_some_iff.2 ⟨t₁, ht₁, ht'⟩, hR'⟩

/-- What a list of allowed transitions reaches is reached by a run. -/
theorem Run.of_exec (hs : Run step ok s₀ s) (hok : Allowed step ok ls s)
    (h : exec step ls s = some s') : Run step ok s₀ s' := by
  induction ls generalizing s with
  | nil => exact some.inj h ▸ hs
  | cons l ls ih =>
    obtain ⟨t, ht, hrest⟩ := bind_eq_some_iff.1 h
    exact ih (.next hs hok.1 ht) (hok.2 t ht) hrest

/-! ### A relation that holds throughout -/

variable {T : Type*} {step' : T → L → Option T} {I P : S → T → Prop} {t t' : T}

/-- Both systems perform every first part of the list, and reach related states. -/
def Throughout (step : S → L → Option S) (step' : T → L → Option T) (P : S → T → Prop) (ls : List L)
    (s : S) (t : T) : Prop :=
  ∀ pre, pre <+: ls → ∃ s' t', exec step pre s = some s' ∧ exec step' pre t = some t' ∧ P s' t'

theorem throughout_cons_iff {l : L} (hs : step s l = some s') (ht : step' t l = some t') :
    Throughout step step' P (l :: ls) s t ↔ P s t ∧ Throughout step step' P ls s' t' := by
  have hexec : ∀ pre, exec step (l :: pre) s = exec step pre s' ∧
      exec step' (l :: pre) t = exec step' pre t' := by
    intro pre
    rw [exec, hs, exec, ht]
    exact ⟨rfl, rfl⟩
  constructor
  · intro h
    refine ⟨?_, fun pre hpre ↦ ?_⟩
    · obtain ⟨s₀, t₀, hs₀, ht₀, hP⟩ := h [] List.nil_prefix
      cases hs₀
      cases ht₀
      exact hP
    · have hcons := h (l :: pre) ((prefix_cons_inj l).2 hpre)
      rw [(hexec pre).1, (hexec pre).2] at hcons
      exact hcons
  · rintro ⟨hP, h⟩ pre hpre
    rcases prefix_cons_iff.1 hpre with rfl | ⟨pre', rfl, hpre'⟩
    · exact ⟨s, t, rfl, rfl, hP⟩
    · rw [(hexec pre').1, (hexec pre').2]
      exact h pre' hpre'

/-- **A relation holds throughout** exactly when every transition satisfies the condition under
which it keeps the relation: `I` is kept by every transition, and with it a transition keeps `P` if
and only if it satisfies `ok`. -/
theorem throughout_iff (hI : I s t) (hP : P s t) (hls : (exec step' ls t).isSome = true)
    (hstep : ∀ {s t l t'}, I s t → P s t → step' t l = some t' →
      ∃ s', step s l = some s' ∧ I s' t' ∧ (P s' t' ↔ ok s l)) :
    Throughout step step' P ls s t ↔ Allowed step ok ls s := by
  induction ls generalizing s t with
  | nil =>
    refine ⟨fun _ ↦ trivial, fun _ pre hpre ↦ ?_⟩
    obtain rfl := prefix_nil.1 hpre
    exact ⟨s, t, rfl, rfl, hP⟩
  | cons l ls ih =>
    obtain ⟨t', ht'⟩ : ∃ t', step' t l = some t' := by
      rcases ht : step' t l with - | t'
      · rw [exec, ht] at hls
        cases hls
      · exact ⟨t', rfl⟩
    obtain ⟨s', hs', hI', hiff⟩ := hstep hI hP ht'
    have hrest : (exec step' ls t').isSome = true := by
      rw [exec, ht'] at hls
      exact hls
    rw [throughout_cons_iff hs' ht', Allowed, hs']
    constructor
    · rintro ⟨-, hthrough⟩
      obtain ⟨s₀, t₀, hs₀, ht₀, hP'⟩ := hthrough [] List.nil_prefix
      cases hs₀
      cases ht₀
      refine ⟨hiff.1 hP', fun s₁ hs₁ ↦ ?_⟩
      cases hs₁
      exact (ih hI' hP' hrest).1 hthrough
    · rintro ⟨hok, hallowed⟩
      have hP' := hiff.2 hok
      exact ⟨hP, (ih hI' hP' hrest).2 (hallowed s' rfl)⟩

end Transition
