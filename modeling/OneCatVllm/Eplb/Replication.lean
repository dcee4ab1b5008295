import Mathlib.Algebra.BigOperators.Fin
import Mathlib.Algebra.Order.BigOperators.Group.Finset
import Mathlib.Algebra.Order.Field.Basic
import Mathlib.Algebra.Order.Field.Rat

/-!
# Replicating experts

`DefaultEplbPolicy.replicate_experts` of `vllm/distributed/eplb/policy/default.py`, on one row of
loads: every logical expert gets a physical one, and each further physical expert goes to the first
logical expert whose load per replica is the largest. The rows of a load matrix do not influence
each other. Loads are exact numbers here.

What makes the greedy choice optimal is a property of the counts alone (`Replicated.greedy`): when
an expert got its last replica no expert had a larger load per replica, and loads per replica only
fall. A competitor with other counts has fewer replicas of some expert, so there its load is at
least that of any expert here.
-/

namespace OneCatVllm.Eplb

open Finset Function List Nat

variable {numLog numPhy i : ℕ} {w : Fin numLog → ℚ}

/-- `phy2log` and `logcnt`. -/
structure Replicas (numLog : ℕ) where
  phy2log : List ℕ
  logcnt : Fin numLog → ℕ

/-- `np.argmax(weight / logcnt)`, which raises when there are no experts. -/
def argmaxLoad (w : Fin numLog → ℚ) (logcnt : Fin numLog → ℕ) : Option (Fin numLog) :=
  (finRange numLog).argmax fun e ↦ w e / logcnt e

/-- Physical expert `i` becomes a replica of `e`. -/
def Replicas.add (s : Replicas numLog) (i : ℕ) (e : Fin numLog) : Replicas numLog where
  phy2log := s.phy2log.set i e
  logcnt := update s.logcnt e (s.logcnt e + 1)

/-- The loop over the `n` physical experts from `i` on. -/
def replicateLoop (w : Fin numLog → ℚ) : ℕ → ℕ → Replicas numLog → Option (Replicas numLog)
  | 0, _, s => some s
  | n + 1, i, s => (argmaxLoad w s.logcnt).bind fun e ↦ replicateLoop w n (i + 1) (s.add i e)

/-- `replicate_experts`, which asserts that no expert is left out. -/
def replicateExperts (w : Fin numLog → ℚ) (numPhy : ℕ) : Option (Replicas numLog) :=
  if numLog ≤ numPhy then
    replicateLoop w (numPhy - numLog) numLog ⟨range numPhy, fun _ ↦ 1⟩
  else none

/-- **The loop invariant**, when the first `i` physical experts have been assigned. -/
structure Replicated (w : Fin numLog → ℚ) (i : ℕ) (s : Replicas numLog) : Prop where
  count : ∀ e, (s.phy2log.take i).count e.val = s.logcnt e
  pos : ∀ e, 0 < s.logcnt e
  sum : ∑ e, s.logcnt e = i
  /-- Before its last replica an expert had a load as large as any has now. -/
  greedy : ∀ e f, 1 < s.logcnt e → w f / s.logcnt f ≤ w e / (s.logcnt e - 1)

theorem Replicated.init (h : numLog ≤ numPhy) :
    Replicated w numLog ⟨List.range numPhy, fun _ ↦ 1⟩ where
  count e := by
    rw [take_range, min_eq_left h]
    exact count_eq_one_of_mem nodup_range (List.mem_range.2 e.isLt)
  pos _ := one_pos
  sum := by simp
  greedy _ _ h := absurd h (lt_irrefl 1)

variable {s : Replicas numLog}

theorem Replicated.add {e : Fin numLog} (hw : ∀ e, 0 ≤ w e)
    (h : Replicated w i s) (hi : i < s.phy2log.length) (he : argmaxLoad w s.logcnt = some e) :
    Replicated w (i + 1) (s.add i e) := by
  have hmax (f : Fin numLog) : w f / s.logcnt f ≤ w e / s.logcnt e :=
    le_of_mem_argmax (f := fun f ↦ w f / s.logcnt f) (mem_finRange f) he
  have hcnt (f : Fin numLog) : (s.add i e).logcnt f = s.logcnt f + if f = e then 1 else 0 := by
    refine (update_apply ..).trans ?_
    split_ifs with hf
    · rw [hf]
    · rfl
  -- loads per replica only fall
  have hfall (f : Fin numLog) : w f / (s.add i e).logcnt f ≤ w f / s.logcnt f := by
    refine div_le_div_of_nonneg_left (hw f) (cast_pos.2 (h.pos f)) (cast_le.2 ?_)
    rw [hcnt]
    exact le_add_right _ _
  refine ⟨fun f ↦ ?_, fun f ↦ ?_, ?_, fun f g hf ↦ (hfall g).trans ?_⟩
  · have htake : (s.add i e).phy2log.take (i + 1) = s.phy2log.take i ++ [e.val] := by
      have hi' : i < (s.phy2log.set i e).length := by rwa [length_set]
      rw [Replicas.add, take_succ_eq_append_getElem hi', take_set_of_le le_rfl, getElem_set_self]
    rw [htake, count_append, h.count, hcnt, count_singleton]
    simp only [beq_iff_eq, Fin.val_inj, eq_comm (a := f)]
  · rw [hcnt]
    exact Nat.add_pos_left (h.pos f) _
  · simp only [hcnt, sum_add_distrib, h.sum, sum_ite_eq', mem_univ, if_true]
  · rw [hcnt] at hf ⊢
    by_cases hfe : f = e
    · subst hfe
      rw [if_pos rfl, cast_add, cast_one, add_sub_cancel_right]
      exact hmax g
    · rw [if_neg hfe] at hf ⊢
      exact h.greedy f g hf

theorem Replicated.run (hw : ∀ e, 0 ≤ w e) {n : ℕ} {t : Replicas numLog} (h : Replicated w i s)
    (hlen : s.phy2log.length = i + n) (ht : replicateLoop w n i s = some t) :
    t.phy2log.length = i + n ∧ Replicated w (i + n) t := by
  induction n generalizing i s with
  | zero =>
    cases ht
    exact ⟨hlen, h⟩
  | succ n ih =>
    obtain ⟨e, he, ht⟩ := Option.bind_eq_some_iff.1 ht
    rw [add_comm n 1, ← add_assoc] at hlen ⊢
    exact ih (h.add hw (by omega) he) (by rw [Replicas.add, length_set, hlen]) ht

theorem isSome_replicateLoop (h : numLog ≠ 0) (n i : ℕ) (s : Replicas numLog) :
    (replicateLoop w n i s).isSome = true := by
  induction n generalizing i s with
  | zero => rfl
  | succ n ih =>
    have hne : argmaxLoad w s.logcnt ≠ none := by
      rw [argmaxLoad, Ne, argmax_eq_none, finRange_eq_nil_iff]
      exact h
    obtain ⟨e, he⟩ := Option.ne_none_iff_exists'.1 hne
    rw [replicateLoop, he]
    exact ih _ _

/-- **Greedy counts are optimal**: whoever gives other counts has fewer replicas of some expert. -/
theorem Replicated.le_of_sum_eq (hw : ∀ e, 0 ≤ w e) (h : Replicated w i s)
    {d : Fin numLog → ℕ} (hd : ∀ e, 0 < d e) (hsum : ∑ e, d e = i) (e : Fin numLog) :
    ∃ f, w e / s.logcnt e ≤ w f / d f := by
  by_cases hle : ∀ f, s.logcnt f ≤ d f
  · have heq := (sum_eq_sum_iff_of_le fun f _ ↦ hle f).1 (h.sum.trans hsum.symm)
    exact ⟨e, by rw [heq e (mem_univ e)]⟩
  · obtain ⟨f, hf⟩ := not_forall.1 hle
    have hlt : d f + 1 ≤ s.logcnt f := not_le.1 hf
    refine ⟨f, (h.greedy f e ((succ_le_succ (hd f)).trans hlt)).trans ?_⟩
    refine div_le_div_of_nonneg_left (hw f) (cast_pos.2 (hd f)) ?_
    rw [le_sub_iff_add_le]
    exact_mod_cast hlt

/-- **`replicate_experts`** returns for every row with experts. The counts are those of the
occurrences, every expert has a replica, and no other counts with the same sum have a smaller
largest load per replica. -/
theorem replicateExperts_optimal (w : Fin numLog → ℚ) (hw : ∀ e, 0 ≤ w e) (numPhy : ℕ)
    (h : numLog ≤ numPhy) :
    (numLog ≠ 0 → (replicateExperts w numPhy).isSome = true) ∧
      ∀ s, replicateExperts w numPhy = some s →
        (s.phy2log.length = numPhy ∧ ∀ e : Fin numLog, s.phy2log.count e.val = s.logcnt e) ∧
        (∀ e, 1 ≤ s.logcnt e) ∧ ∑ e, s.logcnt e = numPhy ∧
        ∀ d : Fin numLog → ℕ, (∀ e, 0 < d e) → ∑ e, d e = numPhy →
          ∀ e, ∃ f, w e / s.logcnt e ≤ w f / d f := by
  rw [replicateExperts, if_pos h]
  refine ⟨fun hne ↦ isSome_replicateLoop hne _ _ _, fun s hs ↦ ?_⟩
  obtain ⟨hlen, hrep⟩ := (Replicated.init h).run hw (by rw [length_range, Nat.add_sub_cancel' h]) hs
  rw [Nat.add_sub_cancel' h] at hlen hrep
  refine ⟨⟨hlen, fun e ↦ ?_⟩, hrep.pos, hrep.sum, fun d hd hsum ↦ hrep.le_of_sum_eq hw hd hsum⟩
  rw [← hrep.count, ← hlen, take_length]

/-- Two experts of which one has three times the load of the other: the third replica is its, and
the other way round is not better. -/
theorem replicateExperts_optimal_three :
    ∃ s, replicateExperts ![1, 3] 3 = some s ∧ s.logcnt = ![1, 2] ∧
      ∀ e, ∃ f, (![1, 3] : Fin 2 → ℚ) e / s.logcnt e ≤ ![1, 3] f / (![2, 1] : Fin 2 → ℕ) f := by
  have h := replicateExperts_optimal ![1, 3] (by decide) 3 (by decide)
  obtain ⟨s, hs⟩ := Option.isSome_iff_exists.1 (h.1 (by decide))
  obtain ⟨-, -, -, hopt⟩ := h.2 s hs
  have hcounts : (replicateExperts (![1, 3] : Fin 2 → ℚ) 3).map Replicas.logcnt = some ![1, 2] := by
    decide +kernel
  rw [hs] at hcounts
  exact ⟨s, hs, Option.some.inj hcounts, hopt ![2, 1] (by decide) rfl⟩

end OneCatVllm.Eplb
