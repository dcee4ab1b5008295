import OneCatVllm.Lib.Sampling
import OneCatVllm.Lib.Uniform
import OneCatVllm.SpecDecode.RejectionKernel

/-!
# The experiment of rejection sampling

The row that the kernels write is a function of random inputs: the draft tokens, drawn one after
another from the draft probabilities, or fixed, or absent; the uniform numbers; the recovered
tokens, each in proportion to its weights; and the bonus tokens. `DraftModel` is the target and the
drafter of a request, `Recovery` the law of its recovered tokens, and `prob` the probability of an
event about the inputs of the kernel.

At a single position the test accepts a draft with the probability `acceptProb`, and the draft that
is kept, or the token that is recovered, has the target distribution (`sum_step`), for drafts of
each of the three kinds.
-/

namespace OneCatVllm

open MeasureTheory Option Sampling Set

/-- A draft: a token of the vocabulary, or none. -/
abbrev Draft (N : ℕ) := Option (Fin N)

/-- **The target and the drafter** of a request, as functions of the drafts before a position: the
target distribution, the draft probabilities that are handed to the sampler, if there are any, and
the law of the next draft. -/
structure DraftModel (N : ℕ) where
  target : List (Draft N) → Fin N → ℚ
  draftProbs : Option (List (Draft N) → Fin N → ℚ)
  draftLaw : List (Draft N) → Draft N → ℚ
  /-- The id that marks a position without a draft. -/
  absentId : ℤ
  absentId_neg : absentId < 0

namespace DraftModel

variable {N : ℕ} (D : DraftModel N)

/-- There is no draft at the position. -/
def Absent (h : List (Draft N)) : Prop := D.draftLaw h = Pi.single none 1

/-- The draft is sampled from the draft probabilities. -/
def Sampled (h : List (Draft N)) : Prop :=
  ∃ q, D.draftProbs = some q ∧ IsDist (q h) ∧ D.draftLaw h = fun d ↦ d.elim 0 (q h)

/-- The draft is fixed, and there are no draft probabilities. -/
def Fixed (h : List (Draft N)) : Prop :=
  D.draftProbs = none ∧ ∃ d, D.draftLaw h = Pi.single (some d) 1

/-- Targets are distributions, and drafts are of one of the three kinds. -/
structure Sound : Prop where
  target : ∀ h, IsDist (D.target h)
  draft : ∀ h, D.Absent h ∨ D.Sampled h ∨ D.Fixed h

/-- The id of a draft. -/
def tokenId (d : Draft N) : ℤ := d.elim D.absentId fun v ↦ (v : ℕ)

/-! ### The inputs of the kernels -/

/-- A row of probabilities of the whole vocabulary. -/
def vocabRow (f : Fin N → ℚ) (tokenId : ℕ) : ℚ := if h : tokenId < N then f ⟨tokenId, h⟩ else 0

/-- An array with `n` entries from `start` on replaced. -/
def overlay {α : Type*} (start n : ℕ) (v background : ℕ → α) (idx : ℕ) : α :=
  if start ≤ idx ∧ idx < start + n then v (idx - start) else background idx

variable {K : Type*} (background : RejectionArgs K) (reqIdx : ℕ)

/-- The arrays of a batch in which one request has the given drafts. The other requests are those of
the background. -/
def draftArgs (drafts : List (Draft N)) : RejectionArgs K :=
  let start := background.startIdx reqIdx
  let n := background.numDraftTokens reqIdx
  { background with
    draftTokenIds := overlay start n (fun i ↦ D.tokenId drafts[i]?.join) background.draftTokenIds
    draftProbs := D.draftProbs.map fun q ↦
      overlay start n (fun i ↦ vocabRow (q (drafts.take i))) (background.draftProbs.getD 0)
    targetProbs :=
      overlay start n (fun i ↦ vocabRow (D.target (drafts.take i))) background.targetProbs }

/-- **The law of the recovered tokens and the bonus tokens**, on any finite sample space, as it
depends on the drafts: each recovered token of the request is drawn in proportion to its weights,
and the bonus token from the target after the drafts. Recovered tokens of different positions, and
the bonus token, may depend on each other. -/
structure Recovery (Ω : Type*) [Fintype Ω] where
  recovered : Ω → ℕ → Fin N
  bonus : Ω → ℕ → Fin N
  weight : List (Draft N) → Ω → ℝ
  isDist : ∀ drafts, IsDist (weight drafts)
  recovered_proportional : ∀ (drafts : List (Draft N)) (i : ℕ),
    i < background.numDraftTokens reqIdx →
    IsProportional
      (fun t ↦ ∑ ω, if recovered ω (background.startIdx reqIdx + i) = t then weight drafts ω else 0)
      fun t : Fin N ↦ (((D.draftArgs background reqIdx drafts).recoveredWeight
        (background.startIdx reqIdx + i) t : ℚ) : ℝ)
  bonus_law : ∀ (drafts : List (Draft N)) t,
    (∑ ω, if bonus ω reqIdx = t then weight drafts ω else 0) = (D.target drafts t : ℝ)

variable {background reqIdx} {Ω : Type*} [Fintype Ω]

/-- The inputs of the kernel in one outcome of the experiment. -/
def args (L : D.Recovery background reqIdx Ω) (drafts : List (Draft N)) (uniforms : ℕ → K) (ω : Ω) :
    RejectionArgs K :=
  { D.draftArgs background reqIdx drafts with
    uniformProbs := uniforms
    recoveredTokenIds := fun idx ↦ (L.recovered ω idx : ℕ)
    bonusTokenIds := fun req ↦ (L.bonus ω req : ℕ) }

end DraftModel

/-- The probability of an event about the inputs of the kernel. -/
noncomputable def DraftModel.prob {N : ℕ} (D : DraftModel N) {background : RejectionArgs ℝ}
    {reqIdx : ℕ} {Ω : Type*} [Fintype Ω] (L : D.Recovery background reqIdx Ω)
    (event : RejectionArgs ℝ → Prop) : ℝ :=
  mean (fun h d ↦ (D.draftLaw h d : ℝ)) (background.numDraftTokens reqIdx) [] fun drafts ↦
    ∑ ω, L.weight drafts ω * uniformLaw.real {u | event (D.args L drafts u ω)}

namespace DraftModel

variable {N : ℕ} (D : DraftModel N)

/-! ### One position -/

/-- The probability of a draft that the test uses. -/
def draftProb (h : List (Draft N)) (v : Fin N) : ℚ :=
  match D.draftProbs with
  | none => 1
  | some q => q h v

section

variable (h : List (Draft N)) (d : Draft N)

/-- The probability with which a draft is accepted. -/
def acceptProb : ℚ :=
  d.elim 0 fun v ↦ accept (D.target h v) (D.draftProb h v)

/-- The uniform numbers that accept a draft. -/
def acceptSet : Set ℝ :=
  {x | ∃ v, d = some v ∧ 0 < D.draftProb h v ∧ x ≤ ((D.target h v / D.draftProb h v : ℚ) : ℝ)}

/-- The weight of a recovered token after a draft. -/
def weight (t : Fin N) : ℚ :=
  match D.draftProbs with
  | none => if some t = d then 0 else D.target h t
  | some q => if d.isSome then max (D.target h t - q h t) 0 else D.target h t

end

/-- The probability that a token comes out at the position of a draft: it is accepted, or recovered
after a rejection. -/
def stepProb (h : List (Draft N)) (d : Draft N) (t : Fin N) : ℚ :=
  (if d = some t then D.acceptProb h d else 0) +
    (1 - D.acceptProb h d) * (D.weight h d t / ∑ v, D.weight h d v)

variable {D} {h : List (Draft N)} {d : Draft N} {t : Fin N} {q : List (Draft N) → Fin N → ℚ}

theorem acceptSet_none : D.acceptSet h none = ∅ :=
  eq_empty_of_forall_notMem fun _ ⟨_, hv, _⟩ ↦ some_ne_none _ hv.symm

theorem acceptSet_some (v : Fin N) : D.acceptSet h (some v) =
    if 0 < D.draftProb h v then Iic ((D.target h v / D.draftProb h v : ℚ) : ℝ) else ∅ := by
  ext x
  constructor
  · rintro ⟨w, hw, hpos, hx⟩
    cases hw
    rwa [if_pos hpos]
  · intro hx
    split at hx
    · rename_i hpos
      exact ⟨v, rfl, hpos, hx⟩
    · exact hx.elim

theorem measurableSet_acceptSet : MeasurableSet (D.acceptSet h d) := by
  cases d with
  | none =>
    rw [acceptSet_none]
    exact MeasurableSet.empty
  | some v =>
    rw [acceptSet_some]
    split
    · exact measurableSet_Iic
    · exact MeasurableSet.empty

/-- The uniform numbers that accept a draft have its probability of acceptance. -/
theorem unitLaw_acceptSet (hD : D.Sound) :
    unitLaw.real (D.acceptSet h d) = (D.acceptProb h d : ℝ) := by
  cases d with
  | none => rw [acceptSet_none, measureReal_empty, acceptProb, elim_none, Rat.cast_zero]
  | some v =>
    rw [acceptSet_some, acceptProb, elim_some, accept]
    split
    · rename_i hpos
      have hnonneg : 0 ≤ D.target h v / D.draftProb h v :=
        div_nonneg ((hD.target h).nonneg v) hpos.le
      rw [unitLaw_Iic (Rat.cast_nonneg.2 hnonneg), Rat.cast_min, Rat.cast_one]
    · rw [measureReal_empty, Rat.cast_zero]

theorem weight_none : D.weight h none = D.target h := by
  funext t
  unfold weight
  split
  · exact if_neg (some_ne_none t)
  · rfl

theorem weight_some_of_probs (hq : D.draftProbs = some q) (v : Fin N) :
    D.weight h (some v) = fun t ↦ max (D.target h t - q h t) 0 := by
  funext t
  rw [weight, hq]
  rfl

theorem weight_some_of_no_probs (hq : D.draftProbs = none) (v : Fin N) :
    D.weight h (some v) = fun t ↦ if t = v then 0 else D.target h t := by
  funext t
  rw [weight, hq]
  simp only [some_inj]

theorem acceptProb_some_of_probs (hq : D.draftProbs = some q) (v : Fin N) :
    D.acceptProb h (some v) = accept (D.target h v) (q h v) := by
  rw [acceptProb, elim_some, draftProb, hq]

theorem acceptProb_some_of_no_probs (hq : D.draftProbs = none) (v : Fin N) :
    D.acceptProb h (some v) = accept (D.target h v) 1 := by
  rw [acceptProb, elim_some, draftProb, hq]

/-- A draft that can be rejected has recovered tokens to choose from. -/
theorem acceptProb_eq_one (hD : D.Sound) (hd : D.draftLaw h d ≠ 0)
    (hw : ∑ v, D.weight h d v = 0) : D.acceptProb h d = 1 := by
  have hsingle {d' : Draft N} (hlaw : D.draftLaw h = Pi.single d' 1) : d = d' := by
    by_contra hne
    rw [hlaw, Pi.single_eq_of_ne hne] at hd
    exact hd rfl
  rcases hD.draft h with habsent | ⟨q, hq, hdist, hlaw⟩ | ⟨hq, d', hlaw⟩
  · obtain rfl := hsingle habsent
    rw [weight_none, (hD.target h).sum_eq_one] at hw
    exact absurd hw one_ne_zero
  · rw [hlaw] at hd
    cases d with
    | none => exact absurd rfl hd
    | some v =>
      rw [weight_some_of_probs hq] at hw
      rw [acceptProb_some_of_probs hq]
      exact accept_eq_one (hD.target h) hdist hw hd
  · obtain rfl := hsingle hlaw
    rw [weight_some_of_no_probs hq, sum_others (hD.target h), sub_eq_zero] at hw
    rw [acceptProb_some_of_no_probs hq, accept_one (hD.target h), hw]

/-- **One step of rejection sampling** gives the target distribution, for drafts of each kind. -/
theorem sum_step (hD : D.Sound) (h : List (Draft N)) (t : Fin N) :
    ∑ d, D.draftLaw h d * D.stepProb h d t = D.target h t := by
  have hsingle {d' : Draft N} (hlaw : D.draftLaw h = Pi.single d' 1) (f : Draft N → ℚ) :
      ∑ d, D.draftLaw h d * f d = f d' := by
    rw [hlaw, Finset.sum_eq_single d', Pi.single_eq_same, one_mul]
    · intro d _ hd
      rw [Pi.single_eq_of_ne hd, zero_mul]
    · exact fun hd ↦ absurd (Finset.mem_univ d') hd
  rcases hD.draft h with habsent | ⟨q, hq, hdist, hlaw⟩ | ⟨hq, d', hlaw⟩
  · rw [hsingle habsent, stepProb, if_neg (some_ne_none t).symm, weight_none, acceptProb, elim_none,
      (hD.target h).sum_eq_one, sub_zero, one_mul, div_one, zero_add]
  · rw [hlaw, Fintype.sum_option]
    simp only [elim_none, zero_mul, zero_add, elim_some, stepProb, some_inj,
      weight_some_of_probs hq, acceptProb_some_of_probs hq]
    exact sum_sampled (hD.target h) hdist
  · rw [hsingle hlaw]
    simp only [stepProb, some_inj, weight_some_of_no_probs hq, acceptProb_some_of_no_probs hq]
    exact sum_fixed (hD.target h)

theorem sum_draftLaw (hD : D.Sound) (h : List (Draft N)) : ∑ d, D.draftLaw h d = 1 := by
  rcases hD.draft h with habsent | ⟨q, hq, hdist, hlaw⟩ | ⟨hq, d', hlaw⟩
  · rw [habsent, Finset.sum_pi_single', if_pos (Finset.mem_univ _)]
  · rw [hlaw, Fintype.sum_option]
    simp only [elim_none, zero_add, elim_some]
    exact hdist.sum_eq_one
  · rw [hlaw, Finset.sum_pi_single', if_pos (Finset.mem_univ _)]

end DraftModel

end OneCatVllm
