import OneCatVllm.SpecDecode.RejectionRow

/-!
# Rejection sampling is lossless

**Given any emitted tokens, the next one has the target distribution** after them, and every row is
a run of tokens followed only by placeholders (`row_lossless`).

For fixed drafts the event that the row starts with given tokens is a box of uniform numbers
(`uniformLaw_next_of_lt`). The mean over the drafts then runs along the given tokens
(`Sampling.mean_ite_prefix`), and the sum over the draft at the last position is one step of
rejection sampling (`mean_next`).
-/

namespace OneCatVllm

open Finset List MeasureTheory Nat Sampling Set

namespace DraftModel

variable {N : ℕ} {D : DraftModel N} {h : List (Draft N)}

section Law

variable {background : RejectionArgs ℝ} {reqIdx : ℕ} {Ω : Type*} [Fintype Ω]
  {L : D.Recovery background reqIdx Ω} {drafts : List (Draft N)} {ω : Ω} {xs : List (Fin N)}

variable (D) in
/-- The probability that given drafts are all accepted. -/
def reach (h : List (Draft N)) : ℝ :=
  ∏ i ∈ range h.length, (D.acceptProb (h.take i) h[i]?.join : ℝ)

theorem prod_side (hD : D.Sound) (hpfx : h <+: drafts) :
    ∏ i ∈ Finset.range h.length, unitLaw.real (D.side drafts i) = D.reach h := by
  refine prod_congr rfl fun i hi ↦ ?_
  obtain ⟨rest, rfl⟩ := hpfx
  have hlt := Finset.mem_range.1 hi
  rw [side, unitLaw_acceptSet hD, take_append_of_le_length hlt.le, getElem?_append_left hlt]

variable (xs) in
/-- The row goes on after some tokens. -/
def Continues (reqIdx : ℕ) (args : RejectionArgs ℝ) : Prop :=
  ∃ v, ids (xs ++ [v]) <+: args.rejectionSampleRow reqIdx

variable {u : ℕ → ℝ}

theorem continues_args_iff (hreq : background.Ordinary reqIdx)
    (hlen : drafts.length = background.numDraftTokens reqIdx) :
    Continues xs reqIdx (D.args L drafts u ω) ↔ xs.map some <+: drafts ∧
      ∀ i < xs.length, u (background.startIdx reqIdx + i) ∈ D.side drafts i := by
  constructor
  · rintro ⟨v, hv⟩
    exact ((ids_append_prefix_iff hreq hlen v).1 hv).1
  · intro h
    have hle : xs.length ≤ background.numDraftTokens reqIdx := by
      rw [← hlen, ← length_map some]
      exact h.1.length_le
    obtain ⟨v, hv⟩ : ∃ v : Fin N, ((D.args L drafts u ω).emitted reqIdx xs.length
        (background.numDraftTokens reqIdx - xs.length)).head? = some (v.val : ℤ) :=
      exists_head_emitted hreq hle
    exact ⟨v, (ids_append_prefix_iff hreq hlen v).2 ⟨h, hv⟩⟩

section

variable (hD : D.Sound) (hreq : background.Ordinary reqIdx)
  (hlen : drafts.length = background.numDraftTokens reqIdx)

include hD hreq hlen

/-- The probability that the row goes on after some tokens, for given drafts. -/
theorem uniformLaw_continues :
    uniformLaw.real {u | Continues xs reqIdx (D.args L drafts u ω)} =
      if xs.map some <+: drafts then D.reach (xs.map some) else 0 := by
  simp only [continues_args_iff hreq hlen]
  split
  · rename_i hpfx
    simp only [hpfx, true_and]
    rw [uniformLaw_box _ _ fun _ ↦ measurableSet_side, ← prod_side hD hpfx, length_map]
  · rename_i hpfx
    simp only [hpfx, false_and, ofPred_false]
    exact measureReal_empty

/-- The probability that the row goes on with a token, for given drafts. -/
theorem uniformLaw_next_of_lt (hk : xs.length < background.numDraftTokens reqIdx) (t : Fin N) :
    uniformLaw.real {u | ids (xs ++ [t]) <+: (D.args L drafts u ω).rejectionSampleRow reqIdx} =
      if xs.map some <+: drafts then D.reach (xs.map some) *
        unitLaw.real (lastSide L drafts ω xs.length t) else 0 := by
  simp only [ids_append_prefix_iff hreq hlen, head_emitted_of_lt hreq hk]
  split
  · rename_i hpfx
    simp only [hpfx, true_and]
    rw [uniformLaw_box_and _ _ (fun _ ↦ measurableSet_side) (measurableSet_lastSide _ _),
      ← prod_side hD hpfx, length_map]
  · rename_i hpfx
    simp only [hpfx, false_and, ofPred_false]
    exact measureReal_empty

theorem uniformLaw_next_of_eq (hk : xs.length = background.numDraftTokens reqIdx) (t : Fin N) :
    uniformLaw.real {u | ids (xs ++ [t]) <+: (D.args L drafts u ω).rejectionSampleRow reqIdx} =
      if xs.map some <+: drafts then D.reach (xs.map some) *
        (if L.bonus ω reqIdx = t then 1 else 0) else 0 := by
  simp only [ids_append_prefix_iff hreq hlen, hk, Nat.sub_self, head_emitted_of_eq]
  by_cases ht : L.bonus ω reqIdx = t
  · have hcontinues : uniformLaw.real {u | Continues xs reqIdx (D.args L drafts u ω)} = _ :=
      uniformLaw_continues hD hreq hlen
    simp only [ht, and_true, if_true, mul_one]
    rw [← hcontinues]
    simp only [continues_args_iff hreq hlen, hk]
  · simp only [ht, and_false, if_false, mul_zero, ite_self, ofPred_false]
    exact measureReal_empty

end

/-- The law of the drafts. -/
theorem sum_draftLaw_real (hD : D.Sound) (h : List (Draft N)) : ∑ d, (D.draftLaw h d : ℝ) = 1 := by
  rw [← Rat.cast_sum, sum_draftLaw hD, Rat.cast_one]

theorem prob_eq (event : RejectionArgs ℝ → Prop) {g : List (Draft N) → ℝ}
    (hg : ∀ drafts : List (Draft N), drafts.length = background.numDraftTokens reqIdx →
      ∑ ω, L.weight drafts ω * uniformLaw.real {u | event (D.args L drafts u ω)} = g drafts) :
    D.prob L event =
      mean (fun h d ↦ (D.draftLaw h d : ℝ)) (background.numDraftTokens reqIdx) [] g :=
  mean_congr fun drafts _ hlen ↦ hg drafts (by rw [hlen, length_nil, zero_add])

section

variable (hD : D.Sound)

include hD

/-- **The probability that the row goes on** after some tokens: they are drafted, and accepted. -/
theorem prob_continues (hreq : background.Ordinary reqIdx)
    (hk : xs.length ≤ background.numDraftTokens reqIdx) :
    D.prob L (Continues xs reqIdx) =
      path (fun h d ↦ (D.draftLaw h d : ℝ)) [] (xs.map some) * D.reach (xs.map some) := by
  rw [prob_eq]
  · obtain ⟨m, hm⟩ := Nat.exists_eq_add_of_le hk
    rw [hm, ← length_map some, mean_ite_prefix, mean_const (sum_draftLaw_real hD)]
  · intro drafts hlen
    simp only [uniformLaw_continues hD hreq hlen]
    rw [← sum_mul, (L.isDist drafts).sum_eq_one, one_mul]

/-- The mean of the last side over the recovered tokens. -/
theorem sum_lastSide (k : ℕ) (t : Fin N) :
    ∑ ω, L.weight drafts ω * unitLaw.real (lastSide L drafts ω k t) =
      (if drafts[k]?.join = some t then (D.acceptProb (drafts.take k) drafts[k]?.join : ℝ) else 0) +
      (1 - (D.acceptProb (drafts.take k) drafts[k]?.join : ℝ)) *
        ∑ ω, if L.recovered ω (background.startIdx reqIdx + k) = t then
          L.weight drafts ω else 0 := by
  simp only [unitLaw_lastSide hD, mul_add, sum_add_distrib]
  rw [← sum_mul, (L.isDist drafts).sum_eq_one, one_mul, mul_sum]
  congr 1
  refine sum_congr rfl fun ω _ ↦ ?_
  split
  · rw [mul_comm]
  · rw [mul_zero, mul_zero]

/-- The next token among the drafts, for a draft that can be made. -/
theorem sum_lastSide_of_law {k : ℕ} (hk : k < background.numDraftTokens reqIdx)
    (t : Fin N) (hlaw : D.draftLaw (drafts.take k) drafts[k]?.join ≠ 0) :
    ∑ ω, L.weight drafts ω * unitLaw.real (lastSide L drafts ω k t) =
      D.stepProb (drafts.take k) drafts[k]?.join t := by
  have hprop := L.recovered_proportional drafts k hk
  simp only [recoveredWeight_draftArgs hk] at hprop
  have hzero : ∑ v, (D.weight (drafts.take k) drafts[k]?.join v : ℝ) = 0 →
      1 - (D.acceptProb (drafts.take k) drafts[k]?.join : ℝ) = 0 := by
    intro hw
    rw [← Rat.cast_sum, Rat.cast_eq_zero] at hw
    rw [acceptProb_eq_one hD hlaw hw, Rat.cast_one, sub_self]
  rw [sum_lastSide hD, hprop.mul_eq hzero, stepProb]
  push_cast [apply_ite (Rat.cast : ℚ → ℝ)]
  rfl

/-- The mean over the drafts that go on with a given one. -/
theorem mean_next (hlt : xs.length < background.numDraftTokens reqIdx) {m : ℕ}
    {d : Draft N} {t : Fin N} :
    (D.draftLaw (xs.map some) d : ℝ) *
        mean (fun h d ↦ (D.draftLaw h d : ℝ)) m (xs.map some ++ [d]) (fun drafts ↦
          D.reach (xs.map some) * ∑ ω, L.weight drafts ω *
            unitLaw.real (lastSide L drafts ω xs.length t)) =
      D.reach (xs.map some) *
        ((D.draftLaw (xs.map some) d * D.stepProb (xs.map some) d t : ℚ) : ℝ) := by
  by_cases hlaw : D.draftLaw (xs.map some) d = 0
  · rw [hlaw, Rat.cast_zero, zero_mul, zero_mul, Rat.cast_zero, mul_zero]
  · have hconst (drafts : List (Draft N)) (hpfx : xs.map some ++ [d] <+: drafts) :
        ∑ ω, L.weight drafts ω * unitLaw.real (lastSide L drafts ω xs.length t) =
          D.stepProb (xs.map some) d t := by
      obtain ⟨rest, rfl⟩ := hpfx
      have htake : (xs.map some ++ [d] ++ rest).take xs.length = xs.map some := by
        rw [append_assoc, ← length_map some, take_left]
      have hget : (xs.map some ++ [d] ++ rest)[xs.length]?.join = d := by
        rw [append_assoc, ← length_map some, getElem?_append_right le_rfl, Nat.sub_self]
        rfl
      rw [sum_lastSide_of_law hD hlt t (by rwa [htake, hget]), htake, hget]
    rw [mean_congr fun drafts hpfx _ ↦ congrArg (D.reach (xs.map some) * ·)
      (hconst drafts hpfx), mean_const (sum_draftLaw_real hD), Rat.cast_mul]
    ring

/-- **The probability of the next token** is the target's. -/
theorem prob_next (hreq : background.Ordinary reqIdx)
    (hk : xs.length ≤ background.numDraftTokens reqIdx) (t : Fin N) :
    D.prob L (fun args ↦ ids (xs ++ [t]) <+: args.rejectionSampleRow reqIdx) =
      path (fun h d ↦ (D.draftLaw h d : ℝ)) [] (xs.map some) *
        (D.reach (xs.map some) * (D.target (xs.map some) t : ℝ)) := by
  obtain ⟨m, hm⟩ := Nat.exists_eq_add_of_le hk
  rw [← length_map some] at hm
  cases m with
  | zero =>
    -- all drafts are among the tokens: the next one is the bonus token
    have heq : xs.length = background.numDraftTokens reqIdx := by rw [hm, length_map]; rfl
    rw [prob_eq (g := fun drafts ↦ if xs.map some <+: drafts then
      D.reach (xs.map some) * (D.target drafts t : ℝ) else 0), hm, mean_ite_prefix]
    · rfl
    · intro drafts hlen
      simp only [uniformLaw_next_of_eq hD hreq hlen heq]
      split
      · rw [← L.bonus_law drafts t, mul_sum]
        refine sum_congr rfl fun ω _ ↦ ?_
        split
        · rw [mul_one, mul_comm]
        · rw [mul_zero, mul_zero]
      · simp only [mul_zero, sum_const_zero]
  | succ m =>
    have hlt : xs.length < background.numDraftTokens reqIdx := by rw [hm, length_map]; omega
    rw [prob_eq (g := fun drafts ↦ if xs.map some <+: drafts then D.reach (xs.map some) *
      ∑ ω, L.weight drafts ω * unitLaw.real (lastSide L drafts ω xs.length t) else 0), hm,
      mean_ite_prefix]
    · congr 1
      rw [← sum_step hD (xs.map some) t, Rat.cast_sum, mul_sum]
      refine sum_congr rfl fun d _ ↦ ?_
      rw [mean_next hD hlt]
    · intro drafts hlen
      simp only [uniformLaw_next_of_lt hD hreq hlen hlt]
      split
      · rw [mul_sum]
        exact sum_congr rfl fun ω _ ↦ mul_left_comm _ _ _
      · simp only [mul_zero, sum_const_zero]

end

/-- A row does not go on after more tokens than there are drafts. -/
theorem prob_eq_zero (hreq : background.Ordinary reqIdx)
    (hk : background.numDraftTokens reqIdx < xs.length) {event : RejectionArgs ℝ → Prop}
    (hevent : ∀ args, event args → Continues xs reqIdx args) : D.prob L event = 0 := by
  rw [prob_eq, mean_zero]
  intro drafts hlen
  refine sum_eq_zero fun ω _ ↦ ?_
  have hempty : {u | event (D.args L drafts u ω)} = ∅ := by
    refine eq_empty_of_forall_notMem fun u hu ↦ ?_
    have hle := ((continues_args_iff hreq hlen).1 (hevent _ hu)).1.length_le
    rw [length_map] at hle
    omega
  rw [hempty, measureReal_empty, mul_zero]

/-- What is emitted are tokens of the vocabulary. -/
theorem exists_emitted_eq_ids (hreq : background.Ordinary reqIdx) (pos n : ℕ)
    (hn : pos + n = background.numDraftTokens reqIdx) :
    ∃ tokens : List (Fin N), (D.args L drafts u ω).emitted reqIdx pos n = ids tokens := by
  induction n generalizing pos with
  | zero => exact ⟨[L.bonus ω reqIdx], rfl⟩
  | succ n ih =>
    have hpos : pos < background.numDraftTokens reqIdx := by omega
    have hacc : (D.args L drafts u ω).accepted (background.startIdx reqIdx) pos ↔ _ :=
      accepted_args hreq hpos
    rw [RejectionArgs.emitted]
    split
    · rename_i haccepted
      obtain ⟨tokens, htokens⟩ := ih (pos + 1) (by omega)
      obtain ⟨v, hv, -⟩ := hacc.1 haccepted
      refine ⟨v :: tokens, ?_⟩
      have hid : (D.args L drafts u ω).draftTokenIds (background.startIdx reqIdx + pos) = _ :=
        draftTokenIds_draftArgs D drafts hpos
      rw [htokens, show (D.args L drafts u ω).startIdx reqIdx = background.startIdx reqIdx from rfl,
        hid, hv]
      rfl
    · exact ⟨[L.recovered ω _], rfl⟩

/-- A run of tokens, followed only by placeholders. -/
def IsRun (N maxSpecLen : ℕ) (row : List ℤ) : Prop :=
  ∃ tokens : List (Fin N), tokens ≠ [] ∧
    row = ids tokens ++ replicate (maxSpecLen + 1 - tokens.length) placeholderTokenId

theorem isRun_rejectionSampleRow (hreq : background.Ordinary reqIdx) :
    IsRun N background.maxSpecLen ((D.args L drafts u ω).rejectionSampleRow reqIdx) := by
  obtain ⟨tokens, htokens⟩ : ∃ tokens : List (Fin N), (D.args L drafts u ω).emitted reqIdx 0
      (background.numDraftTokens reqIdx) = ids tokens :=
    exists_emitted_eq_ids hreq 0 _ (zero_add _)
  refine ⟨tokens, ?_, ?_⟩
  · rintro rfl
    exact RejectionArgs.emitted_ne_nil _ _ htokens
  · rw [RejectionArgs.rejectionSampleRow_eq (ordinary_args hreq), show (D.args L drafts u
      ω).numDraftTokens reqIdx = background.numDraftTokens reqIdx from rfl, htokens, length_ids]
    rfl

/-- **Rejection sampling is lossless.** Given any emitted tokens, the next token has exactly the
target distribution after them, and every row is a run of tokens followed only by placeholders. -/
theorem row_lossless (D : DraftModel N) (hD : D.Sound) (background : RejectionArgs ℝ) (reqIdx : ℕ)
    (hreq : background.Ordinary reqIdx) (L : D.Recovery background reqIdx Ω) :
    (∀ (xs : List (Fin N)) (t : Fin N),
      D.prob L (fun args ↦ ids (xs ++ [t]) <+: args.rejectionSampleRow reqIdx) =
        D.prob L (Continues xs reqIdx) * (D.target (xs.map some) t : ℝ)) ∧
    ∀ drafts u ω,
      IsRun N background.maxSpecLen ((D.args L drafts u ω).rejectionSampleRow reqIdx) := by
  refine ⟨fun xs t ↦ ?_, fun drafts u ω ↦ isRun_rejectionSampleRow hreq⟩
  rcases lt_or_ge (background.numDraftTokens reqIdx) xs.length with hlt | hle
  · rw [prob_eq_zero hreq hlt fun args h ↦ ⟨t, h⟩, prob_eq_zero hreq hlt fun args h ↦ h, zero_mul]
  · rw [prob_next hD hreq hle, prob_continues hD hreq hle, mul_assoc]

end Law

/-! ### A drafter that prefers one of two tokens -/

section Biased

/-- Two tokens with equal targets, of which the drafter prefers the second. -/
def biased : DraftModel 2 where
  target _ _ := 1 / 2
  draftProbs := some fun _ v ↦ if v = 0 then 1 / 4 else 3 / 4
  draftLaw _ d := d.elim 0 fun v ↦ if v = 0 then 1 / 4 else 3 / 4
  absentId := -1
  absentId_neg := by decide

theorem biased_draftProbs : biased.draftProbs = some fun _ v ↦ if v = 0 then 1 / 4 else 3 / 4 := rfl

theorem biased_sound : biased.Sound where
  target _ := ⟨fun _ ↦ one_half_pos.le, by rw [Fin.sum_univ_two]; exact add_halves 1⟩
  draft h := by
    refine .inr (.inl ⟨_, rfl, ⟨fun v ↦ ?_, ?_⟩, rfl⟩)
    · split <;> norm_num
    · norm_num

/-- A batch of one request with one draft. -/
noncomputable def singleRequest : RejectionArgs ℝ where
  cuNumDraftTokens _ := 1
  draftTokenIds _ := 0
  draftProbs := none
  targetProbs _ _ := 0
  bonusTokenIds _ := 0
  recoveredTokenIds _ := 0
  uniformProbs _ := 0
  isGreedy _ := false
  maxSpecLen := 1
  syntheticConditionalRates := none

/-- The weight of a recovered token and a bonus token: after a draft only the first token is
recovered. -/
noncomputable def biasedWeight (drafts : List (Draft 2)) (ω : Fin 2 × Fin 2) : ℝ :=
  (if drafts[0]?.join.isSome then (if ω.1 = 0 then 1 else 0) else 1 / 2) * (1 / 2)

theorem sum_biasedWeight (drafts : List (Draft 2)) (t : Fin 2) :
    (∑ ω : Fin 2 × Fin 2, if ω.1 = t then biasedWeight drafts ω else 0) =
      if drafts[0]?.join.isSome then (if t = 0 then 1 else 0) else 1 / 2 := by
  rw [Fintype.sum_prod_type]
  simp only [biasedWeight, Fin.sum_univ_two]
  fin_cases t <;> cases drafts[0]?.join <;> norm_num

noncomputable def biasedRecovery : biased.Recovery singleRequest 0 (Fin 2 × Fin 2) where
  recovered ω _ := ω.1
  bonus ω _ := ω.2
  weight := biasedWeight
  isDist drafts := by
    refine ⟨fun ω ↦ ?_, ?_⟩
    · unfold biasedWeight
      split
      · split <;> norm_num
      · norm_num
    · rw [Fintype.sum_prod_type]
      simp only [biasedWeight, Fin.sum_univ_two]
      cases drafts[0]?.join <;> norm_num
  recovered_proportional drafts i hi := by
    intro t
    obtain rfl : i = 0 := lt_one_iff.1 hi
    simp only [recoveredWeight_draftArgs hi, sum_biasedWeight, Fin.sum_univ_two]
    cases drafts[0]?.join with
    | none =>
      simp only [weight_none]
      norm_num [biased]
    | some v =>
      simp only [weight_some_of_probs biased_draftProbs]
      fin_cases t <;> norm_num [biased]
  bonus_law drafts t := by
    rw [Fintype.sum_prod_type]
    simp only [biasedWeight, Fin.sum_univ_two]
    fin_cases t <;> cases drafts[0]?.join <;> norm_num [biased]

theorem row_lossless_biased :
    (∀ (xs : List (Fin 2)) (t : Fin 2),
      biased.prob biasedRecovery (fun args ↦ ids (xs ++ [t]) <+: args.rejectionSampleRow 0) =
        biased.prob biasedRecovery (Continues xs 0) * (biased.target (xs.map some) t : ℝ)) ∧
    ∀ drafts u ω, IsRun 2 1 ((biased.args biasedRecovery drafts u ω).rejectionSampleRow 0) :=
  row_lossless biased biased_sound singleRequest 0 ⟨rfl, rfl, le_rfl⟩ biasedRecovery

end Biased

end DraftModel

end OneCatVllm
