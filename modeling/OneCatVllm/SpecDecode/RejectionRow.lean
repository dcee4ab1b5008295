import OneCatVllm.SpecDecode.RejectionLaw

/-!
# The row for given drafts

For given drafts the row starts with some tokens and one more exactly if the uniform numbers lie in
a box, with one side for each position: the tokens before the last one are drafts that were
accepted (`side`), and the last one is an accepted draft or a recovered token (`lastSide`), or the
bonus token.
-/

namespace OneCatVllm

open List MeasureTheory Nat Option RejectionArgs Sampling Set

namespace DraftModel

variable {N : ℕ} {D : DraftModel N} {h : List (Draft N)} {d : Draft N} {t : Fin N}

section Row

variable {background : RejectionArgs ℝ} {reqIdx : ℕ} {Ω : Type*} [Fintype Ω]
  {L : D.Recovery background reqIdx Ω} {drafts : List (Draft N)} {u : ℕ → ℝ} {ω : Ω} {i : ℕ}

theorem overlay_add {α : Type*} {start n : ℕ} {v bg : ℕ → α} (hi : i < n) :
    overlay start n v bg (start + i) = v i := by
  rw [overlay, if_pos ⟨le_add_right _ _, by omega⟩, Nat.add_sub_cancel_left]

theorem vocabRow_val (f : Fin N → ℚ) (v : Fin N) : vocabRow f v = f v := dif_pos v.isLt

theorem tokenId_some (v : Fin N) : D.tokenId (some v) = (v : ℕ) := rfl

theorem tokenId_eq_iff {v : Fin N} : D.tokenId d = (v : ℕ) ↔ d = some v := by
  cases d with
  | none =>
    have := D.absentId_neg
    refine ⟨fun h ↦ ?_, nofun⟩
    rw [tokenId, elim_none] at h
    omega
  | some w =>
    rw [tokenId_some, some_inj, Nat.cast_inj, Fin.val_inj]

variable (D drafts) in
theorem draftTokenIds_draftArgs (hi : i < background.numDraftTokens reqIdx) :
    (D.draftArgs background reqIdx drafts).draftTokenIds (background.startIdx reqIdx + i) =
      D.tokenId drafts[i]?.join := by
  rw [draftArgs]
  dsimp only
  rw [overlay_add hi]

variable (D drafts) in
theorem targetProbs_draftArgs (hi : i < background.numDraftTokens reqIdx) (v : Fin N) :
    (D.draftArgs background reqIdx drafts).targetProbs (background.startIdx reqIdx + i) v =
      D.target (drafts.take i) v := by
  rw [draftArgs]
  dsimp only
  rw [overlay_add hi, vocabRow_val]

variable (D drafts) in
theorem draftProb_draftArgs (hi : i < background.numDraftTokens reqIdx) (v : Fin N) :
    (D.draftArgs background reqIdx drafts).draftProb (background.startIdx reqIdx + i) v =
      D.draftProb (drafts.take i) v := by
  rw [RejectionArgs.draftProb, draftProb, draftArgs]
  cases D.draftProbs with
  | none => rfl
  | some q =>
    dsimp only [map_some]
    rw [overlay_add hi, vocabRow_val]

/-- The kernel's weights are those of the drafts. -/
theorem recoveredWeight_draftArgs (hi : i < background.numDraftTokens reqIdx) (t : Fin N) :
    (D.draftArgs background reqIdx drafts).recoveredWeight (background.startIdx reqIdx + i) t =
      D.weight (drafts.take i) drafts[i]?.join t := by
  have hsome : 0 ≤ D.tokenId drafts[i]?.join ↔ drafts[i]?.join.isSome := by
    cases drafts[i]?.join with
    | none => exact ⟨fun h ↦ absurd h (not_le.2 D.absentId_neg), nofun⟩
    | some v => exact ⟨fun _ ↦ rfl, fun _ ↦ Int.natCast_nonneg _⟩
  unfold recoveredWeight weight
  rw [targetProbs_draftArgs D drafts hi, draftTokenIds_draftArgs D drafts hi]
  simp only [hsome, eq_comm (a := ((t : ℕ) : ℤ)), tokenId_eq_iff, eq_comm (a := some t)]
  rw [draftArgs]
  cases D.draftProbs with
  | none => rfl
  | some q =>
    dsimp only [map_some]
    rw [overlay_add hi, vocabRow_val]

/-- The sides of the box of uniform numbers that accept the drafts. -/
def side (D : DraftModel N) (drafts : List (Draft N)) (i : ℕ) : Set ℝ :=
  D.acceptSet (drafts.take i) drafts[i]?.join

/-- The test of the kernel. -/
theorem accepted_args (hreq : background.Ordinary reqIdx)
    (hi : i < background.numDraftTokens reqIdx) :
    (D.args L drafts u ω).accepted (background.startIdx reqIdx) i ↔
      u (background.startIdx reqIdx + i) ∈ D.side drafts i := by
  have hsyn : (D.args L drafts u ω).syntheticConditionalRates = none := hreq.notSynthetic
  have hid : (D.args L drafts u ω).draftTokenIds (background.startIdx reqIdx + i) = _ :=
    draftTokenIds_draftArgs D drafts hi
  rw [accepted, side, hsyn]
  rw [hid, decide_eq_true_iff]
  cases hd : drafts[i]?.join with
  | none =>
    rw [acceptSet_none]
    exact ⟨fun h ↦ absurd h.1 (not_le.2 D.absentId_neg), fun h ↦ h.elim⟩
  | some v =>
    have htarget : (D.args L drafts u ω).targetProbs (background.startIdx reqIdx + i) v = _ :=
      targetProbs_draftArgs D drafts hi v
    have hprob : (D.args L drafts u ω).draftProb (background.startIdx reqIdx + i) v = _ :=
      draftProb_draftArgs D drafts hi v
    rw [tokenId_some, Int.max_eq_left (Int.natCast_nonneg _), Int.toNat_natCast, hprob, htarget]
    constructor
    · rintro ⟨-, hpos, hle⟩
      exact ⟨v, rfl, hpos, hle⟩
    · rintro ⟨w, hw, hpos, hle⟩
      cases hw
      exact ⟨Int.natCast_nonneg _, hpos, hle⟩

/-- The ids of some tokens. -/
def ids (tokens : List (Fin N)) : List ℤ := tokens.map fun v : Fin N ↦ (v.val : ℤ)

variable {xs : List (Fin N)}

theorem ids_concat (v : Fin N) : ids (xs ++ [v]) = ids xs ++ [(v.val : ℤ)] := by
  rw [ids, map_append]
  rfl

theorem length_ids : (ids xs).length = xs.length := by rw [ids, length_map]

section

variable (hreq : background.Ordinary reqIdx)

include hreq

theorem ordinary_args : (D.args L drafts u ω).Ordinary reqIdx :=
  ⟨hreq.random, hreq.notSynthetic, hreq.fits⟩

/-- The drafts before a position are given tokens and are accepted. -/
theorem accepted_iff (hlen : drafts.length = background.numDraftTokens reqIdx) :
    (xs.length ≤ background.numDraftTokens reqIdx ∧ ∀ (i : ℕ) x, (ids xs)[i]? = some x →
      (D.args L drafts u ω).accepted (background.startIdx reqIdx) i ∧
        (D.args L drafts u ω).draftTokenIds (background.startIdx reqIdx + i) = x) ↔
    xs.map some <+: drafts ∧
      ∀ i < xs.length, u (background.startIdx reqIdx + i) ∈ D.side drafts i := by
  have hget (i : ℕ) : (ids xs)[i]? = xs[i]?.map fun v : Fin N ↦ (v.val : ℤ) := by
    rw [ids, getElem?_map]
  constructor
  · rintro ⟨hle, hall⟩
    refine ⟨prefix_iff_getElem?.2 fun i hi ↦ ?_, fun i hi ↦ ?_⟩
    · rw [length_map] at hi
      have hid := (hall i _ (by rw [hget, getElem?_eq_getElem hi]; rfl)).2
      rw [show (D.args L drafts u ω).draftTokenIds _ = _ from
        draftTokenIds_draftArgs D drafts (hi.trans_le hle), tokenId_eq_iff] at hid
      rw [getElem_map]
      cases hd : drafts[i]? with
      | none =>
        rw [hd] at hid
        cases hid
      | some d =>
        rw [hd] at hid
        exact congrArg some hid
    · have hacc := (hall i _ (by rw [hget, getElem?_eq_getElem hi]; rfl)).1
      exact (accepted_args hreq (hi.trans_le hle)).1 hacc
  · rintro ⟨hpfx, hall⟩
    have hle : xs.length ≤ background.numDraftTokens reqIdx := by
      rw [← hlen, ← length_map some]
      exact hpfx.length_le
    refine ⟨hle, fun i x hx ↦ ?_⟩
    rw [hget] at hx
    obtain ⟨v, hv, rfl⟩ := map_eq_some_iff.1 hx
    obtain ⟨hi, rfl⟩ := List.getElem?_eq_some_iff.1 hv
    refine ⟨(accepted_args hreq (hi.trans_le hle)).2 (hall i hi), ?_⟩
    rw [show (D.args L drafts u ω).draftTokenIds _ = _ from
      draftTokenIds_draftArgs D drafts (hi.trans_le hle),
      prefix_iff_getElem?.1 hpfx i (by rwa [length_map]), getElem_map]
    rfl

/-- What is emitted starts with given tokens and goes on exactly if the drafts start with them and
are accepted. -/
theorem ids_append_prefix_iff
    (hlen : drafts.length = background.numDraftTokens reqIdx) (v : Fin N) :
    ids (xs ++ [v]) <+: (D.args L drafts u ω).rejectionSampleRow reqIdx ↔ (xs.map some <+: drafts ∧
        ∀ i < xs.length, u (background.startIdx reqIdx + i) ∈ D.side drafts i) ∧
      ((D.args L drafts u ω).emitted reqIdx xs.length
        (background.numDraftTokens reqIdx - xs.length)).head? = some (v.val : ℤ) := by
  have hnonneg : ∀ y ∈ ids (xs ++ [v]), 0 ≤ y := by
    intro y hy
    obtain ⟨w, -, rfl⟩ := mem_map.1 hy
    exact Int.natCast_nonneg _
  rw [prefix_rejectionSampleRow_iff (ordinary_args hreq) hnonneg, ids_concat,
    append_singleton_prefix_emitted_iff, length_ids, ← and_assoc]
  simp only [zero_add]
  exact and_congr_left' (accepted_iff hreq hlen)

end

variable (L drafts ω) in
/-- The uniform numbers for which the token at a position is a given one: it is the draft and is
accepted, or it is the recovered token of a draft that is not. -/
def lastSide (k : ℕ) (t : Fin N) : Set ℝ :=
  {x | x ∈ D.side drafts k ∧ drafts[k]?.join = some t ∨
    x ∉ D.side drafts k ∧ L.recovered ω (background.startIdx reqIdx + k) = t}

theorem head_emitted_of_lt (hreq : background.Ordinary reqIdx) {k : ℕ}
    (hk : k < background.numDraftTokens reqIdx) (v : Fin N) :
    ((D.args L drafts u ω).emitted reqIdx k (background.numDraftTokens reqIdx - k)).head? =
        some (v.val : ℤ) ↔
      u (background.startIdx reqIdx + k) ∈ lastSide L drafts ω k v := by
  obtain ⟨m, hm⟩ : ∃ m, background.numDraftTokens reqIdx - k = m + 1 :=
    ⟨background.numDraftTokens reqIdx - k - 1, by omega⟩
  have hacc : (D.args L drafts u ω).accepted (background.startIdx reqIdx) k ↔ _ :=
    accepted_args hreq hk
  have hstart : (D.args L drafts u ω).startIdx reqIdx = background.startIdx reqIdx := rfl
  rw [hm, emitted, hstart]
  by_cases hmem : u (background.startIdx reqIdx + k) ∈ D.side drafts k
  · rw [if_pos (hacc.2 hmem), head?_cons, some_inj,
      show (D.args L drafts u ω).draftTokenIds _ = _ from draftTokenIds_draftArgs D drafts hk,
      tokenId_eq_iff]
    exact ⟨fun h ↦ .inl ⟨hmem, h⟩, fun h ↦ h.elim And.right fun h ↦ absurd hmem h.1⟩
  · rw [if_neg (mt hacc.1 hmem), head?_cons, some_inj]
    refine (cast_inj.trans Fin.val_inj).trans ?_
    exact ⟨fun h ↦ .inr ⟨hmem, h⟩, fun h ↦ h.elim (fun h ↦ absurd h.1 hmem) And.right⟩

/-- The token after all drafts is the bonus token. -/
theorem head_emitted_of_eq (v : Fin N) :
    ((D.args L drafts u ω).emitted reqIdx (background.numDraftTokens reqIdx) 0).head? =
        some (v.val : ℤ) ↔ L.bonus ω reqIdx = v := by
  rw [emitted, head?_cons, some_inj]
  exact cast_inj.trans Fin.val_inj

theorem exists_head_emitted (hreq : background.Ordinary reqIdx) {k : ℕ}
    (hk : k ≤ background.numDraftTokens reqIdx) :
    ∃ v : Fin N, ((D.args L drafts u ω).emitted reqIdx k
      (background.numDraftTokens reqIdx - k)).head? = some (v.val : ℤ) := by
  rcases hk.eq_or_lt with rfl | hlt
  · rw [Nat.sub_self]
    exact ⟨_, (head_emitted_of_eq _).2 rfl⟩
  · by_cases hmem : u (background.startIdx reqIdx + k) ∈ D.side drafts k
    · have hdraft := hmem
      obtain ⟨v, hv, -⟩ := hdraft
      exact ⟨v, (head_emitted_of_lt hreq hlt v).2 (.inl ⟨hmem, hv⟩)⟩
    · exact ⟨_, (head_emitted_of_lt hreq hlt _).2 (.inr ⟨hmem, rfl⟩)⟩

theorem measurableSet_side : MeasurableSet (D.side drafts i) := measurableSet_acceptSet

theorem lastSide_eq (k : ℕ) (t : Fin N) : lastSide L drafts ω k t =
    (if drafts[k]?.join = some t then D.side drafts k else ∅) ∪
      (if L.recovered ω (background.startIdx reqIdx + k) = t then (D.side drafts k)ᶜ else ∅) := by
  ext x
  refine or_congr ?_ ?_
  · split
    · rename_i ht
      exact and_iff_left ht
    · rename_i ht
      exact iff_of_false (fun h ↦ ht h.2) id
  · split
    · rename_i ht
      exact and_iff_left ht
    · rename_i ht
      exact iff_of_false (fun h ↦ ht h.2) id

theorem measurableSet_lastSide (k : ℕ) (t : Fin N) : MeasurableSet (lastSide L drafts ω k t) := by
  rw [lastSide_eq]
  refine MeasurableSet.union ?_ ?_
  · split
    · exact measurableSet_side
    · exact MeasurableSet.empty
  · split
    · exact measurableSet_side.compl
    · exact MeasurableSet.empty

theorem unitLaw_lastSide (hD : D.Sound) (k : ℕ) (t : Fin N) :
    unitLaw.real (lastSide L drafts ω k t) =
      (if drafts[k]?.join = some t then
        (D.acceptProb (drafts.take k) drafts[k]?.join : ℝ) else 0) +
      (if L.recovered ω (background.startIdx reqIdx + k) = t then
        1 - (D.acceptProb (drafts.take k) drafts[k]?.join : ℝ) else 0) := by
  have hside : unitLaw.real (D.side drafts k) = _ :=
    unitLaw_acceptSet hD
  have hdisjoint : Disjoint (if drafts[k]?.join = some t then D.side drafts k else ∅)
      (if L.recovered ω (background.startIdx reqIdx + k) = t then (D.side drafts k)ᶜ else ∅) := by
    split
    · split
      · exact disjoint_compl_right
      · exact disjoint_empty _
    · exact empty_disjoint _
  have hmeas : MeasurableSet (if L.recovered ω (background.startIdx reqIdx + k) = t then
      (D.side drafts k)ᶜ else ∅) := by
    split
    · exact measurableSet_side.compl
    · exact MeasurableSet.empty
  rw [lastSide_eq, measureReal_union hdisjoint hmeas, apply_ite (Measure.real _),
    apply_ite (Measure.real _), measureReal_compl measurableSet_side, probReal_univ,
    hside, measureReal_empty]

end Row

end DraftModel

end OneCatVllm
