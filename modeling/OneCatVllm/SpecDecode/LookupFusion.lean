import Mathlib.Algebra.Order.Group.Int
import Mathlib.Data.List.Basic

/-!
# Fusing drafts with a lookup

`_fuse_draft_kernel` of `vllm/v1/worker/gpu/spec_decode/dflash2/lookup.py`, for one request: draft
tokens are replaced by the tokens that followed an earlier occurrence of the request's suffix, when
the match is long enough or the first drafts agree with it.

A replaced token is proposed with probability one. That is sound only if the choice to replace a
token does not look at it. In probabilistic mode a weak match replaces nothing among the drafts that
have to agree with it, so the choice rests on earlier drafts alone (`le_agreement_congr`).
-/

namespace OneCatVllm.LookupFusion

open List

/-- The arguments of the kernel that all requests share. -/
structure FuseParams where
  nmin : ℤ
  nstrong : ℤ
  agreeMin : ℤ
  nminTail : ℤ
  longMin : ℤ
  draftBlock : ℤ
  /-- The number of draft tokens. -/
  k : ℕ
  /-- The number of lanes. -/
  blockK : ℕ
  k_le : k ≤ blockK
  blockK_pos : 0 < blockK
  probabilistic : Bool

/-- What `_suffix_lookup_kernel` has found for a request. -/
structure LookupResult where
  matchLen : ℤ
  valid : ℤ
  tokens : ℕ → ℤ

/-- What the kernel stores for a request. -/
structure FuseOutput where
  draftTokens : ℕ → ℤ
  use : ℕ → Bool
  takeFlag : Bool
  hit : Bool

variable (p : FuseParams) (l : LookupResult) (drafted : ℕ → ℤ)

/-- Lane `i` of the minimum that `agreement` is: the lane itself where draft and lookup differ. -/
def agreementLane (i : ℕ) : ℤ :=
  if drafted i ≠ l.tokens i ∧ i < l.valid ∧ i < p.draftBlock ∧ i < p.k then i else p.draftBlock

/-- `agreement`: how many of the first drafts equal the lookup. -/
def agreement : ℤ :=
  min (((range p.blockK).map (agreementLane p l drafted)).min?.getD p.draftBlock) l.valid

def takeHead : Bool :=
  p.nstrong ≤ l.matchLen || (p.nmin ≤ l.matchLen && p.agreeMin ≤ agreement p l drafted)

def takeTail : Bool :=
  p.nminTail ≤ l.matchLen && (takeHead p l drafted || p.draftBlock ≤ agreement p l drafted)

/-- `from_lookup`: the lanes whose draft is replaced. -/
def fromLookup (i : ℕ) : Bool :=
  (if p.draftBlock ≤ i then takeTail p l drafted else takeHead p l drafted) &&
    decide (i < l.valid ∧ i < p.k) &&
    (!p.probabilistic || decide (p.draftBlock ≤ i ∨ p.nstrong ≤ l.matchLen ∨ p.agreeMin ≤ i))

/-- `_fuse_draft_kernel`; nothing is stored for a request without a state. -/
def fuseDraft (idxMapping : ℤ) : Option FuseOutput :=
  if idxMapping < 0 then none
  else some
    { draftTokens := fun i ↦ if fromLookup p l drafted i then l.tokens i else drafted i
      use := fun i ↦ (fromLookup p l drafted i || decide (p.draftBlock ≤ i)) && decide (i < p.k)
      takeFlag := decide (p.longMin ≤ l.matchLen ∧ p.draftBlock < l.valid) && takeTail p l drafted
      hit := takeHead p l drafted }

section

variable {p l drafted} {drafted' : ℕ → ℤ} {j : ℕ}

theorem le_agreement_iff {x : ℤ} :
    x ≤ agreement p l drafted ↔
      (∀ i < p.blockK, x ≤ agreementLane p l drafted i) ∧ x ≤ l.valid := by
  rw [agreement, le_min_iff]
  refine and_congr_left fun _ ↦ ?_
  rcases hmin : ((range p.blockK).map (agreementLane p l drafted)).min? with - | m
  · rw [min?_eq_none_iff, map_eq_nil_iff, range_eq_nil] at hmin
    exact absurd hmin p.blockK_pos.ne'
  · rw [Option.getD_some, le_min?_iff hmin, forall_mem_map]
    simp only [mem_range]

/-- **The first drafts decide**: that `agree_min` drafts agree with the lookup does not depend on
the drafts from a position of the head on that is not among them. -/
theorem le_agreement_congr (hpre : ∀ i < j, drafted i = drafted' i) (hhead : j < p.draftBlock)
    (hj : p.agreeMin ≤ j) :
    p.agreeMin ≤ agreement p l drafted ↔ p.agreeMin ≤ agreement p l drafted' := by
  have hlane (i : ℕ) : p.agreeMin ≤ agreementLane p l drafted i ↔
      p.agreeMin ≤ agreementLane p l drafted' i := by
    by_cases hi : i < j
    · rw [agreementLane, agreementLane, hpre i hi]
    · -- from `j` on every lane is large enough, whatever was drafted
      have hlarge (d : ℕ → ℤ) : p.agreeMin ≤ agreementLane p l d i := by
        rw [agreementLane]
        split_ifs <;> omega
      exact iff_of_true (hlarge _) (hlarge _)
  simp only [le_agreement_iff, hlane]

theorem fromLookup_congr (hp : p.probabilistic = true) (hpre : ∀ i < j, drafted i = drafted' i)
    (hhead : j < p.draftBlock) : fromLookup p l drafted j = fromLookup p l drafted' j := by
  rw [fromLookup, fromLookup, if_neg (not_le.2 hhead), if_neg (not_le.2 hhead), hp]
  by_cases hj : p.nstrong ≤ l.matchLen ∨ p.agreeMin ≤ j
  · have htake : takeHead p l drafted = takeHead p l drafted' := by
      rw [takeHead, takeHead]
      rcases hj with hstrong | hj
      · rw [decide_eq_true hstrong, Bool.true_or, Bool.true_or]
      · rw [decide_eq_decide.2 (le_agreement_congr hpre hhead hj)]
    rw [htake]
  · -- a draft that has to agree is kept
    have hkeep : ¬ (p.draftBlock ≤ j ∨ p.nstrong ≤ l.matchLen ∨ p.agreeMin ≤ j) :=
      not_or.2 ⟨not_le.2 hhead, hj⟩
    simp only [decide_eq_false hkeep, Bool.not_true, Bool.or_self, Bool.and_false]

end

/-- **No peeking**: in probabilistic mode two runs with the same lookup and the same drafts before
position `j` mark `j` alike, and leave the same token there if it is marked and in the head. A
position of the head that is not marked keeps its draft. -/
theorem fuseDraft_no_peek (p : FuseParams) (hp : p.probabilistic = true) (l : LookupResult)
    (idxMapping : ℤ) (drafted drafted' : ℕ → ℤ) (j : ℕ) (hj : j < p.k)
    (hpre : ∀ i < j, drafted i = drafted' i) {out : FuseOutput}
    (hout : fuseDraft p l drafted idxMapping = some out) :
    ∃ out', fuseDraft p l drafted' idxMapping = some out' ∧ out.use j = out'.use j ∧
      (j < p.draftBlock → out.use j = true → out.draftTokens j = out'.draftTokens j) ∧
      (j < p.draftBlock → out.use j = false → out.draftTokens j = drafted j) := by
  rw [fuseDraft] at hout ⊢
  split_ifs at hout ⊢
  cases hout
  refine ⟨_, rfl, ?_, fun hhead huse ↦ ?_, fun hhead huse ↦ ?_⟩
  · dsimp only
    rcases lt_or_ge (j : ℤ) p.draftBlock with hhead | htail
    · rw [fromLookup_congr hp hpre hhead]
    · rw [decide_eq_true htail, Bool.or_true, Bool.or_true]
  · dsimp only at huse ⊢
    rw [decide_eq_false (not_le.2 hhead), Bool.or_false, Bool.and_eq_true] at huse
    rw [if_pos huse.1, ← fromLookup_congr hp hpre hhead, if_pos huse.1]
  · dsimp only at huse ⊢
    rw [decide_eq_false (not_le.2 hhead), decide_eq_true hj, Bool.or_false, Bool.and_true] at huse
    rw [if_neg (Bool.eq_false_iff.1 huse)]

/-- A weak match of four tokens that the first two of three drafts have to agree with. -/
def weakMatch : FuseParams :=
  ⟨3, 8, 2, 3, 8, 3, 3, 4, by decide, by decide, true⟩

/-- The third draft is replaced and marked, and it does not matter which one it was. -/
theorem fuseDraft_no_peek_third :
    ∃ out', fuseDraft weakMatch ⟨4, 3, fun i ↦ i⟩ (fun i ↦ if i = 2 then 8 else i) 0 = some out' ∧
      true = out'.use 2 ∧ (2 : ℤ) = out'.draftTokens 2 := by
  obtain ⟨out', hout', huse, htoken, -⟩ := fuseDraft_no_peek weakMatch rfl ⟨4, 3, fun i ↦ i⟩ 0
    (fun i ↦ if i = 2 then 7 else i) (fun i ↦ if i = 2 then 8 else i) 2 (by decide)
    (fun i hi ↦ by rw [if_neg hi.ne, if_neg hi.ne]) rfl
  exact ⟨out', hout', huse, htoken (by decide) rfl⟩

end OneCatVllm.LookupFusion
