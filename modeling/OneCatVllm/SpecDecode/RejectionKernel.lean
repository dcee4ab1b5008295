import Mathlib.Algebra.Order.Field.Basic
import Mathlib.Data.Rat.Cast.Defs
import OneCatVllm.SpecDecode.TopTokenSampler

/-!
# The rejection sampling kernels

One program of `rejection_random_sample_kernel` writes one row of output tokens: it goes through the
draft tokens of its request, keeps each that its uniform number accepts, writes the recovered token
for the first that is not accepted, and the bonus token if all are. The arrays of the batch are
flat; the draft tokens of a request lie between two entries of the cumulative counts. Probabilities
are rationals, and uniform numbers are elements of any ordered field.

`recoveredWeight` is the score that `sample_recovered_tokens_kernel` gives to a token before its
noise: recovered tokens are drawn in proportion to it. The row is described by `emitted`: a run of
tokens, at the end of which placeholders begin (`rejectionSampleRow_eq`).
-/

namespace OneCatVllm

open List Nat

variable {K : Type*}

/-- The arrays of the two kernels. Rows of probabilities are indexed by the flat position and the
token id. -/
structure RejectionArgs (K : Type*) where
  cuNumDraftTokens : ℕ → ℕ
  /-- A negative id marks a position without a draft. -/
  draftTokenIds : ℕ → ℤ
  draftProbs : Option (ℕ → ℕ → ℚ)
  targetProbs : ℕ → ℕ → ℚ
  bonusTokenIds : ℕ → ℤ
  recoveredTokenIds : ℕ → ℤ
  uniformProbs : ℕ → K
  isGreedy : ℕ → Bool
  maxSpecLen : ℕ
  /-- The acceptance rates of synthetic mode, if it is on. -/
  syntheticConditionalRates : Option (ℕ → ℚ)

namespace RejectionArgs

variable (args : RejectionArgs K)

/-- The first flat position of a request. -/
def startIdx (reqIdx : ℕ) : ℕ := if reqIdx = 0 then 0 else args.cuNumDraftTokens (reqIdx - 1)

def numDraftTokens (reqIdx : ℕ) : ℕ := args.cuNumDraftTokens reqIdx - args.startIdx reqIdx

/-- The probability of the draft token, which is one without draft probabilities. -/
def draftProb (idx tokenId : ℕ) : ℚ :=
  match args.draftProbs with
  | none => 1
  | some draftProbs => draftProbs idx tokenId

/-- The weight of a recovered token at a flat position. -/
def recoveredWeight (idx tokenId : ℕ) : ℚ :=
  match args.draftProbs with
  | none => if (tokenId : ℤ) = args.draftTokenIds idx then 0 else args.targetProbs idx tokenId
  | some draftProbs =>
    if 0 ≤ args.draftTokenIds idx then max (args.targetProbs idx tokenId - draftProbs idx tokenId) 0
    else args.targetProbs idx tokenId

/-- An ordinary request of the kernel: it is sampled at random, synthetic mode is off, and its row
has room for its draft tokens. -/
structure Ordinary (reqIdx : ℕ) : Prop where
  random : args.isGreedy reqIdx = false
  notSynthetic : args.syntheticConditionalRates = none
  fits : args.numDraftTokens reqIdx ≤ args.maxSpecLen

variable [Field K] [LinearOrder K]

/-- The test of the draft token at position `pos` of a request. -/
def accepted (startIdx pos : ℕ) : Bool :=
  let draftTokenId := args.draftTokenIds (startIdx + pos)
  let uniformProb := args.uniformProbs (startIdx + pos)
  let safeId := (max draftTokenId 0).toNat
  match args.syntheticConditionalRates with
  | some rates => decide (0 ≤ draftTokenId ∧ uniformProb < (rates pos : K))
  | none =>
    let draftProb := args.draftProb (startIdx + pos) safeId
    let targetProb := args.targetProbs (startIdx + pos) safeId
    decide (0 ≤ draftTokenId ∧ 0 < draftProb ∧ uniformProb ≤ ((targetProb / draftProb : ℚ) : K))

/-- The state of the loop over the draft tokens. -/
structure Verifying where
  rejected : Bool
  outputTokenIds : List ℤ

/-- One round of the loop. -/
def verifyStep (startIdx : ℕ) (s : Verifying) (pos : ℕ) : Verifying :=
  if s.rejected then s
  else if args.accepted startIdx pos then
    { rejected := false
      outputTokenIds := s.outputTokenIds.set pos (args.draftTokenIds (startIdx + pos)) }
  else
    { rejected := true
      outputTokenIds := s.outputTokenIds.set pos (args.recoveredTokenIds (startIdx + pos)) }

/-- `rejection_random_sample_kernel`, the program of one request, on its row of the output. -/
def rejectionRandomSampleKernel (reqIdx : ℕ) (outputTokenIds : List ℤ) : List ℤ :=
  if args.isGreedy reqIdx then outputTokenIds
  else
    let numDraftTokens := args.numDraftTokens reqIdx
    let s := (range numDraftTokens).foldl (args.verifyStep (args.startIdx reqIdx))
      ⟨false, outputTokenIds⟩
    if s.rejected then s.outputTokenIds
    else s.outputTokenIds.set numDraftTokens (args.bonusTokenIds reqIdx)

/-- The row of a request in `rejection_sample`, which starts with placeholders only. -/
def rejectionSampleRow (reqIdx : ℕ) : List ℤ :=
  args.rejectionRandomSampleKernel reqIdx (replicate (args.maxSpecLen + 1) placeholderTokenId)

/-- The tokens of a request from a position on, with `n` draft tokens to go. -/
def emitted (reqIdx : ℕ) : ℕ → ℕ → List ℤ
  | _, 0 => [args.bonusTokenIds reqIdx]
  | pos, n + 1 =>
    if args.accepted (args.startIdx reqIdx) pos then
      args.draftTokenIds (args.startIdx reqIdx + pos) :: emitted reqIdx (pos + 1) n
    else [args.recoveredTokenIds (args.startIdx reqIdx + pos)]

/-! ### The row of a request -/

variable {args} {reqIdx : ℕ}

theorem foldl_verifyStep_rejected {startIdx : ℕ} (poss : List ℕ) (row : List ℤ) :
    poss.foldl (args.verifyStep startIdx) ⟨true, row⟩ = ⟨true, row⟩ := by
  induction poss with
  | nil => rfl
  | cons pos poss ih => exact ih

theorem emitted_ne_nil (pos n : ℕ) : args.emitted reqIdx pos n ≠ [] := by
  cases n with
  | zero => exact cons_ne_nil _ _
  | succ n =>
    rw [emitted]
    split
    · exact cons_ne_nil _ _
    · exact cons_ne_nil _ _

theorem set_append_cons (pre rest : List ℤ) (a b : ℤ) :
    (pre ++ a :: rest).set pre.length b = pre ++ b :: rest := by
  rw [set_append_right _ _ le_rfl, Nat.sub_self, set_cons_zero]

variable (args reqIdx) in
/-- **The loop over the draft tokens**, from the position after the tokens that were accepted on. -/
theorem foldl_verifyStep_eq (pre : List ℤ) (n m : ℕ) (hle : n ≤ m) :
    (let s := (range' pre.length n).foldl (args.verifyStep (args.startIdx reqIdx))
        ⟨false, pre ++ replicate (m + 1) placeholderTokenId⟩
      if s.rejected then s.outputTokenIds
      else s.outputTokenIds.set (pre.length + n) (args.bonusTokenIds reqIdx)) =
    pre ++ args.emitted reqIdx pre.length n ++
      replicate (m + 1 - (args.emitted reqIdx pre.length n).length) placeholderTokenId := by
  induction n generalizing pre m with
  | zero =>
    rw [range'_zero, foldl_nil]
    rw [if_neg Bool.false_ne_true, replicate_succ, add_zero pre.length, set_append_cons,
      append_assoc]
    rfl
  | succ n ih =>
    obtain ⟨m, rfl⟩ : ∃ k, m = k + 1 := ⟨m - 1, by omega⟩
    rw [range'_succ, foldl_cons, emitted]
    have hstep : args.verifyStep (args.startIdx reqIdx)
        ⟨false, pre ++ replicate (m + 1 + 1) placeholderTokenId⟩ pre.length =
        if args.accepted (args.startIdx reqIdx) pre.length then
          ⟨false, pre ++ [args.draftTokenIds (args.startIdx reqIdx + pre.length)] ++
            replicate (m + 1) placeholderTokenId⟩
        else ⟨true, pre ++ args.recoveredTokenIds (args.startIdx reqIdx + pre.length) ::
            replicate (m + 1) placeholderTokenId⟩ := by
      rw [verifyStep, if_neg Bool.false_ne_true, replicate_succ, set_append_cons,
        set_append_cons, append_assoc, singleton_append]
    rw [hstep]
    split
    · have h := ih (pre ++ [args.draftTokenIds (args.startIdx reqIdx + pre.length)]) m (by omega)
      rw [length_append, length_singleton, add_assoc, add_comm 1 n] at h
      rw [h, append_assoc pre, singleton_append, length_cons, Nat.add_sub_add_right]
    · rw [foldl_verifyStep_rejected, append_assoc]
      rfl

/-- **The row of a request** is what is emitted, and then placeholders. -/
theorem rejectionSampleRow_eq (h : args.Ordinary reqIdx) :
    args.rejectionSampleRow reqIdx = args.emitted reqIdx 0 (args.numDraftTokens reqIdx) ++
      replicate (args.maxSpecLen + 1 -
        (args.emitted reqIdx 0 (args.numDraftTokens reqIdx)).length) placeholderTokenId := by
  have hloop := foldl_verifyStep_eq args reqIdx [] _ _ h.fits
  rw [length_nil, nil_append, nil_append, zero_add, ← range_eq_range'] at hloop
  rw [rejectionSampleRow, rejectionRandomSampleKernel, h.random, if_neg Bool.false_ne_true, hloop]

/-- The row starts with some tokens and one more exactly if the drafts at their positions are these
tokens and are accepted, and the next token is the one more. -/
theorem append_singleton_prefix_emitted_iff (ys : List ℤ) (y : ℤ) (pos n : ℕ) :
    ys ++ [y] <+: args.emitted reqIdx pos n ↔ ys.length ≤ n ∧
      (∀ (i : ℕ) x, ys[i]? = some x → args.accepted (args.startIdx reqIdx) (pos + i) ∧
        args.draftTokenIds (args.startIdx reqIdx + (pos + i)) = x) ∧
      (args.emitted reqIdx (pos + ys.length) (n - ys.length)).head? = some y := by
  induction ys generalizing pos n with
  | nil =>
    rw [nil_append]
    rcases hl : args.emitted reqIdx pos n with - | ⟨a, l⟩
    · exact absurd hl (emitted_ne_nil pos n)
    · rw [cons_prefix_cons, head?_cons, Option.some_inj]
      exact ⟨fun h ↦ ⟨zero_le n, nofun, h.1.symm⟩, fun h ↦ ⟨h.2.2.symm, nil_prefix⟩⟩
  | cons x ys ih =>
    rw [cons_append, length_cons]
    cases n with
    | zero =>
      refine ⟨fun h ↦ ?_, fun h ↦ absurd h.1 (not_succ_le_zero _)⟩
      have := h.length_le
      rw [length_cons, length_append, length_singleton, emitted, length_singleton] at this
      omega
    | succ n =>
      rw [emitted]
      by_cases hacc : args.accepted (args.startIdx reqIdx) pos
      · rw [if_pos hacc, cons_prefix_cons, ih, Nat.add_sub_add_right, add_assoc,
          add_comm 1 ys.length, succ_le_succ_iff]
        constructor
        · rintro ⟨hx, hle, hall, hhead⟩
          refine ⟨hle, fun i z hz ↦ ?_, hhead⟩
          cases i with
          | zero =>
            cases hz
            exact ⟨hacc, hx.symm⟩
          | succ i => rw [← add_assoc, add_right_comm]; exact hall i z hz
        · rintro ⟨hle, hall, hhead⟩
          refine ⟨(hall 0 x rfl).2.symm, hle, fun i z hz ↦ ?_, hhead⟩
          rw [add_assoc, add_comm 1 i]
          exact hall (i + 1) z hz
      · rw [if_neg hacc]
        refine ⟨fun h ↦ ?_, fun h ↦ absurd (h.2.1 0 x rfl).1 hacc⟩
        have := h.length_le
        rw [length_cons, length_append, length_singleton, length_singleton] at this
        omega

/-- Placeholders do not count: a row starts with some tokens exactly if they are emitted. -/
theorem prefix_rejectionSampleRow_iff (hargs : args.Ordinary reqIdx) {ys : List ℤ}
    (hys : ∀ y ∈ ys, 0 ≤ y) :
    ys <+: args.rejectionSampleRow reqIdx ↔
      ys <+: args.emitted reqIdx 0 (args.numDraftTokens reqIdx) := by
  rw [rejectionSampleRow_eq hargs]
  refine ⟨fun h ↦ ?_, fun h ↦ h.trans (prefix_append _ _)⟩
  obtain h' | ⟨rest, rfl⟩ := prefix_or_prefix_of_prefix h (prefix_append _ _)
  · exact h'
  · -- what comes after the tokens is a placeholder, which is negative
    cases rest with
    | nil => simpa only [append_nil] using prefix_rfl
    | cons y rest =>
      have hy := ((prefix_append_right_inj _).1 h).subset mem_cons_self
      have hneg := hys y (mem_append_right _ mem_cons_self)
      rw [eq_of_mem_replicate hy] at hneg
      exact absurd hneg (by decide)

end RejectionArgs

end OneCatVllm
