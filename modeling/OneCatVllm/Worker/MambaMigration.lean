import Mathlib.Algebra.Order.Group.Int
import Mathlib.Data.List.Basic
import OneCatVllm.Lib.Grid

/-!
# Moving recurrent states on the GPU

`preprocess_state` and `postprocess_state` of `MambaHybridModelState` in `align` mode without
replay: the kernels of `vllm/v1/worker/gpu/mamba_align.py`, for one request.

Every column of a request's block table holds a recurrent state. A state is here **the list of
tokens it has absorbed**: a state that has absorbed a rejected draft is then none of the request's.
The forward step itself is not part of that file; `forward` says what is assumed of it.

Between two steps the state after all computed tokens is in the running column, as many columns on
as drafts were accepted (`Ready`).
-/

namespace OneCatVllm.MambaMigration

open Function Grid Int List Nat

variable {τ : Type}

/-- What the kernels keep of a request, and its computed tokens. -/
structure AlignState (τ : Type) where
  /-- `-2` before the first step. -/
  stateIdx : ℤ
  numAccepted : ℕ
  columns : ℤ → List τ
  computed : List τ

/-- The running column of a step that ends at `n` tokens. -/
def columnOf (b n : ℕ) : ℤ := cdiv n b - 1

/-- A step of a request: a chunk of its prompt, or its last token with drafts of which some are
accepted. -/
inductive AlignStep (τ : Type)
  | prefill (token : τ) (rest : List τ) (sampled : Bool)
  | decode (token : τ) (drafts : List τ) (accepted : ℕ) (h : accepted ≤ drafts.length)

namespace AlignStep

def tokens : AlignStep τ → List τ
  | prefill token rest _ => token :: rest
  | decode token drafts _ _ => token :: drafts

def hasDrafts : AlignStep τ → Bool
  | prefill .. => false
  | decode _ drafts _ _ => !drafts.isEmpty

/-- The tokens of the step that are computed after it. -/
def kept : AlignStep τ → List τ
  | prefill token rest _ => token :: rest
  | decode token drafts accepted _ => (token :: drafts).take (accepted + 1)

def numSampled : AlignStep τ → ℕ
  | prefill _ _ sampled => sampled.toNat
  | decode _ _ accepted _ => accepted + 1

end AlignStep

namespace AlignState

variable (b : ℕ) (s : AlignState τ)

/-- `src_col`: the running column, seeded in the first step. -/
def srcCol : ℤ := if s.stateIdx = -2 then columnOf b s.computed.length else s.stateIdx

/-- `token_bias` of a step's preparation. -/
def tokenBias : ℕ := s.numAccepted - 1

/-- `preprocess_mamba_align_fused_kernel` and `_precopy_mamba_align_kernel`, before a step over `q`
tokens. -/
def preprocess (q : ℕ) : AlignState τ :=
  let newStateIdx := columnOf b (s.computed.length + q)
  let crossedBoundary := 0 ≤ s.srcCol b ∧ s.srcCol b ≠ newStateIdx
  let singleTokenTail := q = 1 ∧ 0 < s.tokenBias
  { s with
    stateIdx := newStateIdx
    numAccepted := if crossedBoundary ∨ singleTokenTail then 1 else s.numAccepted
    columns :=
      if s.srcCol b < 0 ∨ (s.srcCol b = newStateIdx ∧ ¬ singleTokenTail) then s.columns
      else update s.columns newStateIdx (s.columns (s.srcCol b + s.tokenBias)) }

/-- The state that a step reads. -/
def read : List τ := s.columns (s.stateIdx + s.numAccepted - 1)

/-- **What is assumed of a forward step**: with drafts it leaves the state after each token in a
column of its own, and otherwise the last one in the running column. Without computed tokens there
is nothing to read. -/
def forward (hasDrafts : Bool) (tokens : List τ) : AlignState τ :=
  let start := if s.computed = [] then [] else s.read
  { s with
    columns := fun c ↦
      if hasDrafts ∧ s.stateIdx ≤ c ∧ c < s.stateIdx + tokens.length then
        start ++ tokens.take ((c - s.stateIdx).toNat + 1)
      else if c = s.stateIdx then start ++ tokens
      else s.columns c }

/-- `postprocess_state` with `_postprocess_mamba_align_kernel`. -/
def postprocess (numSampled : ℕ) (computed : List τ) : AlignState τ :=
  let numAccepted := max numSampled 1
  let numTokensRunningState : ℤ := computed.length - numAccepted + 1
  let aligned := computed.length / b * b
  let tokenBias := aligned - numTokensRunningState
  let dstCol : ℤ := (aligned / b : ℕ) - 1
  if aligned < numTokensRunningState then { s with numAccepted, computed }
  else
    { s with
      computed
      numAccepted := if s.stateIdx = dstCol then 1 else numAccepted
      columns :=
        if s.stateIdx = dstCol ∧ tokenBias = 0 then s.columns
        else update s.columns dstCol (s.columns (s.stateIdx + tokenBias)) }

/-- A whole step. -/
def step (e : AlignStep τ) : AlignState τ :=
  ((s.preprocess b e.tokens.length).forward e.hasDrafts e.tokens).postprocess b e.numSampled
    (s.computed ++ e.kept)

/-- A request before its first step, with a cached state if tokens are computed already. -/
structure Start : Prop where
  stateIdx : s.stateIdx = -2
  numAccepted : s.numAccepted = 1
  cached : s.computed ≠ [] → s.columns (columnOf b s.computed.length) = s.computed

/-- **Between steps** the state after the computed tokens is where the next step looks for it. -/
structure Ready : Prop where
  pos : 0 < s.numAccepted
  srcCol : s.computed ≠ [] → 0 ≤ s.srcCol b
  state : s.computed ≠ [] → s.columns (s.srcCol b + s.tokenBias) = s.computed

variable {b s}

theorem columnOf_nonneg (hb : 0 < b) {n : ℕ} (h : 0 < n) : 0 ≤ columnOf b n := by
  have := cdiv_pos hb h
  rw [columnOf]
  omega

theorem Start.ready (hb : 0 < b) (h : s.Start b) : s.Ready b where
  pos := h.numAccepted ▸ one_pos
  srcCol hne := by
    rw [AlignState.srcCol, if_pos h.stateIdx]
    exact columnOf_nonneg hb (length_pos_iff.2 hne)
  state hne := by
    rw [AlignState.srcCol, if_pos h.stateIdx, tokenBias, h.numAccepted]
    simpa using h.cached hne

/-- The running column itself, once it is known. -/
theorem Ready.of_read (hidx : 0 ≤ s.stateIdx) (hpos : 0 < s.numAccepted)
    (hread : s.read = s.computed) : s.Ready b := by
  have hsrc : s.srcCol b = s.stateIdx := if_neg (by omega)
  have hcol : s.stateIdx + (s.tokenBias : ℤ) = s.stateIdx + s.numAccepted - 1 := by
    rw [tokenBias]
    omega
  exact ⟨hpos, fun _ ↦ hsrc ▸ hidx, fun _ ↦ hsrc ▸ hcol ▸ hread⟩

/-- **A prepared step reads the state after the computed tokens.** -/
theorem Ready.read_preprocess (h : s.Ready b) (hne : s.computed ≠ []) (q : ℕ) :
    (s.preprocess b q).read = s.computed := by
  have hpos := h.pos
  have hsrc := h.srcCol hne
  by_cases hstay : s.srcCol b = columnOf b (s.computed.length + q) ∧ ¬ (q = 1 ∧ 0 < s.tokenBias)
  · have hbias : columnOf b (s.computed.length + q) + (s.numAccepted : ℤ) - 1 =
        s.srcCol b + s.tokenBias := by
      rw [tokenBias]
      omega
    have hsame : ¬ ((0 ≤ s.srcCol b ∧ s.srcCol b ≠ columnOf b (s.computed.length + q)) ∨
        (q = 1 ∧ 0 < s.tokenBias)) := fun hcon ↦ hcon.elim (fun h ↦ h.2 hstay.1) hstay.2
    rw [preprocess, if_neg hsame, if_pos (Or.inr hstay)]
    exact (congrArg s.columns hbias).trans (h.state hne)
  · have hmoved : (0 ≤ s.srcCol b ∧ s.srcCol b ≠ columnOf b (s.computed.length + q)) ∨
        (q = 1 ∧ 0 < s.tokenBias) := by
      by_contra hcon
      rw [not_or, not_and, not_not] at hcon
      exact hstay ⟨hcon.1 hsrc, hcon.2⟩
    rw [preprocess, if_pos hmoved, if_neg (not_or.2 ⟨not_lt.2 hsrc, hstay⟩)]
    show update _ (columnOf _ _) _ (columnOf _ _ + 1 - 1) = _
    rw [Int.add_sub_cancel, update_self]
    exact h.state hne

/-- The states after the tokens of a step start where the computed tokens end. -/
theorem Ready.start_eq (h : s.Ready b) (q : ℕ) :
    (if (s.preprocess b q).computed = [] then [] else (s.preprocess b q).read) = s.computed := by
  by_cases hne : s.computed = []
  · exact (if_pos hne).trans hne.symm
  · exact (if_neg hne).trans (h.read_preprocess hne q)

/-- A step without drafts leaves the last state in the running column. -/
theorem Ready.forward_last (h : s.Ready b) (q : ℕ) (tokens : List τ) :
    ((s.preprocess b q).forward false tokens).columns (columnOf b (s.computed.length + q)) =
      s.computed ++ tokens := by
  rw [forward, h.start_eq]
  exact if_pos rfl

/-- **A decode step** leaves the state after each of its tokens in a column. -/
theorem Ready.forward_decode (h : s.Ready b) (token : τ) (drafts : List τ) {j : ℕ}
    (hj : j ≤ drafts.length) :
    ((s.preprocess b (token :: drafts).length).forward (!drafts.isEmpty) (token :: drafts)).columns
        (columnOf b (s.computed.length + (token :: drafts).length) + j) =
      s.computed ++ (token :: drafts).take (j + 1) := by
  cases drafts with
  | nil =>
    obtain rfl := le_zero.1 hj
    exact (congrArg _ (add_zero _)).trans (h.forward_last 1 [token])
  | cons d drafts =>
    rw [forward, h.start_eq]
    have hcol : columnOf b (s.computed.length + (token :: d :: drafts).length) + (j : ℤ) -
        columnOf b (s.computed.length + (token :: d :: drafts).length) = j := by omega
    rw [length_cons] at hj
    have hlt : (j : ℤ) < (token :: d :: drafts).length := by
      rw [length_cons, length_cons]
      omega
    refine (if_pos ⟨rfl, le_add_of_nonneg_right (natCast_nonneg j),
      Int.add_lt_add_left hlt _⟩).trans ?_
    show _ ++ take ((_ - columnOf _ _).toNat + 1) _ = _
    rw [hcol, toNat_natCast]

section Postprocess

variable {t : AlignState τ} {n q a : ℕ} {computed : List τ}

/-- **After a step** that keeps the first `a + 1` of its last `q` tokens, and has left the states
after them in the columns from the running one on. -/
theorem postprocess_spec (hb : 0 < b) (hidx : t.stateIdx = columnOf b (n + q)) (ha : a + 1 ≤ q)
    (hlen : computed.length = n + (a + 1))
    (hcols : ∀ j ≤ a, t.columns (t.stateIdx + j) = computed.take (n + (j + 1))) :
    (t.postprocess b (a + 1) computed).Ready b ∧
      (n < computed.length / b * b →
        (t.postprocess b (a + 1) computed).columns ((computed.length / b * b / b : ℕ) - 1) =
          computed.take (computed.length / b * b)) := by
  have hnonneg : 0 ≤ t.stateIdx := hidx ▸ columnOf_nonneg hb (by omega)
  have hall : t.columns (t.stateIdx + a) = computed := by
    rw [hcols a le_rfl, ← hlen, take_length]
  have hrunning : t.stateIdx + ((a + 1 : ℕ) : ℤ) - 1 = t.stateIdx + a := by omega
  have hmax : max (a + 1) 1 = a + 1 := max_eq_left (le_add_left 1 a)
  have hrun : (computed.length : ℤ) - (a + 1 : ℕ) + 1 = n + 1 := by omega
  have hle : computed.length / b * b ≤ computed.length := div_mul_le_self _ b
  have hdiv : computed.length / b * b / b = computed.length / b := Nat.mul_div_cancel _ hb
  rw [postprocess, hmax, hrun, hdiv]
  by_cases hlt : ((computed.length / b * b : ℕ) : ℤ) < n + 1
  · rw [if_pos hlt]
    refine ⟨.of_read hnonneg (succ_pos a) ?_, fun h ↦ ?_⟩
    · exact (congrArg t.columns hrunning).trans hall
    · omega
  rw [if_neg hlt]
  -- the state after the tokens up to the boundary is among those the step has left
  obtain ⟨j, hj⟩ : ∃ j, computed.length / b * b = n + (j + 1) :=
    ⟨computed.length / b * b - (n + 1), by omega⟩
  have hja : j ≤ a := by omega
  have hbias : ((computed.length / b * b : ℕ) : ℤ) - (n + 1) = j := by omega
  have hdst : (computed.length / b : ℕ) ≤ cdiv (n + q) b := by
    rw [← cdiv_mul hb (computed.length / b)]
    exact cdiv_mono hb (by omega)
  rw [hbias]
  by_cases heq : t.stateIdx = (computed.length / b : ℕ) - 1
  · -- the running column is the boundary's: everything was accepted
    have hlast : n + q ≤ computed.length / b * b := by
      rw [← cdiv_le_iff hb]
      rw [hidx, columnOf] at heq
      omega
    obtain rfl : j = a := by omega
    have hcol : (if t.stateIdx = (computed.length / b : ℕ) - 1 ∧ (j : ℤ) = 0 then t.columns
        else update t.columns ((computed.length / b : ℕ) - 1)
          (t.columns (t.stateIdx + j))) t.stateIdx = computed := by
      split_ifs with hzero
      · rw [← hall, hzero.2, add_zero]
      · rw [← heq, update_self, hall]
    rw [if_pos heq]
    refine ⟨.of_read hnonneg one_pos ?_, fun _ ↦ ?_⟩
    · exact (congrArg _ (Int.add_sub_cancel t.stateIdx 1)).trans hcol
    · rw [← heq, hj, ← hlen, take_length]
      rw [← heq] at hcol
      exact hcol
  · rw [if_neg heq, if_neg (fun h ↦ heq h.1)]
    refine ⟨.of_read hnonneg (succ_pos a) ?_, fun _ ↦ ?_⟩
    · have hne : t.stateIdx + (a : ℤ) ≠ (computed.length / b : ℕ) - 1 := by
        rw [hidx, columnOf] at heq ⊢
        omega
      rw [read, hrunning]
      exact (update_of_ne hne _ _).trans hall
    · rw [hj, ← hcols j hja]
      exact update_self ..

end Postprocess

/-- **A decode step.** -/
theorem Ready.step_decode (hb : 0 < b) (h : s.Ready b) (token : τ) (drafts : List τ)
    {accepted : ℕ} (ha : accepted ≤ drafts.length) {s' : AlignState τ}
    (hs' : s.step b (.decode token drafts accepted ha) = s') :
    s'.Ready b ∧
      (s.computed.length < s'.computed.length / b * b →
        s'.columns ((s'.computed.length / b * b / b : ℕ) - 1) =
          s'.computed.take (s'.computed.length / b * b)) := by
  subst hs'
  have hcomp : (s.step b (.decode token drafts accepted ha)).computed =
      s.computed ++ (token :: drafts).take (accepted + 1) := by
    rw [step, postprocess]
    split_ifs <;> rfl
  rw [hcomp]
  refine postprocess_spec hb rfl (succ_le_succ ha) ?_ fun j hj ↦ ?_
  · rw [length_append]
    exact congrArg _ (length_take_of_le (succ_le_succ ha))
  · refine (h.forward_decode token drafts (hj.trans ha)).trans ?_
    rw [take_length_add_append, AlignStep.kept, take_take, min_eq_left (succ_le_succ hj)]

/-- **One step.** -/
theorem Ready.step (hb : 0 < b) (h : s.Ready b) (e : AlignStep τ) : (s.step b e).Ready b := by
  cases e with
  | prefill token rest sampled =>
    -- the whole chunk counts as one token whose state is left in the running column
    have hone : max sampled.toNat 1 = max 1 1 := max_eq_right (Bool.toNat_le sampled)
    have hlen : (s.computed ++ token :: rest).length = s.computed.length + rest.length + 1 := by
      rw [length_append, length_cons, add_assoc]
    rw [AlignState.step, AlignStep.numSampled, postprocess, hone]
    refine (postprocess_spec (a := 0) (q := 1) (n := s.computed.length + rest.length) hb rfl le_rfl
      hlen fun j hj ↦ ?_).1
    obtain rfl := le_zero.1 hj
    rw [← hlen, take_length]
    exact (congrArg _ (add_zero _)).trans (h.forward_last (rest.length + 1) (token :: rest))
  | decode token drafts accepted ha => exact (h.step_decode hb token drafts ha rfl).1

/-- **Any sequence of steps.** -/
theorem Ready.run (hb : 0 < b) (h : s.Ready b) (steps : List (AlignStep τ)) :
    (steps.foldl (AlignState.step b) s).Ready b := by
  induction steps generalizing s with
  | nil => exact h
  | cons e steps ih => exact ih (h.step hb e)

end AlignState

/-- **The states follow the request**: whatever steps a request has run, the next one reads the
state after exactly the computed tokens, and a decode step that reaches or passes a boundary leaves
in the boundary's column the state after exactly the tokens before it. -/
theorem align_state_exact {b : ℕ} (hb : 0 < b) {s₀ : AlignState τ} (h₀ : s₀.Start b)
    (steps : List (AlignStep τ)) {s : AlignState τ} (hs : steps.foldl (AlignState.step b) s₀ = s) :
    (∀ e : AlignStep τ, 0 < s.computed.length →
      (s.preprocess b e.tokens.length).read = s.computed) ∧
    ∀ (token : τ) (drafts : List τ) (accepted : ℕ) (ha : accepted ≤ drafts.length)
      (s' : AlignState τ), s.step b (.decode token drafts accepted ha) = s' →
      s.computed.length < s'.computed.length / b * b →
      s'.columns ((s'.computed.length / b * b / b : ℕ) - 1) =
        s'.computed.take (s'.computed.length / b * b) := by
  subst hs
  have hready := (h₀.ready hb).run hb steps
  refine ⟨fun e hpos ↦ hready.read_preprocess (length_pos_iff.1 hpos) _, ?_⟩
  intro token drafts accepted ha s' hs'
  exact (hready.step_decode hb token drafts ha hs').2

/-- Three tokens of a prompt and a decode step with two drafts, one of them accepted, over blocks of
two: the second block's column holds the state after four tokens. -/
theorem align_state_exact_rejected :
    let s₀ : AlignState ℕ := ⟨-2, 1, fun _ ↦ [], []⟩
    let s := s₀.step 2 (.prefill 10 [11, 12] true)
    s₀.Start 2 ∧ (s.preprocess 2 3).read = [10, 11, 12] ∧
      (s.step 2 (.decode 13 [14, 15] 1 (by decide))).columns 1 = [10, 11, 12, 13] := by
  intro s₀ s
  have h₀ : s₀.Start 2 := ⟨rfl, rfl, fun h ↦ absurd rfl h⟩
  obtain ⟨hread, hcol⟩ := align_state_exact (s := s) Nat.two_pos h₀ [.prefill 10 [11, 12] true] rfl
  have hcomp : (s.step 2 (.decode 13 [14, 15] 1 (by decide))).computed = [10, 11, 12, 13, 14] := by
    decide
  have hdone := hcol 13 [14, 15] 1 (by decide) _ rfl
  rw [hcomp] at hdone
  exact ⟨h₀, (hread (.decode 13 [14, 15] 1 (by decide)) (by decide)).trans (by decide),
    hdone (by decide)⟩

end OneCatVllm.MambaMigration
