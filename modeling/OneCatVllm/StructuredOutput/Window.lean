import OneCatVllm.Lib.Fallible
import OneCatVllm.StructuredOutput.Manager

/-!
# The rows of one window

The loop of `grammar_bitmask` over the drafts of one request raises nothing, as long as drafts that
are constrained from the start are acceptable (`Drafted`), and rolling back what it advanced gives
the grammar it started with. **What the rows let through is acceptable**: when the verifier accepts
the first drafts and samples one more token, each allowed by its row, the grammar reads all of them
that are not reasoning.
-/

namespace OneCatVllm

open Automaton Fallible List Nat

variable {Q : Type} {A : Automaton Q ℤ} {q : Q}

/-- Drafts that the automaton reads, up to a placeholder or to termination. -/
def Drafted (A : Automaton Q ℤ) : Q → List ℤ → Prop
  | _, [] => True
  | q, t :: ts => t = -1 ∨ A.terminated q = true ∨ ∃ q', A.next q t = some q' ∧ Drafted A q' ts

/-- Validated drafts, padded with placeholders. -/
theorem drafted_accepted (ts : List ℤ) (k : ℕ) :
    Drafted A q (A.accepted q ts ++ replicate k (-1)) := by
  have hpad : ∀ q, Drafted A q (replicate k (-1)) := by
    intro q
    cases k with
    | zero => trivial
    | succ k => exact .inl rfl
  induction ts generalizing q with
  | nil => exact hpad q
  | cons t ts ih =>
    rw [accepted]
    split_ifs with hq
    · exact hpad q
    · rcases hnext : A.next q t with - | q'
      · exact hpad q
      · exact .inr (.inr ⟨q', hnext, ih⟩)

theorem Drafted.take {ts : List ℤ} (h : Drafted A q ts) (k : ℕ) : Drafted A q (ts.take k) := by
  induction ts generalizing q k with
  | nil =>
    rw [take_nil]
    trivial
  | cons t ts ih =>
    cases k with
    | zero => trivial
    | succ k =>
      rcases h with h | h | ⟨q', hq', h⟩
      · exact .inl h
      · exact .inr (.inl h)
      · exact .inr (.inr ⟨q', hq', ih h k⟩)

namespace StructuredRequest

variable {reasoner : Option Reasoner} {w w' : Window Q} {token : ℤ} {tokens drafts : List ℤ}
  {rows : List MaskRow} {k : ℕ}

/-! ### One draft -/

/-- Drafts that are read without a validation of their own can be read. -/
def Window.Ready (w : Window Q) (tokens : List ℤ) : Prop :=
  w.applyBitmask = true → w.postReasoningEndInWindow = false →
    Drafted w.grammar.automaton w.grammar.current tokens

/-- The grammar of the window reads the token. -/
theorem Window.step_of_next (htoken : token ≠ -1) (happly : w.applyBitmask = true)
    (hterm : w.grammar.isTerminated = false)
    (hq : w.grammar.automaton.next w.grammar.current token = some q) :
    w.step reasoner token = .ok { w with
      grammar := w.grammar.push q, stateAdvancements := w.stateAdvancements + 1 } := by
  have hvalid : w.grammar.validateTokens [token] = [token] := by
    rw [Grammar.validateTokens, accepted, if_neg (by rw [← Grammar.isTerminated]; simp [hterm]), hq]
    rfl
  unfold Window.step
  rw [if_neg htoken, if_neg (by simp [happly]), if_neg (by simp [hterm]),
    if_neg (by simp [hvalid]), Grammar.acceptTokens_singleton hterm hq]
  rfl

/-- **A draft token raises nothing**, and what it advances can be rolled back. -/
theorem Window.step_ok (reasoner : Option Reasoner) (h : w.Ready (token :: tokens)) :
    ∃ w', w.step reasoner token = .ok w' ∧ w'.Ready tokens ∧
      w'.grammar.rollback w'.stateAdvancements = w.grammar.rollback w.stateAdvancements := by
  by_cases htoken : token = -1
  · refine ⟨{ w with applyBitmask := false }, ?_, nofun, rfl⟩
    unfold Window.step
    rw [if_pos htoken]
  · rcases happly : w.applyBitmask with - | -
    · rcases reasoner with - | r
      · refine ⟨w, by rw [Window.step, if_neg htoken, if_pos happly], ?_, rfl⟩
        intro h'
        cases happly.symm.trans h'
      · by_cases hend : token = r.endToken
        · refine ⟨{ w with applyBitmask := true, postReasoningEndInWindow := true }, ?_, nofun, rfl⟩
          rw [Window.step, if_neg htoken, if_pos happly]
          exact if_pos hend
        · refine ⟨w, ?_, ?_, rfl⟩
          · rw [Window.step, if_neg htoken, if_pos happly]
            exact if_neg hend
          · intro h'
            cases happly.symm.trans h'
    · rcases hterm : w.grammar.isTerminated with - | -
      · rcases hq : w.grammar.automaton.next w.grammar.current token with - | q
        · -- a draft that cannot be read comes from before the mask
          have hpost : w.postReasoningEndInWindow = true := by
            by_contra hpost
            rcases h happly (by simpa using hpost) with h | h | ⟨q', hq', -⟩
            · exact htoken h
            · cases hterm.symm.trans h
            · cases hq.symm.trans hq'
          have hvalid : w.grammar.validateTokens [token] = [] := by
            rw [Grammar.validateTokens, accepted,
              if_neg (by rw [← Grammar.isTerminated]; simp [hterm]), hq]
          refine ⟨w, ?_, fun _ hpost' ↦ ?_, rfl⟩
          · unfold Window.step
            rw [if_neg htoken, if_neg (by simp [happly]), if_neg (by simp [hterm]),
              if_pos ⟨hpost, hvalid⟩]
          · cases hpost.symm.trans hpost'
        · refine ⟨_, Window.step_of_next htoken happly hterm hq, fun happly' hpost ↦ ?_,
            rfl⟩
          rcases h happly hpost with h | h | ⟨q', hq', hrest⟩
          · exact absurd h htoken
          · cases hterm.symm.trans h
          · cases hq.symm.trans hq'
            exact hrest
      · refine ⟨w, ?_, fun _ hpost ↦ ?_, rfl⟩
        · unfold Window.step
          rw [if_neg htoken, if_neg (by simp [happly]), if_pos hterm]
        · cases tokens with
          | nil => trivial
          | cons t ts => exact .inr (.inl hterm)

/-! ### All drafts -/

section

variable (reasoner : Option Reasoner)

/-- **The loop raises nothing**, and can be rolled back. -/
theorem Window.run_ok (h : w.Ready tokens) :
    ∃ rows w', Window.run reasoner tokens w = .ok (rows, w') ∧ rows.length = tokens.length ∧
      w'.grammar.rollback w'.stateAdvancements = w.grammar.rollback w.stateAdvancements := by
  induction tokens generalizing w with
  | nil => exact ⟨[], w, rfl, rfl, rfl⟩
  | cons token tokens ih =>
    obtain ⟨w₁, hw₁, hready, hroll₁⟩ := Window.step_ok reasoner h
    obtain ⟨rows, w', hw', hlen, hroll⟩ := ih hready
    refine ⟨w.grammar.maskRow w.applyBitmask :: rows, w', ?_, congrArg (· + 1) hlen,
      hroll.trans hroll₁⟩
    exact bind_eq_ok.2 ⟨w₁, hw₁, bind_eq_ok.2 ⟨(rows, w'), hw', rfl⟩⟩

/-- The tokens of a window that the grammar reads: all of them when it is constrained, otherwise
those behind the first end token. -/
def Window.content (applyBitmask : Bool) (tokens : List ℤ) : List ℤ :=
  if applyBitmask then tokens
  else
    match reasoner with
    | none => []
    | some r => (tokens.dropWhile (· ≠ r.endToken)).tail

theorem Window.content_singleton_of_false (token : ℤ) :
    Window.content reasoner false [token] = [] := by
  rcases reasoner with - | r
  · rfl
  · simp only [Window.content, dropWhile_cons]
    by_cases hend : token = r.endToken
    · simp [hend]
    · simp [hend]

end

/-- The verifier accepts the first `k` drafts, none of them a placeholder, and samples one more
token, each allowed by the row of its position. -/
structure Emits (rows : List MaskRow) (drafts : List ℤ) (k : ℕ) (token : ℤ) : Prop where
  le : k ≤ drafts.length
  lt_rows : k < rows.length
  accepted : ∀ i d row, i < k → drafts[i]? = some d → rows[i]? = some row → d ≠ -1 ∧ row d = true
  sampled : ∀ row, rows[k]? = some row → row token = true

theorem Emits.tail {row : MaskRow} {d : ℤ} (h : Emits (row :: rows) (d :: drafts) (k + 1) token) :
    Emits rows drafts k token where
  le := le_of_succ_le_succ h.le
  lt_rows := lt_of_succ_lt_succ h.lt_rows
  accepted i d' row' hi hd hrow :=
    h.accepted (i + 1) d' row' (succ_lt_succ hi) hd hrow
  sampled := h.sampled

/-- A row behind the emitted tokens does not matter. -/
theorem Emits.append (h : Emits rows drafts k token) (row : MaskRow) :
    Emits (rows ++ [row]) drafts k token where
  le := h.le
  lt_rows := by
    rw [length_append]
    exact Nat.lt_add_right _ h.lt_rows
  accepted i d row' hi hd hrow := by
    rw [getElem?_append_left (Nat.lt_trans hi h.lt_rows)] at hrow
    exact h.accepted i d row' hi hd hrow
  sampled row' hrow := by
    rw [getElem?_append_left h.lt_rows] at hrow
    exact h.sampled row' hrow

/-- **What the rows let through is read.** -/
theorem Window.isSome_run_of_emits {bonusApply : Bool}
    (hrun : Window.run reasoner tokens w = .ok (rows, w'))
    (hbonus : w'.applyBitmask = true → bonusApply = true)
    (h : Emits (rows ++ [w'.grammar.maskRow bonusApply]) tokens k token) :
    (w.grammar.automaton.run w.grammar.current
      (Window.content reasoner w.applyBitmask (tokens.take k ++ [token]))).isSome = true := by
  induction tokens generalizing w rows k with
  | nil =>
    obtain ⟨rfl, rfl⟩ : [] = rows ∧ w = w' := by simpa [Window.run] using hrun
    obtain rfl : k = 0 := le_zero.1 h.le
    have hrow := h.sampled _ rfl
    rcases happly : w.applyBitmask with - | -
    · rw [take_zero, nil_append, Window.content_singleton_of_false]
      rfl
    · rw [hbonus happly] at hrow
      exact Grammar.isSome_run_of_maskRow hrow
  | cons d drafts ih =>
    obtain ⟨w₁, hw₁, hrest⟩ := bind_eq_ok.1 hrun
    obtain ⟨⟨rows₁, w₂⟩, hw₂, hok⟩ := bind_eq_ok.1 hrest
    cases hok
    cases k with
    | zero =>
      have hrow := h.sampled _ rfl
      rcases happly : w.applyBitmask with - | -
      · rw [take_zero, nil_append, Window.content_singleton_of_false]
        rfl
      · rw [happly] at hrow
        exact Grammar.isSome_run_of_maskRow hrow
    | succ k =>
      obtain ⟨hd, hrow⟩ := h.accepted 0 d _ (succ_pos k) rfl rfl
      have hread := ih hw₂ h.tail
      rw [take_succ_cons, cons_append]
      rcases happly : w.applyBitmask with - | -
      · rcases reasoner with - | r
        · rfl
        · rw [Window.step, if_neg hd] at hw₁
          split_ifs at hw₁ with hend
          · cases hw₁
            have hcontent : Window.content (some r) false (d :: (drafts.take k ++ [token])) =
                drafts.take k ++ [token] := by
              simp [Window.content, hend]
            rw [hcontent]
            exact hread
          · cases hw₁
            have hcontent : Window.content (some r) false (d :: (drafts.take k ++ [token])) =
                Window.content (some r) false (drafts.take k ++ [token]) := by
              simp [Window.content, hend]
            rw [hcontent]
            rw [happly] at hread
            exact hread
      · rcases hterm : w.grammar.isTerminated with - | -
        · rw [happly, Grammar.maskRow, if_pos (by simp [hterm])] at hrow
          obtain ⟨q, hq⟩ := Option.isSome_iff_exists.1 hrow
          rw [Window.step_of_next hd happly hterm hq] at hw₁
          cases hw₁
          have hcons : w.grammar.automaton.run w.grammar.current (d :: (drafts.take k ++ [token])) =
              w.grammar.automaton.run q (drafts.take k ++ [token]) := run_cons hterm hq
          show (w.grammar.automaton.run w.grammar.current
            (d :: (drafts.take k ++ [token]))).isSome = true
          rw [hcons]
          rw [happly] at hread
          exact hread
        · rw [run_of_terminated hterm]
          rfl

end StructuredRequest

end OneCatVllm
