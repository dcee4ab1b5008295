import Mathlib.Algebra.Order.BigOperators.Group.List
import Mathlib.Algebra.Order.Ring.Nat
import OneCatVllm.Lib.Transition
import OneCatVllm.StructuredOutput.Conforms

/-!
# Structured output stays inside its grammar

A system of requests with structured output: requests arrive and leave, drafts are proposed for
them, and every step fills the bitmask of a batch, samples tokens and advances the grammars. In
every state that such a system reaches the bitmask of every batch is filled without raising, leaves
the grammars as they were, and **whatever the verifier emits inside its rows is accepted**.
-/

namespace OneCatVllm

open Fallible Function List Nat Option StructuredRequest Transition

variable {Q : Type} {cfg : ManagerOptions} {s s' : StructuredRequests Q} {ids : List ℕ}
  {scheduled : ℕ → List ℤ} {req : StructuredRequest Q} {numDrafts : ℕ → ℕ}

/-! ### The rows of a batch -/

/-- The rows of one request among those of a batch. -/
def segment (count : ℕ → ℕ) (id : ℕ) : List ℕ → List MaskRow → List MaskRow
  | [], _ => []
  | id' :: ids, rows =>
    if id' = id then rows.take (count id') else segment count id ids (rows.drop (count id'))

/-- **The serial loop** fills the rows of every request as if it were alone. -/
theorem fillSerially_ok {P : ℕ → StructuredRequest Q → StructuredRequest Q → List MaskRow → Prop}
    (hids : ids.Nodup)
    (h : ∀ id ∈ ids, ∃ req rows req', s id = some req ∧
      req.fillRows cfg (scheduled id) = .ok (rows, req') ∧
      rows.length = rowCount cfg (scheduled id) ∧ P id req req' rows) :
    ∃ rows s', fillSerially cfg scheduled ids s = .ok (rows, s') ∧
      rows.length = (ids.map fun id ↦ rowCount cfg (scheduled id)).sum ∧
      (∀ id ∉ ids, s' id = s id) ∧
      ∀ id ∈ ids, ∃ req req', s id = some req ∧ s' id = some req' ∧
        P id req req' (segment (fun id ↦ rowCount cfg (scheduled id)) id ids rows) := by
  induction ids generalizing s with
  | nil => exact ⟨[], s, rfl, rfl, fun _ _ ↦ rfl, nofun⟩
  | cons id₀ ids ih =>
    obtain ⟨hid₀, hids⟩ := nodup_cons.1 hids
    obtain ⟨req₀, rows₀, req₀', hreq₀, hfill₀, hlen₀, hP₀⟩ := h id₀ mem_cons_self
    have hne : ∀ id ∈ ids, id ≠ id₀ := fun id hid heq ↦ hid₀ (heq ▸ hid)
    obtain ⟨rows, s', hrun, hlen, hframe, hrows⟩ :=
      ih (s := update s id₀ (some req₀')) hids fun id hid ↦ by
        rw [update_of_ne (hne id hid)]
        exact h id (mem_cons_of_mem _ hid)
    refine ⟨rows₀ ++ rows, s', ?_, ?_, fun id hid ↦ ?_, fun id hid ↦ ?_⟩
    · rw [fillSerially, hreq₀]
      exact bind_eq_ok.2 ⟨(rows₀, req₀'), hfill₀, bind_eq_ok.2 ⟨(rows, s'), hrun, rfl⟩⟩
    · rw [length_append, hlen₀, hlen, map_cons, sum_cons]
    · obtain ⟨hne₀, hnotMem⟩ := ne_and_not_mem_of_not_mem_cons hid
      rw [hframe id hnotMem, update_of_ne hne₀]
    · rcases mem_cons.1 hid with rfl | hid
      · refine ⟨req₀, req₀', hreq₀, ?_, ?_⟩
        · rw [hframe id hid₀, update_self]
        · rw [segment, if_pos rfl, ← hlen₀, take_left]
          exact hP₀
      · obtain ⟨req, req', hreq, hreq', hP⟩ := hrows id hid
        rw [update_of_ne (hne id hid)] at hreq
        refine ⟨req, req', hreq, hreq', ?_⟩
        rw [segment, if_neg (hne id hid).symm, ← hlen₀, drop_left]
        exact hP

/-- Without drafts there is one row, for the next token. -/
theorem StructuredRequest.Sound.fillRows_nil (h : Sound cfg req) :
    req.fillRows cfg [] = .ok ([(req.shouldFillBitmask cfg).2.grammar.maskRow
      (req.shouldFillBitmask cfg).1], (req.shouldFillBitmask cfg).2) := by
  obtain ⟨b, ended, hfill, -, -, -, hagain⟩ := h.shouldFillBitmask
  rw [StructuredRequest.fillRows, hfill]
  refine bind_eq_ok.2 ⟨([], ⟨req.grammar, b, false, 0⟩), rfl, ?_⟩
  simp only [hagain, ne_eq, not_true_eq_false, and_false, if_false, nil_append, Bool.or_self,
    Grammar.rollback, drop_zero]

/-- **The parallel loop** fills the same rows when there are no drafts. -/
theorem fillInParallel_eq (hids : ids.Nodup)
    (hsound : ∀ id ∈ ids, ∃ req, s id = some req ∧ Sound cfg req)
    (hnone : ∀ id ∈ ids, scheduled id = []) :
    fillInParallel cfg ids s = fillSerially cfg scheduled ids s := by
  induction ids generalizing s with
  | nil => rfl
  | cons id₀ ids ih =>
    obtain ⟨hid₀, hids⟩ := nodup_cons.1 hids
    obtain ⟨req₀, hreq₀, hsound₀⟩ := hsound id₀ mem_cons_self
    have hrest : fillInParallel cfg ids
        (update s id₀ (some (req₀.shouldFillBitmask cfg).2)) =
        fillSerially cfg scheduled ids (update s id₀ (some (req₀.shouldFillBitmask cfg).2)) := by
      refine ih hids (fun id hid ↦ ?_) fun id hid ↦ hnone id (mem_cons_of_mem _ hid)
      have hne : id ≠ id₀ := fun heq ↦ hid₀ (heq ▸ hid)
      rw [update_of_ne hne]
      exact hsound id (mem_cons_of_mem _ hid)
    rw [fillInParallel, fillSerially, hreq₀]
    simp only [hnone id₀ mem_cons_self, hsound₀.fillRows_nil, hrest]
    rfl

/-! ### The system -/

/-- What the verifier returns for a request: how many drafts it accepts and the token that it
samples behind them, and how many of these tokens are left when the request stops among them. -/
structure Emission where
  accepted : ℕ
  token : ℤ
  kept : ℕ
  deriving DecidableEq

def Emission.tokens (e : Emission) (drafts : List ℤ) : List ℤ :=
  (drafts.take e.accepted ++ [e.token]).take e.kept

/-- What happens to the requests. -/
inductive StructuredEvent (Q : Type)
  | arrive (id : ℕ) (req : StructuredRequest Q)
  | finish (id : ℕ)
  | updateDraftTokenIds (id : ℕ) (isPrefillChunk : Bool) (specTokenIds : List ℤ) (deltaFrom : ℤ)
  | updateDraftTokenIdsInOutput (id numScheduled : ℕ) (specTokenIds : List ℤ) (deltaFrom : ℤ)
  | step (ids : List ℕ) (numDrafts : ℕ → ℕ) (emitted : ℕ → Emission)

/-- The drafts that a step schedules: of every request the first ones. -/
def scheduledDrafts (s : StructuredRequests Q) (numDrafts : ℕ → ℕ) (id : ℕ) : List ℤ :=
  match s id with
  | none => []
  | some req => req.specTokenIds.take (numDrafts id)

/-- The outputs of a step. -/
def applyOutputs (cfg : ManagerOptions) (ids : List ℕ) (outputs : ℕ → List ℤ)
    (s : StructuredRequests Q) : StructuredRequests Q := fun id ↦
  if id ∈ ids then (s id).map fun req ↦ req.afterStep cfg (outputs id) else s id

/-- One event; `none` when it is impossible or the bitmask raises. -/
def structuredStep (cfg : ManagerOptions) (s : StructuredRequests Q) :
    StructuredEvent Q → Option (StructuredRequests Q)
  | .arrive id req => some (update s id (some req))
  | .finish id => some (update s id none)
  | .updateDraftTokenIds id isPrefillChunk specTokenIds deltaFrom =>
    (s id).map fun req ↦ update s id
      (some (req.updateDraftTokenIds cfg isPrefillChunk specTokenIds deltaFrom))
  | .updateDraftTokenIdsInOutput id numScheduled specTokenIds deltaFrom =>
    (s id).map fun req ↦ update s id
      (some (req.updateDraftTokenIdsInOutput cfg numScheduled specTokenIds deltaFrom))
  | .step ids numDrafts emitted =>
    (grammarBitmask cfg s ids (scheduledDrafts s numDrafts)).toOption.map fun result ↦
      applyOutputs cfg ids (fun id ↦ (emitted id).tokens (scheduledDrafts s numDrafts id)) result.2

/-- A request as it arrives; the front end may know whether its reasoning has ended. -/
def StructuredRequest.Fresh (req : StructuredRequest Q) : Prop :=
  req.outputTokenIds = [] ∧ req.specTokenIds = [] ∧ req.reasoningEndTokenIndex = none

section

variable (cfg : ManagerOptions) (s : StructuredRequests Q)

/-- A batch that the scheduler can form: known requests, each once, within the limits. -/
structure StructuredBatch (ids : List ℕ) (numDrafts : ℕ → ℕ) : Prop where
  nodup : ids.Nodup
  known : ∀ id ∈ ids, (s id).isSome = true
  length_le : ids.length ≤ cfg.maxNumSeqs
  drafts_le : ∀ id ∈ ids, numDrafts id ≤ cfg.numSpeculativeTokens

/-- The rows of one request of a batch. -/
def rowsOf (ids : List ℕ) (numDrafts : ℕ → ℕ) (rows : Option (List MaskRow)) (id : ℕ) :
    List MaskRow :=
  segment (fun id ↦ rowCount cfg (scheduledDrafts s numDrafts id)) id ids (rows.getD [])

/-- **How the engine uses the manager.** Drafts are proposed for prefill chunks or behind sampled
tokens, and the verifier emits what the rows of its requests allow. -/
def StructuredLegal : StructuredEvent Q → Prop
  | .arrive _ req => req.Fresh
  | .finish _ => True
  | .updateDraftTokenIds id isPrefillChunk _ _ =>
    isPrefillChunk = true ∨ ∀ req ∈ s id, req.outputTokenIds ≠ []
  | .updateDraftTokenIdsInOutput id _ _ _ => ∀ req ∈ s id, req.outputTokenIds ≠ []
  | .step ids numDrafts emitted =>
    StructuredBatch cfg s ids numDrafts ∧
    ∀ rows s', grammarBitmask cfg s ids (scheduledDrafts s numDrafts) = .ok (rows, s') →
      ∀ id ∈ ids, Emits (rowsOf cfg s ids numDrafts rows id) (scheduledDrafts s numDrafts id)
        (emitted id).accepted (emitted id).token

/-- Every request is sound. -/
def AllSound : Prop :=
  ∀ id req, s id = some req → Sound cfg req

end

/-- What is emitted within the rows of a request is accepted, and leaves the request sound. -/
def StructuredRequest.Accepts (cfg : ManagerOptions) (req : StructuredRequest Q) (drafts : List ℤ)
    (rows : List MaskRow) : Prop :=
  ∀ e : Emission, Emits rows drafts e.accepted e.token →
    (req.updateFromOutput cfg (e.tokens drafts)).1 = true ∧
      Sound cfg (req.afterStep cfg (e.tokens drafts))

theorem StructuredBatch.length_drafts_le (h : StructuredBatch cfg s ids numDrafts) {id : ℕ}
    (hid : id ∈ ids) : (scheduledDrafts s numDrafts id).length ≤ cfg.numSpeculativeTokens := by
  rw [scheduledDrafts]
  rcases s id with - | req
  · exact zero_le _
  · exact (length_take_le _ _).trans (h.drafts_le id hid)

theorem StructuredBatch.length_rows (h : StructuredBatch cfg s ids numDrafts) :
    (ids.map fun id ↦ rowCount cfg (scheduledDrafts s numDrafts id)).sum ≤
      cfg.maxNumSeqs * (1 + cfg.numSpeculativeTokens) := by
  have hle : ∀ n ∈ ids.map fun id ↦ rowCount cfg (scheduledDrafts s numDrafts id),
      n ≤ 1 + cfg.numSpeculativeTokens := by
    intro n hn
    obtain ⟨id, hid, rfl⟩ := mem_map.1 hn
    have hdrafts := h.length_drafts_le hid
    rw [rowCount]
    split_ifs <;> omega
  calc (ids.map fun id ↦ rowCount cfg (scheduledDrafts s numDrafts id)).sum
      ≤ ids.length * (1 + cfg.numSpeculativeTokens) := by
        simpa using sum_le_card_nsmul _ _ hle
    _ ≤ cfg.maxNumSeqs * (1 + cfg.numSpeculativeTokens) :=
        mul_le_mul_right _ h.length_le

/-- **The bitmask of a batch** of sound requests: nothing is raised, the grammars are as they were,
and what is emitted within the rows is accepted and keeps the requests sound. -/
theorem AllSound.grammarBitmask (hs : AllSound cfg s) (h : StructuredBatch cfg s ids numDrafts) :
    ∃ rows s', grammarBitmask cfg s ids (scheduledDrafts s numDrafts) = .ok (rows, s') ∧
      (∀ id, (s' id).map grammar = (s id).map grammar) ∧
      AllSound cfg s' ∧
      ∀ id ∈ ids, ∃ req, s' id = some req ∧
        req.Accepts cfg (scheduledDrafts s numDrafts id) (rowsOf cfg s ids numDrafts rows id) := by
  by_cases hnil : ids = []
  · subst hnil
    exact ⟨none, s, rfl, fun _ ↦ rfl, hs, nofun⟩
  obtain ⟨rows, s', hrun, hlen, hframe, hmem⟩ := fillSerially_ok
    (P := fun id req req' rows ↦ req'.grammar = req.grammar ∧ Sound cfg req' ∧
      req'.Accepts cfg (scheduledDrafts s numDrafts id) rows) h.nodup fun id hid ↦ by
    obtain ⟨req, hreq⟩ := isSome_iff_exists.1 (h.known id hid)
    obtain ⟨rows, req', hfill, hgrammar, hlen, hsound, hemits⟩ :=
      (hs id req hreq).fillRows (numDrafts id)
    have hdrafts : scheduledDrafts s numDrafts id = req.specTokenIds.take (numDrafts id) := by
      rw [scheduledDrafts, hreq]
    rw [← hdrafts] at hfill hlen hemits
    exact ⟨req, rows, req', hreq, hfill, hlen, hgrammar, hsound,
      fun e he ↦ hemits e.accepted e.token e.kept he⟩
  have hloop : fillBatch cfg s ids (scheduledDrafts s numDrafts) = .ok (rows, s') := by
    rw [fillBatch]
    split_ifs with hparallel
    · rw [fillInParallel_eq h.nodup (fun id hid ↦ ?_) fun id hid ↦ ?_, hrun]
      · obtain ⟨req, hreq⟩ := isSome_iff_exists.1 (h.known id hid)
        exact ⟨req, hreq, hs id req hreq⟩
      · have hdrafts := h.length_drafts_le hid
        exact length_eq_zero_iff.1 (by omega)
    · exact hrun
  refine ⟨some rows, s', ?_, fun id ↦ ?_, fun id req' hreq' ↦ ?_, fun id hid ↦ ?_⟩
  · rw [OneCatVllm.grammarBitmask, if_neg hnil]
    refine bind_eq_ok.2 ⟨(rows, s'), hloop, ?_⟩
    exact if_pos (hlen.trans_le h.length_rows)
  · by_cases hid : id ∈ ids
    · obtain ⟨req, req', hreq, hreq', hgrammar, -⟩ := hmem id hid
      rw [hreq, hreq', map_some, map_some, hgrammar]
    · rw [hframe id hid]
  · by_cases hid : id ∈ ids
    · obtain ⟨-, req₁, -, hreq₁, -, hsound, -⟩ := hmem id hid
      cases hreq₁.symm.trans hreq'
      exact hsound
    · rw [hframe id hid] at hreq'
      exact hs id req' hreq'
  · obtain ⟨-, req', -, hreq', -, -, hemits⟩ := hmem id hid
    exact ⟨req', hreq', hemits⟩

/-! ### Runs -/

theorem AllSound.update (hs : AllSound cfg s) {id : ℕ} {o : Option (StructuredRequest Q)}
    (ho : ∀ req ∈ o, Sound cfg req) : AllSound cfg (update s id o) := by
  intro id' req hreq
  by_cases hid : id' = id
  · subst hid
    rw [update_self] at hreq
    exact ho req hreq
  · rw [update_of_ne hid] at hreq
    exact hs id' req hreq

theorem StructuredRequest.Fresh.sound (h : req.Fresh) : Sound cfg req := by
  obtain ⟨hout, hspec, hindex⟩ := h
  refine ⟨fun i hi ↦ ?_, fun _ _ ↦ hout, fun _ ↦ ?_, fun _ ↦ hspec⟩
  · cases hindex.symm.trans hi
  · rw [hspec]
    trivial

/-- One event keeps all requests sound. -/
theorem AllSound.step (hs : AllSound cfg s) {e : StructuredEvent Q} (he : StructuredLegal cfg s e)
    (hstep : structuredStep cfg s e = some s') : AllSound cfg s' := by
  cases e with
  | arrive id req =>
    cases hstep
    exact hs.update fun req' hreq' ↦ some.inj hreq' ▸ he.sound
  | finish id =>
    cases hstep
    exact hs.update nofun
  | updateDraftTokenIds id isPrefillChunk specTokenIds deltaFrom =>
    obtain ⟨req, hreq, rfl⟩ := map_eq_some_iff.1 hstep
    refine hs.update fun req' hreq' ↦ some.inj hreq' ▸ ?_
    exact (hs id req hreq).updateDraftTokenIds (he.imp_right fun h ↦ h req hreq) _ _
  | updateDraftTokenIdsInOutput id numScheduled specTokenIds deltaFrom =>
    obtain ⟨req, hreq, rfl⟩ := map_eq_some_iff.1 hstep
    refine hs.update fun req' hreq' ↦ some.inj hreq' ▸ ?_
    exact (hs id req hreq).updateDraftTokenIdsInOutput (he req hreq) _ _ _
  | step ids numDrafts emitted =>
    obtain ⟨hbatch, hemits⟩ := he
    obtain ⟨rows, s₁, hmask, -, hs₁, hrows⟩ := hs.grammarBitmask hbatch
    obtain ⟨result, hresult, rfl⟩ := map_eq_some_iff.1 hstep
    rw [hmask] at hresult
    cases hresult
    intro id req hreq
    rw [applyOutputs] at hreq
    split_ifs at hreq with hid
    · obtain ⟨req₁, hreq₁, hafter⟩ := hrows id hid
      dsimp only at hreq
      rw [hreq₁] at hreq
      cases hreq
      exact (hafter (emitted id) (hemits rows s₁ hmask id hid)).2
    · exact hs₁ id req hreq

/-- **Structured output stays inside its grammar.** In every state that the system reaches from the
start, filling the bitmask of any batch raises nothing and leaves every grammar in the state it had
before; and what the verifier then emits within the rows of a request, up to the token at which the
request stops, is accepted by `update_from_output`. -/
theorem structured_output_in_grammar
    (hrun : Run (structuredStep cfg) (StructuredLegal cfg) (fun _ ↦ none) s)
    {numDrafts : ℕ → ℕ} (hbatch : StructuredBatch cfg s ids numDrafts) :
    ∃ rows s', grammarBitmask cfg s ids (scheduledDrafts s numDrafts) = .ok (rows, s') ∧
      (∀ id, (s' id).map grammar = (s id).map grammar) ∧
      ∀ id ∈ ids, ∃ req, s' id = some req ∧ ∀ e : Emission,
        Emits (rowsOf cfg s ids numDrafts rows id) (scheduledDrafts s numDrafts id)
          e.accepted e.token →
        (req.updateFromOutput cfg (e.tokens (scheduledDrafts s numDrafts id))).1 = true := by
  have hs : AllSound cfg s := hrun.invariant (fun _ _ h ↦ (some_ne_none _ h.symm).elim)
    fun hs he hstep ↦ hs.step he hstep
  obtain ⟨rows, s', hmask, hgrammar, -, hrows⟩ := hs.grammarBitmask hbatch
  refine ⟨rows, s', hmask, hgrammar, fun id hid ↦ ?_⟩
  obtain ⟨req, hreq, hafter⟩ := hrows id hid
  exact ⟨req, hreq, fun e he ↦ (hafter e he).1⟩

/-- A grammar that reads `0, 1, 2` and terminates, for a model that reasons up to token `7`. -/
def countingOptions : ManagerOptions where
  enableInReasoning := false
  reasoner := some ⟨7, fun ids ↦ decide (7 ∈ ids)⟩
  maxNumSeqs := 4
  numSpeculativeTokens := 3

@[inherit_doc countingOptions]
def countingRequest : StructuredRequest ℕ where
  promptTokenIds := [5]
  grammar := ⟨⟨fun q t ↦ if t = q then some (q + 1) else none, fun q ↦ q == 3⟩, 0, []⟩

/-- The request while it is reasoning, after its first token. -/
def countingRequests : StructuredRequests ℕ :=
  applyOutputs countingOptions [0] (fun _ ↦ [9])
    (update (update (fun _ ↦ none) 0 (some countingRequest)) 0
      (some { countingRequest with reasoningEnded := some false }))

/-- The reasoning ends inside the window, and the last draft is not one of the grammar. -/
theorem structured_output_in_grammar_reasoning :
    ∃ s : StructuredRequests ℕ, (s 0).map specTokenIds = some [7, 0, 5] ∧
      ∃ rows s', grammarBitmask countingOptions s [0] (scheduledDrafts s fun _ ↦ 3) =
          .ok (rows, s') ∧
        (∀ id, (s' id).map grammar = (s id).map grammar) ∧
        ∀ id ∈ [0], ∃ req, s' id = some req ∧ ∀ e : Emission,
          Emits (rowsOf countingOptions s [0] (fun _ ↦ 3) rows id)
            (scheduledDrafts s (fun _ ↦ 3) id) e.accepted e.token →
          (req.updateFromOutput countingOptions
            (e.tokens (scheduledDrafts s (fun _ ↦ 3) id))).1 = true := by
  have hfirst : Run (structuredStep countingOptions) (StructuredLegal countingOptions)
      (fun _ ↦ none) (update (fun _ ↦ none) 0 (some countingRequest)) :=
    .next (l := .arrive 0 countingRequest) .start ⟨rfl, rfl, rfl⟩ rfl
  have hsecond : Run (structuredStep countingOptions) (StructuredLegal countingOptions)
      (fun _ ↦ none) countingRequests := by
    refine .next (l := .step [0] (fun _ ↦ 0) fun _ ↦ ⟨0, 9, 1⟩) hfirst ⟨?_, ?_⟩ rfl
    · exact ⟨by decide, by decide, by decide, by decide⟩
    · intro rows s' h id hid
      cases h
      obtain rfl := mem_singleton.1 hid
      refine ⟨le_refl _, one_pos, fun _ _ _ hi ↦ absurd hi (not_lt_zero _), ?_⟩
      intro row hrow
      cases hrow
      rfl
  have hlegal : StructuredLegal countingOptions countingRequests
      (.updateDraftTokenIds 0 false [7, 0, 5] 1) := by
    refine .inr fun req hreq ↦ ?_
    cases hreq
    exact cons_ne_nil _ _
  have hthird := Run.next hsecond hlegal rfl
  exact ⟨_, rfl, structured_output_in_grammar hthird ⟨by decide, by decide, by decide, by decide⟩⟩

end OneCatVllm
