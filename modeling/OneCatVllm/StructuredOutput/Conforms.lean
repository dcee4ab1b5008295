import OneCatVllm.StructuredOutput.Window

/-!
# One request stays inside its grammar

What a request with structured output satisfies between steps (`Sound`), and that its drafts and
its steps keep it. Filling the rows of a request raises nothing and leaves the grammar as it was,
and **whatever the verifier emits inside the rows is accepted** by `update_from_output`, wherever
the reasoning of the request ends: the rows look for the end token among the drafts, the later
advance among the sampled tokens, and both find the same one.
-/

namespace OneCatVllm

open List Option

variable {Q : Type} {cfg : ManagerOptions} {req : StructuredRequest Q}

namespace StructuredRequest

section

variable (cfg : ManagerOptions) (req : StructuredRequest Q)

/-- The rows of the request are its grammar's from the start of the window on. -/
def Constrained : Prop :=
  cfg.enableInReasoning = true ∨ cfg.reasoner = none ∨ req.reasoningEnded = some true

/-- **What every request satisfies between steps.** A request with output has been looked at for the
end of its reasoning, and the drafts of a constrained request can be read. -/
structure Sound : Prop where
  index_lt : ∀ i ∈ req.reasoningEndTokenIndex, i < req.allTokenIds.length
  unended : ¬ Constrained cfg req → req.reasoningEnded = none → req.outputTokenIds = []
  drafted : Constrained cfg req → Drafted req.grammar.automaton req.grammar.current req.specTokenIds
  spec_eq_nil : req.outputTokenIds = [] → req.specTokenIds = []

/-- A request is constrained, or a reasoner decides. -/
theorem constrained_or :
    Constrained cfg req ∨ ∃ r, cfg.reasoner = some r ∧ ¬ Constrained cfg req ∧
      ¬ (cfg.enableInReasoning ∨ req.reasoningEnded = some true) := by
  by_cases hc : Constrained cfg req
  · exact .inl hc
  · rcases hr : cfg.reasoner with - | r
    · exact absurd (.inr (.inl hr)) hc
    · exact .inr ⟨r, rfl, hc, fun hopen ↦ hc (hopen.imp id .inr)⟩

end

/-! ### Filling the rows -/

theorem reasoner_eq_none (h : Constrained cfg req)
    (hopen : ¬ (cfg.enableInReasoning ∨ req.reasoningEnded = some true)) : cfg.reasoner = none := by
  rcases h with hc | hc | hc
  · exact absurd (.inl hc) hopen
  · exact hc
  · exact absurd (.inr hc) hopen

theorem shouldFillBitmask_of_constrained (h : Constrained cfg req) :
    req.shouldFillBitmask cfg = (true, req) := by
  rw [shouldFillBitmask]
  by_cases hopen : cfg.enableInReasoning ∨ req.reasoningEnded = some true
  · exact if_pos hopen
  · rw [if_neg hopen, reasoner_eq_none h hopen]

theorem shouldAdvance_of_constrained (h : Constrained cfg req) (newTokenIds : List ℤ)
    (deltaFrom : ℤ) : req.shouldAdvance cfg newTokenIds deltaFrom = (true, req) := by
  rw [shouldAdvance]
  by_cases hopen : cfg.enableInReasoning ∨ req.reasoningEnded = some true
  · exact if_pos hopen
  · rw [if_neg hopen, reasoner_eq_none h hopen]

/-- `should_fill_bitmask` decides whether the request is constrained, once and for all. -/
theorem Sound.shouldFillBitmask (h : Sound cfg req) :
    ∃ b ended, req.shouldFillBitmask cfg = (b, { req with reasoningEnded := ended }) ∧
      (b = true ↔ Constrained cfg { req with reasoningEnded := ended }) ∧
      Sound cfg { req with reasoningEnded := ended } ∧
      (¬ Constrained cfg { req with reasoningEnded := ended } → ended = some false) ∧
      ({ req with reasoningEnded := ended } : StructuredRequest Q).shouldFillBitmask cfg =
        (b, { req with reasoningEnded := ended }) := by
  rcases constrained_or cfg req with hc | ⟨r, hr, hnot, hopen⟩
  · have hfill := shouldFillBitmask_of_constrained hc
    exact ⟨true, req.reasoningEnded, hfill, iff_of_true rfl hc, h, fun hnot ↦ absurd hc hnot, hfill⟩
  · obtain ⟨henable, hended⟩ := not_or.1 hopen
    set b := req.reasoningEnded.getD (r.isReasoningEnd req.promptTokenIds) with hb
    have hiff : b = true ↔ Constrained cfg { req with reasoningEnded := some b } := by
      constructor
      · intro hbt
        exact .inr (.inr (congrArg some hbt))
      · rintro (hc | hc | hc)
        · exact absurd hc henable
        · cases hr.symm.trans hc
        · exact some.inj hc
    refine ⟨b, some b, ?_, hiff, ⟨h.index_lt, nofun, fun hc ↦ ?_, h.spec_eq_nil⟩,
      fun hnot' ↦ ?_, ?_⟩
    · rw [StructuredRequest.shouldFillBitmask, if_neg hopen, hr]
    · -- a request that becomes constrained here has no output, and so no drafts
      have hbt := hiff.2 hc
      rcases hre : req.reasoningEnded with - | ended
      · have hspec := h.spec_eq_nil (h.unended hnot hre)
        rw [hspec]
        trivial
      · rw [hb, hre, getD_some] at hbt
        exact absurd (by rw [hre, hbt]) hended
    · rcases hbv : b with - | -
      · rfl
      · exact absurd (hiff.1 hbv) hnot'
    · rw [StructuredRequest.shouldFillBitmask, hr]
      rcases hbv : b with - | -
      · rw [if_neg (by simp [henable])]
        rfl
      · rw [if_pos (.inr rfl)]

variable {xs : List ℤ}

/-- The first tokens of a list, behind the first end token. -/
theorem tail_dropWhile_prefix {p : ℤ → Bool} {ys : List ℤ} (h : xs <+: ys) :
    (xs.dropWhile p).tail <+: (ys.dropWhile p).tail := by
  obtain ⟨zs, rfl⟩ := h
  induction xs with
  | nil => exact nil_prefix
  | cons x xs ih =>
    rw [cons_append, dropWhile_cons, dropWhile_cons]
    split_ifs
    · exact ih
    · exact ⟨zs, rfl⟩

/-- The first occurrence, as the rest of the list behind it. -/
theorem drop_findIdx {a : ℤ} {j : ℕ} (h : xs.findIdx? (· = a) = some j) :
    xs.drop (j + 1) = (xs.dropWhile (· ≠ a)).tail ∧ j < xs.length := by
  obtain ⟨hlt, rfl⟩ := findIdx?_eq_some_iff_findIdx_eq.1 h
  refine ⟨?_, hlt⟩
  rw [dropWhile_eq_drop_findIdx_not]
  simp

theorem exists_findIdx {a : ℤ} (h : a ∈ xs) : ∃ j, xs.findIdx? (· = a) = some j := by
  rcases hj : xs.findIdx? (· = a) with - | j
  · rw [findIdx?_eq_none_iff] at hj
    simpa using hj _ h
  · exact ⟨j, rfl⟩

/-- The grammar after tokens that it accepts, and what is left of a step. -/
def afterStep (cfg : ManagerOptions) (req : StructuredRequest Q) (newTokenIds : List ℤ) :
    StructuredRequest Q :=
  { (req.updateFromOutput cfg newTokenIds).2 with specTokenIds := [] }

variable {newTokenIds : List ℤ}

/-- `update_from_output`, by what `should_advance` decides. -/
theorem updateFromOutput_eq (hne : newTokenIds ≠ []) {advance : Bool} {req' : StructuredRequest Q}
    (h : ({ req with outputTokenIds := req.outputTokenIds ++ newTokenIds } :
      StructuredRequest Q).shouldAdvance cfg newTokenIds 0 = (advance, req')) :
    req.updateFromOutput cfg newTokenIds =
      if advance then
        ((req'.grammar.acceptTokens (req'.trimReasoningForAdvance newTokenIds)).1, { req' with
          grammar := (req'.grammar.acceptTokens (req'.trimReasoningForAdvance newTokenIds)).2 })
      else (true, req') := by
  simp only [StructuredRequest.updateFromOutput, if_neg hne, h]

/-- **The sampled tokens are accepted.** `b` says whether the request was constrained when its rows
were filled. -/
theorem Sound.updateFromOutput (h : Sound cfg req) {tokens : List ℤ} {b : Bool}
    (hb : b = true ↔ Constrained cfg req)
    (hended : ¬ Constrained cfg req → req.reasoningEnded = some false)
    (hrun : (req.grammar.automaton.run req.grammar.current
      (Window.content (if b then none else cfg.reasoner) b tokens)).isSome = true)
    (hpfx : newTokenIds <+: tokens) (hne : newTokenIds ≠ []) :
    (req.updateFromOutput cfg newTokenIds).1 = true ∧
      Sound cfg (req.afterStep cfg newTokenIds) := by
  set req₁ : StructuredRequest Q := { req with
    outputTokenIds := req.outputTokenIds ++ newTokenIds } with hreq₁
  have hlen : req₁.allTokenIds = req.allTokenIds ++ newTokenIds := (append_assoc ..).symm
  have hindex : ∀ i ∈ req.reasoningEndTokenIndex, i < req₁.allTokenIds.length := by
    intro i hi
    rw [hlen, length_append]
    exact Nat.lt_add_right _ (h.index_lt i hi)
  rcases constrained_or cfg req with hc | ⟨r, hr, hc, hopen⟩
  · -- all new tokens are read
    rw [hb.2 hc] at hrun
    have hc₁ : Constrained cfg req₁ := hc
    have hadvance := shouldAdvance_of_constrained hc₁ newTokenIds 0
    have htrim : req₁.trimReasoningForAdvance newTokenIds = newTokenIds := by
      rw [trimReasoningForAdvance, hlen]
      rcases hi : req.reasoningEndTokenIndex with - | i
      · rfl
      · have hlt := h.index_lt i hi
        dsimp only
        rw [length_append, if_pos (by omega)]
    have hupdate := updateFromOutput_eq hne hadvance
    rw [htrim] at hupdate
    refine ⟨?_, ?_⟩
    · rw [hupdate, Grammar.acceptTokens_fst]
      exact Automaton.isSome_run_of_prefix hrun hpfx
    · rw [afterStep, hupdate]
      exact ⟨hindex, fun hnot ↦ absurd hc hnot, fun _ ↦ trivial, fun _ ↦ rfl⟩
  · have hbf : b = false := by
      rcases hbv : b with - | -
      · rfl
      · exact absurd (hb.1 hbv) hc
    subst hbf
    have hstart : req₁.deltaStart newTokenIds 0 = req.allTokenIds.length := by
      rw [deltaStart, if_pos hne, hlen, length_append, Nat.add_sub_cancel]
    by_cases hend : r.endToken ∈ newTokenIds
    · -- the reasoning ends among the new tokens, and those behind its end are read
      obtain ⟨j, hj⟩ := exists_findIdx hend
      obtain ⟨hdrop, hjlt⟩ := drop_findIdx hj
      set req₂ : StructuredRequest Q := { req₁ with
        reasoningEnded := some true
        reasoningEndTokenIndex := some (req.allTokenIds.length + j) } with hreq₂
      have hadvance : req₁.shouldAdvance cfg newTokenIds 0 = (true, req₂) := by
        have hfind : findReasoningEndIndex r req₁.allTokenIds req.allTokenIds.length =
            req.allTokenIds.length + j := by
          rw [findReasoningEndIndex, hlen, drop_left, hj]
        rw [shouldAdvance, if_neg hopen, hr]
        simp only [hstart, if_pos hne, if_pos hend, hfind, hreq₂]
      have htrim : req₂.trimReasoningForAdvance newTokenIds = newTokenIds.drop (j + 1) := by
        have hall : req₂.allTokenIds = req.allTokenIds ++ newTokenIds := hlen
        rw [trimReasoningForAdvance, hall, length_append]
        refine (if_neg (by omega)).trans ?_
        congr 1
        omega
      have hupdate := updateFromOutput_eq hne hadvance
      rw [htrim] at hupdate
      refine ⟨?_, ?_⟩
      · rw [hupdate, Grammar.acceptTokens_fst]
        refine Automaton.isSome_run_of_prefix hrun ?_
        simp only [Window.content, hr, hdrop]
        exact tail_dropWhile_prefix hpfx
      · rw [afterStep, hupdate]
        refine ⟨fun i hi ↦ ?_, fun hnot ↦ absurd (.inr (.inr rfl)) hnot, fun _ ↦ trivial,
          fun _ ↦ rfl⟩
        obtain rfl := some.inj (show some (req.allTokenIds.length + j) = some i from hi)
        show _ < req₁.allTokenIds.length
        rw [hlen, length_append]
        omega
    · have hadvance : req₁.shouldAdvance cfg newTokenIds 0 = (false, req₁) := by
        rw [shouldAdvance, if_neg hopen, hr]
        simp only [if_pos hne, if_neg hend]
      have hupdate := updateFromOutput_eq hne hadvance
      rw [if_neg Bool.false_ne_true] at hupdate
      refine ⟨by rw [hupdate], ?_⟩
      rw [afterStep, hupdate]
      refine ⟨hindex, fun _ hnone ↦ ?_, fun _ ↦ trivial, fun _ ↦ rfl⟩
      cases (hended hc).symm.trans hnone

/-! ### One request in one step -/

/-- The number of rows of a request: one for each draft and one for the token behind them, which
diffusion models do not sample. -/
def rowCount (cfg : ManagerOptions) (drafts : List ℤ) : ℕ :=
  if cfg.isDiffusion ∧ drafts ≠ [] then drafts.length else drafts.length + 1

/-- **Filling the rows of a request** raises nothing and leaves the grammar as it was. Whatever is
emitted within the rows is accepted afterwards. -/
theorem Sound.fillRows (h : Sound cfg req) (n : ℕ) :
    ∃ rows req', req.fillRows cfg (req.specTokenIds.take n) = .ok (rows, req') ∧
      req'.grammar = req.grammar ∧ rows.length = rowCount cfg (req.specTokenIds.take n) ∧
      Sound cfg req' ∧
      ∀ k token kept, Emits rows (req.specTokenIds.take n) k token →
        (req'.updateFromOutput cfg
          (((req.specTokenIds.take n).take k ++ [token]).take kept)).1 = true ∧
        Sound cfg (req'.afterStep cfg
          (((req.specTokenIds.take n).take k ++ [token]).take kept)) := by
  obtain ⟨b, ended, hfill, hb, hsound, hended, hagain⟩ := h.shouldFillBitmask
  set drafts := req.specTokenIds.take n with hdrafts
  set req' : StructuredRequest Q := { req with reasoningEnded := ended } with hreq'
  have hready : Window.Ready ⟨req.grammar, b, false, 0⟩ drafts := fun hbt _ ↦
    (hsound.drafted (hb.1 hbt)).take n
  obtain ⟨rows, w, hrun, hlen, hroll⟩ :=
    Window.run_ok (if b then none else cfg.reasoner) hready
  set rows' := if cfg.isDiffusion ∧ drafts ≠ [] then rows
    else rows ++ [w.grammar.maskRow (b || w.applyBitmask)] with hrows'
  have hroll' : w.grammar.rollback w.stateAdvancements = some req.grammar := hroll
  refine ⟨rows', req', ?_, rfl, ?_, hsound, fun k token kept hemits ↦ ?_⟩
  · rw [StructuredRequest.fillRows, hfill]
    refine Fallible.bind_eq_ok.2 ⟨(rows, w), hrun, ?_⟩
    simp only [hagain, hroll', hrows']
    rfl
  · rw [hrows', rowCount]
    split_ifs
    · exact hlen
    · rw [length_append, hlen]
      rfl
  · have hemits' : Emits (rows ++ [w.grammar.maskRow (b || w.applyBitmask)]) drafts k token := by
      rw [hrows'] at hemits
      split_ifs at hemits
      · exact hemits.append _
      · exact hemits
    have hread := Window.isSome_run_of_emits hrun (fun ht ↦ by rw [ht, Bool.or_true]) hemits'
    by_cases hkept : (drafts.take k ++ [token]).take kept = []
    · rw [hkept]
      refine ⟨rfl, ⟨fun i hi ↦ ?_, ?_, fun _ ↦ trivial, fun _ ↦ rfl⟩⟩
      · show i < (req.promptTokenIds ++ (req.outputTokenIds ++ [])).length
        rw [append_nil]
        exact hsound.index_lt i hi
      · intro hnot hnone
        show req.outputTokenIds ++ [] = []
        rw [append_nil]
        exact hsound.unended hnot hnone
    · exact hsound.updateFromOutput hb hended hread (by exact take_prefix _ _) hkept

/-! ### Drafts -/

/-- Drafts that are not validated belong to a request that stays unconstrained: after the first
output it is known whether its reasoning has ended. -/
theorem Sound.shouldAdvance_nil (h : Sound cfg req) (hout : req.outputTokenIds ≠ [])
    (deltaFrom : ℤ) :
    ∃ advance req', req.shouldAdvance cfg [] deltaFrom = (advance, req') ∧
      ∀ spec, (advance = true →
          Drafted req'.grammar.automaton req'.grammar.current spec) →
        Sound cfg { req' with specTokenIds := spec } := by
  rcases constrained_or cfg req with hc | ⟨r, hr, hnot, hopen⟩
  · refine ⟨true, req, shouldAdvance_of_constrained hc [] deltaFrom, fun spec hspec ↦ ?_⟩
    exact ⟨h.index_lt, h.unended, fun _ ↦ hspec rfl, fun hnil ↦ absurd hnil hout⟩
  · by_cases hend : r.endToken ∈ req.allTokenIds.drop (req.deltaStart [] deltaFrom)
    · obtain ⟨j, hj⟩ : ∃ j, (req.allTokenIds.drop (req.deltaStart [] deltaFrom)).findIdx?
          (· = r.endToken) = some j := exists_findIdx hend
      have hlt := (drop_findIdx hj).2
      rw [length_drop] at hlt
      refine ⟨true, { req with
        reasoningEnded := some true
        reasoningEndTokenIndex := some (req.deltaStart [] deltaFrom + j) }, ?_,
        fun spec hspec ↦ ?_⟩
      · rw [shouldAdvance, if_neg hopen, hr]
        simp only [ne_eq, not_true_eq_false, if_false, if_pos hend, findReasoningEndIndex, hj]
      · refine ⟨fun i hi ↦ ?_, fun hnot ↦ absurd (.inr (.inr rfl)) hnot, fun _ ↦ hspec rfl,
          fun hnil ↦ absurd hnil hout⟩
        obtain rfl := some.inj (show some (req.deltaStart [] deltaFrom + j) = some i from hi)
        show _ < req.allTokenIds.length
        omega
    · refine ⟨false, req, ?_, fun spec _ ↦ ?_⟩
      · rw [shouldAdvance, if_neg hopen, hr]
        exact if_neg hend
      · exact ⟨h.index_lt, h.unended, fun hc ↦ absurd hc hnot, fun hnil ↦ absurd hnil hout⟩

theorem Sound.updateDraftTokenIds (h : Sound cfg req) {isPrefillChunk : Bool}
    (hout : isPrefillChunk = true ∨ req.outputTokenIds ≠ []) (specTokenIds : List ℤ)
    (deltaFrom : ℤ) :
    Sound cfg (req.updateDraftTokenIds cfg isPrefillChunk specTokenIds deltaFrom) := by
  rw [StructuredRequest.updateDraftTokenIds]
  split_ifs with hchunk
  · exact ⟨h.index_lt, h.unended, fun _ ↦ trivial, fun _ ↦ rfl⟩
  · obtain ⟨advance, req', hadvance, hsound⟩ :=
      h.shouldAdvance_nil (hout.resolve_left hchunk) deltaFrom
    rw [hadvance]
    refine hsound _ fun htrue ↦ ?_
    rw [if_pos htrue]
    simpa [Grammar.validateTokens] using drafted_accepted specTokenIds 0

theorem Sound.updateDraftTokenIdsInOutput (h : Sound cfg req) (hout : req.outputTokenIds ≠ [])
    (numScheduled : ℕ) (specTokenIds : List ℤ) (deltaFrom : ℤ) :
    Sound cfg (req.updateDraftTokenIdsInOutput cfg numScheduled specTokenIds deltaFrom) := by
  obtain ⟨advance, req', hadvance, hsound⟩ := h.shouldAdvance_nil hout deltaFrom
  rw [StructuredRequest.updateDraftTokenIdsInOutput, hadvance]
  refine hsound _ fun htrue ↦ ?_
  rw [if_pos htrue]
  exact drafted_accepted _ _

end StructuredRequest

end OneCatVllm
