import Mathlib.Data.Finset.Basic
import OneCatVllm.Engine.OutputProcessor

/-!
# Parallel sampling

A request with `n > 1` is fanned out into `n` children (`AsyncLLM.add_request`) that share a
`ParentRequest`. The children are added **one after the other, with an `await` in between**, during
which outputs of the children added so far are processed. The parent is finished when its set of
live children is empty, and the set holds the children added so far: when all of them finish before
the next one is added, the parent is taken for finished (`Timely` excludes exactly this).
-/

namespace OneCatVllm

open Bool Function List Nat Option RequestState

/-- `RequestOutput` of a parent: `None` entries are missing completions. -/
structure RequestOutput (L : Type) where
  outputs : List (Option (CompletionOutput L))
  finished : Bool
  deriving DecidableEq

/-- `ParentRequest`, with the index of a child for its id. -/
structure ParentRequest (L : Type) where
  childRequests : Finset ℕ
  outputAggregator : List (Option (CompletionOutput L))

variable {L : Type}

namespace ParentRequest

/-- `ParentRequest.__init__`. -/
def init (kind : RequestOutputKind) (n : ℕ) : ParentRequest L where
  childRequests := ∅
  outputAggregator := if kind = .finalOnly then replicate n none else []

/-- `get_child_info`. -/
def getChildInfo (index : ℕ) (r : ParentRequest L) : ParentRequest L :=
  { r with childRequests := insert index r.childRequests }

/-- `get_outputs`: the outputs to return, whether the parent has finished, and the parent. -/
def getOutputs (kind : RequestOutputKind) (child : ℕ) (c : CompletionOutput L)
    (r : ParentRequest L) : List (Option (CompletionOutput L)) × Bool × ParentRequest L :=
  let alreadyFinishedAndReturned := c.finished ∧ child ∉ r.childRequests
  let children := if c.finished then r.childRequests.erase child else r.childRequests
  if kind ≠ .finalOnly then
    (if alreadyFinishedAndReturned then [] else [some c], children = ∅,
      { r with childRequests := children })
  else
    let aggregator := r.outputAggregator.set c.index (some c)
    (if children ≠ ∅ then [] else aggregator, children = ∅, ⟨children, aggregator⟩)

end ParentRequest

/-! ### The fan-out -/

/-- The parameters of a request with several completions. -/
structure ParallelParams where
  params : OutputParams
  n : ℕ
  one_lt : 1 < n

/-- The parameters of a child. -/
def ParallelParams.child (q : ParallelParams) (i : ℕ) : OutputParams := { q.params with index := i }

/-- A request that is being fanned out: how many children were added, the parent, the states of
the live children, and the outputs made for the request. -/
structure Fanout (L : Type) where
  added : ℕ
  parent : ParentRequest L
  requestStates : ℕ → Option (RequestState L)
  emitted : List (RequestOutput L)

/-- What happens to the children: the next one is added, one has an engine output, or one is
aborted. -/
inductive FanoutEvent (L : Type)
  | add
  | output (i : ℕ) (o : EngineCoreOutput L)
  | abort (i : ℕ)

namespace Fanout

section

variable (q : ParallelParams)

def init : Fanout L where
  added := 0
  parent := .init q.params.outputKind q.n
  requestStates := fun _ ↦ none
  emitted := []

/-- The end of `make_request_output`: the parent turns a child's completion into an output. -/
def emit (i : ℕ) (s : Fanout L) : Option (CompletionOutput L) → Fanout L
  | none => s
  | some c =>
    let res := s.parent.getOutputs q.params.outputKind i c
    { s with
      parent := res.2.2
      emitted := if res.1.isEmpty then s.emitted else s.emitted ++ [⟨res.1, res.2.1⟩] }

/-- The state of one child is replaced, or popped. -/
abbrev setState (s : Fanout L) (i : ℕ) (st : Option (RequestState L)) : Fanout L :=
  { s with requestStates := update s.requestStates i st }

/-- One event. Outputs and aborts of requests that are not there are ignored. -/
def step (s : Fanout L) : FanoutEvent L → Fanout L
  | .add =>
    if s.added < q.n then
      { s with
        added := s.added + 1
        parent := s.parent.getChildInfo s.added
        requestStates := update s.requestStates s.added (some {}) }
    else s
  | .output i o =>
    match s.requestStates i with
    | none => s
    | some st =>
      let res := st.processOutput (q.child i) o
      (s.setState i (if res.2.1.isNone then some res.2.2 else none)).emit q i res.1
  | .abort i =>
    match s.requestStates i with
    | none => s
    | some st =>
      (s.setState i none).emit q i (st.abortOutput (q.child i)).1

/-- The state after a list of events. -/
def run (events : List (FanoutEvent L)) : Fanout L :=
  events.foldl (step q) (init q)

end

section

variable (q : ParallelParams) (s : Fanout L)

/-- All children were added and have finished. -/
def Complete : Prop :=
  s.added = q.n ∧ ∀ i < q.n, (s.requestStates i).isNone

instance : Decidable (s.Complete q) :=
  inferInstanceAs (Decidable (_ ∧ _))

/-- **The request completes once and fully**: there is one finished output if all children have
finished and none before, and in the mode without streaming it has all `n` completions. -/
def CompletesOnce : Prop :=
  (s.emitted.filter (·.finished)).length = (if s.Complete q then 1 else 0) ∧
    (q.params.outputKind = .finalOnly → ∀ out ∈ s.emitted, out.finished →
      out.outputs.length = q.n ∧ ∀ c ∈ out.outputs, c.isSome)

instance : Decidable (s.CompletesOnce q) :=
  inferInstanceAs (Decidable (_ ∧ (_ → _)))

/-- The engine output ends the request: it has a finish reason, or a stop string is matched. -/
def ends (p : OutputParams) (o : EngineCoreOutput L) (st : RequestState L) : Bool :=
  o.finishReason.isSome ||
    (st.detokenizer.update p.detokenizer o.newTokenIds (o.finishReason = some .stop)).1.isSome

/-- Another child than `i` is live. -/
def Accompanied (i : ℕ) : Prop :=
  ∃ j < s.added, j ≠ i ∧ (s.requestStates j).isSome

instance (i : ℕ) : Decidable (s.Accompanied i) :=
  inferInstanceAs (Decidable (∃ j < s.added, j ≠ i ∧ (s.requestStates j).isSome))

/-- **An event in time**: as long as children are still to be added, the last live one does not
end. -/
def Timely : FanoutEvent L → Prop
  | .add => True
  | .output i o => ∀ st ∈ s.requestStates i, ends (q.child i) o st → s.added = q.n ∨ s.Accompanied i
  | .abort i => (s.requestStates i).isSome → s.added = q.n ∨ s.Accompanied i

end

/-! ### The outputs of a child -/

section

variable {p : OutputParams} {st : RequestState L} {fr : Option FinishReason}

/-- A completion has the finish reason and the index of its request. -/
theorem makeRequestOutput_fields {ids : List ℕ} {sr : Option StopReason} {c : CompletionOutput L}
    (h : (st.makeRequestOutput p ids fr sr).1 = some c) :
    c.finishReason = fr ∧ c.index = p.index ∧ (fr = none → p.outputKind ≠ .finalOnly) := by
  unfold makeRequestOutput at h
  by_cases hfinal : fr = none ∧ p.outputKind = .finalOnly
  · rw [if_pos hfinal] at h
    exact nomatch h
  have hkind : fr = none → p.outputKind ≠ .finalOnly := fun hfr hp ↦ hfinal ⟨hfr, hp⟩
  split_ifs at h <;> cases h <;> exact ⟨rfl, rfl, hkind⟩

/-- A request that finishes has an output. -/
theorem makeRequestOutput_finish (st : RequestState L) (ids : List ℕ) (r : FinishReason)
    (sr : Option StopReason) : ∃ c, (st.makeRequestOutput p ids (some r) sr).1 = some c := by
  have hdue : st.isDue p (some r).isSome = true := by simp [isDue]
  rw [makeRequestOutput, if_neg nofun]
  split_ifs <;> exact ⟨_, rfl⟩

/-- What a child brings: a completion that ends it, or at most one that does not. -/
inductive Brings (q : ParallelParams) (i : ℕ) : Bool → Option (CompletionOutput L) → Prop
  | nothing : Brings q i false none
  | more {c : CompletionOutput L} : c.finished = false → q.params.outputKind ≠ .finalOnly →
      Brings q i false (some c)
  | last {c : CompletionOutput L} : c.finished = true → c.index = i → Brings q i true (some c)

/-- What `make_request_output` returns for a child. -/
theorem brings_makeRequestOutput (q : ParallelParams) (i : ℕ) (ids : List ℕ)
    (fr : Option FinishReason) (sr : Option StopReason) (st : RequestState L) :
    Brings q i fr.isSome (st.makeRequestOutput (q.child i) ids fr sr).1 := by
  rcases fr with - | r
  · rcases h : (st.makeRequestOutput (q.child i) ids none sr).1 with - | c
    · exact .nothing
    · obtain ⟨hfr, -, hkind⟩ := makeRequestOutput_fields h
      exact .more (by rw [CompletionOutput.finished, hfr]; rfl) (hkind rfl)
  · obtain ⟨c, h⟩ := makeRequestOutput_finish st ids r sr
    obtain ⟨hfr, hindex, -⟩ := makeRequestOutput_fields h
    rw [h]
    exact .last (by rw [CompletionOutput.finished, hfr]; rfl) hindex

/-- What `process_outputs` does for a child: it is kept unless the output ends it. -/
theorem processOutput_spec (q : ParallelParams) (i : ℕ) (o : EngineCoreOutput L)
    (st : RequestState L) :
    (st.processOutput (q.child i) o).2.1.isNone = !ends (q.child i) o st ∧
      Brings q i (ends (q.child i) o st) (st.processOutput (q.child i) o).1 := by
  have hends : (finishOf o (st.detokenizer.update (q.child i).detokenizer o.newTokenIds
      (o.finishReason = some .stop)).1).1.isSome = ends (q.child i) o st := by
    unfold ends
    rcases (st.detokenizer.update (q.child i).detokenizer o.newTokenIds
      (o.finishReason = some .stop)).1 with - | str
    · simp [finishOf]
    · simp [finishOf]
  rw [← hends, not_isSome]
  exact ⟨rfl, brings_makeRequestOutput q i _ _ _ _⟩

end

/-! ### The invariant -/

/-- **The invariant**: the parent's set holds the live children, its list the completions of those
that have finished, and the request completes once. -/
structure Sound (q : ParallelParams) (s : Fanout L) : Prop where
  added_le : s.added ≤ q.n
  lt_added : ∀ {i}, (s.requestStates i).isSome → i < s.added
  live : ∀ i, i ∈ s.parent.childRequests ↔ (s.requestStates i).isSome
  aggregated : q.params.outputKind = .finalOnly → s.parent.outputAggregator.length = q.n ∧
    ∀ i < s.added, s.requestStates i = none → ∃ c, s.parent.outputAggregator[i]? = some (some c)
  once : s.CompletesOnce q

section

variable {q : ParallelParams} {s : Fanout L} {i : ℕ} {c : Option (CompletionOutput L)}

theorem sound_init (q : ParallelParams) : (init q : Fanout L).Sound q where
  added_le := zero_le _
  lt_added := nofun
  live := fun i ↦ ⟨fun h ↦ absurd h (Finset.notMem_empty i), nofun⟩
  aggregated := fun hkind ↦ ⟨by simp [init, ParentRequest.init, hkind], nofun⟩
  once := by
    have hnot : ¬ (init q : Fanout L).Complete q := fun h ↦ by
      have := q.one_lt
      have hzero : 0 = q.n := h.1
      omega
    exact ⟨by rw [if_neg hnot]; rfl, nofun⟩

/-- A live child keeps the request from being complete. -/
theorem not_complete (h : s.Sound q) (hi : (s.requestStates i).isSome) : ¬ s.Complete q := by
  rintro ⟨hadded, hall⟩
  have hnone := hall i (hadded ▸ h.lt_added hi)
  rw [isNone_iff_eq_none] at hnone
  rw [hnone] at hi
  exact nomatch hi

/-- **The next child is added.** -/
theorem Sound.add (h : s.Sound q) : (s.step q .add).Sound q := by
  rw [step]
  split_ifs with hlt
  · have hsome {j : ℕ} : (update s.requestStates s.added (some {}) j).isSome ↔
        j = s.added ∨ (s.requestStates j).isSome := by
      rcases eq_or_ne j s.added with rfl | hne
      · simp
      · simp [hne]
    refine ⟨hlt, fun hj ↦ ?_, fun j ↦ ?_, fun hkind ↦ ?_, ?_, h.once.2⟩
    · rcases hsome.1 hj with rfl | hj
      · exact lt_succ_self _
      · exact lt_succ_of_lt (h.lt_added hj)
    · rw [ParentRequest.getChildInfo, Finset.mem_insert, h.live, hsome]
    · refine ⟨(h.aggregated hkind).1, fun j hj hnone ↦ ?_⟩
      have hnot := not_or.1 (hsome.not.1 (not_isSome_iff_eq_none.2 hnone))
      exact (h.aggregated hkind).2 j (lt_of_le_of_ne (Nat.lt_succ_iff.1 hj) hnot.1)
        (not_isSome_iff_eq_none.1 hnot.2)
    · -- neither before nor after is the request complete
      have hbefore : ¬ s.Complete q := fun hc ↦ by
        have := hc.1
        omega
      have hafter : ¬ Complete q { s with
          added := s.added + 1
          parent := s.parent.getChildInfo s.added
          requestStates := update s.requestStates s.added (some {}) } := fun hc ↦ by
        have := hc.2 s.added hlt
        simp at this
      have hcount := h.once.1
      rw [if_neg hbefore] at hcount
      rw [if_neg hafter]
      exact hcount
  · exact h

/-- A child goes on. -/
theorem Sound.goesOn (h : s.Sound q) (hi : (s.requestStates i).isSome) (st : RequestState L)
    (hb : Brings q i false c) :
    (emit q i (s.setState i (some st)) c).Sound
      q := by
  set s₁ := s.setState i (some st) with hs₁
  have hsome (j : ℕ) : (s₁.requestStates j).isSome = (s.requestStates j).isSome := by
    rcases eq_or_ne j i with rfl | hne
    · simp [hs₁, hi]
    · simp [hs₁, update_of_ne hne]
  have hcount := h.once.1
  rw [if_neg (not_complete h hi)] at hcount
  have h₁ : s₁.Sound q := by
    refine ⟨h.added_le, fun hj ↦ h.lt_added (hsome _ ▸ hj), fun j ↦ (h.live j).trans ?_, fun hkind ↦
      ⟨(h.aggregated hkind).1, fun j hj hnone ↦ (h.aggregated hkind).2 j hj ?_⟩, ?_, h.once.2⟩
    · rw [hsome]
    · have := hsome j
      rw [hnone] at this
      exact not_isSome_iff_eq_none.1 (by rw [← this]; exact false_ne_true)
    · have hnot : ¬ s₁.Complete q := fun hc ↦ not_complete h hi
        ⟨hc.1, fun j hj ↦ by
          have := hc.2 j hj
          rw [← not_isSome, hsome] at this
          rwa [← not_isSome]⟩
      rw [if_neg hnot]
      exact hcount
  cases hb with
  | nothing => exact h₁
  | @more c hc hkind =>
    have hmem : i ∈ s.parent.childRequests := (h.live i).2 hi
    have hout : s₁.parent.getOutputs q.params.outputKind i c = ([some c], false, s.parent) := by
      simp [ParentRequest.getOutputs, hkind, hc, hs₁, Finset.ne_empty_of_mem hmem]
    have hemit : s₁.emit q i (some c) =
        { s₁ with emitted := s.emitted ++ [⟨[some c], false⟩] } := by
      rw [emit, hout]
      rfl
    rw [hemit]
    refine { h₁ with once := ⟨?_, fun hfinal ↦ absurd hfinal hkind⟩ }
    rw [filter_append, filter_cons_of_neg Bool.false_ne_true, filter_nil, append_nil]
    exact h₁.once.1

/-- The others of the parent's children are gone exactly if none of them is live. -/
theorem erase_eq_empty_iff (h : s.Sound q) :
    s.parent.childRequests.erase i = ∅ ↔ ¬ s.Accompanied i := by
  rw [Finset.eq_empty_iff_forall_notMem]
  constructor
  · rintro hnone ⟨j, -, hne, hj⟩
    exact hnone j (Finset.mem_erase.2 ⟨hne, (h.live j).2 hj⟩)
  · intro hnot j hj
    obtain ⟨hne, hj⟩ := Finset.mem_erase.1 hj
    have hj := (h.live j).1 hj
    exact hnot ⟨j, h.lt_added hj, hne, hj⟩

section

variable (h : s.Sound q) (hi : (s.requestStates i).isSome) {c : CompletionOutput L}
  (hfin : c.finished = true) (hindex : c.index = i)

include h hi hfin hindex

/-- The state after a child has ended. -/
theorem emit_last :
    emit q i (s.setState i none) (some c) =
      { s.setState i none with
        parent := ⟨s.parent.childRequests.erase i,
          if q.params.outputKind = .finalOnly then s.parent.outputAggregator.set i (some c)
          else s.parent.outputAggregator⟩
        emitted :=
          if q.params.outputKind = .finalOnly then
            if s.Accompanied i then s.emitted
            else s.emitted ++ [⟨s.parent.outputAggregator.set i (some c), true⟩]
          else s.emitted ++ [⟨[some c], ¬ s.Accompanied i⟩] } := by
  have hmem : i ∈ s.parent.childRequests := (h.live i).2 hi
  have hempty := erase_eq_empty_iff h (i := i)
  rw [emit]
  by_cases hkind : q.params.outputKind = .finalOnly
  · have hne : s.parent.outputAggregator.set i (some c) ≠ [] := by
      rw [← length_pos_iff, length_set, (h.aggregated hkind).1]
      exact zero_lt_of_lt q.one_lt
    by_cases hacc : s.Accompanied i
    · have hne' : s.parent.childRequests.erase i ≠ ∅ := fun he ↦ hempty.1 he hacc
      simp [ParentRequest.getOutputs, hkind, hfin, hindex, hacc, hne']
    · have he := hempty.2 hacc
      simp [ParentRequest.getOutputs, hkind, hfin, hindex, hacc, he, hne]
  · simp [ParentRequest.getOutputs, hkind, hfin, hmem, hempty]

/-- How many finished outputs there are after a child has ended. -/
theorem length_finished_emit_last :
    ((emit q i (s.setState i none) (some c)).emitted.filter (·.finished)).length =
      if s.Accompanied i then 0 else 1 := by
  have hcount := h.once.1
  rw [if_neg (not_complete h hi)] at hcount
  rw [emit_last h hi hfin hindex]
  by_cases hacc : s.Accompanied i
  · by_cases hkind : q.params.outputKind = .finalOnly <;> simp [hacc, hkind, hcount]
  · by_cases hkind : q.params.outputKind = .finalOnly <;> simp [hacc, hkind, hcount]

end

/-- The request is complete after a child has ended exactly if all were added and no other child is
live. -/
theorem complete_emit_last {c : CompletionOutput L} :
    Complete q (emit q i (s.setState i none) (some c)) ↔ s.added = q.n ∧ ¬ s.Accompanied i := by
  show (s.added = q.n ∧ ∀ j < q.n, (update s.requestStates i none j).isNone) ↔ _
  constructor
  · rintro ⟨hadded, hall⟩
    refine ⟨hadded, fun ⟨j, hj, hne, hsome⟩ ↦ ?_⟩
    have hnone := hall j (hadded ▸ hj)
    rw [update_of_ne hne, ← not_isSome, hsome] at hnone
    exact nomatch hnone
  · rintro ⟨hadded, hacc⟩
    refine ⟨hadded, fun j hj ↦ ?_⟩
    rcases eq_or_ne j i with rfl | hne
    · rw [update_self]
      rfl
    · rw [update_of_ne hne, ← not_isSome, not_eq_true']
      by_contra hsome
      exact hacc ⟨j, hadded ▸ hj, hne, eq_true_of_not_eq_false hsome⟩

/-- **A child ends**: the request completes once exactly if the event is in time. -/
theorem Sound.ends (h : s.Sound q) (hi : (s.requestStates i).isSome) (hb : Brings q i true c) :
    ((s.added = q.n ∨ s.Accompanied i) → (emit q i (s.setState i none) c).Sound q) ∧
      (CompletesOnce q (emit q i (s.setState i none) c) → s.added = q.n ∨ s.Accompanied i) := by
  cases hb with
  | @last c hfin hindex =>
    have hlast := emit_last h hi hfin hindex
    have hlen := length_finished_emit_last h hi hfin hindex
    have hcomplete := complete_emit_last (q := q) (s := s) (i := i) (c := c)
    have hilt := h.lt_added hi
    refine ⟨fun htime ↦ ⟨?_, ?_, ?_, ?_, ?_, ?_⟩, fun honce ↦ ?_⟩
    · exact h.added_le
    · intro j hj
      rw [hlast] at hj ⊢
      dsimp only at hj ⊢
      rcases eq_or_ne j i with rfl | hne
      · exact hilt
      · rw [update_of_ne hne] at hj
        exact h.lt_added hj
    · intro j
      rw [hlast, Finset.mem_erase, h.live]
      rcases eq_or_ne j i with rfl | hne
      · simp
      · simp [hne]
    · intro hkind
      rw [hlast]
      obtain ⟨hlength, hslots⟩ := h.aggregated hkind
      simp only [hkind, if_true]
      refine ⟨by rw [length_set, hlength], fun j hj hnone ↦ ?_⟩
      rcases eq_or_ne j i with rfl | hne
      · refine ⟨c, getElem?_set_self ?_⟩
        have := h.added_le
        omega
      · rw [update_of_ne hne] at hnone
        rw [getElem?_set_ne hne.symm]
        exact hslots j hj hnone
    · rw [hlen, if_congr hcomplete rfl rfl]
      by_cases hacc : s.Accompanied i
      · simp [hacc]
      · simp [hacc, htime.resolve_right hacc]
    · intro hkind out hout hdone
      rw [hlast] at hout
      obtain ⟨hlength, hslots⟩ := h.aggregated hkind
      by_cases hacc : s.Accompanied i
      · simp only [hkind, hacc, if_true] at hout
        exact h.once.2 hkind out hout hdone
      · simp only [hkind, hacc, if_true, if_false, mem_append, mem_singleton] at hout
        rcases hout with hout | rfl
        · exact h.once.2 hkind out hout hdone
        · -- every other child has finished and left its completion
          refine ⟨by rw [length_set, hlength], fun entry hentry ↦ ?_⟩
          obtain ⟨j, hj⟩ := mem_iff_getElem?.1 hentry
          have hjlt : j < s.added := by
            have := (List.getElem?_eq_some_iff.1 hj).1
            rw [length_set] at this
            have := htime.resolve_right hacc
            omega
          rcases eq_or_ne j i with rfl | hne
          · rw [getElem?_set_self (by have := h.added_le; omega)] at hj
            cases hj
            rfl
          · rw [getElem?_set_ne hne.symm] at hj
            have hnone : s.requestStates j = none := by
              by_contra hsome
              exact hacc ⟨j, hjlt, hne, isSome_iff_ne_none.2 hsome⟩
            obtain ⟨c', hc'⟩ := hslots j hjlt hnone
            cases hc'.symm.trans hj
            rfl
    · by_contra hlate
      push Not at hlate
      have hcount := honce.1
      rw [hlen, if_neg hlate.2, if_neg fun hc ↦ hlate.1 (hcomplete.1 hc).1] at hcount
      exact Nat.one_ne_zero hcount

/-- **One event**: the invariant is kept exactly by the events that are in time. -/
theorem Sound.step (h : s.Sound q) (e : FanoutEvent L) :
    (Timely q s e → (s.step q e).Sound q) ∧ (CompletesOnce q (s.step q e) → Timely q s e) := by
  cases e with
  | add => exact ⟨fun _ ↦ h.add, fun _ ↦ trivial⟩
  | output i o =>
    rw [Fanout.step]
    rcases hst : s.requestStates i with - | st
    · exact ⟨fun _ ↦ h, fun _ st' hst' ↦ by rw [hst] at hst'; exact nomatch hst'⟩
    · have hi : (s.requestStates i).isSome := by rw [hst]; rfl
      obtain ⟨hkept, hbrings⟩ := processOutput_spec q i o st
      have htimely : Timely q s (.output i o) ↔
          (Fanout.ends (q.child i) o st → s.added = q.n ∨ s.Accompanied i) := by
        refine ⟨fun htime ↦ htime st hst, fun htime st' hst' ↦ ?_⟩
        cases hst.symm.trans hst'
        exact htime
      rw [htimely]
      dsimp only
      rw [hkept]
      rcases hends : Fanout.ends (q.child i) o st with - | -
      · rw [hends] at hbrings
        exact ⟨fun _ ↦ h.goesOn hi _ hbrings, fun _ ↦ nofun⟩
      · rw [hends] at hbrings
        obtain ⟨hsound, hlate⟩ := h.ends hi hbrings
        exact ⟨fun htime ↦ hsound (htime rfl), fun honce _ ↦ hlate honce⟩
  | abort i =>
    rw [Fanout.step]
    rcases hst : s.requestStates i with - | st
    · exact ⟨fun _ ↦ h, fun _ hi ↦ by rw [hst] at hi; exact nomatch hi⟩
    · have hi : (s.requestStates i).isSome := by rw [hst]; rfl
      obtain ⟨hsound, hlate⟩ := h.ends hi (brings_makeRequestOutput q i [] (some .abort) none st)
      exact ⟨fun htime ↦ hsound (htime hi), fun honce _ ↦ hlate honce⟩

/-- Events in time keep the invariant. -/
theorem sound_run (q : ParallelParams) (events : List (FanoutEvent L))
    (h : ∀ pre e, pre ++ [e] <+: events → Timely q (run q pre) e) : (run q events).Sound q := by
  induction events using reverseRecOn with
  | nil => exact sound_init q
  | append_singleton events e ih =>
    have hrun : run q (events ++ [e]) = (run q events).step q e := foldl_concat ..
    rw [hrun]
    refine ((ih fun pre e' hpre ↦ h pre e' ?_).step e).1 (h events e (prefix_refl _))
    exact hpre.trans (prefix_append _ _)

end

/-- **Parallel sampling completes once and fully**, at every point of every sequence of additions,
outputs and aborts, exactly if every event is in time. -/
theorem completesOnce_iff (q : ParallelParams) (events : List (FanoutEvent L)) :
    (∀ pre, pre <+: events → CompletesOnce q (run q pre)) ↔
      ∀ pre e, pre ++ [e] <+: events → Timely q (run q pre) e := by
  constructor
  · intro honce
    induction events using reverseRecOn with
    | nil =>
      intro pre e hpre
      exact absurd (prefix_nil.1 hpre) (by simp)
    | append_singleton events e ih =>
      have hbefore := ih fun pre hpre ↦ honce pre (hpre.trans (prefix_append _ _))
      intro pre e' hpre
      rcases prefix_concat_iff.1 hpre with heq | hpre
      · obtain ⟨rfl, rfl⟩ : pre = events ∧ e' = e := by simpa using heq
        have hrun : run q (pre ++ [e']) = (run q pre).step q e' := foldl_concat ..
        exact ((sound_run q pre hbefore).step e').2 (hrun ▸ honce _ (prefix_refl _))
      · exact hbefore pre e' hpre
  · intro htime pre hpre
    exact (sound_run q pre fun pre' e hpre' ↦ htime pre' e (hpre'.trans hpre)).once

/-- Two completions without streaming. -/
def twoCompletions : ParallelParams := ⟨{ outputKind := .finalOnly }, 2, by decide⟩

/-- The first child finishes with its first token before the second child is added: the request has
a finished output with a missing completion. -/
theorem not_completesOnce_firstFinished :
    ¬ ∀ pre, pre <+: [FanoutEvent.add, .output 0 ⟨[⟨1, ['a']⟩], [()], some .length, none, rfl⟩] →
      CompletesOnce twoCompletions (run twoCompletions pre) := by
  intro h
  have hdone := h _ (prefix_refl _)
  revert hdone
  decide

end Fanout

end OneCatVllm
