import OneCatVllm.Engine.OutputProcessor

/-!
# Sending and reading outputs

How the events of a request act on what its client has read, or would read now (`get`): an engine
output is taken in by the state (`takeIn`), an output is made and put (`send`), and **a put
appends** to the text, the tokens and the logprobs. An output that waits with the processor's own
list of logprobs is the exception for the state: what is merged into it goes into that list.
-/

namespace OneCatVllm

open RequestState

/-! ### Sending an output -/

variable {L : Type} {p : OutputParams}

namespace OutputStream

section

variable (s : OutputStream L)

/-- All the text that was read. -/
def text : List Char := s.delivered.flatMap (·.text)

/-- All the tokens that were read. -/
def tokenIds : List ℕ := s.delivered.flatMap (·.tokenIds)

/-- All the logprobs that were read. -/
def logprobs : List L := s.delivered.flatMap fun d ↦ d.logprobs.getD []

/-- The output that waits for the client has the processor's own list of logprobs. -/
def waitsShared : Bool :=
  s.output.any fun c ↦ c.logprobs matches .shared

end

/-- An engine output is taken in by the state. -/
def takeIn (p : OutputParams) (o : EngineCoreOutput L) (s : OutputStream L) : OutputStream L :=
  { s with
    state := { s.state with
      detokenizer := (s.state.detokenizer.update p.detokenizer o.newTokenIds
        (o.finishReason = some .stop)).2
      logprobs := if p.logprobs then s.state.logprobs ++ o.newLogprobs else s.state.logprobs } }

/-- An output is made, if one is due, and put into the collector. -/
def send (p : OutputParams) (newTokenIds : List ℕ) (finishReason : Option FinishReason)
    (stopReason : Option StopReason) (s : OutputStream L) : OutputStream L :=
  let out := s.state.makeRequestOutput p newTokenIds finishReason stopReason
  { s with state := out.2, live := finishReason.isNone }.putOption p out.1

variable {s : OutputStream L}

theorem step_output (o : EngineCoreOutput L) (h : s.live = true) :
    s.step p (.output o) =
      (s.takeIn p o).send p (o.newTokenIds.map (·.id))
        (finishOf o (s.state.detokenizer.update p.detokenizer o.newTokenIds
          (o.finishReason = some .stop)).1).1
        (finishOf o (s.state.detokenizer.update p.detokenizer o.newTokenIds
          (o.finishReason = some .stop)).1).2 := by
  rw [step, if_pos h]
  rfl

theorem step_abort (h : s.live = true) : s.step p .abort = s.send p [] (some .abort) none := by
  rw [step, if_pos h]
  rfl

/-! #### Reading -/

section

variable (s : OutputStream L)

/-- A read that leaves nothing changes nothing when repeated. -/
@[simp] theorem get_get : s.get.get = s.get := by
  rcases h : s.output with - | c <;> simp [get, h]

theorem get_eq : ∃ d, s.get = { s with output := none, delivered := d } := by
  rcases h : s.output with - | c <;> rw [get, h]
  · exact ⟨s.delivered, congrArg (fun o ↦ { s with output := o }) h⟩
  · exact ⟨_, rfl⟩

theorem get_text : s.get.text = s.text ++ (s.output.elim [] (·.text)) := by
  unfold get text
  rcases s.output with - | c <;> simp

theorem get_tokenIds : s.get.tokenIds = s.tokenIds ++ (s.output.elim [] (·.tokenIds)) := by
  unfold get tokenIds
  rcases s.output with - | c <;> simp

theorem get_logprobs :
    s.get.logprobs =
      s.logprobs ++ (s.output.elim [] fun c ↦ (s.state.readLogprobs c.logprobs).getD []) := by
  unfold get logprobs
  rcases s.output with - | c <;> simp

end

/-! #### Putting -/

@[simp] theorem addAggregate_text (c next : CompletionOutput L) (st : RequestState L) :
    (addAggregate c next st).1.text = c.text ++ next.text := by
  unfold addAggregate
  rcases c.logprobs <;> rfl

@[simp] theorem addAggregate_tokenIds (c next : CompletionOutput L) (st : RequestState L) :
    (addAggregate c next st).1.tokenIds = c.tokenIds ++ next.tokenIds := by
  unfold addAggregate
  rcases c.logprobs <;> rfl

theorem put_of_none (c : CompletionOutput L) (h : s.output = none) :
    s.put p c = { s with output := some c } := by
  rw [put, h]

/-- The first output that waits. -/
theorem send_of_none {ids : List ℕ} {fr : Option FinishReason} {sr : Option StopReason}
    {c : CompletionOutput L} {st : RequestState L} (h : s.output = none)
    (hmake : s.state.makeRequestOutput p ids fr sr = (some c, st)) :
    s.send p ids fr sr = { s with live := fr.isNone, state := st, output := some c } := by
  rw [send, hmake]
  exact put_of_none c h

variable (hp : p.outputKind = .delta) (c : CompletionOutput L)
include hp

theorem put_of_some {c₀ : CompletionOutput L} (h : s.output = some c₀) :
    s.put p c =
      { s with
        output := some (addAggregate c₀ c s.state).1
        state := (addAggregate c₀ c s.state).2 } := by
  rw [put, h]
  exact if_pos hp

theorem put_live : (s.put p c).live = s.live := by
  rcases h : s.output with - | c₀
  · rw [put_of_none c h]
  · rw [put_of_some hp c h]

theorem put_text : (s.put p c).get.text = s.get.text ++ c.text := by
  rcases h : s.output with - | c₀
  · rw [get_text, get_text, put_of_none c h, h]
    simp [text]
  · rw [get_text, get_text, put_of_some hp c h, h]
    simp [text]

theorem put_tokenIds : (s.put p c).get.tokenIds = s.get.tokenIds ++ c.tokenIds := by
  rcases h : s.output with - | c₀
  · rw [get_tokenIds, get_tokenIds, put_of_none c h, h]
    simp [tokenIds]
  · rw [get_tokenIds, get_tokenIds, put_of_some hp c h, h]
    simp [tokenIds]

/-- **The logprobs of an output are appended** to those before. -/
theorem put_logprobs (habsent : ∀ c₀ ∈ s.output, c₀.logprobs = .absent → c.logprobs = .absent) :
    (s.put p c).get.logprobs = s.get.logprobs ++ (s.state.readLogprobs c.logprobs).getD [] := by
  rcases h : s.output with - | c₀
  · rw [get_logprobs, get_logprobs, put_of_none c h, h]
    simp [logprobs]
  · have habs := habsent c₀ h
    rw [get_logprobs, get_logprobs, put_of_some hp c h, h]
    simp only [logprobs, addAggregate, Option.elim]
    rcases hl : c₀.logprobs with - | l₀ | -
    · simp [readLogprobs, habs hl]
    · simp [readLogprobs]
    · simp [readLogprobs]

/-- An output that is merged into one with the processor's list extends that list. -/
theorem put_state : (s.put p c).state =
    { s.state with logprobs := s.state.logprobs ++
        if s.waitsShared then (s.state.readLogprobs c.logprobs).getD [] else [] } := by
  rcases h : s.output with - | c₀
  · simp [put_of_none c h, waitsShared, h]
  · rw [put_of_some hp c h, waitsShared, h]
    simp only [addAggregate]
    rcases hl : c₀.logprobs with - | l₀ | - <;> simp [hl]

/-- The output that waits after a put keeps its kind of list. -/
theorem put_output (q : Logprobs L → Prop) (hown : ∀ l l', q (.own l) → q (.own l'))
    (hc : q c.logprobs) (hout : ∀ c₀ ∈ s.output, q c₀.logprobs) :
    ∀ c₁ ∈ (s.put p c).output, q c₁.logprobs := by
  rcases h : s.output with - | c₀
  · rw [put_of_none c h]
    rintro c₁ ⟨⟩
    exact hc
  · rw [put_of_some hp c h]
    have h₀ := hout c₀ h
    rintro c₁ ⟨⟩
    simp only [addAggregate]
    rcases hl : c₀.logprobs with - | l₀ | - <;> rw [hl] at h₀
    · exact h₀
    · exact hown _ _ h₀
    · exact h₀

end OutputStream

/-! ### The output of a delta -/

namespace RequestState

/-- The list of logprobs that a delta with `n` tokens brings. -/
def deltaLogprobs (p : OutputParams) (n : ℕ) (st : RequestState L) : List L :=
  if p.logprobs ∧ st.logprobs ≠ [] then sliceLast st.logprobs n else []

theorem le_length_deltaLogprobs (st : RequestState L) {n : ℕ} (hlp : p.logprobs = true)
    (h : n ≤ st.logprobs.length) : n ≤ (st.deltaLogprobs p n).length := by
  unfold deltaLogprobs sliceLast
  split_ifs with hne hn
  · omega
  · rw [List.length_drop]
    omega
  · have hnil : st.logprobs = [] := by
      by_contra hc
      exact hne ⟨hlp, hc⟩
    rw [hnil] at h
    exact h

section

variable (st : RequestState L) (hp : p.outputKind = .delta) (ids : List ℕ)
  (fr : Option FinishReason) (sr : Option StopReason)

include hp

/-- What `_new_completion_output` makes in delta mode. -/
theorem newCompletionOutput_delta :
    (st.newCompletionOutput p ids fr sr).2 = { st with
          detokenizer := (st.detokenizer.getNextOutputText p.detokenizer fr.isSome true).2 } ∧
      (st.newCompletionOutput p ids fr sr).1.text =
        (st.detokenizer.getNextOutputText p.detokenizer fr.isSome true).1 ∧
      (st.newCompletionOutput p ids fr sr).1.tokenIds = ids ∧
      ((st.newCompletionOutput p ids fr sr).1.logprobs = .absent ↔ p.logprobs = false) ∧
      ((st.newCompletionOutput p ids fr sr).1.logprobs = .shared → st.logprobs = []) ∧
      (st.readLogprobs (st.newCompletionOutput p ids fr sr).1.logprobs).getD [] =
        st.deltaLogprobs p ids.length := by
  simp only [newCompletionOutput, deltaLogprobs, hp, decide_true, if_true, true_and]
  rcases hlp : p.logprobs with - | -
  · simp [readLogprobs]
  · by_cases hnil : st.logprobs = [] <;> simp [readLogprobs, hnil]

/-- **When a delta is made**, and from which tokens. -/
theorem makeRequestOutput_delta :
    (1 < p.streamInterval ∧ fr = none ∧ st.makeRequestOutput p ids fr sr = (none, st)) ∨
    (1 < p.streamInterval ∧ (fr = none → st.sentTokensOffset = 0 ∨
        st.sentTokensOffset < st.detokenizer.numOutputTokens) ∧
      st.makeRequestOutput p ids fr sr =
        Prod.map some id (newCompletionOutput p (st.detokenizer.tokenIds.drop st.sentTokensOffset)
          fr sr { st with sentTokensOffset := st.detokenizer.numOutputTokens })) ∨
    (p.streamInterval ≤ 1 ∧ st.makeRequestOutput p ids fr sr =
      Prod.map some id (st.newCompletionOutput p ids fr sr)) := by
  have hkind : ¬ (fr = none ∧ p.outputKind = .finalOnly) := by
    rw [hp]
    exact fun h ↦ nomatch h.2
  rw [makeRequestOutput, if_neg hkind]
  by_cases hI : 1 < p.streamInterval
  · rw [if_pos hI]
    by_cases hdue : st.isDue p fr.isSome = true
    · rw [if_neg (not_not.2 hdue), if_pos hp]
      refine .inr (.inl ⟨hI, ?_, rfl⟩)
      rintro rfl
      simp only [isDue, Option.isSome_none, Bool.false_or, Bool.or_eq_true, beq_iff_eq,
        decide_eq_true_eq] at hdue
      omega
    · rw [if_pos hdue]
      refine .inl ⟨hI, ?_, rfl⟩
      rcases fr with - | r
      · rfl
      · exact absurd (by simp [isDue]) hdue
  · rw [if_neg hI]
    exact .inr (.inr ⟨not_lt.1 hI, rfl⟩)

end

end RequestState

end OneCatVllm
