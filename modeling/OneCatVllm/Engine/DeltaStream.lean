import OneCatVllm.Engine.DetokenizerText
import OneCatVllm.Engine.OutputStream

/-!
# Deltas and the final output

A request that streams deltas and one that waits for its final output are compared through what is
**generated** (`Generation`): the tokens, the text and the logprobs that the engine outputs amount
to, whatever is sent and read. The final output is all of it. The deltas that a client has read,
together with the one that waits for it, are its first part, up to a cursor for each of the three.

For the text the cursor stays behind the stop buffer, so that a stop string never cuts off what was
sent. For the tokens it is the offset of the last output. The logprobs are cut by the number of
tokens of the output, and **a slice for no tokens is the whole list**: an output without tokens
repeats every logprob (`Repeats`), and from then on there are too many of them.
-/

namespace OneCatVllm

open Bool Detokenizer List Nat Option OutputStream

/-! ### What is generated -/

/-- What the engine outputs of a request amount to: the tokens, the text and the logprobs, and
whether the request still runs. -/
structure Generation (L : Type) where
  live : Bool := true
  detokenizer : Detokenizer := {}
  logprobs : List L := []

variable {L : Type} {p : OutputParams} {g : Generation L}

namespace Generation

section

variable (p : OutputParams)

/-- An engine output is taken in. -/
def takeIn (o : EngineCoreOutput L) (g : Generation L) : Generation L :=
  let res := g.detokenizer.update p.detokenizer o.newTokenIds (o.finishReason = some .stop)
  { live := (RequestState.finishOf o res.1).1.isNone
    detokenizer := res.2
    logprobs := if p.logprobs then g.logprobs ++ o.newLogprobs else g.logprobs }

/-- One event: reads change nothing, and a request that does not run takes nothing in. -/
def step (g : Generation L) : OutputEvent L → Generation L
  | .output o => if g.live then g.takeIn p o else g
  | .read => g
  | .abort => { g with live := false }

theorem tokenIds_takeIn (o : EngineCoreOutput L) (g : Generation L) :
    (g.takeIn p o).detokenizer.tokenIds = g.detokenizer.tokenIds ++ o.newTokenIds.map (·.id) :=
  (update_spec p.detokenizer g.detokenizer o.newTokenIds (o.finishReason = some .stop)).1

/-- There is a logprob for each token if they are asked for, and no text without a tokenizer. -/
structure Ok (g : Generation L) : Prop where
  logprobs : g.logprobs.length = if p.logprobs then g.detokenizer.tokenIds.length else 0
  text : p.detokenizer.detokenize = false → g.detokenizer.outputText = []

end

theorem Ok.takeIn (h : g.Ok p) (o : EngineCoreOutput L) : (g.takeIn p o).Ok p where
  logprobs := by
    have hlen := h.logprobs
    rw [tokenIds_takeIn]
    show (if p.logprobs then g.logprobs ++ o.newLogprobs else g.logprobs).length = _
    split_ifs with hlp
    · rw [if_pos hlp] at hlen
      rw [length_append, length_append, length_map, hlen, o.length_newLogprobs]
    · rw [if_neg hlp] at hlen
      exact hlen
  text := fun hdet ↦ (outputText_update _ _ _ hdet).trans (h.text hdet)

end Generation

/-! ### Deltas -/

section

variable (p : OutputParams) (g : Generation L) (s : OutputStream L) (k : ℕ)

/-- **What a client of deltas has**, read or waiting, after `k` of the generated tokens. -/
structure Streamed : Prop where
  ok : g.Ok p
  detokenizer : s.state.detokenizer = { g.detokenizer with
    lastOutputTextOffset := s.state.detokenizer.lastOutputTextOffset }
  text : s.get.text = g.detokenizer.outputText.take s.state.detokenizer.lastOutputTextOffset
  offset_le : s.state.detokenizer.lastOutputTextOffset ≤ g.detokenizer.outputText.length
  tokenIds : s.get.tokenIds = g.detokenizer.tokenIds.take k
  le : k ≤ g.detokenizer.tokenIds.length
  sent : 1 < p.streamInterval → s.state.sentTokensOffset = k
  absent : ∀ c ∈ s.output, (c.logprobs = .absent ↔ p.logprobs = false)

/-- The logprobs are as they should be: the processor has all of them, the client those of its
tokens, and only before the first token does an output wait with the processor's list. -/
structure Clean : Prop where
  logprobs : s.state.logprobs = g.logprobs
  read : s.get.logprobs = g.logprobs.take k
  shared : s.waitsShared → g.logprobs = []

/-- There are too many logprobs for the tokens that were sent, and the processor has one for each
token at least. -/
structure Repeated : Prop where
  asked : p.logprobs = true
  lt : k < s.get.logprobs.length
  le : g.detokenizer.tokenIds.length ≤ s.state.logprobs.length

/-- Nothing of the text in the stop buffer was sent. -/
def HeldBack : Prop :=
  s.state.detokenizer.lastOutputTextOffset ≤
    g.detokenizer.outputText.length - p.detokenizer.stopBufferLength

end

section

variable {s : OutputStream L} {k : ℕ} {o : EngineCoreOutput L} {ids : List ℕ}

/-! #### An engine output is taken in -/

theorem Streamed.takeIn (h : Streamed p g s k) (hbuf : HeldBack p g s) :
    Streamed p (g.takeIn p o) (s.takeIn p o) k ∧
      ((g.detokenizer.update p.detokenizer o.newTokenIds (o.finishReason = some .stop)).1 = none →
        HeldBack p (g.takeIn p o) (s.takeIn p o)) := by
  obtain ⟨htake, hle, hheld⟩ := (update_spec p.detokenizer g.detokenizer
    o.newTokenIds (o.finishReason = some .stop)).2.take_eq hbuf
  have hdet := update_offset p.detokenizer g.detokenizer o.newTokenIds
    (o.finishReason = some .stop) s.state.detokenizer.lastOutputTextOffset
  rw [← h.detokenizer] at hdet
  have hoff : (s.takeIn p o).state.detokenizer.lastOutputTextOffset =
      s.state.detokenizer.lastOutputTextOffset := congrArg (·.2.lastOutputTextOffset) hdet
  refine ⟨⟨h.ok.takeIn o, ?_, ?_, ?_, ?_, ?_, h.sent, h.absent⟩, fun hnone ↦ ?_⟩
  · rw [hoff]
    exact congrArg (·.2) hdet
  · rw [get_text, hoff]
    exact (get_text s).symm.trans (h.text.trans htake.symm)
  · rw [hoff]
    exact hle
  · rw [get_tokenIds]
    refine (get_tokenIds s).symm.trans (h.tokenIds.trans ?_)
    rw [Generation.tokenIds_takeIn, take_append_of_le_length h.le]
  · rw [Generation.tokenIds_takeIn, length_append]
    exact h.le.trans (le_add_right _ _)
  · rw [HeldBack, hoff]
    exact hheld hnone

/-- The list that waits for the client grows with the processor's. -/
theorem logprobs_takeIn (hlp : p.logprobs = true) :
    (s.takeIn p o).get.logprobs =
      s.get.logprobs ++ if s.waitsShared then o.newLogprobs else [] := by
  rw [get_logprobs, get_logprobs, waitsShared]
  show s.logprobs ++ s.output.elim [] _ = _
  rcases s.output with - | c
  · simp
  · rcases hl : c.logprobs with - | l | - <;>
      simp [RequestState.readLogprobs, takeIn, hl, hlp]

/-- Without logprobs nothing happens to them. -/
theorem logprobs_takeIn_of_not (hlp : p.logprobs = false) :
    (s.takeIn p o).get.logprobs = s.get.logprobs := by
  rw [get_logprobs, get_logprobs]
  show s.logprobs ++ s.output.elim [] _ = _
  rcases s.output with - | c
  · rfl
  · rcases hl : c.logprobs with - | l | - <;>
      simp [RequestState.readLogprobs, takeIn, hl, hlp]

theorem Clean.takeIn (hs : Streamed p g s k) (h : Clean g s k)
    (hnot : s.waitsShared → o.newTokenIds = []) : Clean (g.takeIn p o) (s.takeIn p o) k := by
  rcases hlp : p.logprobs with - | -
  · have hg : (g.takeIn p o).logprobs = g.logprobs := by simp [Generation.takeIn, hlp]
    refine ⟨?_, ?_, ?_⟩
    · rw [hg, ← h.logprobs]
      simp [OutputStream.takeIn, hlp]
    · rw [logprobs_takeIn_of_not hlp, hg, h.read]
    · rw [hg]
      exact h.shared
  · have hg : (g.takeIn p o).logprobs = g.logprobs ++ o.newLogprobs := by
      simp [Generation.takeIn, hlp]
    have hnil : s.waitsShared → o.newLogprobs = [] := fun hw ↦
      length_eq_zero_iff.1 (by rw [o.length_newLogprobs, hnot hw, length_nil])
    have hlen := hs.ok.logprobs.trans (if_pos hlp)
    refine ⟨?_, ?_, fun hw ↦ ?_⟩
    · rw [hg, ← h.logprobs]
      simp [OutputStream.takeIn, hlp]
    · rw [logprobs_takeIn hlp, hg, h.read, take_append_of_le_length (hlen ▸ hs.le)]
      split_ifs with hw
      · rw [hnil hw, append_nil]
      · rw [append_nil]
    · rw [hg, h.shared hw, hnil hw, append_nil]

/-- **Tokens that arrive while an output waits with the processor's list** are read twice. -/
theorem Clean.repeated_takeIn (hs : Streamed p g s k) (h : Clean g s k) (hw : s.waitsShared)
    (hne : o.newTokenIds ≠ []) : Repeated p (g.takeIn p o) (s.takeIn p o) k := by
  have hlp : p.logprobs = true := by
    obtain ⟨c, hc, hshared⟩ := any_eq_true _ _ |>.1 hw
    by_contra hlp
    have := (hs.absent c hc).2 (eq_false_iff.2 hlp)
    simp [this] at hshared
  have hlen := hs.ok.logprobs
  rw [if_pos hlp, h.shared hw, length_nil] at hlen
  have hk : k = 0 := by
    have := hs.le
    omega
  refine ⟨hlp, ?_, ?_⟩
  · rw [logprobs_takeIn hlp, if_pos hw, length_append, o.length_newLogprobs]
    have := length_pos_iff.2 hne
    omega
  · rw [← (hs.ok.takeIn o).logprobs.trans (if_pos hlp)]
    simp [Generation.takeIn, OutputStream.takeIn, hlp, h.logprobs]

theorem Repeated.takeIn (h : Repeated p g s k) : Repeated p (g.takeIn p o) (s.takeIn p o) k := by
  refine ⟨h.asked, ?_, ?_⟩
  · rw [logprobs_takeIn h.asked, length_append]
    exact h.lt.trans_le (le_add_right _ _)
  · show _ ≤ (if p.logprobs then s.state.logprobs ++ o.newLogprobs else s.state.logprobs).length
    rw [Generation.tokenIds_takeIn, if_pos h.asked, length_append, length_append,
      length_map, o.length_newLogprobs]
    exact Nat.add_le_add_right h.le _

/-! #### An output is sent -/

/-- A delta after `k` tokens: it brings the text up to `x`, the tokens from `k` on, and the logprobs
for that many tokens. -/
structure IsDelta (p : OutputParams) (g : Generation L) (s : OutputStream L) (k : ℕ)
    (fin : Bool) (c : CompletionOutput L) (x n : ℕ) : Prop where
  sent : 1 < p.streamInterval → n = g.detokenizer.tokenIds.length
  due : 1 < p.streamInterval → fin = false → k = 0 ∨ k < g.detokenizer.tokenIds.length
  text : c.text = (g.detokenizer.outputText.take x).drop s.state.detokenizer.lastOutputTextOffset
  le_offset : s.state.detokenizer.lastOutputTextOffset ≤ x
  offset_le : x ≤ g.detokenizer.outputText.length
  finished : fin = true → x = g.detokenizer.outputText.length
  heldBack : HeldBack p g s → fin = false →
    x ≤ g.detokenizer.outputText.length - p.detokenizer.stopBufferLength
  tokenIds : c.tokenIds = g.detokenizer.tokenIds.drop k
  absent : c.logprobs = .absent ↔ p.logprobs = false
  shared : c.logprobs = .shared → s.state.logprobs = []
  read : (s.state.readLogprobs c.logprobs).getD [] =
    s.state.deltaLogprobs p (g.detokenizer.tokenIds.length - k)

/-- The state from which a delta is put. -/
def Generation.advance (g : Generation L) (live : Bool) (x sent : ℕ) (s : OutputStream L) :
    OutputStream L :=
  { s with
    live := live
    state := ⟨{ g.detokenizer with lastOutputTextOffset := x }, s.state.logprobs, sent⟩ }

theorem readLogprobs_advance {live : Bool} {x sent : ℕ} (l : Logprobs L) :
    (g.advance live x sent s).state.readLogprobs l = s.state.readLogprobs l := by
  rcases l <;> rfl

/-- **Sending a delta.** With a stream interval it may be left for later. -/
theorem Streamed.send_eq (hp : p.outputKind = .delta) (h : Streamed p g s k)
    (hids : p.streamInterval ≤ 1 → ids = g.detokenizer.tokenIds.drop k) (fr : Option FinishReason)
    (sr : Option StopReason) :
    (1 < p.streamInterval ∧ fr = none ∧ s.send p ids fr sr = { s with live := fr.isNone }) ∨
    ∃ c x sent, IsDelta p g s k fr.isSome c x sent ∧
      s.send p ids fr sr = (g.advance fr.isNone x sent s).put p c := by
  have htokens : s.state.detokenizer.tokenIds = g.detokenizer.tokenIds :=
    congrArg (·.tokenIds) h.detokenizer
  have htext : s.state.detokenizer.outputText = g.detokenizer.outputText :=
    congrArg (·.outputText) h.detokenizer
  obtain ⟨x, hnext, hlo, hhi, hfin, hheld⟩ := getNextOutputText_delta fr.isSome
    (fun hdet ↦ htext.trans (h.ok.text hdet)) (htext ▸ h.offset_le)
  rw [htext] at hhi hfin hheld hnext
  rw [htokens] at hnext
  unfold send
  rcases s.state.makeRequestOutput_delta hp ids fr sr with
    ⟨hI, hfr, hmake⟩ | ⟨hI, hdue, hmake⟩ | ⟨hI, hmake⟩
  · rw [hmake]
    exact .inl ⟨hI, hfr, rfl⟩
  · have hsent := h.sent hI
    obtain ⟨hst, hctext, hcids, habs, hshared, hread⟩ := RequestState.newCompletionOutput_delta
      { s.state with sentTokensOffset := g.detokenizer.tokenIds.length } hp
      (g.detokenizer.tokenIds.drop k) fr sr
    rw [numOutputTokens, htokens, hsent] at hmake hdue
    rw [hnext] at hst hctext
    rw [length_drop] at hread
    refine .inr ⟨_, x, g.detokenizer.tokenIds.length,
      ⟨fun _ ↦ rfl, fun _ hfr ↦ hdue (not_isSome_iff_eq_none.1 (by simp [hfr])), hctext, hlo,
        hhi, hfin, hheld, hcids, habs, hshared, hread⟩, ?_⟩
    rw [hmake]
    exact congrArg (fun st ↦ put p { s with live := fr.isNone, state := st } _) hst
  · obtain ⟨hst, hctext, hcids, habs, hshared, hread⟩ := s.state.newCompletionOutput_delta hp
      ids fr sr
    rw [hnext] at hst hctext
    rw [hids hI, length_drop] at hread
    refine .inr ⟨_, x, s.state.sentTokensOffset, ⟨fun hI' ↦ by omega, fun hI' ↦ by omega,
      hctext, hlo, hhi, hfin, hheld, hcids.trans (hids hI), habs, hshared, ?_⟩, ?_⟩
    · rw [← hread, hids hI]
    · rw [hmake]
      exact congrArg (fun st ↦ put p { s with live := fr.isNone, state := st } _) hst

section Delta

variable {finished live : Bool} {c : CompletionOutput L} {x sent : ℕ}

section

variable (hp : p.outputKind = .delta) (hs : Streamed p g s k)

include hp hs

section

variable (h : IsDelta p g s k finished c x sent)

include h

/-- Reads of what was put. -/
theorem IsDelta.get_logprobs :
    ((g.advance live x sent s).put p c).get.logprobs =
      s.get.logprobs ++ s.state.deltaLogprobs p (g.detokenizer.tokenIds.length - k) := by
  have habs : ∀ c₀ ∈ (g.advance live x sent s).output, c₀.logprobs = .absent →
      c.logprobs = .absent := fun c₀ hc₀ h₀ ↦ h.absent.2 ((hs.absent c₀ hc₀).1 h₀)
  rw [put_logprobs hp c habs, ← h.read, OutputStream.get_logprobs,
    OutputStream.get_logprobs]
  rfl

/-- **The text and the tokens go on** where they ended. -/
theorem IsDelta.streamed :
    Streamed p g ((g.advance live x sent s).put p c) g.detokenizer.tokenIds.length where
  ok := hs.ok
  detokenizer := by
    rw [put_state hp]
    rfl
  text := by
    rw [put_text hp, put_state hp, h.text]
    have hget : (g.advance live x sent s).get.text = s.get.text := by
      rw [get_text, get_text]
      rfl
    rw [hget, hs.text]
    show _ = g.detokenizer.outputText.take x
    conv_rhs => rw [← take_append_drop s.state.detokenizer.lastOutputTextOffset
      (g.detokenizer.outputText.take x), take_take, min_eq_left h.le_offset]
  offset_le := by
    rw [put_state hp]
    exact h.offset_le
  tokenIds := by
    have hget : (g.advance live x sent s).get.tokenIds = s.get.tokenIds := by
      rw [get_tokenIds, get_tokenIds]
      rfl
    rw [put_tokenIds hp, hget, hs.tokenIds, h.tokenIds, take_append_drop, take_length]
  le := le_rfl
  sent := fun hI ↦ by
    rw [put_state hp]
    exact h.sent hI
  absent := put_output hp c (fun l ↦ l = .absent ↔ p.logprobs = false)
    (fun l l' hl ↦ by simpa using hl) h.absent hs.absent

/-- A delta with tokens, or before the first token, brings its logprobs. -/
theorem IsDelta.clean (hc : Clean g s k)
    (hne : g.detokenizer.tokenIds.length - k ≠ 0 ∨ g.logprobs = []) :
    Clean g ((g.advance live x sent s).put p c) g.detokenizer.tokenIds.length := by
  have hlen := hs.ok.logprobs
  -- the slice is what the client does not have
  have hslice : s.state.deltaLogprobs p (g.detokenizer.tokenIds.length - k) =
      g.logprobs.drop k := by
    rw [RequestState.deltaLogprobs, RequestState.sliceLast, hc.logprobs]
    split_ifs with hlp hzero
    · exact absurd (hne.resolve_right hlp.2) (not_not.2 hzero)
    · rw [if_pos hlp.1] at hlen
      congr 1
      omega
    · have hnil : g.logprobs = [] := by
        by_contra hne'
        have hlp' : ¬ p.logprobs = true := fun hlp' ↦ hlp ⟨hlp', hne'⟩
        rw [if_neg hlp'] at hlen
        exact hne' (length_eq_zero_iff.1 hlen)
      rw [hnil, drop_nil]
  have hle : g.logprobs.length ≤ g.detokenizer.tokenIds.length := by
    rw [hlen]
    split_ifs <;> omega
  refine ⟨?_, ?_, fun hw ↦ ?_⟩
  · rw [put_state hp, readLogprobs_advance, h.read, hslice]
    show s.state.logprobs ++ (if s.waitsShared then _ else _) = _
    split_ifs with hw
    · rw [hc.logprobs, hc.shared hw, drop_nil, append_nil]
    · rw [hc.logprobs, append_nil]
  · rw [h.get_logprobs hp hs, hc.read, hslice, take_append_drop, take_of_length_le hle]
  · by_contra hnil
    have hnot : ∀ c₁ ∈ ((g.advance live x sent s).put p c).output, c₁.logprobs ≠ .shared :=
      put_output hp c (· ≠ .shared) (fun l l' _ h ↦ by cases h)
        (fun hshared ↦ hnil (hc.logprobs ▸ h.shared hshared))
        (fun c₀ hc₀ hshared ↦ hnil (hc.shared (any_eq_true _ _ |>.2 ⟨c₀, hc₀, by simp [hshared]⟩)))
    obtain ⟨c₁, hc₁, hshared⟩ := any_eq_true _ _ |>.1 hw
    rcases hl : c₁.logprobs with - | l | - <;> rw [hl] at hshared
    · exact absurd hshared (by simp)
    · exact absurd hshared (by simp)
    · exact hnot c₁ hc₁ hl

/-- **A delta without tokens** repeats every logprob there is. -/
theorem IsDelta.repeated_of_clean (hc : Clean g s k)
    (hk : k = g.detokenizer.tokenIds.length) (hne : g.logprobs ≠ []) :
    Repeated p g ((g.advance live x sent s).put p c) g.detokenizer.tokenIds.length := by
  have hlen := hs.ok.logprobs
  have hpos := length_pos_iff.2 hne
  have hlp : p.logprobs = true := by
    by_contra hlp
    rw [if_neg hlp] at hlen
    omega
  rw [if_pos hlp] at hlen
  refine ⟨hlp, ?_, ?_⟩
  · have hall : s.state.deltaLogprobs p (g.detokenizer.tokenIds.length - k) = g.logprobs := by
      rw [hk, Nat.sub_self, RequestState.deltaLogprobs, hc.logprobs, if_pos ⟨hlp, hne⟩]
      rfl
    rw [h.get_logprobs hp hs, hc.read, hall, length_append, length_take]
    omega
  · rw [put_state hp]
    show _ ≤ (s.state.logprobs ++ _).length
    rw [hc.logprobs, length_append]
    omega

/-- The surplus stays. -/
theorem IsDelta.repeated (hr : Repeated p g s k) :
    Repeated p g ((g.advance live x sent s).put p c) g.detokenizer.tokenIds.length := by
  have hslice := s.state.le_length_deltaLogprobs hr.asked
    ((sub_le (g.detokenizer.tokenIds.length) k).trans hr.le)
  have hlt := hr.lt
  refine ⟨hr.asked, ?_, ?_⟩
  · rw [h.get_logprobs hp hs, length_append]
    omega
  · rw [put_state hp]
    rw [length_append]
    exact hr.le.trans (le_add_right _ _)

end

end

end Delta

/-! #### One event -/

/-- **The invariant between events.** While the request runs the stop buffer is held back; when it
has ended everything was sent. Without a stream interval every token is sent at once. -/
structure AtRest (p : OutputParams) (g : Generation L) (s : OutputStream L) (k : ℕ) : Prop where
  streamed : Streamed p g s k
  live : s.live = g.live
  heldBack : g.live = true → HeldBack p g s
  ended : g.live = false → k = g.detokenizer.tokenIds.length ∧
    s.state.detokenizer.lastOutputTextOffset = g.detokenizer.outputText.length
  every : p.streamInterval ≤ 1 → k = g.detokenizer.tokenIds.length

/-- Sending, from any state of a running request. -/
theorem Streamed.atRest_send (hp : p.outputKind = .delta) (h : Streamed p g s k)
    (hrun : s.live = true) (hids : p.streamInterval ≤ 1 → ids = g.detokenizer.tokenIds.drop k)
    (fr : Option FinishReason) (sr : Option StopReason) (hlive : g.live = fr.isNone)
    (hbuf : fr = none → HeldBack p g s) :
    ∃ k', AtRest p g (s.send p ids fr sr) k' ∧
      (Clean g s k → (k < g.detokenizer.tokenIds.length ∨ g.logprobs = [] ∨
        1 < p.streamInterval ∧ fr = none) → Clean g (s.send p ids fr sr) k') ∧
      (Clean g s k → k = g.detokenizer.tokenIds.length → g.logprobs ≠ [] →
        (1 < p.streamInterval → fr ≠ none) → Repeated p g (s.send p ids fr sr) k') ∧
      (Repeated p g s k → Repeated p g (s.send p ids fr sr) k') := by
  rcases h.send_eq hp hids fr sr with ⟨hI, rfl, heq⟩ | ⟨c, x, n, hdelta, heq⟩
  · have hsame : ({ s with live := isNone (none : Option FinishReason) } : OutputStream L) =
        s := by rw [isNone_none, ← hrun]
    rw [heq, hsame]
    refine ⟨k, ⟨h, hrun.trans hlive.symm, fun _ ↦ hbuf rfl, fun hend ↦ ?_, fun hI' ↦ ?_⟩,
      fun hc _ ↦ hc, fun _ _ _ hfr ↦ absurd rfl (hfr hI), id⟩
    · rw [hlive] at hend
      exact nomatch hend
    · omega
  · have hlive' : ((g.advance fr.isNone x n s).put p c).live = g.live := by
      rw [put_live hp, hlive]
      rfl
    have hoff :
        ((g.advance fr.isNone x n s).put p c).state.detokenizer.lastOutputTextOffset = x := by
      rw [put_state hp]
      rfl
    rw [heq]
    refine ⟨_, ⟨hdelta.streamed hp h, hlive', fun hg ↦ ?_, fun hg ↦ ⟨rfl, ?_⟩, fun _ ↦ rfl⟩,
      fun hc hne ↦ hdelta.clean hp h hc ?_,
      fun hc hk hne _ ↦ hdelta.repeated_of_clean hp h hc hk hne, fun hr ↦ hdelta.repeated hp h hr⟩
    · rw [hlive, isNone_iff_eq_none] at hg
      rw [HeldBack, hoff]
      exact hdelta.heldBack (hbuf hg) (by rw [hg]; rfl)
    · rw [hoff]
      refine hdelta.finished ?_
      rw [hlive] at hg
      rcases fr with - | r
      · exact nomatch hg
      · rfl
    · rcases hne with hlt | hnil | ⟨hI, hfr⟩
      · exact .inl (by omega)
      · exact .inr hnil
      · rcases hdelta.due hI (by rw [hfr]; rfl) with hzero | hlt
        · by_cases htokens : g.detokenizer.tokenIds.length = 0
          · refine .inr (length_eq_zero_iff.1 ?_)
            rw [h.ok.logprobs, htokens, ite_self]
          · exact .inl (by omega)
        · exact .inl (by omega)

/-- **An event after which logprobs are repeated**: an output without new tokens, sent when there
are logprobs and nothing is left to send; an abort of that kind; or new tokens while an output from
before the first token waits to be read. -/
def Repeats (p : OutputParams) (s : OutputStream L) : OutputEvent L → Prop
  | .output o =>
    s.live = true ∧
      if o.newTokenIds = [] then
        s.state.logprobs ≠ [] ∧ (1 < p.streamInterval → o.finishReason ≠ none ∧
          s.state.sentTokensOffset = s.state.detokenizer.numOutputTokens)
      else s.waitsShared = true
  | .abort =>
    s.live = true ∧ s.state.logprobs ≠ [] ∧
      (1 < p.streamInterval → s.state.sentTokensOffset = s.state.detokenizer.numOutputTokens)
  | .read => False

instance (p : OutputParams) (s : OutputStream L) : (e : OutputEvent L) → Decidable (Repeats p s e)
  | .output _ | .abort => inferInstanceAs (Decidable (_ ∧ _))
  | .read => inferInstanceAs (Decidable False)

theorem Repeats.live {e : OutputEvent L} (h : Repeats p s e) : s.live = true := by
  cases e with
  | output o => exact h.1
  | abort => exact h.1
  | read => exact h.elim

/-- No event of the list repeats logprobs. -/
def NoRepeats (p : OutputParams) : OutputStream L → List (OutputEvent L) → Prop
  | _, [] => True
  | s, e :: events => ¬ Repeats p s e ∧ NoRepeats p (s.step p e) events

instance decidableNoRepeats (p : OutputParams) :
    (s : OutputStream L) → (events : List (OutputEvent L)) → Decidable (NoRepeats p s events)
  | _, [] => inferInstanceAs (Decidable True)
  | s, e :: events =>
    haveI := decidableNoRepeats p (s.step p e) events
    inferInstanceAs (Decidable (_ ∧ _))

/-- Whether the logprobs are as they should be or repeated, and which of the two after an event. -/
def Next (p : OutputParams) (g g' : Generation L) (s s' : OutputStream L) (k k' : ℕ)
    (repeats : Prop) : Prop :=
  (Clean g s k → ¬ repeats → Clean g' s' k') ∧ (Clean g s k → repeats → Repeated p g' s' k') ∧
    (Repeated p g s k → Repeated p g' s' k')

/-- Nothing is left to send. -/
theorem AtRest.allSent_iff (h : AtRest p g s k) :
    (1 < p.streamInterval → s.state.sentTokensOffset = s.state.detokenizer.numOutputTokens) ↔
      k = g.detokenizer.tokenIds.length := by
  rcases le_or_gt p.streamInterval 1 with hI | hI
  · exact iff_of_true (fun hI' ↦ absurd hI' (not_lt.2 hI)) (h.every hI)
  · rw [forall_prop_of_true hI, h.streamed.sent hI, h.streamed.detokenizer]
    rfl

theorem update_nil_fst (p : DetokenizerParams) (stopTerminated : Bool) (d : Detokenizer) :
    (d.update p [] stopTerminated).1 = none := by
  unfold update BaseIncrementalDetokenizer.update
  split_ifs <;> first | rfl | contradiction

section

variable (hp : p.outputKind = .delta) (h : AtRest p g s k) (hrun : s.live = true)

include hp h hrun

/-- **An engine output** for a running request. -/
theorem AtRest.output (o : EngineCoreOutput L) :
    ∃ k', AtRest p (g.takeIn p o) (s.step p (.output o)) k' ∧
      Next p g (g.takeIn p o) s (s.step p (.output o)) k k' (Repeats p s (.output o)) := by
  have hbuf := h.heldBack (h.live.symm.trans hrun)
  obtain ⟨hmid, hheld⟩ := h.streamed.takeIn hbuf
  have hupdate : (s.state.detokenizer.update p.detokenizer o.newTokenIds
      (o.finishReason = some .stop)).1 =
      (g.detokenizer.update p.detokenizer o.newTokenIds (o.finishReason = some .stop)).1 := by
    rw [h.streamed.detokenizer, update_offset]
  have htokens := g.tokenIds_takeIn p o
  have hlen : (g.takeIn p o).detokenizer.tokenIds.length =
      g.detokenizer.tokenIds.length + o.newTokenIds.length := by
    rw [htokens, length_append, length_map]
  have hids : p.streamInterval ≤ 1 →
      o.newTokenIds.map (·.id) = (g.takeIn p o).detokenizer.tokenIds.drop k := fun hI ↦ by
    rw [htokens, h.every hI, drop_left]
  rw [step_output o hrun, hupdate]
  set res := (g.detokenizer.update p.detokenizer o.newTokenIds (o.finishReason = some .stop)).1
    with hres
  set reasons := RequestState.finishOf o res with hreasons
  have hnone : reasons.1 = none → res = none := fun hfr ↦ by
    rcases res with - | str
    · rfl
    · exact nomatch hfr
  have hsame : o.newTokenIds = [] →
      (g.takeIn p o).logprobs = g.logprobs ∧ reasons.1 = o.finishReason := by
    intro hnew
    have hnil : o.newLogprobs = [] :=
      length_eq_zero_iff.1 (by rw [o.length_newLogprobs, hnew, length_nil])
    refine ⟨by simp [Generation.takeIn, hnil], ?_⟩
    rw [hreasons, hres, hnew, update_nil_fst]
    rfl
  obtain ⟨k', hrest, hclean, hrep, hkeep⟩ := hmid.atRest_send hp hrun hids reasons.1 reasons.2 rfl
    fun hfr ↦ hheld (hnone hfr)
  refine ⟨k', hrest, ?_, ?_, fun hr ↦ hkeep hr.takeIn⟩
  · intro hc hnot
    by_cases hnew : o.newTokenIds = []
    · refine hclean (hc.takeIn h.streamed fun _ ↦ hnew) ?_
      obtain ⟨hg, hfr⟩ := hsame hnew
      rw [hlen, hg, hfr, hnew]
      by_contra hcon
      push Not at hcon
      obtain ⟨hk, hne, hI⟩ := hcon
      refine hnot ⟨hrun, ?_⟩
      rw [if_pos hnew, hc.logprobs]
      exact ⟨hne, fun hI' ↦ ⟨hI hI', h.allSent_iff.2 (le_antisymm h.streamed.le hk) hI'⟩⟩
    · refine hclean (hc.takeIn h.streamed fun hw ↦ ?_) (.inl ?_)
      · exact absurd ⟨hrun, by rw [if_neg hnew]; exact hw⟩ hnot
      · have := length_pos_iff.2 hnew
        have := h.streamed.le
        omega
  · rintro hc ⟨-, hbad⟩
    split_ifs at hbad with hnew
    · obtain ⟨hg, hfr⟩ := hsame hnew
      refine hrep (hc.takeIn h.streamed fun _ ↦ hnew) ?_ ?_ ?_
      · rw [hlen, hnew]
        exact h.allSent_iff.1 fun hI ↦ (hbad.2 hI).2
      · rw [hg, ← hc.logprobs]
        exact hbad.1
      · rw [hfr]
        exact fun hI ↦ (hbad.2 hI).1
    · exact hkeep (hc.repeated_takeIn h.streamed hbad hnew)

/-- **An abort** of a running request. -/
theorem AtRest.abort :
    ∃ k', AtRest p { g with live := false } (s.step p .abort) k' ∧
      Next p g { g with live := false } s (s.step p .abort) k k' (Repeats p s .abort) := by
  have hs : Streamed p { g with live := false } s k :=
    { h.streamed with ok := { h.streamed.ok with } }
  have hids : p.streamInterval ≤ 1 → [] = g.detokenizer.tokenIds.drop k := fun hI ↦ by
    rw [h.every hI, drop_length]
  rw [step_abort hrun]
  obtain ⟨k', hrest, hclean, hrep, hkeep⟩ :=
    hs.atRest_send hp hrun hids (some .abort) none rfl nofun
  refine ⟨k', hrest, fun hc hnot ↦ ?_, fun hc hbad ↦ ?_, fun hr ↦ hkeep { hr with }⟩
  · refine hclean { hc with } ?_
    by_contra hcon
    push Not at hcon
    obtain ⟨hk, hne, -⟩ := hcon
    exact hnot ⟨hrun, hc.logprobs.symm ▸ hne, h.allSent_iff.2 (le_antisymm h.streamed.le hk)⟩
  · obtain ⟨-, hne, hsent⟩ := hbad
    exact hrep { hc with } (h.allSent_iff.1 hsent) (hc.logprobs ▸ hne) nofun

end

/-- A read moves what waits to what was read. -/
theorem AtRest.get (h : AtRest p g s k) : AtRest p g s.get k := by
  have htext := h.streamed.text
  have hids := h.streamed.tokenIds
  obtain ⟨d, hd⟩ := s.get_eq
  rw [hd] at htext hids ⊢
  exact { h with
    streamed := { h.streamed with text := htext, tokenIds := hids, absent := nofun } }

theorem next_get : Next p g g s s.get k k False := by
  have hget := congrArg logprobs s.get_get
  obtain ⟨d, hd⟩ := s.get_eq
  rw [hd] at hget ⊢
  refine ⟨fun hc _ ↦ { hc with read := ?_, shared := nofun }, fun _ ↦ False.elim,
    fun hr ↦ { hr with lt := ?_ }⟩
  · rw [hget, ← hd]
    exact hc.read
  · rw [hget, ← hd]
    exact hr.lt

/-- **One event.** -/
theorem AtRest.step (hp : p.outputKind = .delta) (h : AtRest p g s k) (e : OutputEvent L) :
    ∃ k', AtRest p (g.step p e) (s.step p e) k' ∧
      Next p g (g.step p e) s (s.step p e) k k' (Repeats p s e) := by
  rcases hrun : s.live with - | -
  · -- nothing is taken in any more
    have hg : g.live = false := h.live.symm.trans hrun
    have hstay : Next p g g s s k k (Repeats p s e) :=
      ⟨fun hc _ ↦ hc, fun _ hbad ↦ Bool.noConfusion (hrun.symm.trans hbad.live), id⟩
    cases e with
    | output o =>
      rw [Generation.step, OutputStream.step, if_neg (by simp [hg]), if_neg (by simp [hrun])]
      exact ⟨k, h, hstay⟩
    | read => exact ⟨k, h.get, next_get⟩
    | abort =>
      have hsame : ({ g with live := false } : Generation L) = g := by rw [← hg]
      rw [Generation.step, OutputStream.step, if_neg (by simp [hrun]), hsame]
      exact ⟨k, h, hstay⟩
  · cases e with
    | output o =>
      rw [Generation.step, if_pos (h.live.symm.trans hrun)]
      exact h.output hp hrun o
    | read => exact ⟨k, h.get, next_get⟩
    | abort => exact h.abort hp hrun

/-- **All events**: the logprobs stay as they should be exactly if no event repeats them. -/
theorem AtRest.run (hp : p.outputKind = .delta) (events : List (OutputEvent L))
    (h : AtRest p g s k) :
    ∃ k', AtRest p (events.foldl (Generation.step p) g) (events.foldl (OutputStream.step p) s) k' ∧
      Next p g (events.foldl (Generation.step p) g) s (events.foldl (OutputStream.step p) s) k k'
        (¬ NoRepeats p s events) := by
  induction events generalizing g s k with
  | nil => exact ⟨k, h, fun hc _ ↦ hc, fun _ hbad ↦ absurd trivial hbad, id⟩
  | cons e events ih =>
    obtain ⟨k₁, hrest, hclean, hrep, hkeep⟩ := h.step hp e
    obtain ⟨k', hrest', hclean', hrep', hkeep'⟩ := ih hrest
    refine ⟨k', hrest', fun hc hno ↦ ?_, fun hc hbad ↦ ?_, fun hr ↦ hkeep' (hkeep hr)⟩
    · obtain ⟨hfirst, hothers⟩ := not_not.1 hno
      exact hclean' (hclean hc hfirst) (not_not.2 hothers)
    · by_cases hfirst : Repeats p s e
      · exact hkeep' (hrep hc hfirst)
      · exact hrep' (hclean hc hfirst) fun hothers ↦ hbad ⟨hfirst, hothers⟩

/-! ### The final output -/

/-- A request that waits for its final output: nothing is sent while it runs, and then everything at
once. -/
structure Awaits (p : OutputParams) (g : Generation L) (s : OutputStream L) : Prop where
  ok : g.Ok p
  live : s.live = g.live
  running : g.live = true → s.state.detokenizer = g.detokenizer ∧ s.state.logprobs = g.logprobs ∧
    s.output = none ∧ s.delivered = []
  ended : g.live = false → ∃ fr sr, s.get.delivered =
    [⟨g.detokenizer.outputText, g.detokenizer.tokenIds,
      if p.logprobs then some g.logprobs else none, fr, sr⟩]

section

variable (hp : p.outputKind = .finalOnly)

include hp

/-- Sending, from any state of a running request. -/
theorem awaits_send (hok : g.Ok p)
    (hdet : s.state.detokenizer = g.detokenizer) (hlp : s.state.logprobs = g.logprobs)
    (hout : s.output = none) (hdel : s.delivered = []) (ids : List ℕ)
    (fr : Option FinishReason) (sr : Option StopReason) (hlive : g.live = fr.isNone) :
    Awaits p g (s.send p ids fr sr) := by
  rcases fr with - | r
  · have hmake : s.state.makeRequestOutput p ids none sr = (none, s.state) := if_pos ⟨rfl, hp⟩
    have hsend : s.send p ids none sr = { s with live := true } := by
      rw [send, hmake]
      rfl
    rw [hsend]
    refine ⟨hok, hlive.symm, fun _ ↦ ⟨hdet, hlp, hout, hdel⟩, fun hend ↦ ?_⟩
    cases hlive.symm.trans hend
  · have hmake : s.state.makeRequestOutput p ids (some r) sr =
        Prod.map some id (s.state.newCompletionOutput p ids (some r) sr) := by
      rw [RequestState.makeRequestOutput, hp]
      exact ite_self _
    have htext : (g.detokenizer.getNextOutputText p.detokenizer true false).1 =
        g.detokenizer.outputText := by
      unfold getNextOutputText BaseIncrementalDetokenizer.getNextOutputText
      rcases hd : p.detokenizer.detokenize with - | -
      · exact (hok.text hd).symm
      · simp
    have hnew : s.state.newCompletionOutput p ids (some r) sr =
        (⟨p.index, g.detokenizer.outputText, g.detokenizer.tokenIds,
          if p.logprobs then .shared else .absent, some r, sr⟩,
          { s.state with detokenizer :=
            (g.detokenizer.getNextOutputText p.detokenizer true false).2 }) := by
      rw [RequestState.newCompletionOutput, hp]
      rcases hp' : p.logprobs with - | - <;> simp [htext, hdet]
    rw [hnew] at hmake
    rw [send_of_none hout hmake]
    refine ⟨hok, hlive.symm, fun hrun ↦ ?_, fun _ ↦ ⟨some r, sr, ?_⟩⟩
    · cases hlive.symm.trans hrun
    · rcases hp' : p.logprobs with - | - <;>
        simp [OutputStream.get, hdel, RequestState.readLogprobs, hlp]

/-- **One event** of a request that waits for its final output. -/
theorem Awaits.step (h : Awaits p g s) (e : OutputEvent L) :
    Awaits p (g.step p e) (s.step p e) := by
  rcases hrun : g.live with - | -
  · cases e with
    | output o =>
      rw [Generation.step, OutputStream.step, if_neg (by simp [hrun]),
        if_neg (by simp [h.live, hrun])]
      exact h
    | read =>
      refine ⟨h.ok, by obtain ⟨d, hd⟩ := s.get_eq; exact (congrArg (·.live) hd).trans h.live,
        fun hlive ↦ (false_ne_true (hrun.symm.trans hlive)).elim, fun hend ↦ ?_⟩
      show ∃ fr sr, s.get.get.delivered = _
      rw [get_get]
      exact h.ended hend
    | abort =>
      have hsame : ({ g with live := false } : Generation L) = g := by rw [← hrun]
      rw [Generation.step, OutputStream.step, if_neg (by simp [h.live, hrun]), hsame]
      exact h
  · have hlive : s.live = true := h.live.trans hrun
    obtain ⟨hdet, hlp, hout, hdel⟩ := h.running hrun
    cases e with
    | output o =>
      rw [Generation.step, if_pos hrun, step_output o hlive, hdet]
      refine awaits_send (s := s.takeIn p o) hp (h.ok.takeIn o) ?_ ?_ hout hdel _ _ _ rfl
      · show (update _ _ _ s.state.detokenizer).2 = _
        rw [hdet]
        rfl
      · show (if p.logprobs then s.state.logprobs ++ o.newLogprobs else s.state.logprobs) = _
        rw [hlp]
        rfl
    | read =>
      have hget : s.get = s := by rw [OutputStream.get, hout]
      rw [OutputStream.step, hget]
      exact h
    | abort =>
      rw [step_abort hlive]
      exact awaits_send (g := { g with live := false }) hp { h.ok with } hdet hlp hout hdel _ _ _
        rfl

theorem Awaits.run (events : List (OutputEvent L)) (h : Awaits p g s) :
    Awaits p (events.foldl (Generation.step p) g) (events.foldl (OutputStream.step p) s) := by
  induction events generalizing g s with
  | nil => exact h
  | cons e events ih => exact ih (h.step hp e)

end

/-! ### Deltas against the final output -/

/-- The deltas that a client has read amount to an output: its text, its tokens, its logprobs. -/
def AmountTo (s : OutputStream L) (out : Delivered L) : Prop :=
  s.text = out.text ∧ s.tokenIds = out.tokenIds ∧ s.logprobs = out.logprobs.getD []

instance [DecidableEq L] (s : OutputStream L) (out : Delivered L) : Decidable (AmountTo s out) :=
  inferInstanceAs (Decidable (_ ∧ _ ∧ _))

/-- **Deltas amount to the final output**, for every list of events after which there is one, and
whenever the client reads, exactly if no event repeats logprobs. Text and tokens always agree. -/
theorem amountTo_final_iff (p : OutputParams) (events : List (OutputEvent L)) (out : Delivered L)
    (hout : out ∈ (run { p with outputKind := .finalOnly } events).delivered) :
    AmountTo (run { p with outputKind := .delta } events) out ↔
      NoRepeats { p with outputKind := .delta } {} events := by
  set pd : OutputParams := { p with outputKind := .delta } with hpd
  set pf : OutputParams := { p with outputKind := .finalOnly } with hpf
  have hok : ∀ q : OutputParams, ({} : Generation L).Ok q := fun q ↦ ⟨by simp, fun _ ↦ rfl⟩
  have hfinal : Awaits pf ({} : Generation L) {} :=
    ⟨hok pf, rfl, fun _ ↦ ⟨rfl, rfl, rfl, rfl⟩, nofun⟩
  have hstart : AtRest pd ({} : Generation L) {} 0 :=
    ⟨⟨hok pd, rfl, rfl, le_rfl, rfl, le_rfl, fun _ ↦ rfl, nofun⟩, rfl, fun _ ↦ zero_le _, nofun,
      fun _ ↦ rfl⟩
  have hclean₀ : Clean ({} : Generation L) {} 0 := ⟨rfl, rfl, nofun⟩
  -- both requests follow what is generated
  have hfinal := hfinal.run rfl events
  obtain ⟨k, hrest, hclean, hrep, -⟩ := hstart.run rfl events
  set g := events.foldl (Generation.step pd) {} with hg
  set s := events.foldl (step pd) {} with hs
  have hend : g.live = false := by
    by_contra hlive
    obtain ⟨-, -, hnone, hdel⟩ := hfinal.running (eq_true_of_not_eq_false hlive)
    rw [run, OutputStream.get, hnone, hdel] at hout
    exact not_mem_nil hout
  obtain ⟨fr, sr, hdelivered⟩ := hfinal.ended hend
  rw [run, hdelivered, mem_singleton] at hout
  obtain ⟨hk, hoff⟩ := hrest.ended hend
  have htext : s.get.text = g.detokenizer.outputText := by
    rw [hrest.streamed.text, hoff, take_length]
  have htokens : s.get.tokenIds = g.detokenizer.tokenIds := by
    rw [hrest.streamed.tokenIds, hk, take_length]
  have hlen := hrest.streamed.ok.logprobs
  have hlp : (if p.logprobs then some g.logprobs else none).getD [] = g.logprobs := by
    rcases hp : p.logprobs with - | -
    · rw [if_neg (by simp [hpd, hp])] at hlen
      rw [length_eq_zero_iff.1 hlen]
      rfl
    · rfl
  have hiff : AmountTo (run pd events) out ↔ s.get.logprobs = g.logprobs := by
    rw [hout]
    show s.get.text = g.detokenizer.outputText ∧ s.get.tokenIds = g.detokenizer.tokenIds ∧
      s.get.logprobs = (if p.logprobs then some g.logprobs else none).getD [] ↔ _
    rw [hlp]
    exact ⟨fun h ↦ h.2.2, fun h ↦ ⟨htext, htokens, h⟩⟩
  rw [hiff]
  constructor
  · intro heq
    by_contra hno
    obtain ⟨hasked, hlt, -⟩ := hrep hclean₀ hno
    rw [heq, hlen, if_pos hasked, hk] at hlt
    exact lt_irrefl _ hlt
  · intro hno
    rw [(hclean hclean₀ (not_not.2 hno)).read, take_of_length_le]
    rw [hlen]
    split_ifs <;> omega

end

/-- An engine output with one token and its logprob. -/
def oneToken (t lp : ℕ) (finishReason : Option FinishReason := none) : EngineCoreOutput ℕ where
  newTokenIds := [⟨t, ['a']⟩]
  newLogprobs := [lp]
  finishReason := finishReason
  length_newLogprobs := rfl

/-- The client aborts after two tokens: the output of the abort brings both logprobs once more. -/
theorem not_amountTo_final_aborted :
    ∃ out ∈ (run ⟨.finalOnly, {}, true, 1, 0⟩
        [.output (oneToken 1 10), .read, .output (oneToken 2 20), .read, .abort]).delivered,
      ¬ AmountTo (run ⟨.delta, {}, true, 1, 0⟩
        [.output (oneToken 1 10), .read, .output (oneToken 2 20), .read, .abort]) out := by
  decide

/-- Four tokens with a stream interval of two and few reads. -/
theorem amountTo_final_interval :
    AmountTo (run ⟨.delta, {}, true, 2, 0⟩
      [.output (oneToken 1 10), .output (oneToken 2 20), .read, .output (oneToken 3 30),
        .output (oneToken 4 40 (some .length))])
      ⟨['a', 'a', 'a', 'a'], [1, 2, 3, 4], some [10, 20, 30, 40], some .length, none⟩ :=
  (amountTo_final_iff ⟨.delta, {}, true, 2, 0⟩ _ _ (by decide)).2 (by decide)

end OneCatVllm
