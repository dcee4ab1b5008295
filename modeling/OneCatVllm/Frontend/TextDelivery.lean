import OneCatVllm.Frontend.TextExact

/-!
# Streamed text and stop strings

The loop over the outputs of the engine delivers what `Ends` says about their decodable tokens
(`decodeOutputs_outcome`, by induction on the outputs). Two results follow.

* **Streaming agrees with the final text** exactly if the bytes that are held back start at a
  character after every token before the end (`streamsAgree_iff`).
* **Stop strings are cut out** exactly if the token that ends the request completes no stop string
  wholly before the last occurrence of the first listed one, and the text that is only flushed at
  the end completes none (`stopsCutOut_iff`).
-/

namespace OneCatVllm.Frontend

open List Option Substring TextDecodeOptions Utf8

variable {T : Type*} {decode : List T → Text} {opts : TextDecodeOptions} {prompt : List T}
  {intermediate : Bool} {outputs : List (GenerateOutput T)} {text sent : Text}

/-! ### Where a stop string cuts the text -/

variable {s : Text}

theorem size_le_minBytesToBuffer (hs : s ∈ opts.stops)
    (hincl : opts.includeStopStrInOutput = false) : size s ≤ opts.minBytesToBuffer + 1 := by
  unfold stops at hs
  rw [minBytesToBuffer, hincl]
  cases hopt : opts.stopStrings with
  | none =>
    rw [hopt] at hs
    cases hs
  | some stops =>
    rw [hopt] at hs
    have hmem : size s ∈ stops.map size := mem_map_of_mem hs
    obtain ⟨m, hm⟩ := isSome_iff_exists.1 (isSome_max?_of_mem hmem)
    have hle := (max?_le_iff hm).1 le_rfl _ hmem
    dsimp only [bind_some]
    rw [hm, getD_some]
    omega

variable {before : List T} {t : T} {stop : StopMatch}

section Cut

/-- The text of a stopped request, between what was sent and what was decoded. -/
theorem exists_cut (hstops : ∀ s ∈ opts.stops, s ≠ [])
    (hsent : Sent decode opts prompt intermediate before sent)
    (hstop : stopAfter decode opts prompt (before ++ [t]) = some stop) :
    ∃ text, sent <+: text ∧ text <+: textAfter decode prompt (before ++ [t]) ∧
      size text = stop.truncateOutputTo := by
  obtain ⟨off, hfound, hcut⟩ := stopAfter_eq_some hstops hstop
  obtain ⟨x, y, hxy, hx⟩ := exists_append_of_occursAt (hstops _ hfound.mem) hfound.occurs
  have hnew := hfound.new
  -- what was sent ends where the occurrence starts, or earlier
  have hle : size sent ≤ stop.truncateOutputTo := by
    rw [hsent.size_eq, hcut, sentIndex]
    cases hincl : opts.includeStopStrInOutput with
    | true => split <;> simp only [if_true] <;> omega
    | false =>
      have := size_le_minBytesToBuffer hfound.mem hincl
      split <;> simp only [Bool.false_eq_true, if_false] <;> omega
  have hexists : ∃ text, text <+: textAfter decode prompt (before ++ [t]) ∧
      size text = stop.truncateOutputTo := by
    rw [hcut, hxy]
    split
    · exact ⟨x ++ stop.stopStr, prefix_append _ _, by rw [size_append, hx]⟩
    · exact ⟨x, by rw [append_assoc]; exact prefix_append _ _, hx⟩
  obtain ⟨text, htext, hsize⟩ := hexists
  exact ⟨text, prefix_of_size_le hsent.isPrefix_concat htext (hsize ▸ hle), htext, hsize⟩

end Cut

/-! ### The outputs of the engine -/

variable {tokens : List T}

section Outputs

variable (opts) in
/-- The tokens that are decoded of some outputs, up to the one that ends the request. -/
def decodable : List (GenerateOutput T) → List T
  | [] => []
  | output :: outputs =>
    match output.finishReason with
    | some _ => opts.decodableTokenIds output
    | none => output.tokenIds ++ decodable outputs

/-- The reason for which the engine ended the request. -/
def engineReason (outputs : List (GenerateOutput T)) : Option (FinishReason T) :=
  outputs.findSome? GenerateOutput.finishReason

/-- The reason that is reported: a stop string that was found comes before the engine's. -/
def reportedReason (outputs : List (GenerateOutput T)) (stopStr : Option Text) :
    Option (FinishReason T) :=
  stopStr.elim (engineReason outputs) fun s ↦ some (.stop (some (.text s)))

variable (decode opts prompt intermediate) in
/-- **The outcome of some outputs**, after the tokens of the earlier ones. -/
inductive StreamOutcome (pushed : List T) (outputs : List (GenerateOutput T)) (sent : Text) :
    List (TextDelta T) × Option StreamError → Prop
  | panic {deltas : List (TextDelta T)} {q : List T} (hmode : intermediate = true)
    (hpfx : q <+: decodable opts outputs) (hopen : Open decode opts prompt (pushed ++ q))
    (hclean : ¬ Clean decode opts prompt (pushed ++ q)) :
    StreamOutcome pushed outputs sent (deltas, some .panic)
  | closed {deltas : List (TextDelta T)} (hreason : engineReason outputs = none)
    (hopen : Open decode opts prompt (pushed ++ decodable opts outputs))
    (hclean : intermediate = true → ∀ q, q <+: decodable opts outputs →
      Open decode opts prompt (pushed ++ q) → Clean decode opts prompt (pushed ++ q))
    (hmode : intermediate = false → deltas = []) :
    StreamOutcome pushed outputs sent (deltas, some .streamClosedBeforeTerminalOutput)
  | done {deltas : List (TextDelta T)} {last : TextDelta T} {finished : Finished T}
    {stopStr : Option Text}
    (hends : Ends decode opts prompt (pushed ++ decodable opts outputs)
      (sent ++ deltaText (deltas ++ [last])) stopStr)
    (hclean : intermediate = true → ∀ q, q <+: decodable opts outputs →
      Open decode opts prompt (pushed ++ q) → Clean decode opts prompt (pushed ++ q))
    (hmode : intermediate = false → deltas = []) (hlast : last.finished = some finished)
    (hreason : reportedReason outputs stopStr = some finished.finishReason) :
    StreamOutcome pushed outputs sent (deltas ++ [last], none)

variable {output : GenerateOutput T}

theorem decodable_of_finishReason {reason : FinishReason T}
    (h : output.finishReason = some reason) :
    decodable opts (output :: outputs) = opts.decodableTokenIds output := by
  rw [decodable, h]

section

variable (h : output.finishReason = none)

include h

theorem decodableTokenIds_of_not_finishReason :
    opts.decodableTokenIds output = output.tokenIds := by
  rw [decodableTokenIds, h]
  rfl

theorem decodable_of_not_finishReason :
    decodable opts (output :: outputs) =
      opts.decodableTokenIds output ++ decodable opts outputs := by
  rw [decodable, h, decodableTokenIds_of_not_finishReason h]

end

theorem decodableTokenIds_prefix (opts : TextDecodeOptions) (output : GenerateOutput T)
    (outputs : List (GenerateOutput T)) :
    opts.decodableTokenIds output <+: decodable opts (output :: outputs) := by
  cases h : output.finishReason with
  | some reason => rw [decodable_of_finishReason h]
  | none =>
    rw [decodable_of_not_finishReason h]
    exact prefix_append _ _

theorem engineReason_cons :
    engineReason (output :: outputs) = output.finishReason.or (engineReason outputs) := by
  rw [engineReason, findSome?_cons]
  cases output.finishReason with
  | none => rfl
  | some reason => rfl

/-- Outside of intermediate mode nothing is sent before the end. -/
theorem Sent.eq_nil (h : Sent decode opts prompt false tokens text) : text = [] :=
  size_eq_zero_iff.1 h.size_eq

section

variable (promptTokenCount : ℕ) (st : StreamState T) (newTokenIds : List T)
  (hmode : intermediate = false → sent = []) {delta : Option Text}

include hmode

/-- **The end of a request**: the last delta completes what was sent to the final text. -/
theorem finish_eq_ok (decoded : Decoded T) (reason : FinishReason T)
    (htext : (decoded.stop.map StopMatch.truncateOutputTo).elim
      (some (decoded.decoder.cumulativeOutput ++ decoded.decoder.heldBack decode))
      (truncate (decoded.decoder.cumulativeOutput ++ decoded.decoder.heldBack decode)) = some text)
    (hsent : sent ++ decoded.delta.getD [] <+: text)
    (hindex : size (sent ++ decoded.delta.getD []) = decoded.decoder.outputIndex) :
    ∃ last finished, finish decode intermediate promptTokenCount st decoded newTokenIds reason =
        .ok last ∧ last.finished = some finished ∧ finished.finishReason = reason ∧
      sent ++ deltaText [last] = text := by
  obtain ⟨lastChunk, hflush, hchunk⟩ := DecodeStream.flush_eq_ok htext hsent hindex
  rw [finish, hflush]
  refine ⟨_, _, rfl, rfl, rfl, ?_⟩
  cases intermediate with
  | true =>
    rw [← hchunk, deltaText, map_singleton, flatten_singleton, if_pos rfl, getD_pushChunk,
      append_assoc]
  | false =>
    rw [hmode rfl, deltaText, map_singleton, flatten_singleton]
    rfl

/-- The end of a request at a stop string. -/
theorem finish_of_stopped (hstops : ∀ s ∈ opts.stops, s ≠ []) (n : ℕ)
    (hpfx : before ++ [t] <+: tokens) (hopen : Open decode opts prompt before)
    (hstop : stopAfter decode opts prompt (before ++ [t]) = some stop)
    (hsent : Sent decode opts prompt intermediate before (sent ++ delta.getD [])) :
    ∃ last finished, finish decode intermediate promptTokenCount st
        ⟨(decoderAfter decode prompt (before ++ [t])).withIndex
            (sentIndex decode opts prompt intermediate before), delta,
          some { stop with truncateTokensTo := n }⟩
        newTokenIds (.stop (some (.text stop.stopStr))) = .ok last ∧
      last.finished = some finished ∧
      finished.finishReason = .stop (some (.text stop.stopStr)) ∧
      Ends decode opts prompt tokens (sent ++ deltaText [last]) (some stop.stopStr) := by
  obtain ⟨text, hsent_text, htext, hsize⟩ := exists_cut hstops hsent hstop
  have htruncate : truncate (textAfter decode prompt (before ++ [t]) ++
      (decoderAfter decode prompt (before ++ [t])).heldBack decode)
      stop.truncateOutputTo = some text := by
    obtain ⟨rest, hrest⟩ := htext
    rw [← hrest, append_assoc]
    exact truncate_append hsize
  obtain ⟨last, finished, hfinish, hlast, hreason, rfl⟩ := finish_eq_ok promptTokenCount st
    newTokenIds hmode ⟨(decoderAfter decode prompt (before ++ [t])).withIndex
        (sentIndex decode opts prompt intermediate before), delta,
      some { stop with truncateTokensTo := n }⟩
    (.stop (some (.text stop.stopStr))) htruncate hsent_text hsent.size_eq
  exact ⟨last, finished, hfinish, hlast, hreason, .stopped hpfx hopen hstop htext hsize⟩

/-- The end of a request that the engine ended. -/
theorem finish_of_exhausted (reason : FinishReason T) (hopen : Open decode opts prompt tokens)
    (hsent : Sent decode opts prompt intermediate tokens (sent ++ delta.getD [])) :
    ∃ last finished, finish decode intermediate promptTokenCount st
        ⟨streamDecoder decode opts prompt intermediate tokens, delta, none⟩ newTokenIds reason =
          .ok last ∧
      last.finished = some finished ∧ finished.finishReason = reason ∧
      Ends decode opts prompt tokens (sent ++ deltaText [last]) none := by
  have htext : sent ++ delta.getD [] <+: fullText decode prompt tokens :=
    hsent.isPrefix.trans (prefix_append _ _)
  obtain ⟨last, finished, hfinish, hlast, hreason, heq⟩ := finish_eq_ok promptTokenCount st
    newTokenIds hmode ⟨streamDecoder decode opts prompt intermediate tokens, delta, none⟩ reason rfl
    htext hsent.size_eq
  exact ⟨last, finished, hfinish, hlast, hreason, heq ▸ .exhausted hopen⟩

end

variable {pushed : List T}

/-- Tokens before which a stop string was completed are not asked for. -/
theorem clean_of_stopped {q : List T}
    (hcompletes : Completes decode opts prompt (pushed ++ q ++ [t])) (hpfx : q ++ [t] <+: tokens)
    (hclean : ∀ q', q' <+: q → Clean decode opts prompt (pushed ++ q')) (q' : List T)
    (hq' : q' <+: tokens) (hopen : Open decode opts prompt (pushed ++ q')) :
    Clean decode opts prompt (pushed ++ q') := by
  obtain hle | hle := prefix_or_prefix_of_prefix hq' hpfx
  · rcases prefix_concat_iff.1 hle with rfl | hlt
    · rw [← append_assoc] at hopen
      exact absurd hcompletes (hopen _ prefix_rfl)
    · exact hclean q' hlt
  · refine absurd hcompletes (hopen _ ?_)
    rw [append_assoc]
    exact (prefix_append_right_inj pushed).2 hle

/-- An output that does not end the request, in front of the others. -/
theorem StreamOutcome.cons {delta : Text}
    {r : List (TextDelta T) × Option StreamError} (hreason : output.finishReason = none)
    (h : StreamOutcome decode opts prompt intermediate
      (pushed ++ opts.decodableTokenIds output) outputs (sent ++ delta) r)
    (hclean : intermediate = true → ∀ q, q <+: opts.decodableTokenIds output →
      Clean decode opts prompt (pushed ++ q)) (hmode : intermediate = false → delta = []) :
    StreamOutcome decode opts prompt intermediate pushed (output :: outputs) sent
      (if intermediate then (⟨delta, output.tokenIds, none⟩ :: r.1, r.2) else r) := by
  have hdecodable : decodable opts (output :: outputs) =
      opts.decodableTokenIds output ++ decodable opts outputs :=
    decodable_of_not_finishReason hreason
  have hengine : engineReason (output :: outputs) = engineReason outputs := by
    rw [engineReason_cons, hreason]
    rfl
  have hcleans (h : intermediate = true → ∀ q, q <+: decodable opts outputs →
      Open decode opts prompt (pushed ++ opts.decodableTokenIds output ++ q) →
        Clean decode opts prompt (pushed ++ opts.decodableTokenIds output ++ q)) :
      intermediate = true → ∀ q, q <+: decodable opts (output :: outputs) →
        Open decode opts prompt (pushed ++ q) → Clean decode opts prompt (pushed ++ q) := by
    intro hmode q hq hopen
    rw [hdecodable] at hq
    obtain hle | ⟨q', rfl⟩ := prefix_or_prefix_of_prefix hq (prefix_append _ _)
    · exact hclean hmode q hle
    · rw [← append_assoc] at hopen ⊢
      exact h hmode q' ((prefix_append_right_inj _).1 hq) hopen
  cases h with
  | @panic deltas q hmode' hpfx hopen hunclean =>
    subst hmode'
    rw [append_assoc] at hopen hunclean
    refine .panic rfl ?_ hopen hunclean
    rw [hdecodable]
    exact (prefix_append_right_inj _).2 hpfx
  | @closed deltas hnone hopen hcleans' hdeltas =>
    have hopen' : Open decode opts prompt (pushed ++ decodable opts (output :: outputs)) := by
      rwa [hdecodable, ← append_assoc]
    cases intermediate with
    | true => exact .closed (hengine.trans hnone) hopen' (hcleans hcleans') nofun
    | false => exact .closed (hengine.trans hnone) hopen' (hcleans hcleans') hdeltas
  | @done deltas last finished stopStr hends hcleans' hdeltas hlast hreported =>
    have hreported' : reportedReason (output :: outputs) stopStr = some finished.finishReason := by
      rw [← hreported, reportedReason, reportedReason, hengine]
    rw [append_assoc pushed, ← hdecodable] at hends
    cases intermediate with
    | true =>
      rw [append_assoc] at hends
      have hends' : Ends decode opts prompt (pushed ++ decodable opts (output :: outputs))
        (sent ++ deltaText (⟨delta, output.tokenIds, none⟩ :: deltas ++ [last])) stopStr := hends
      exact .done hends' (hcleans hcleans') nofun hlast hreported'
    | false =>
      rw [hmode rfl, append_nil] at hends
      exact .done hends (hcleans hcleans') hdeltas hlast hreported'

/-- **The loop over the outputs**, by induction on them. -/
theorem decodeOutputs_outcome (hstops : ∀ s ∈ opts.stops, s ≠ []) (promptTokenCount : ℕ)
    {st : StreamState T}
    (hdecoder : st.decoder = streamDecoder decode opts prompt intermediate pushed)
    (hcount : st.outputTokenCount = pushed.length) (hopen : Open decode opts prompt pushed)
    (hclean : intermediate = true → Clean decode opts prompt pushed)
    (hsent : Sent decode opts prompt intermediate pushed sent) :
    StreamOutcome decode opts prompt intermediate pushed outputs sent
      (decodeOutputs decode opts intermediate promptTokenCount st outputs) := by
  have hmode : intermediate = false → sent = [] := by
    rintro rfl
    exact hsent.eq_nil
  induction outputs generalizing pushed st sent with
  | nil =>
    refine .closed rfl ?_ ?_ fun _ ↦ rfl
    · rwa [decodable, append_nil]
    · intro hmode q hq _
      rw [prefix_nil.1 hq, append_nil]
      exact hclean hmode
  | cons output outputs ih =>
    have hpfx := decodableTokenIds_prefix opts output outputs
    have htokens : TokensOutcome decode opts prompt intermediate pushed
        (opts.decodableTokenIds output) sent _ :=
      decodeTokens_outcome hstops (show st.outputTokenCount + 0 = _ from hcount) hopen hclean
        (show Sent _ _ _ _ _ (sent ++ (none : Option Text).getD []) by
          rwa [getD_none, append_nil])
    rw [decodeOutputs, hdecoder]
    generalize decodeTokens decode opts intermediate st.outputTokenCount 0
      (streamDecoder decode opts prompt intermediate pushed) none
      (opts.decodableTokenIds output) = decoded at htokens ⊢
    cases htokens with
    | panic hmode' hq hopen' hunclean => exact .panic hmode' (hq.trans hpfx) hopen' hunclean
    | @stopped q t stop delta n hq hopen' hstop hcleans hsent' =>
      have hq' : pushed ++ q ++ [t] <+: pushed ++ decodable opts (output :: outputs) := by
        rw [append_assoc]
        exact (prefix_append_right_inj _).2 (hq.trans hpfx)
      obtain ⟨last, finished, hfinish, hlast, hreason, hends⟩ := finish_of_stopped
        promptTokenCount st (output.tokenIds.take n) hmode hstops n hq' hopen' hstop hsent'
      dsimp only [elim_some]
      rw [hfinish]
      have hreported : reportedReason (output :: outputs) (some stop.stopStr) =
        some finished.finishReason := congrArg some hreason.symm
      refine StreamOutcome.done (nil_append [last] ▸ hends) ?_ (fun _ ↦ rfl) hlast hreported
      intro hmode'
      exact clean_of_stopped (completes_of_stopAfter hstops hstop) (hq.trans hpfx) (hcleans hmode')
    | @exhausted delta hopen' hcleans hsent' =>
      dsimp only [elim_none]
      cases hreason : output.finishReason with
      | some reason =>
        obtain ⟨last, finished, hfinish, hlast, rfl, hends⟩ := finish_of_exhausted
          promptTokenCount st output.tokenIds hmode reason hopen' hsent'
        dsimp only
        rw [hfinish]
        rw [← decodable_of_finishReason hreason] at hends hcleans
        refine StreamOutcome.done (nil_append [last] ▸ hends) ?_ (fun _ ↦ rfl) hlast ?_
        · exact fun hmode' q hq _ ↦ hcleans hmode' q hq
        · rw [reportedReason, engineReason_cons, hreason]
          rfl
      | none =>
        refine StreamOutcome.cons hreason (ih rfl ?_ hopen' ?_ hsent' ?_) hcleans ?_
        · rw [length_append, hcount, decodableTokenIds_of_not_finishReason hreason]
        · exact fun hmode' ↦ hcleans hmode' _ prefix_rfl
        · rintro rfl
          exact hsent'.eq_nil
        · rintro rfl
          exact (append_eq_nil_iff.1 hsent'.eq_nil).2

theorem clean_nil : Clean decode opts prompt [] := ⟨[], [], rfl, (Nat.zero_sub _).symm⟩

/-- **What the stream delivers** for the outputs of a request. -/
theorem decodedTextEventStream_outcome (hstops : ∀ s ∈ opts.stops, s ≠ [])
    (outputs : List (GenerateOutput T)) :
    StreamOutcome decode opts prompt intermediate [] outputs []
      (decodedTextEventStream decode opts intermediate prompt outputs) :=
  decodeOutputs_outcome hstops prompt.length streamDecoder_nil.symm rfl open_nil
    (fun _ ↦ clean_nil) sent_nil

end Outputs

/-! ### Streamed text equals the final text -/

section

variable (decode : List T → Text) (opts : TextDecodeOptions) (prompt : List T)
  (outputs : List (GenerateOutput T))

/-- The two modes agree: intermediate mode does not panic, and either both modes find the engine's
stream closed too early, or both end, and the deltas together are the text of the only delta of
the other mode. -/
def StreamsAgree : Prop :=
  let streamed := decodedTextEventStream decode opts true prompt outputs
  let final := decodedTextEventStream decode opts false prompt outputs
  streamed.2 ≠ some .panic ∧
    (final = ([], some .streamClosedBeforeTerminalOutput) ∧
        streamed.2 = some .streamClosedBeforeTerminalOutput ∨
      ∃ last, final = ([last], none) ∧ streamed.2 = none ∧ deltaText streamed.1 = last.delta)

/-- After every token before the end of the request, the bytes that are held back start at a
character. -/
def CutsBetweenChars : Prop :=
  ∀ tokens, tokens <+: decodable opts outputs → Open decode opts prompt tokens →
    Clean decode opts prompt tokens

/-- **Streaming agrees with the final text** exactly if the text is never to be cut inside of a
character. -/
theorem streamsAgree_iff (hstops : ∀ s ∈ opts.stops, s ≠ []) :
    StreamsAgree decode opts prompt outputs ↔ CutsBetweenChars decode opts prompt outputs := by
  have hstreamed : StreamOutcome decode opts prompt true [] outputs [] _ :=
    decodedTextEventStream_outcome hstops outputs
  have hfinal : StreamOutcome decode opts prompt false [] outputs [] _ :=
    decodedTextEventStream_outcome hstops outputs
  unfold StreamsAgree CutsBetweenChars
  generalize decodedTextEventStream decode opts true prompt outputs = streamed at hstreamed ⊢
  generalize decodedTextEventStream decode opts false prompt outputs = final at hfinal ⊢
  cases hstreamed with
  | panic _ hpfx hopen hunclean =>
    exact ⟨fun h ↦ absurd rfl h.1, fun h ↦ absurd (h _ hpfx hopen) hunclean⟩
  | closed hnone hopen hclean =>
    refine ⟨fun _ ↦ hclean rfl, fun _ ↦ ⟨nofun, .inl ⟨?_, rfl⟩⟩⟩
    cases hfinal with
    | panic hmode => cases hmode
    | closed _ _ _ hdeltas => rw [hdeltas rfl]
    | done hends _ _ _ hreason =>
      rw [(hends.unique hstops (.exhausted hopen)).2, reportedReason, hnone] at hreason
      cases hreason
  | @done deltas last finished stopStr hends hclean hdeltas hlast hreason =>
    refine ⟨fun _ ↦ hclean rfl, fun _ ↦ ⟨nofun, .inr ?_⟩⟩
    cases hfinal with
    | panic hmode => cases hmode
    | closed hnone hopen =>
      rw [(hends.unique hstops (.exhausted hopen)).2, reportedReason, hnone] at hreason
      cases hreason
    | @done deltas' last' finished' stopStr' hends' _ hdeltas' =>
      rw [hdeltas' rfl] at hends' ⊢
      refine ⟨last', rfl, rfl, ?_⟩
      have htext := (hends.unique hstops hends').1
      exact htext.trans flatten_singleton

end

/-- A two-byte stop string has one byte held back, and the first text of the request is a single
two-byte character: the slice panics inside of it. Each byte is a token here. -/
theorem hold_back_cuts_char : ¬ StreamsAgree lossy ⟨some [['a', 'b']], false, 0⟩ []
    [⟨[0xC3, 0xA9], some .length⟩] := by
  intro h
  have hpanic : (decodedTextEventStream lossy ⟨some [['a', 'b']], false, 0⟩ true []
      [⟨[0xC3, 0xA9], some .length⟩]).2 = some .panic := by decide
  exact h.1 hpanic

instance (tokens : List T) : Decidable (Clean decode opts prompt tokens) :=
  inferInstanceAs (Decidable (IsBoundary _ _))

/-- A request with text of one-byte characters, ended by the stop string. -/
theorem streamsAgree_iff_ascii : StreamsAgree lossy ⟨some [['a', 'b']], false, 0⟩ []
    [⟨[0x63, 0x61], none⟩, ⟨[0x62], some .length⟩] := by
  refine (streamsAgree_iff lossy ⟨some [['a', 'b']], false, 0⟩ [] _ (by decide)).2 ?_
  have hclean : ∀ tokens ∈ inits [0x63, 0x61, 0x62],
      Clean lossy ⟨some [['a', 'b']], false, 0⟩ [] tokens := by decide
  exact fun tokens hpfx _ ↦ hclean tokens ((mem_inits _ _).2 hpfx)

/-! ### Stop strings are cut out -/

/-- Stop strings are cut out of the final text: it contains none, it is a start of the whole
decoded text, and the reason is a stop string if the text of the tokens contains one. -/
def StopsCutOut (decode : List T → Text) (opts : TextDecodeOptions) (prompt : List T)
    (outputs : List (GenerateOutput T)) : Prop :=
  ∃ last finished, decodedTextEventStream decode opts false prompt outputs = ([last], none) ∧
    last.finished = some finished ∧
    (∀ s ∈ opts.stops, ¬ s <:+: last.delta) ∧
    last.delta <+: fullText decode prompt (decodable opts outputs) ∧
    ((∃ s ∈ opts.stops, s <:+: textAfter decode prompt (decodable opts outputs)) →
      ∃ s, finished.finishReason = .stop (some (.text s)))

/-- The last occurrence of the first listed stop string that a text contains. -/
structure LastOfFirst (stops : List Text) (text s : Text) (off : ℕ) : Prop where
  first : stops.find? (fun s ↦ decide (s <:+: text)) = some s
  occurs : OccursAt (encode s) (encode text) off
  last : ∀ j, off < j → ¬ OccursAt (encode s) (encode text) j

/-- **No stop string is missed**: none lies wholly before the last occurrence of the first listed
one when a token completes stop strings, and none is completed by the text that is only flushed at
the end. -/
structure NoneMissed (decode : List T → Text) (opts : TextDecodeOptions) (prompt : List T)
    (outputs : List (GenerateOutput T)) : Prop where
  atToken : ∀ before t, before ++ [t] <+: decodable opts outputs → Open decode opts prompt before →
    ∀ s off, LastOfFirst opts.stops (textAfter decode prompt (before ++ [t])) s off →
    ∀ s' ∈ opts.stops, ∀ i,
      OccursAt (encode s') (encode (textAfter decode prompt (before ++ [t]))) i → off < i + size s'
  atEnd : Open decode opts prompt (decodable opts outputs) →
    ∀ s ∈ opts.stops, ¬ s <:+: fullText decode prompt (decodable opts outputs)

section CutOut

variable {off : ℕ} {r : Option Text}

/-- In a text that is cut at a byte position there are the occurrences that end before it. -/
theorem infix_cut_iff {cut : Text} (hs : s ≠ []) (hcut : cut <+: text) :
    s <:+: cut ↔ ∃ i, OccursAt (encode s) (encode text) i ∧ i + size s ≤ size cut := by
  have htake : encode cut = (encode text).take (size cut) := by
    obtain ⟨rest, rfl⟩ := hcut
    rw [encode_append, ← length_encode, take_left]
  rw [infix_iff_occursAt hs, htake]
  simp only [occursAt_take_iff (encode_ne_nil hs), length_encode]

/-- A stop string that the text before a token does not contain is completed by the token exactly
if the text after it contains it. -/
theorem completed_iff_infix (hs : s ≠ []) (hold : ¬ s <:+: textAfter decode prompt before) :
    Completed (textAfter decode prompt before) (textAfter decode prompt (before ++ [t])) s ↔
      s <:+: textAfter decode prompt (before ++ [t]) := by
  have hpfx : textAfter decode prompt before <+: textAfter decode prompt (before ++ [t]) :=
    textAfter_mono decode prompt (prefix_append _ _)
  rw [infix_cut_iff hs hpfx] at hold
  rw [infix_iff_occursAt hs]
  refine ⟨fun ⟨i, hocc, _⟩ ↦ ⟨i, hocc⟩, fun ⟨i, hocc⟩ ↦ ⟨i, hocc, ?_, ?_⟩⟩
  · by_contra hle
    rw [length_encode] at hle
    exact hold ⟨i, hocc, by omega⟩
  · exact hocc.add_length_le (encode_ne_nil hs)

section

variable (hstops : ∀ s ∈ opts.stops, s ≠ []) (hmin : opts.minTokens = 0)

include hstops hmin

/-- Before a stop string is completed the text contains none. -/
theorem Open.not_infix (h : Open decode opts prompt tokens) (hs : s ∈ opts.stops) :
    ¬ s <:+: textAfter decode prompt tokens := by
  induction tokens using reverseRecOn with
  | nil =>
    intro hinfix
    exact hstops s hs (infix_nil.1 hinfix)
  | append_singleton before t ih =>
    rw [← completed_iff_infix (hstops s hs) (ih (h.of_prefix (prefix_append _ _)))]
    refine fun hcompleted ↦ h _ prefix_rfl ⟨?_, s, hs, ?_⟩
    · rw [length_append, length_singleton]
      omega
    · rwa [dropLast_concat]

theorem LastOfFirst.completes (hopen : Open decode opts prompt before)
    (h : LastOfFirst opts.stops (textAfter decode prompt (before ++ [t])) s off) :
    Completes decode opts prompt (before ++ [t]) := by
  have hs := mem_of_find?_eq_some h.first
  refine ⟨by rw [length_append, length_singleton]; omega, s, hs, ?_⟩
  rw [dropLast_concat, completed_iff_infix (hstops s hs) (hopen.not_infix hstops hmin hs)]
  have hinfix := find?_some h.first
  exact of_decide_eq_true hinfix

/-- The match that the search finds is the last occurrence of the first listed stop string. -/
theorem Found.lastOfFirst (hopen : Open decode opts prompt before)
    (h : Found opts.stops (textAfter decode prompt before)
      (textAfter decode prompt (before ++ [t])) s off) :
    LastOfFirst opts.stops (textAfter decode prompt (before ++ [t])) s off := by
  refine ⟨?_, h.occurs, h.last⟩
  obtain ⟨l, r, hlist, hl⟩ := h.first
  refine find?_eq_some_iff_append.2 ⟨decide_eq_true ?_, l, r, hlist, fun s' hs' ↦ ?_⟩
  · exact (infix_iff_occursAt (hstops s h.mem)).2 ⟨off, h.occurs⟩
  · have hmem : s' ∈ opts.stops := by
      rw [hlist]
      exact mem_append_left _ hs'
    rw [Bool.not_eq_true', decide_eq_false_iff_not, ← completed_iff_infix (hstops s' hmem)
      (hopen.not_infix hstops hmin hmem)]
    exact hl s' hs'

end

theorem LastOfFirst.unique {stops : List Text} {s' : Text} {off' : ℕ}
    (h : LastOfFirst stops text s off) (h' : LastOfFirst stops text s' off') : off = off' := by
  obtain rfl := some.inj (h.first.symm.trans h'.first)
  rcases lt_trichotomy off off' with hlt | heq | hgt
  · exact absurd h'.occurs (h.last _ hlt)
  · exact heq
  · exact absurd h.occurs (h'.last _ hgt)

/-- The text of a request is a start of the whole decoded text. -/
theorem Ends.isPrefix (h : Ends decode opts prompt tokens text r) :
    text <+: fullText decode prompt tokens := by
  cases h with
  | exhausted => exact prefix_rfl
  | stopped hpfx _ _ htext =>
    exact htext.trans ((textAfter_mono decode prompt hpfx).trans (prefix_append _ _))

theorem Ends.open_of_none (h : Ends decode opts prompt tokens text none) :
    Open decode opts prompt tokens := by
  cases h with
  | exhausted hopen => exact hopen

/-- **The text of a request contains no stop string** exactly if none is missed. -/
theorem Ends.not_infix_iff (hstops : ∀ s ∈ opts.stops, s ≠ []) (hmin : opts.minTokens = 0)
    (hincl : opts.includeStopStrInOutput = false)
    (h : Ends decode opts prompt (decodable opts outputs) text r) :
    (∀ s ∈ opts.stops, ¬ s <:+: text) ↔ NoneMissed decode opts prompt outputs := by
  cases h with
  | exhausted hopen =>
    refine ⟨fun h ↦ ⟨fun before t hpfx hbefore s off hlast ↦ ?_, fun _ ↦ h⟩,
      fun h ↦ h.atEnd hopen⟩
    exact absurd (hlast.completes hstops hmin hbefore) (hopen _ hpfx)
  | @stopped before t stop _ hpfx hopen hstop htext hsize =>
    have hcompletes := completes_of_stopAfter hstops hstop
    obtain ⟨off, hfound, hcut⟩ := stopAfter_eq_some hstops hstop
    rw [hcut, hincl, if_neg Bool.false_ne_true] at hsize
    have hlast := hfound.lastOfFirst hstops hmin hopen
    constructor
    · refine fun h ↦ ⟨fun before' t' hpfx' hopen' s' off' hlast' s hs i hocc ↦ ?_, fun hall ↦ ?_⟩
      · have heq := hopen.eq_of_completes hcompletes hpfx hopen'
          (hlast'.completes hstops hmin hopen') hpfx'
        rw [← heq] at hlast' hocc
        rw [← hlast.unique hlast']
        by_contra hle
        exact h s hs ((infix_cut_iff (hstops s hs) htext).2 ⟨i, hocc, by omega⟩)
      · exact absurd hcompletes (hall _ hpfx)
    · intro h s hs hinfix
      obtain ⟨i, hocc, hle⟩ := (infix_cut_iff (hstops s hs) htext).1 hinfix
      have := h.atToken before t hpfx hopen _ off hlast s hs i hocc
      omega

end CutOut

/-- **Stop strings are cut out** exactly if none is missed. -/
theorem stopsCutOut_iff (decode : List T → Text) (opts : TextDecodeOptions) (prompt : List T)
    (outputs : List (GenerateOutput T)) (hstops : ∀ s ∈ opts.stops, s ≠ [])
    (hmin : opts.minTokens = 0) (hincl : opts.includeStopStrInOutput = false)
    (hend : (engineReason outputs).isSome) :
    StopsCutOut decode opts prompt outputs ↔ NoneMissed decode opts prompt outputs := by
  have hfinal : StreamOutcome decode opts prompt false [] outputs [] _ :=
    decodedTextEventStream_outcome hstops outputs
  unfold StopsCutOut
  generalize decodedTextEventStream decode opts false prompt outputs = final at hfinal ⊢
  cases hfinal with
  | panic hmode => cases hmode
  | closed hnone =>
    rw [hnone] at hend
    cases hend
  | @done deltas last finished stopStr hends hclean hdeltas hlast hreason =>
    obtain rfl := hdeltas rfl
    have htext : deltaText [last] = last.delta := flatten_singleton
    rw [nil_append, nil_append, nil_append, htext] at hends
    rw [← hends.not_infix_iff hstops hmin hincl]
    constructor
    · rintro ⟨last', finished', hlast', -, hnone, -, -⟩
      obtain rfl := singleton_inj.1 (congrArg Prod.fst hlast')
      exact hnone
    · refine fun hnone ↦ ⟨last, finished, rfl, hlast, hnone, hends.isPrefix, ?_⟩
      rintro ⟨s, hs, hinfix⟩
      cases stopStr with
      | none => exact absurd hinfix (hends.open_of_none.not_infix hstops hmin hs)
      | some stopStr => exact ⟨stopStr, (some.inj hreason).symm⟩

/-- One token completes two occurrences of a stop string, and the text is cut at the later one: the
earlier one stays. The token is the text of two bytes. -/
theorem earlier_stop_stays : ¬ StopsCutOut (fun ids : List Text ↦ lossy (ids.flatMap encode))
    ⟨some [['a']], false, 0⟩ [] [⟨[['a', 'a']], some .length⟩] := by
  rintro ⟨last, finished, hfinal, -, hnone, -, -⟩
  have hdelta : (decodedTextEventStream (fun ids : List Text ↦ lossy (ids.flatMap encode))
      ⟨some [['a']], false, 0⟩ false [] [⟨[['a', 'a']], some .length⟩]).1.map TextDelta.delta =
      [['a']] := by decide
  rw [hfinal] at hdelta
  exact hnone ['a'] mem_cons_self (singleton_inj.1 hdelta ▸ infix_rfl)

/-- A request that ends at the only occurrence of a stop string. -/
theorem stopsCutOut_iff_once : StopsCutOut lossy ⟨some [['a', 'b']], false, 0⟩ []
    [⟨[0x63, 0x61], none⟩, ⟨[0x62], some .length⟩] := by
  refine (stopsCutOut_iff lossy ⟨some [['a', 'b']], false, 0⟩ [] _ (by decide) rfl rfl rfl).2
    ⟨fun before t hpfx _ s off hlast s' hs' i _ ↦ ?_, fun hopen ↦ ?_⟩
  · -- the text is too short for two occurrences one behind the other
    have hsize : ∀ p ∈ inits [0x63, 0x61, 0x62], (encode (textAfter lossy [] p)).length < 4 := by
      decide
    obtain rfl := mem_singleton.1 (mem_of_find?_eq_some hlast.first)
    obtain rfl := mem_singleton.1 hs'
    have hle : off + 2 ≤ _ := hlast.occurs.add_length_le (by decide)
    have := hsize _ ((mem_inits _ _).2 hpfx)
    show off < i + 2
    omega
  · exact absurd ⟨by decide, ['a', 'b'], mem_cons_self, by decide⟩
      (hopen [0x63, 0x61, 0x62] prefix_rfl)

end OneCatVllm.Frontend
