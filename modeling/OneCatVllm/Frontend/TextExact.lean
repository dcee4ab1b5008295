import OneCatVllm.Frontend.TextStream

/-!
# What the decoded text stream delivers

The text of a request is determined by its decodable tokens alone, not by how they are grouped into
outputs nor by the mode: it ends with the first token that completes a stop string, where it is
cut, or with the last token (`Ends`). Both modes of the stream refine this, as long as no slice
panics, and intermediate mode panics exactly if some token that completes no stop string leaves
**a cut inside of a character** as the bytes to hold back are counted from the end of the text
(`Clean`).

The invariant between two tokens ties the pieces together: what was sent is the text less the bytes
held back (`Sent`), and a stop string that the next token completes starts no earlier than that.
-/

namespace OneCatVllm.Frontend

open DecodeStream List Option Substring TextDecodeOptions Utf8

/-! ### The search for a stop string -/

section Search

variable {stops : List Text} {old chunk s : Text} {i off : ℕ}

/-- A stop string of which the last bytes of a text complete an occurrence. -/
def Completed (old output s : Text) : Prop :=
  EndsIn (encode s) (encode output) (size old) (size output)

instance (old output s : Text) : Decidable (Completed old output s) :=
  inferInstanceAs (Decidable (EndsIn _ _ _ _))

theorem rfind_eq_none_iff_not_completed (hs : s ≠ []) :
    rfind (encode (old ++ chunk)) (encode s)
        (size (old ++ chunk) + 1 - size chunk - size s) = none ↔
      ¬ Completed old (old ++ chunk) s := by
  rw [rfind_eq_none_iff (encode_ne_nil hs), size_append]
  refine ⟨fun h ⟨j, hocc, hlo, _⟩ ↦ ?_, fun h j hj hocc ↦ h ⟨j, hocc, ?_, ?_⟩⟩
  · rw [length_encode] at hlo
    exact h j (by omega) hocc
  · rw [length_encode]
    omega
  · exact hocc.add_length_le (encode_ne_nil hs)

/-- **No match** means that no stop string was completed. -/
theorem matchesStopString_eq_none_iff (hstops : ∀ s ∈ stops, s ≠ []) :
    matchesStopString stops (old ++ chunk) (size chunk) = none ↔
      ∀ s ∈ stops, ¬ Completed old (old ++ chunk) s := by
  rw [matchesStopString, findSome?_eq_none_iff]
  simp only [map_eq_none_iff]
  constructor
  · intro h s hs
    obtain ⟨i, hi⟩ := getElem?_of_mem hs
    exact (rfind_eq_none_iff_not_completed (hstops s hs)).1
      (h (s, i) (mem_zipIdx_iff_getElem?.2 hi))
  · intro h p hp
    have hs := mem_of_getElem? (mem_zipIdx_iff_getElem?.1 hp)
    exact (rfind_eq_none_iff_not_completed (hstops _ hs)).2 (h _ hs)

/-- **A match** is the last occurrence of the first listed stop string that was completed. -/
structure Found (stops : List Text) (old output s : Text) (off : ℕ) : Prop where
  /-- No stop string listed before was completed. -/
  first : ∃ before after, stops = before ++ s :: after ∧ ∀ s' ∈ before, ¬ Completed old output s'
  occurs : OccursAt (encode s) (encode output) off
  /-- The occurrence ends in the new bytes. -/
  new : size old < off + size s
  last : ∀ j, off < j → ¬ OccursAt (encode s) (encode output) j

theorem found_of_matchesStopString (hstops : ∀ s ∈ stops, s ≠ [])
    (h : matchesStopString stops (old ++ chunk) (size chunk) = some (i, off)) :
    Found stops old (old ++ chunk) (stops.getD i []) off := by
  obtain ⟨before, p, after, hzip, hp, hbefore⟩ := findSome?_eq_some_iff.1 h
  obtain ⟨off', hfind, heq⟩ := map_eq_some_iff.1 hp
  cases heq
  have hstop : stops = before.map Prod.fst ++ p.1 :: after.map Prod.fst := by
    rw [← map_cons, ← map_append, ← hzip, zipIdx_map_fst]
  have hmem : p.1 ∈ stops := by
    rw [hstop]
    exact mem_append_right _ mem_cons_self
  have hget : stops[p.2]? = some p.1 := by
    have hp' : p ∈ stops.zipIdx := by
      rw [hzip]
      exact mem_append_right _ mem_cons_self
    exact mem_zipIdx_iff_getElem?.1 hp'
  rw [getD_eq_getElem?_getD, hget, getD_some]
  obtain ⟨hstart, hocc, hlast⟩ := rfind_eq_some (encode_ne_nil (hstops _ hmem)) hfind
  refine ⟨⟨_, _, hstop, fun s' hs' ↦ ?_⟩, hocc, ?_, hlast⟩
  · obtain ⟨q, hq, rfl⟩ := mem_map.1 hs'
    have hq' : q.1 ∈ stops := by
      rw [hstop]
      exact mem_append_left _ (mem_map_of_mem hq)
    exact (rfind_eq_none_iff_not_completed (hstops _ hq')).1 (map_eq_none_iff.1 (hbefore q hq))
  · rw [size_append] at hstart
    omega

theorem Found.mem (h : Found stops old chunk s off) : s ∈ stops := by
  obtain ⟨before, after, rfl, -⟩ := h.first
  exact mem_append_right _ mem_cons_self

end Search

/-! ### The text of a list of tokens -/

section Tokens

variable {T : Type*} (decode : List T → Text) (opts : TextDecodeOptions) (prompt : List T)

section

variable (tokens : List T)

/-- The decoder after some tokens of a request. -/
def decoderAfter : DecodeStream T :=
  tokens.foldl (fun decoder tokenId ↦ (decoder.pushToken decode tokenId).1) (.new prompt)

/-- The text that some tokens of a request add to the output. -/
def textAfter : Text := (decoderAfter decode prompt tokens).cumulativeOutput

/-- The whole text of some tokens, with what is held back as it may be incomplete. -/
def fullText : Text :=
  textAfter decode prompt tokens ++ (decoderAfter decode prompt tokens).heldBack decode

/-- The stop strings of a request. -/
def TextDecodeOptions.stops : List Text := opts.stopStrings.getD []

/-- The last of some tokens completes a stop string. -/
def Completes : Prop :=
  opts.minTokens < tokens.length ∧ ∃ s ∈ opts.stops,
    Completed (textAfter decode prompt tokens.dropLast) (textAfter decode prompt tokens) s

/-- None of some tokens completes a stop string. -/
def Open : Prop := ∀ p, p <+: tokens → ¬ Completes decode opts prompt p

/-- The bytes that are held back after some tokens start at a character. -/
def Clean : Prop :=
  IsBoundary (textAfter decode prompt tokens)
    (size (textAfter decode prompt tokens) - opts.minBytesToBuffer)

/-- The search for a stop string after the last of some tokens. -/
def stopAfter : Option StopMatch :=
  opts.findStop tokens.length 0 (textAfter decode prompt tokens)
    (size (textAfter decode prompt tokens) - size (textAfter decode prompt tokens.dropLast))

end

/-- **The text of a request** with the given decodable tokens, and the stop string that ended it:
the text is cut where the first token that completes a stop string says, if there is one. -/
inductive Ends (tokens : List T) : Text → Option Text → Prop
  | exhausted (hopen : Open decode opts prompt tokens) :
    Ends tokens (fullText decode prompt tokens) none
  | stopped {before : List T} {t : T} {stop : StopMatch} {text : Text}
    (hpfx : before ++ [t] <+: tokens) (hopen : Open decode opts prompt before)
    (hstop : stopAfter decode opts prompt (before ++ [t]) = some stop)
    (htext : text <+: textAfter decode prompt (before ++ [t]))
    (hsize : size text = stop.truncateOutputTo) :
    Ends tokens text (some stop.stopStr)

variable {tokens before : List T} {t : T}

theorem decoderAfter_concat : decoderAfter decode prompt (before ++ [t]) =
    ((decoderAfter decode prompt before).pushToken decode t).1 := by
  rw [decoderAfter, foldl_append]
  rfl

/-- A token adds to the end of the text. -/
theorem exists_textAfter_concat (before : List T) (t : T) : ∃ chunk,
    textAfter decode prompt (before ++ [t]) = textAfter decode prompt before ++ chunk ∧
      ((decoderAfter decode prompt before).pushToken decode t).2 = size chunk := by
  rw [textAfter, decoderAfter_concat]
  exact pushToken_cumulativeOutput

theorem textAfter_mono (h : before <+: tokens) :
    textAfter decode prompt before <+: textAfter decode prompt tokens := by
  obtain ⟨rest, rfl⟩ := h
  induction rest using reverseRecOn with
  | nil => rw [append_nil]
  | append_singleton rest t ih =>
    obtain ⟨chunk, hchunk, -⟩ :=
      exists_textAfter_concat decode prompt (before ++ rest) t
    rw [← append_assoc, hchunk]
    exact ih.trans (prefix_append _ _)

/-- The decoder of the stream takes the same steps, whatever it has handed out. -/
theorem pushToken_decoderAfter (n : ℕ) :
    ((decoderAfter decode prompt before).withIndex n).pushToken decode t =
      ((decoderAfter decode prompt (before ++ [t])).withIndex n,
        size (textAfter decode prompt (before ++ [t])) -
          size (textAfter decode prompt before)) := by
  obtain ⟨chunk, hchunk, hnew⟩ := exists_textAfter_concat decode prompt before t
  rw [pushToken_withIndex, hnew, decoderAfter_concat, hchunk, size_append, Nat.add_sub_cancel_left]

variable {decode opts prompt} {stop : StopMatch}

theorem findStop_eq (count tokIdx newBytes : ℕ) (output : Text) :
    opts.findStop count tokIdx output newBytes =
      if opts.minTokens < count then
        (matchesStopString opts.stops output newBytes).map fun found ↦
          { stopStr := opts.stops.getD found.1 []
            truncateOutputTo := if opts.includeStopStrInOutput then
              found.2 + size (opts.stops.getD found.1 []) else found.2
            truncateTokensTo := tokIdx + 1 }
      else none := by
  unfold findStop stops
  cases opts.stopStrings with
  | none => rfl
  | some stops => rfl

/-- The search in the stream is the search after the tokens, for the token at hand. -/
theorem findStop_eq_stopAfter {count : ℕ} (hcount : count = before.length + 1) (tokIdx : ℕ) :
    opts.findStop count tokIdx (textAfter decode prompt (before ++ [t]))
        (size (textAfter decode prompt (before ++ [t])) - size (textAfter decode prompt before)) =
      (stopAfter decode opts prompt (before ++ [t])).map fun stop ↦
        { stop with truncateTokensTo := tokIdx + 1 } := by
  rw [stopAfter, findStop_eq, findStop_eq, dropLast_concat, length_append, hcount,
    apply_ite (Option.map _), Option.map_map]
  rfl

section

variable (hstops : ∀ s ∈ opts.stops, s ≠ [])

include hstops

theorem stopAfter_eq_none_iff :
    stopAfter decode opts prompt (before ++ [t]) = none ↔
      ¬ Completes decode opts prompt (before ++ [t]) := by
  obtain ⟨chunk, hchunk, -⟩ := exists_textAfter_concat decode prompt before t
  unfold Completes
  rw [stopAfter, findStop_eq, dropLast_concat, hchunk, size_append, Nat.add_sub_cancel_left]
  split
  · rename_i hlt
    rw [map_eq_none_iff, matchesStopString_eq_none_iff hstops]
    simp only [hlt, true_and, not_exists, not_and]
  · rename_i hlt
    simp only [hlt, false_and, not_false_eq_true]

section

variable (h : stopAfter decode opts prompt (before ++ [t]) = some stop)

include h

theorem completes_of_stopAfter : Completes decode opts prompt (before ++ [t]) := by
  by_contra hnot
  rw [(stopAfter_eq_none_iff hstops).2 hnot] at h
  cases h

theorem stopAfter_eq_some :
    ∃ off, Found opts.stops (textAfter decode prompt before)
        (textAfter decode prompt (before ++ [t])) stop.stopStr off ∧
      stop.truncateOutputTo =
        if opts.includeStopStrInOutput then off + size stop.stopStr else off := by
  obtain ⟨chunk, hchunk, -⟩ := exists_textAfter_concat decode prompt before t
  rw [stopAfter, findStop_eq, dropLast_concat, hchunk, size_append, Nat.add_sub_cancel_left] at h
  obtain ⟨-, h⟩ := ite_none_right_eq_some.1 h
  obtain ⟨⟨i, off⟩, hmatch, rfl⟩ := map_eq_some_iff.1 h
  rw [hchunk]
  exact ⟨off, found_of_matchesStopString hstops hmatch, rfl⟩

end

end

theorem Open.of_prefix (h : Open decode opts prompt tokens) (hpfx : before <+: tokens) :
    Open decode opts prompt before :=
  fun p hp ↦ h p (hp.trans hpfx)

theorem Open.concat (h : Open decode opts prompt before)
    (ht : ¬ Completes decode opts prompt (before ++ [t])) :
    Open decode opts prompt (before ++ [t]) := by
  intro p hp
  rcases prefix_concat_iff.1 hp with rfl | hp
  · exact ht
  · exact h p hp

theorem open_nil : Open decode opts prompt [] := by
  intro p hp
  rw [prefix_nil.1 hp]
  rintro ⟨-, s, -, i, -, hlo, hhi⟩
  rw [dropLast_nil] at hlo
  omega

/-- Two tokens cannot both be the first that completes a stop string. -/
theorem Open.eq_of_completes {before' : List T} {t' : T}
    (h : Open decode opts prompt before) (hc : Completes decode opts prompt (before ++ [t]))
    (hp : before ++ [t] <+: tokens) (h' : Open decode opts prompt before')
    (hc' : Completes decode opts prompt (before' ++ [t'])) (hp' : before' ++ [t'] <+: tokens) :
    before ++ [t] = before' ++ [t'] := by
  obtain hle | hle := prefix_or_prefix_of_prefix hp hp'
  · rcases prefix_concat_iff.1 hle with heq | hlt
    · exact heq
    · exact absurd hc (h' _ hlt)
  · rcases prefix_concat_iff.1 hle with heq | hlt
    · exact heq.symm
    · exact absurd hc' (h _ hlt)

/-- **The text of a request is determined** by its tokens. -/
theorem Ends.unique (hstops : ∀ s ∈ opts.stops, s ≠ []) {text text' : Text} {r r' : Option Text}
    (h : Ends decode opts prompt tokens text r) (h' : Ends decode opts prompt tokens text' r') :
    text = text' ∧ r = r' := by
  cases h with
  | exhausted hopen =>
    cases h' with
    | exhausted => exact ⟨rfl, rfl⟩
    | stopped hpfx _ hstop =>
      exact absurd (completes_of_stopAfter hstops hstop) (hopen _ hpfx)
  | stopped hpfx hopen hstop htext hsize =>
    cases h' with
    | exhausted hopen' =>
      exact absurd (completes_of_stopAfter hstops hstop) (hopen' _ hpfx)
    | stopped hpfx' hopen' hstop' htext' hsize' =>
      have heq := hopen.eq_of_completes (completes_of_stopAfter hstops hstop) hpfx hopen'
        (completes_of_stopAfter hstops hstop') hpfx'
      rw [← heq, hstop] at hstop'
      rw [← heq] at htext'
      cases hstop'
      exact ⟨eq_of_size_eq htext htext' (hsize.trans hsize'.symm), rfl⟩

/-! ### Between two tokens -/

section Between

variable (decode opts prompt) (intermediate : Bool)

/-- How much was handed out after some tokens, in bytes. -/
def sentIndex (tokens : List T) : ℕ :=
  if intermediate then size (textAfter decode prompt tokens) - opts.minBytesToBuffer else 0

/-- The text that was handed out after some tokens. -/
structure Sent (tokens : List T) (text : Text) : Prop where
  isPrefix : text <+: textAfter decode prompt tokens
  size_eq : size text = sentIndex decode opts prompt intermediate tokens

/-- The decoder of the stream after some tokens. -/
def streamDecoder (tokens : List T) : DecodeStream T :=
  (decoderAfter decode prompt tokens).withIndex (sentIndex decode opts prompt intermediate tokens)

variable {decode opts prompt intermediate} {text : Text}

theorem sent_nil : Sent decode opts prompt intermediate ([] : List T) [] := by
  refine ⟨⟨_, rfl⟩, ?_⟩
  unfold sentIndex
  split
  · exact (Nat.zero_sub _).symm
  · rfl

theorem streamDecoder_nil : streamDecoder decode opts prompt intermediate [] = new prompt := by
  rw [streamDecoder, ← sent_nil.size_eq]
  rfl

/-- What was sent before a token is no longer than what may be sent after it. -/
theorem Sent.size_le (h : Sent decode opts prompt true before text) : size text ≤
    size (textAfter decode prompt (before ++ [t])) - opts.minBytesToBuffer := by
  obtain ⟨chunk, hchunk, -⟩ := exists_textAfter_concat decode prompt before t
  rw [h.size_eq, sentIndex, if_pos rfl, hchunk, size_append]
  omega

theorem Sent.isPrefix_concat (h : Sent decode opts prompt intermediate before text) :
    text <+: textAfter decode prompt (before ++ [t]) :=
  h.isPrefix.trans (textAfter_mono decode prompt (prefix_append _ _))

/-- **Handing out text** after a token. -/
theorem nextChunk_of_clean (h : Sent decode opts prompt true before text)
    (hclean : Clean decode opts prompt (before ++ [t])) :
    ∃ chunk, ((decoderAfter decode prompt (before ++ [t])).withIndex
        (sentIndex decode opts prompt true before)).nextChunk opts.minBytesToBuffer =
      .ok (chunk, streamDecoder decode opts prompt true (before ++ [t])) ∧
      Sent decode opts prompt true (before ++ [t]) (text ++ chunk.getD []) := by
  obtain ⟨chunk, hnext, hpfx, hsize⟩ := nextChunk_of_isBoundary
    ((decoderAfter decode prompt (before ++ [t])).withIndex
      (sentIndex decode opts prompt true before))
    h.isPrefix_concat h.size_eq (h.size_eq ▸ h.size_le) hclean
  exact ⟨chunk, hnext, hpfx, hsize⟩

theorem nextChunk_of_not_clean (h : Sent decode opts prompt true before text)
    (hclean : ¬ Clean decode opts prompt (before ++ [t])) :
    ((decoderAfter decode prompt (before ++ [t])).withIndex
      (sentIndex decode opts prompt true before)).nextChunk opts.minBytesToBuffer =
      .error .panic :=
  nextChunk_of_not_isBoundary h.isPrefix_concat h.size_eq (h.size_eq ▸ h.size_le) hclean

/-! ### The tokens of an output -/

variable (decode opts prompt intermediate)

/-- **The outcome of the tokens of an output**, after the tokens of the earlier ones: what was sent
before, together with the new delta, is what is sent after the tokens. -/
inductive TokensOutcome (pushed tokens : List T) (sent : Text) :
    Except StreamError (Decoded T) → Prop
  | panic {q : List T} (hmode : intermediate = true) (hpfx : q <+: tokens)
    (hopen : Open decode opts prompt (pushed ++ q))
    (hclean : ¬ Clean decode opts prompt (pushed ++ q)) :
    TokensOutcome pushed tokens sent (.error .panic)
  | exhausted {delta : Option Text} (hopen : Open decode opts prompt (pushed ++ tokens))
    (hclean : intermediate = true → ∀ q, q <+: tokens → Clean decode opts prompt (pushed ++ q))
    (hsent : Sent decode opts prompt intermediate (pushed ++ tokens) (sent ++ delta.getD [])) :
    TokensOutcome pushed tokens sent
      (.ok ⟨streamDecoder decode opts prompt intermediate (pushed ++ tokens), delta, none⟩)
  | stopped {q : List T} {t : T} {stop : StopMatch} {delta : Option Text} {n : ℕ}
    (hpfx : q ++ [t] <+: tokens) (hopen : Open decode opts prompt (pushed ++ q))
    (hstop : stopAfter decode opts prompt (pushed ++ q ++ [t]) = some stop)
    (hclean : intermediate = true → ∀ q', q' <+: q → Clean decode opts prompt (pushed ++ q'))
    (hsent : Sent decode opts prompt intermediate (pushed ++ q) (sent ++ delta.getD [])) :
    TokensOutcome pushed tokens sent
      (.ok ⟨(decoderAfter decode prompt (pushed ++ q ++ [t])).withIndex
          (sentIndex decode opts prompt intermediate (pushed ++ q)), delta,
        some { stop with truncateTokensTo := n }⟩)

variable {decode opts prompt intermediate} {pushed : List T} {sent : Text}

/-- One more token in front. -/
theorem TokensOutcome.cons {r : Except StreamError (Decoded T)}
    (h : TokensOutcome decode opts prompt intermediate (pushed ++ [t]) tokens sent r)
    (hclean : intermediate = true → Clean decode opts prompt pushed) :
    TokensOutcome decode opts prompt intermediate pushed (t :: tokens) sent r := by
  have happ (q : List T) : pushed ++ [t] ++ q = pushed ++ t :: q := by
    rw [append_assoc, singleton_append]
  have hfront {q : List T}
      (h : intermediate = true → ∀ q', q' <+: q → Clean decode opts prompt (pushed ++ [t] ++ q')) :
      intermediate = true → ∀ q', q' <+: t :: q → Clean decode opts prompt (pushed ++ q') := by
    intro hmode q' hq'
    rcases prefix_cons_iff.1 hq' with rfl | ⟨q'', rfl, hq''⟩
    · rw [append_nil]
      exact hclean hmode
    · rw [← happ]
      exact h hmode q'' hq''
  cases h with
  | panic hmode hpfx hopen hunclean =>
    rw [happ] at hopen hunclean
    exact .panic hmode (cons_prefix_cons.2 ⟨rfl, hpfx⟩) hopen hunclean
  | exhausted hopen hcleans hsent =>
    rw [happ] at hopen hsent ⊢
    exact .exhausted hopen (hfront hcleans) hsent
  | stopped hpfx hopen hstop hcleans hsent =>
    rw [happ] at hopen hstop hsent ⊢
    exact .stopped (cons_prefix_cons.2 ⟨rfl, hpfx⟩) hopen hstop (hfront hcleans) hsent

theorem getD_pushChunk (delta chunk : Option Text) :
    (pushChunk delta chunk).getD [] = delta.getD [] ++ chunk.getD [] := by
  cases chunk with
  | none => exact (append_nil _).symm
  | some chunk => rfl

/-- **The loop over the tokens**, by induction on them. -/
theorem decodeTokens_outcome (hstops : ∀ s ∈ opts.stops, s ≠ []) {count tokIdx : ℕ}
    {delta : Option Text} (hcount : count + tokIdx = pushed.length)
    (hopen : Open decode opts prompt pushed)
    (hclean : intermediate = true → Clean decode opts prompt pushed)
    (hsent : Sent decode opts prompt intermediate pushed (sent ++ delta.getD [])) :
    TokensOutcome decode opts prompt intermediate pushed tokens sent
      (decodeTokens decode opts intermediate count tokIdx
        (streamDecoder decode opts prompt intermediate pushed) delta tokens) := by
  have hcleans {pushed : List T} (hclean : intermediate = true → Clean decode opts prompt pushed)
      (hmode : intermediate = true) (q : List T) (hq : q <+: []) :
      Clean decode opts prompt (pushed ++ q) := by
    rw [prefix_nil.1 hq, append_nil]
    exact hclean hmode
  induction tokens generalizing pushed tokIdx delta with
  | nil =>
    rw [← append_nil pushed] at hopen hsent
    have h := TokensOutcome.exhausted hopen (hcleans hclean) hsent
    rwa [append_nil] at h
  | cons t tokens ih =>
    rw [decodeTokens, streamDecoder, pushToken_decoderAfter]
    dsimp only [withIndex_cumulativeOutput]
    rw [← textAfter, findStop_eq_stopAfter (by omega)]
    cases hstop : stopAfter decode opts prompt (pushed ++ [t]) with
    | some stop =>
      rw [← append_nil pushed] at hopen hsent hstop
      have h := TokensOutcome.stopped (n := tokIdx + 1) (prefix_append [t] tokens) hopen hstop
        (hcleans hclean) hsent
      rwa [append_nil] at h
    | none =>
      have hopen' := hopen.concat ((stopAfter_eq_none_iff hstops).1 hstop)
      have hcount' : count + (tokIdx + 1) = (pushed ++ [t]).length := by
        rw [length_append, ← hcount]
        rfl
      cases intermediate with
      | false =>
        refine (ih hcount' hopen' nofun ?_).cons hclean
        exact ⟨hsent.isPrefix_concat, hsent.size_eq⟩
      | true =>
        by_cases hclean' : Clean decode opts prompt (pushed ++ [t])
        · obtain ⟨chunk, hnext, hsent'⟩ := nextChunk_of_clean hsent hclean'
          rw [hnext]
          refine (ih hcount' hopen' (fun _ ↦ hclean') ?_).cons hclean
          rwa [getD_pushChunk, ← append_assoc]
        · rw [nextChunk_of_not_clean hsent hclean']
          exact .panic rfl (prefix_append [t] tokens) hopen' hclean'

end Between

end Tokens

end OneCatVllm.Frontend
