import OneCatVllm.Lib.Utf8

/-!
# The incremental decoder of the Rust front-end

`DecodeStream` turns generated tokens into text one at a time. It keeps a window of token ids whose
text is decoded afresh for every token: what goes beyond the text of the window's known part
(`prefixText`) is new, unless it ends with a replacement character, which may stand for a character
whose bytes have not all arrived. The window starts with the prompt, of which only a short suffix
is kept where that decodes cleanly (`seedPrefix`).

The tokenizer enters as its `decode` alone, with the choice about special tokens already made.
Positions in the text are byte positions, and a slice at a position that is not a character
boundary is a **panic**.
-/

namespace OneCatVllm.Frontend

open List Option Utf8

/-- A string of the front-end. -/
abbrev Text := List Char

/-- How a stream of text can fail. -/
inductive StreamError
  /-- A string was sliced inside of a character. -/
  | panic
  | streamClosedBeforeTerminalOutput
  deriving DecidableEq

/-- The state of the incremental decoder. -/
structure DecodeStream (T : Type*) where
  /-- The window of tokens. -/
  ids : List T
  /-- The text of the first `prefixIndex` tokens of the window. -/
  prefixText : Text
  prefixIndex : ℕ
  /-- The text decoded so far. -/
  cumulativeOutput : Text
  /-- How much of the decoded text was handed out, in bytes. -/
  outputIndex : ℕ
  deriving DecidableEq

namespace DecodeStream

variable {T : Type*}

/-- The decoder of a request, whose window is the prompt. -/
def new (promptTokenIds : List T) : DecodeStream T where
  ids := promptTokenIds
  prefixText := []
  prefixIndex := 0
  cumulativeOutput := []
  outputIndex := 0

/-- `SAFE_SUFFIX_MIN`. -/
def safeSuffixMin : ℕ := 4

/-- `SAFE_SUFFIX_MAX`. -/
def safeSuffixMax : ℕ := 6

section

variable (decode : List T → Text)

/-- The shortest suffix of a few tokens, not the whole list, whose text has no replacement
character. -/
def safeSuffix (ids : List T) : Option (List T) :=
  if safeSuffixMin < ids.length then
    let maxTry := min safeSuffixMax (ids.length - 1)
    ((range' safeSuffixMin (maxTry + 1 - safeSuffixMin)).map fun suffixLen ↦
      ids.drop (ids.length - suffixLen)).find? fun suffix ↦ replacement ∉ decode suffix
  else none

/-- `seed_prefix`: the known part of the window becomes a short suffix of it that decodes cleanly,
else the whole window if its text does not end with a replacement character. -/
def seedPrefix (st : DecodeStream T) : DecodeStream T :=
  match safeSuffix decode st.ids with
  | some suffix =>
    { st with prefixText := decode suffix, ids := suffix, prefixIndex := suffix.length }
  | none =>
    let decoded := decode st.ids
    if decoded.getLast? = some replacement then st
    else { st with prefixText := decoded, prefixIndex := st.ids.length }

/-- The window before a token is added: its known part is seeded when there is none. -/
def seeded (st : DecodeStream T) : DecodeStream T :=
  if st.prefixText = [] ∧ st.ids ≠ [] then seedPrefix decode st else st

/-- `push_token`: add a token to the window and the text it completes to the output, whose length
in bytes is returned. -/
def pushToken (st : DecodeStream T) (tokenId : T) : DecodeStream T × ℕ :=
  let st := st.seeded decode
  let ids := st.ids ++ [tokenId]
  let string := decode ids
  let prefixLen := size st.prefixText
  if size string ≤ prefixLen ∨ string.getLast? = some replacement then ({ st with ids := ids }, 0)
  else
    let newChunk := dropFloor string prefixLen
    let ids' := ids.drop st.prefixIndex
    ({ ids := ids'
       prefixText := decode ids'
       prefixIndex := ids'.length
       cumulativeOutput := st.cumulativeOutput ++ newChunk
       outputIndex := st.outputIndex }, size newChunk)

/-- `next_chunk`: hand out the text that is ready, all but the last bytes that are held back. -/
def nextChunk (minBytesToBuffer : ℕ) (st : DecodeStream T) :
    Except StreamError (Option Text × DecodeStream T) :=
  let cutoff := size st.cumulativeOutput - minBytesToBuffer
  if st.outputIndex < cutoff then
    match slice st.cumulativeOutput st.outputIndex cutoff with
    | some chunk => .ok (some chunk, { st with outputIndex := cutoff })
    | none => .error .panic
  else .ok (none, st)

/-- The text of the window that was held back because it may be incomplete. -/
def heldBack (st : DecodeStream T) : Text :=
  if st.ids = [] then [] else dropFloor (decode st.ids) (size st.prefixText)

/-- `flush`: add the text that was held back, cut the output, and return what was not yet handed
out together with the whole output. The decoder is not used again. -/
def flush (truncateOutputTo : Option ℕ) (st : DecodeStream T) :
    Except StreamError (Option Text × Text) :=
  let output := st.cumulativeOutput ++ heldBack decode st
  match truncateOutputTo.elim (some output) (truncate output) with
  | none => .error .panic
  | some text =>
    if st.outputIndex < size text then
      match slice text st.outputIndex (size text) with
      | some lastChunk => .ok (some lastChunk, text)
      | none => .error .panic
    else .ok (none, text)

end

/-! ### What a token adds -/

variable {decode : List T → Text} {st : DecodeStream T} {tokenId : T}

/-- A decoder that differs only in how much it has handed out. -/
def withIndex (st : DecodeStream T) (outputIndex : ℕ) : DecodeStream T :=
  { st with outputIndex := outputIndex }

@[simp] theorem withIndex_cumulativeOutput (n : ℕ) :
    (st.withIndex n).cumulativeOutput = st.cumulativeOutput := rfl

theorem seedPrefix_withIndex (n : ℕ) :
    seedPrefix decode (st.withIndex n) = (seedPrefix decode st).withIndex n := by
  unfold seedPrefix
  rw [show (st.withIndex n).ids = st.ids from rfl]
  cases safeSuffix decode st.ids with
  | some suffix => rfl
  | none =>
    dsimp only
    split
    · rfl
    · rfl

theorem seedPrefix_cumulativeOutput :
    (seedPrefix decode st).cumulativeOutput = st.cumulativeOutput := by
  unfold seedPrefix
  cases safeSuffix decode st.ids with
  | some suffix => rfl
  | none =>
    dsimp only
    split
    · rfl
    · rfl

/-- A token is decoded the same way however much was handed out before. -/
theorem pushToken_withIndex (n : ℕ) : (st.withIndex n).pushToken decode tokenId =
    ((st.pushToken decode tokenId).1.withIndex n, (st.pushToken decode tokenId).2) := by
  have hseed : (st.withIndex n).seeded decode = (st.seeded decode).withIndex n := by
    rw [seeded, seeded, seedPrefix_withIndex, apply_ite (withIndex · n)]
    rfl
  unfold pushToken
  rw [hseed]
  dsimp only [withIndex]
  split
  · rfl
  · rfl

/-- A token adds its new bytes to the end of the output. -/
theorem pushToken_cumulativeOutput : ∃ chunk,
    (st.pushToken decode tokenId).1.cumulativeOutput = st.cumulativeOutput ++ chunk ∧
      (st.pushToken decode tokenId).2 = size chunk := by
  have hseed : (st.seeded decode).cumulativeOutput = st.cumulativeOutput := by
    rw [seeded]
    split
    · exact seedPrefix_cumulativeOutput
    · rfl
  unfold pushToken
  dsimp only
  split
  · exact ⟨[], by rw [append_nil]; exact hseed, rfl⟩
  · exact ⟨_, by rw [hseed], rfl⟩

/-! ### What is handed out -/

variable {text : Text} {n : ℕ}

/-- A chunk goes up to the bytes to be held back, if these start at a character. -/
theorem nextChunk_of_isBoundary (st : DecodeStream T) (htext : text <+: st.cumulativeOutput)
    (hindex : size text = st.outputIndex) (hle : st.outputIndex ≤ size st.cumulativeOutput - n)
    (hcut : IsBoundary st.cumulativeOutput (size st.cumulativeOutput - n)) :
    ∃ chunk, st.nextChunk n = .ok (chunk, st.withIndex (size st.cumulativeOutput - n)) ∧
      text ++ chunk.getD [] <+: st.cumulativeOutput ∧
      size (text ++ chunk.getD []) = size st.cumulativeOutput - n := by
  obtain ⟨rest, hrest⟩ := htext
  unfold nextChunk
  by_cases hlt : st.outputIndex < size st.cumulativeOutput - n
  · rw [if_pos hlt]
    cases hslice : slice st.cumulativeOutput st.outputIndex (size st.cumulativeOutput - n) with
    | none =>
      rw [← hrest] at hslice hcut hle
      exact absurd hcut ((slice_append_eq_none_iff hindex hle).1 hslice)
    | some chunk =>
      have hchunk : chunk <+: rest ∧
          st.outputIndex + size chunk = size st.cumulativeOutput - n := by
        rw [← hrest] at hslice hle ⊢
        exact (slice_append_eq_some_iff hindex hle).1 hslice
      refine ⟨some chunk, rfl, ?_, ?_⟩
      · rw [← hrest]
        exact (prefix_append_right_inj text).2 hchunk.1
      · rw [getD_some, size_append, hindex, hchunk.2]
  · -- nothing is ready: the index is already where the bytes to be held back start
    have heq : st.outputIndex = size st.cumulativeOutput - n := by omega
    refine ⟨none, ?_, ?_, ?_⟩
    · rw [if_neg hlt, ← heq]
      rfl
    · rw [getD_none, append_nil]
      exact ⟨rest, hrest⟩
    · rw [getD_none, append_nil, hindex, heq]

theorem nextChunk_of_not_isBoundary (htext : text <+: st.cumulativeOutput)
    (hindex : size text = st.outputIndex) (hle : st.outputIndex ≤ size st.cumulativeOutput - n)
    (hcut : ¬ IsBoundary st.cumulativeOutput (size st.cumulativeOutput - n)) :
    st.nextChunk n = .error .panic := by
  obtain ⟨rest, hrest⟩ := htext
  have hlt : st.outputIndex < size st.cumulativeOutput - n := by
    refine lt_of_le_of_ne hle fun heq ↦ hcut ⟨text, rest, hrest, ?_⟩
    rw [hindex, heq]
  have hslice : slice st.cumulativeOutput st.outputIndex (size st.cumulativeOutput - n) = none := by
    rw [← hrest] at hcut hle ⊢
    exact (slice_append_eq_none_iff hindex hle).2 hcut
  rw [nextChunk, if_pos hlt, hslice]

/-- The last chunk completes what was handed out to the final text. -/
theorem flush_eq_ok {truncateOutputTo : Option ℕ} {final : Text}
    (hfinal : truncateOutputTo.elim (some (st.cumulativeOutput ++ heldBack decode st))
      (truncate (st.cumulativeOutput ++ heldBack decode st)) = some final)
    (htext : text <+: final) (hindex : size text = st.outputIndex) :
    ∃ lastChunk, st.flush decode truncateOutputTo = .ok (lastChunk, final) ∧
      text ++ lastChunk.getD [] = final := by
  obtain ⟨rest, rfl⟩ := htext
  unfold flush
  dsimp only
  rw [hfinal]
  dsimp only
  by_cases hlt : st.outputIndex < size (text ++ rest)
  · have hslice : slice (text ++ rest) st.outputIndex (size (text ++ rest)) = some rest :=
      (slice_append_eq_some_iff hindex hlt.le).2 ⟨prefix_rfl, by rw [size_append, hindex]⟩
    rw [if_pos hlt, hslice]
    exact ⟨some rest, rfl, rfl⟩
  · rw [if_neg hlt]
    refine ⟨none, rfl, ?_⟩
    rw [size_append] at hlt
    rw [size_eq_zero_iff.1 (show size rest = 0 by omega)]
    rfl

end DecodeStream

end OneCatVllm.Frontend
