import OneCatVllm.Lib.Substring

/-!
# Incremental detokenization

`vllm/v1/engine/detokenizer.py`: the detokenizer of a request takes the new tokens of each engine
output, appends their texts, and looks for stop strings in the new part of the text. It hands out
text with a stop buffer held back while the request runs.

What a token decodes to depends on the tokens before it and on the tokenizer, which are outside of
the model: a `Token` comes with its text. A token list that a client sees is the list of ids.
Without a tokenizer there is no text and nothing is looked for; the two classes of the source share
the state `Detokenizer` here.
-/

namespace OneCatVllm

open Substring

/-- A generated token with the text that `decode_next` returns for it. -/
structure Token where
  id : ℕ
  text : List Char
  deriving DecidableEq

/-- The text of a list of tokens. -/
def textOf (ts : List Token) : List Char := ts.flatMap (·.text)

/-- The sampling parameters that a detokenizer reads; they are refused with an empty stop string. -/
structure DetokenizerParams where
  /-- Whether there is a tokenizer. -/
  detokenize : Bool := true
  stop : List (List Char) := []
  stop_ne_nil : ∀ s ∈ stop, s ≠ [] := by decide
  minTokens : ℕ := 0
  includeStopStrInOutput : Bool := false

/-- `stop_buffer_length`: the number of characters held back while the request runs. -/
def DetokenizerParams.stopBufferLength (p : DetokenizerParams) : ℕ :=
  if p.stop ≠ [] ∧ ¬ p.includeStopStrInOutput then (p.stop.map List.length).foldl max 0 - 1 else 0

/-- The state of a detokenizer. The tokens of the prompt, which the slow detokenizer keeps in front
of the generated ones and leaves out of everything it returns, are not kept here. -/
structure Detokenizer where
  tokenIds : List ℕ := []
  outputText : List Char := []
  lastOutputTextOffset : ℕ := 0
  deriving DecidableEq

/-- `num_output_tokens`. -/
def Detokenizer.numOutputTokens (d : Detokenizer) : ℕ := d.tokenIds.length

namespace BaseIncrementalDetokenizer

/-! ### Stop strings -/

/-- The start of a Python search with a negative start index. -/
def searchStart (text : List Char) (back : ℕ) : ℕ := text.length - back

/-- `check_stop_strings`: the first stop string of the list that ends in the last `newCharCount`
characters, with the length to truncate the text to, if it has to be truncated. -/
def checkStopStrings (outputText : List Char) (newCharCount : ℕ) (stop : List (List Char))
    (includeInOutput : Bool) : Option (List Char × Option ℕ) :=
  if newCharCount = 0 then none
  else
    stop.findSome? fun stopStr ↦
      -- `find(stop_str, 1 - new_char_count - stop_string_len)`
      (find outputText stopStr
        (searchStart outputText (newCharCount + stopStr.length - 1))).map fun stopIndex ↦
          if includeInOutput then
            if outputText.length ≤ stopIndex + stopStr.length then (stopStr, none)
            else (stopStr, some (stopIndex + stopStr.length))
          else (stopStr, some stopIndex)

/-- The loop of `update`: append the tokens, with the offset from which stop strings are looked
for. -/
def appendTokens (p : DetokenizerParams) : List Token → Detokenizer × ℕ → Detokenizer × ℕ
  | [], s => s
  | t :: ts, (d, offset) =>
    let d' := { d with tokenIds := d.tokenIds ++ [t.id], outputText := d.outputText ++ t.text }
    let offset' :=
      if p.minTokens ≠ 0 ∧ d'.numOutputTokens ≤ p.minTokens then d'.outputText.length else offset
    appendTokens p ts (d', offset')

/-- The second half of `update`: look for stop strings from `offset` on. -/
def evaluateStop (p : DetokenizerParams) (d : Detokenizer) (offset : ℕ) :
    Option (List Char) × Detokenizer :=
  if p.stop ≠ [] ∧ p.minTokens < d.numOutputTokens then
    match checkStopStrings d.outputText (d.outputText.length - offset) p.stop
        p.includeStopStrInOutput with
    | none => (none, d)
    | some (stopString, none) => (some stopString, d)
    | some (stopString, some n) =>
      (some stopString, { d with outputText := d.outputText.take n })
  else (none, d)

/-- `update`: the matched stop string, and the detokenizer afterwards. The last token of a request
that a stop token terminates is not decoded, unless stop strings are part of the output. -/
def update (p : DetokenizerParams) (newTokenIds : List Token) (stopTerminated : Bool)
    (d : Detokenizer) : Option (List Char) × Detokenizer :=
  if newTokenIds = [] then (none, d)
  else
    let offset := d.outputText.length
    if stopTerminated ∧ ¬ p.includeStopStrInOutput then
      let res := appendTokens p newTokenIds.dropLast (d, offset)
      let skipped := newTokenIds.getLast?.toList.map (·.id)
      evaluateStop p { res.1 with tokenIds := res.1.tokenIds ++ skipped } res.2
    else
      let res := appendTokens p newTokenIds (d, offset)
      evaluateStop p res.1 res.2

/-- `get_next_output_text`. -/
def getNextOutputText (p : DetokenizerParams) (finished delta : Bool) (d : Detokenizer) :
    List Char × Detokenizer :=
  let bufferLength := if finished then 0 else p.stopBufferLength
  let length := d.outputText.length - bufferLength
  if ¬ delta then (d.outputText.take length, d)
  else if d.lastOutputTextOffset < length then
    ((d.outputText.take length).drop d.lastOutputTextOffset,
      { d with lastOutputTextOffset := length })
  else ([], d)

end BaseIncrementalDetokenizer

namespace Detokenizer

/-- `update` of the request's detokenizer. -/
def update (p : DetokenizerParams) (newTokenIds : List Token) (stopTerminated : Bool)
    (d : Detokenizer) : Option (List Char) × Detokenizer :=
  if p.detokenize then BaseIncrementalDetokenizer.update p newTokenIds stopTerminated d
  else (none, { d with tokenIds := d.tokenIds ++ newTokenIds.map (·.id) })

/-- `get_next_output_text` of the request's detokenizer. -/
def getNextOutputText (p : DetokenizerParams) (finished delta : Bool) (d : Detokenizer) :
    List Char × Detokenizer :=
  if p.detokenize then BaseIncrementalDetokenizer.getNextOutputText p finished delta d else ([], d)

end Detokenizer

end OneCatVllm
