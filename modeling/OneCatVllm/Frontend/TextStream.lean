import OneCatVllm.Frontend.DecodeStream

/-!
# The decoded text stream of the Rust front-end

`decodedTextEventStream` turns the outputs of the engine into text. Each token is pushed to the
decoder; the output is then searched for the stop strings, of which **the first listed** one that
the new bytes complete ends the request, at its **last** occurrence. In intermediate mode every
output of the engine becomes a delta with the text that is ready; otherwise one delta carries the
whole text at the end. Unless stop strings stay in the text, as many bytes are held back as a stop
string may have before its last one.

Log probabilities and the parameters of key-value transfers are left out, and so is the event that
opens the stream.
-/

namespace OneCatVllm.Frontend

open Utf8 Substring

/-- Why a stop ended the request: a stop token, or a stop string found in the text. -/
inductive StopReason (T : Type*)
  | tokenId (token : T)
  | text (stopStr : Text)
  deriving DecidableEq

/-- Why a request ended. -/
inductive FinishReason (T : Type*)
  | stop (reason : Option (StopReason T))
  | length
  | abort
  | error
  | repetition
  deriving DecidableEq

/-- `is_stop`. -/
def FinishReason.isStop {T : Type*} : FinishReason T → Bool
  | .stop _ => true
  | _ => false

/-- An output of the engine. -/
structure GenerateOutput (T : Type*) where
  tokenIds : List T
  finishReason : Option (FinishReason T)
  deriving DecidableEq

/-- `TextDecodeOptions`. -/
structure TextDecodeOptions where
  stopStrings : Option (List Text)
  includeStopStrInOutput : Bool
  minTokens : ℕ
  deriving DecidableEq

/-- What the last delta says about the request. -/
structure Finished (T : Type*) where
  promptTokenCount : ℕ
  outputTokenCount : ℕ
  finishReason : FinishReason T
  deriving DecidableEq

/-- A piece of text, with the tokens of the update. -/
structure TextDelta (T : Type*) where
  delta : Text
  tokenIds : List T
  finished : Option (Finished T)
  deriving DecidableEq

/-- `matches_stop_string`: the first listed stop string that the last `newBytes` bytes complete,
by its index, and the position of its last occurrence. -/
def matchesStopString (stops : List Text) (output : Text) (newBytes : ℕ) : Option (ℕ × ℕ) :=
  let nextOff := size output + 1 - newBytes
  stops.zipIdx.findSome? fun ss ↦
    (rfind (encode output) (encode ss.1) (nextOff - size ss.1)).map fun off ↦ (ss.2, off)

/-- A stop string found in the text: the lengths to which the text and the tokens of the output at
hand are cut. -/
structure StopMatch where
  stopStr : Text
  truncateOutputTo : ℕ
  truncateTokensTo : ℕ
  deriving DecidableEq

namespace TextDecodeOptions

variable (opts : TextDecodeOptions)

/-- How many bytes of text are held back, so that no delta has the start of a stop string. -/
def minBytesToBuffer : ℕ :=
  match opts.includeStopStrInOutput with
  | true => 0
  | false => ((opts.stopStrings.bind fun stops ↦ (stops.map size).max?).getD 1) - 1

/-- The search for a stop string after the `count`-th token of the request. -/
def findStop (count tokIdx : ℕ) (output : Text) (newBytes : ℕ) : Option StopMatch :=
  if opts.minTokens < count then
    opts.stopStrings.bind fun stops ↦ (matchesStopString stops output newBytes).map fun found ↦
      let stopStr := stops.getD found.1 []
      { stopStr := stopStr
        truncateOutputTo :=
          if opts.includeStopStrInOutput then found.2 + size stopStr else found.2
        truncateTokensTo := tokIdx + 1 }
  else none

/-- The tokens of an output that are decoded: the token that stopped the request is left out of
the text, unless stops are included in it. -/
def decodableTokenIds {T : Type*} (output : GenerateOutput T) : List T :=
  if output.finishReason.any FinishReason.isStop ∧ opts.includeStopStrInOutput = false then
    output.tokenIds.dropLast
  else output.tokenIds

end TextDecodeOptions

/-- The text of an update, to which a chunk is added if there is one. -/
def pushChunk (delta chunk : Option Text) : Option Text :=
  match chunk with
  | none => delta
  | some chunk => some (delta.getD [] ++ chunk)

/-- What the tokens of an output came to. -/
structure Decoded (T : Type*) where
  decoder : DecodeStream T
  delta : Option Text
  stop : Option StopMatch
  deriving DecidableEq

/-- The stream between two outputs. -/
structure StreamState (T : Type*) where
  decoder : DecodeStream T
  /-- The tokens of all outputs so far, gathered outside of intermediate mode. -/
  tokenIds : List T
  outputTokenCount : ℕ
  deriving DecidableEq

section

variable {T : Type*} (decode : List T → Text) (opts : TextDecodeOptions) (intermediate : Bool)

/-- The loop over the decodable tokens of one output. -/
def decodeTokens (outputTokenCount : ℕ) :
    ℕ → DecodeStream T → Option Text → List T → Except StreamError (Decoded T)
  | _, decoder, delta, [] => .ok ⟨decoder, delta, none⟩
  | tokIdx, decoder, delta, tokenId :: tokenIds =>
    let pushed := decoder.pushToken decode tokenId
    match opts.findStop (outputTokenCount + tokIdx + 1) tokIdx
        pushed.1.cumulativeOutput pushed.2 with
    | some stop => .ok ⟨pushed.1, delta, some stop⟩
    | none =>
      if intermediate then
        match pushed.1.nextChunk opts.minBytesToBuffer with
        | .error e => .error e
        | .ok (chunk, decoder) =>
          decodeTokens outputTokenCount (tokIdx + 1) decoder (pushChunk delta chunk) tokenIds
      else decodeTokens outputTokenCount (tokIdx + 1) pushed.1 delta tokenIds

/-- The end of the request: flush the decoder and give the last delta. -/
def finish (promptTokenCount : ℕ) (st : StreamState T) (decoded : Decoded T)
    (newTokenIds : List T) (reason : FinishReason T) : Except StreamError (TextDelta T) :=
  match decoded.decoder.flush decode (decoded.stop.map StopMatch.truncateOutputTo) with
  | .error e => .error e
  | .ok (lastChunk, text) => .ok
    { delta := if intermediate then (pushChunk decoded.delta lastChunk).getD [] else text
      tokenIds := if intermediate then newTokenIds else st.tokenIds ++ newTokenIds
      finished := some
        { promptTokenCount := promptTokenCount
          outputTokenCount := st.outputTokenCount + newTokenIds.length
          finishReason := reason } }

/-- The loop over the outputs of the engine: the deltas given, and the error if there is one. -/
def decodeOutputs (promptTokenCount : ℕ) :
    StreamState T → List (GenerateOutput T) → List (TextDelta T) × Option StreamError
  | _, [] => ([], some .streamClosedBeforeTerminalOutput)
  | st, output :: outputs =>
    match decodeTokens decode opts intermediate st.outputTokenCount 0 st.decoder none
        (opts.decodableTokenIds output) with
    | .error e => ([], some e)
    | .ok decoded =>
      -- a stop string cuts the tokens and is the reason, whatever the engine said
      let newTokenIds := decoded.stop.elim output.tokenIds fun stop ↦
        output.tokenIds.take stop.truncateTokensTo
      let finishReason := decoded.stop.elim output.finishReason fun stop ↦
        some (.stop (some (.text stop.stopStr)))
      match finishReason with
      | some reason =>
        match finish decode intermediate promptTokenCount st decoded newTokenIds reason with
        | .error e => ([], some e)
        | .ok last => ([last], none)
      | none =>
        let rest := decodeOutputs promptTokenCount
          { decoder := decoded.decoder
            tokenIds := if intermediate then st.tokenIds else st.tokenIds ++ newTokenIds
            outputTokenCount := st.outputTokenCount + newTokenIds.length } outputs
        if intermediate then
          (⟨decoded.delta.getD [], newTokenIds, none⟩ :: rest.1, rest.2)
        else rest

/-- `decoded_text_event_stream`: the deltas of a request, and the error that ended it early. -/
def decodedTextEventStream (promptTokenIds : List T) (outputs : List (GenerateOutput T)) :
    List (TextDelta T) × Option StreamError :=
  decodeOutputs decode opts intermediate promptTokenIds.length
    { decoder := DecodeStream.new promptTokenIds, tokenIds := [], outputTokenCount := 0 } outputs

end

/-- The text of a list of deltas. -/
def deltaText {T : Type*} (deltas : List (TextDelta T)) : Text :=
  (deltas.map TextDelta.delta).flatten

end OneCatVllm.Frontend
