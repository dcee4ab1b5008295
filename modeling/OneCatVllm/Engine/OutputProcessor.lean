import OneCatVllm.Engine.Detokenizer

/-!
# The output processor

`vllm/v1/engine/output_processor.py` turns engine outputs into the outputs that a client reads. For
one request this involves its detokenizer, its list of logprobs, the rules for when an output is
sent, and the collector that merges outputs until the client reads them (`RequestOutputCollector`,
`RequestOutput.add`).

The list of logprobs in an output is a **reference**: in most outputs it is the processor's own
list, which later engine outputs extend (`Logprobs.shared`); only a delta of a non-empty list is a
list of its own. What a client gets is the content at the time it reads.

Left out are the parts of an output that no function here computes with: the prompt and its
logprobs, the sum of logprobs, the routed experts, the transfer parameters and the statistics.
-/

namespace OneCatVllm

/-- `RequestOutputKind`. -/
inductive RequestOutputKind
  | cumulative
  | delta
  | finalOnly
  deriving DecidableEq

/-- `FinishReason`. -/
inductive FinishReason
  | stop
  | length
  | abort
  | error
  | repetition
  deriving DecidableEq

/-- `stop_reason`: a stop token or a stop string. -/
inductive StopReason
  | token (id : ℕ)
  | string (s : List Char)
  deriving DecidableEq

/-- `EngineCoreOutput`. The logprobs of a request that asks for them come with the tokens, one for
each; for other requests they are not there and not read. -/
structure EngineCoreOutput (L : Type) where
  newTokenIds : List Token
  newLogprobs : List L
  finishReason : Option FinishReason := none
  stopReason : Option StopReason := none
  length_newLogprobs : newLogprobs.length = newTokenIds.length

/-! ### Outputs -/

/-- The logprobs in an output: none, a list of the output's own, or the processor's list. -/
inductive Logprobs (L : Type)
  | absent
  | own (l : List L)
  | shared
  deriving DecidableEq

/-- `CompletionOutput`. -/
structure CompletionOutput (L : Type) where
  index : ℕ
  text : List Char
  tokenIds : List ℕ
  logprobs : Logprobs L
  finishReason : Option FinishReason
  stopReason : Option StopReason
  deriving DecidableEq

/-- `CompletionOutput.finished`. -/
def CompletionOutput.finished {L : Type} (c : CompletionOutput L) : Bool := c.finishReason.isSome

/-- The parameters of a request that its outputs depend on. -/
structure OutputParams where
  outputKind : RequestOutputKind
  detokenizer : DetokenizerParams := {}
  logprobs : Bool := false
  streamInterval : ℕ := 1
  index : ℕ := 0

/-- `RequestState`, with the lists of its logprobs processor. -/
structure RequestState (L : Type) where
  detokenizer : Detokenizer := {}
  /-- `LogprobsProcessor.logprobs`, when they are asked for. -/
  logprobs : List L := []
  sentTokensOffset : ℕ := 0
  deriving DecidableEq

variable {L : Type}

namespace RequestState

/-- The content of the logprobs of an output. -/
def readLogprobs (st : RequestState L) : Logprobs L → Option (List L)
  | .absent => none
  | .own l => some l
  | .shared => some st.logprobs

/-- A Python slice `l[-n:]`. -/
def sliceLast (l : List L) (n : ℕ) : List L := if n = 0 then l else l.drop (l.length - n)

/-- An output is due: the request has finished, or the stream interval is reached. -/
def isDue (p : OutputParams) (finished : Bool) (st : RequestState L) : Bool :=
  finished || st.sentTokensOffset == 0 ||
    p.streamInterval ≤ st.detokenizer.numOutputTokens - st.sentTokensOffset

/-- `_new_completion_output`. -/
def newCompletionOutput (p : OutputParams) (tokenIds : List ℕ) (finishReason : Option FinishReason)
    (stopReason : Option StopReason) (st : RequestState L) : CompletionOutput L × RequestState L :=
  let delta := p.outputKind = .delta
  let res := st.detokenizer.getNextOutputText p.detokenizer finishReason.isSome delta
  let tokenIds := if delta then tokenIds else st.detokenizer.tokenIds
  let logprobs :=
    if ¬ p.logprobs then .absent
    else if delta ∧ st.logprobs ≠ [] then .own (sliceLast st.logprobs tokenIds.length)
    else .shared
  ({ index := p.index
     text := res.1
     tokenIds := tokenIds
     logprobs := logprobs
     finishReason := finishReason
     stopReason := if finishReason.isSome then stopReason else none },
    { st with detokenizer := res.2 })

/-- `make_request_output`, up to the completion output. -/
def makeRequestOutput (p : OutputParams) (newTokenIds : List ℕ)
    (finishReason : Option FinishReason) (stopReason : Option StopReason) (st : RequestState L) :
    Option (CompletionOutput L) × RequestState L :=
  if finishReason = none ∧ p.outputKind = .finalOnly then (none, st)
  else if 1 < p.streamInterval then
    if ¬ st.isDue p finishReason.isSome then (none, st)
    else if p.outputKind = .delta then
      -- the tokens from the offset on
      let newTokenIds := st.detokenizer.tokenIds.drop st.sentTokensOffset
      let res := newCompletionOutput p newTokenIds finishReason stopReason
        { st with sentTokensOffset := st.detokenizer.numOutputTokens }
      (some res.1, res.2)
    else
      let res := newCompletionOutput p newTokenIds finishReason stopReason st
      (some res.1, res.2)
  else
    let res := newCompletionOutput p newTokenIds finishReason stopReason st
    (some res.1, res.2)

/-- The finish and the stop reason that a detokenizer's stop string leads to. -/
def finishOf (o : EngineCoreOutput L) : Option (List Char) → Option FinishReason × Option StopReason
  | some s => (some .stop, some (.string s))
  | none => (o.finishReason, o.stopReason)

/-- The body of the loop in `process_outputs`: detokenize, take in the logprobs, make the output.
Returns the output, if one is due, the finish reason and the state. -/
def processOutput (p : OutputParams) (o : EngineCoreOutput L) (st : RequestState L) :
    Option (CompletionOutput L) × Option FinishReason × RequestState L :=
  let res := st.detokenizer.update p.detokenizer o.newTokenIds (o.finishReason = some .stop)
  let reasons := finishOf o res.1
  let st := { st with
    detokenizer := res.2
    logprobs := if p.logprobs then st.logprobs ++ o.newLogprobs else st.logprobs }
  let out := st.makeRequestOutput p (o.newTokenIds.map (·.id)) reasons.1 reasons.2
  (out.1, reasons.1, out.2)

/-- The final output of `abort_requests`. -/
def abortOutput (p : OutputParams) (st : RequestState L) :
    Option (CompletionOutput L) × RequestState L :=
  st.makeRequestOutput p [] (some .abort) none

end RequestState

/-! ### A request and its client -/

/-- What a client has read. -/
structure Delivered (L : Type) where
  text : List Char
  tokenIds : List ℕ
  logprobs : Option (List L)
  finishReason : Option FinishReason
  stopReason : Option StopReason
  deriving DecidableEq

/-- A request without parent or next inputs, the slot of its collector, and what its client has
read. The state of a finished request is out of `request_states` but still referred to by its last
outputs. -/
structure OutputStream (L : Type) where
  live : Bool := true
  state : RequestState L := {}
  output : Option (CompletionOutput L) := none
  delivered : List (Delivered L) := []
  deriving DecidableEq

/-- What happens to a request: an engine output, a read of its client, an abort. -/
inductive OutputEvent (L : Type)
  | output (o : EngineCoreOutput L)
  | read
  | abort

namespace OutputStream

/-- `RequestOutput.add` for a collector that aggregates: `extend` writes into the list that the
waiting output refers to. -/
def addAggregate (c next : CompletionOutput L) (st : RequestState L) :
    CompletionOutput L × RequestState L :=
  let c' := { c with
    text := c.text ++ next.text
    tokenIds := c.tokenIds ++ next.tokenIds
    finishReason := next.finishReason
    stopReason := next.stopReason }
  let l := (st.readLogprobs next.logprobs).getD []
  match c.logprobs with
  | .own l₀ => ({ c' with logprobs := .own (l₀ ++ l) }, st)
  | .shared => (c', { st with logprobs := st.logprobs ++ l })
  | .absent => (c', st)

section

variable (p : OutputParams) (s : OutputStream L)

/-- `RequestOutputCollector.put`. -/
def put (next : CompletionOutput L) : OutputStream L :=
  match s.output with
  | none => { s with output := some next }
  | some c =>
    if p.outputKind = .delta then
      let res := addAggregate c next s.state
      { s with output := some res.1, state := res.2 }
    else { s with output := some next }

/-- Put an output if there is one. -/
def putOption : Option (CompletionOutput L) → OutputStream L
  | none => s
  | some next => s.put p next

/-- `RequestOutputCollector.get_nowait`. -/
def get : OutputStream L :=
  match s.output with
  | none => s
  | some c =>
    { s with
      output := none
      delivered := s.delivered ++
        [⟨c.text, c.tokenIds, s.state.readLogprobs c.logprobs, c.finishReason, c.stopReason⟩] }

/-- One event. -/
def step : OutputEvent L → OutputStream L
  | .output o =>
    if s.live then
      let res := s.state.processOutput p o
      { s with state := res.2.2, live := res.2.1.isNone }.putOption p res.1
    else s
  | .read => s.get
  | .abort =>
    if s.live then
      let res := s.state.abortOutput p
      { s with state := res.2, live := false }.putOption p res.1
    else s

/-- The outputs that a client has read after the events, when it reads on until nothing is left. -/
def run (events : List (OutputEvent L)) : OutputStream L :=
  (events.foldl (step p) {}).get

end

end OutputStream

end OneCatVllm
