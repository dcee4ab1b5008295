import Mathlib.Data.List.Basic
import OneCatVllm.StructuredOutput.Grammar

/-!
# The structured output manager

The bitmask of a step: for every request with structured output one row for each draft token and
one for the token after them. While a model is reasoning its rows are full. The grammar is advanced
through the drafts, **also through drafts behind an end of reasoning inside the window**, which were
proposed without a mask, and rolled back at the end. When the sampled tokens are known, the grammar
advances through those of them that are not reasoning.
-/

namespace OneCatVllm

/-- A reasoning parser with one end token. `is_reasoning_end_streaming` looks for it in the new
tokens; what `is_reasoning_end` does with a prompt is left open. -/
structure Reasoner where
  endToken : ℤ
  isReasoningEnd : List ℤ → Bool

/-- A request with structured output. -/
structure StructuredRequest (Q : Type) where
  promptTokenIds : List ℤ
  outputTokenIds : List ℤ := []
  specTokenIds : List ℤ := []
  reasoningEnded : Option Bool := none
  reasoningEndTokenIndex : Option ℕ := none
  grammar : Grammar Q

/-- The configuration that the manager reads. -/
structure ManagerOptions where
  enableInReasoning : Bool
  reasoner : Option Reasoner
  isDiffusion : Bool := false
  maxNumSeqs : ℕ
  numSpeculativeTokens : ℕ
  fillBitmaskParallelThreshold : ℕ := 128

/-- What `grammar_bitmask` raises. -/
inductive BitmaskError
  /-- The grammar refuses a draft token. -/
  | assertion
  /-- The grammar cannot be rolled back so far. -/
  | rollback
  /-- More rows than the bitmask has. -/
  | index
  /-- An unknown request. -/
  | key
  deriving DecidableEq

variable {Q : Type}

namespace StructuredRequest

variable (cfg : ManagerOptions) (req : StructuredRequest Q)

def allTokenIds : List ℤ := req.promptTokenIds ++ req.outputTokenIds

/-- `should_fill_bitmask`, which looks at the prompt once. -/
def shouldFillBitmask : Bool × StructuredRequest Q :=
  if cfg.enableInReasoning ∨ req.reasoningEnded = some true then (true, req)
  else
    match cfg.reasoner with
    | none => (true, req)
    | some reasoner =>
      let ended := req.reasoningEnded.getD (reasoner.isReasoningEnd req.promptTokenIds)
      (ended, { req with reasoningEnded := some ended })

/-- `_find_reasoning_end_index`: the first end token from `start` on, or the last token. -/
def findReasoningEndIndex (reasoner : Reasoner) (allTokenIds : List ℤ) (start : ℕ) : ℕ :=
  match (allTokenIds.drop start).findIdx? (· = reasoner.endToken) with
  | some j => start + j
  | none => allTokenIds.length - 1

section

variable (newTokenIds : List ℤ) (deltaFrom : ℤ)

/-- Where the tokens of the current step start: at the new tokens, or, without them, at
`num_computed_tokens - num_output_placeholders`. -/
def deltaStart : ℕ :=
  if newTokenIds ≠ [] then req.allTokenIds.length - newTokenIds.length
  else if 0 ≤ deltaFrom then deltaFrom.toNat
  else (max (req.allTokenIds.length + deltaFrom) 0).toNat

/-- `should_advance`. -/
def shouldAdvance : Bool × StructuredRequest Q :=
  if cfg.enableInReasoning ∨ req.reasoningEnded = some true then (true, req)
  else
    match cfg.reasoner with
    | none => (true, req)
    | some reasoner =>
      let start := req.deltaStart newTokenIds deltaFrom
      let deltaIds := if newTokenIds ≠ [] then newTokenIds else req.allTokenIds.drop start
      if reasoner.endToken ∈ deltaIds then
        (true, { req with
          reasoningEnded := some true
          reasoningEndTokenIndex :=
            some (findReasoningEndIndex reasoner req.allTokenIds start) })
      else (false, req)

/-- `trim_reasoning_for_advance`. -/
def trimReasoningForAdvance : List ℤ :=
  match req.reasoningEndTokenIndex with
  | none => newTokenIds
  | some endIdx =>
    let firstIdx : ℤ := req.allTokenIds.length - newTokenIds.length
    let numReasoning : ℤ := endIdx + 1 - firstIdx
    if numReasoning ≤ 0 then newTokenIds else newTokenIds.drop numReasoning.toNat

/-- The part of `update_from_output` that advances the grammar, after the new tokens are appended:
whether the grammar has accepted what it was given, and the request. -/
def updateFromOutput : Bool × StructuredRequest Q :=
  let req := { req with outputTokenIds := req.outputTokenIds ++ newTokenIds }
  if newTokenIds = [] then (true, req)
  else
    let (advance, req) := req.shouldAdvance cfg newTokenIds 0
    if advance then
      let (accepted, grammar) := req.grammar.acceptTokens (req.trimReasoningForAdvance newTokenIds)
      (accepted, { req with grammar := grammar })
    else (true, req)

end

/-- `update_draft_token_ids` for one request. Drafts of prefill chunks are ignored. -/
def updateDraftTokenIds (isPrefillChunk : Bool) (specTokenIds : List ℤ) (deltaFrom : ℤ) :
    StructuredRequest Q :=
  if isPrefillChunk then { req with specTokenIds := [] }
  else
    let (advance, req) := req.shouldAdvance cfg [] deltaFrom
    { req with specTokenIds :=
        if advance then req.grammar.validateTokens specTokenIds else specTokenIds }

/-- `update_draft_token_ids_in_output` for one request with `numScheduled` placeholders: the drafts
are trimmed to their number, and padded with `-1` again after validation. -/
def updateDraftTokenIdsInOutput (numScheduled : ℕ) (specTokenIds : List ℤ) (deltaFrom : ℤ) :
    StructuredRequest Q :=
  let specTokenIds := specTokenIds.take numScheduled
  let (advance, req) := req.shouldAdvance cfg [] deltaFrom
  let specTokenIds := if advance then req.grammar.validateTokens specTokenIds else specTokenIds
  { req with specTokenIds :=
      specTokenIds ++ List.replicate (numScheduled - specTokenIds.length) (-1) }

/-! ### The bitmask -/

/-- The loop variables of `grammar_bitmask` for one request. -/
structure Window (Q : Type) where
  grammar : Grammar Q
  applyBitmask : Bool
  postReasoningEndInWindow : Bool := false
  stateAdvancements : ℕ := 0

/-- One draft token; `reasoner` is given when the end of reasoning is looked for. -/
def Window.step (reasoner : Option Reasoner) (w : Window Q) (token : ℤ) :
    Except BitmaskError (Window Q) :=
  if token = -1 then .ok { w with applyBitmask := false }
  else if w.applyBitmask = false then
    match reasoner with
    | none => .ok w
    | some reasoner =>
      -- the end token belongs to the reasoning: it constrains what follows, and is not read
      if token = reasoner.endToken then
        .ok { w with applyBitmask := true, postReasoningEndInWindow := true }
      else .ok w
  else if w.grammar.isTerminated then .ok w
  else if w.postReasoningEndInWindow ∧ w.grammar.validateTokens [token] = [] then .ok w
  else
    let (accepted, grammar) := w.grammar.acceptTokens [token]
    if accepted then
      .ok { w with grammar := grammar, stateAdvancements := w.stateAdvancements + 1 }
    else if w.postReasoningEndInWindow then .ok { w with grammar := grammar }
    else .error .assertion

/-- The rows of the draft tokens, each filled before its token is looked at. -/
def Window.run (reasoner : Option Reasoner) :
    List ℤ → Window Q → Except BitmaskError (List MaskRow × Window Q)
  | [], w => .ok ([], w)
  | token :: tokens, w => do
    let w' ← w.step reasoner token
    let (rows, w'') ← run reasoner tokens w'
    .ok (w.grammar.maskRow w.applyBitmask :: rows, w'')

/-- The rows of one request, and the request, whose grammar is rolled back. -/
def fillRows (reqTokens : List ℤ) : Except BitmaskError (List MaskRow × StructuredRequest Q) := do
  let (applyBitmask, req) := req.shouldFillBitmask cfg
  let reasoner := if applyBitmask then none else cfg.reasoner
  let (rows, w) ← Window.run reasoner reqTokens ⟨req.grammar, applyBitmask, false, 0⟩
  let (fill, req) := req.shouldFillBitmask cfg
  let rows := if cfg.isDiffusion ∧ reqTokens ≠ [] then rows
    else rows ++ [w.grammar.maskRow (fill || w.applyBitmask)]
  match w.grammar.rollback w.stateAdvancements with
  | none => .error .rollback
  | some grammar => .ok (rows, { req with grammar := grammar })

end StructuredRequest

/-- The requests by their ids. -/
abbrev StructuredRequests (Q : Type) := ℕ → Option (StructuredRequest Q)

/-- The serial loop of `grammar_bitmask`. -/
def fillSerially (cfg : ManagerOptions) (scheduled : ℕ → List ℤ) :
    List ℕ → StructuredRequests Q → Except BitmaskError (List MaskRow × StructuredRequests Q)
  | [], requests => .ok ([], requests)
  | id :: ids, requests =>
    match requests id with
    | none => .error .key
    | some req => do
      let (rows, req) ← req.fillRows cfg (scheduled id)
      let (rest, requests) ← fillSerially cfg scheduled ids (Function.update requests id (some req))
      .ok (rows ++ rest, requests)

/-- The rows of a large batch without drafts, one for each request; the order in which the workers
fill them does not matter. -/
def fillInParallel (cfg : ManagerOptions) :
    List ℕ → StructuredRequests Q → Except BitmaskError (List MaskRow × StructuredRequests Q)
  | [], requests => .ok ([], requests)
  | id :: ids, requests =>
    match requests id with
    | none => .error .key
    | some req => do
      let (applyBitmask, req) := req.shouldFillBitmask cfg
      let (rest, requests) ← fillInParallel cfg ids (Function.update requests id (some req))
      .ok (req.grammar.maskRow applyBitmask :: rest, requests)

/-- The rows of the requests one after the other; without speculative tokens large batches are
filled in parallel. -/
def fillBatch (cfg : ManagerOptions) (requests : StructuredRequests Q) (ids : List ℕ)
    (scheduled : ℕ → List ℤ) : Except BitmaskError (List MaskRow × StructuredRequests Q) :=
  if cfg.fillBitmaskParallelThreshold < ids.length ∧ cfg.numSpeculativeTokens = 0 then
    fillInParallel cfg ids requests
  else fillSerially cfg scheduled ids requests

/-- `grammar_bitmask`: the rows of the requests, `none` without a request. -/
def grammarBitmask (cfg : ManagerOptions) (requests : StructuredRequests Q) (ids : List ℕ)
    (scheduled : ℕ → List ℤ) : Except BitmaskError (Option (List MaskRow) × StructuredRequests Q) :=
  if ids = [] then .ok (none, requests)
  else do
    let (rows, requests) ← fillBatch cfg requests ids scheduled
    if rows.length ≤ cfg.maxNumSeqs * (1 + cfg.numSpeculativeTokens) then .ok (some rows, requests)
    else .error .index

end OneCatVllm
