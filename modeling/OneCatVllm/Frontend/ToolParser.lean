import OneCatVllm.Frontend.DecodeStream
import OneCatVllm.Lib.Buffered

/-!
# The parser for JSON tool calls between markers

`JsonToolCallParser` finds tool calls in the text of an answer while the text is still arriving.
Outside of a call it passes text on, up to the next start marker or to a part at the end that may
become one. After a start marker it reads a **header**, the fields of the call up to its arguments,
and then the **arguments**, which are passed on as raw text while a lexical scan looks for the brace
that closes them. A closing brace and the end marker lead back to text.

Everything the parser compares is ASCII, so the model reads characters where the source reads bytes:
the bytes of any other character are none of those compared, also right after a backslash. What a
JSON string denotes is asked of `serde_json`, which is a parameter here. The texts of the errors are
left out: they are logged, and nothing else is made of them.
-/

namespace OneCatVllm.Frontend

open Partial Substring

/-! ### Helpers of the tool parsers -/

/-- `partial_prefix_len`: the length of the longest proper prefix of `token` that `buffer` ends
with. -/
def partialPrefixLen (buffer token : Text) : ℕ :=
  match token with
  | [] => 0
  | first :: _ =>
    let maxLen := min buffer.length (token.length - 1)
    let tailStart := buffer.length - maxLen
    -- from the longest possible suffix on
    let found := (List.range' tailStart maxLen).find? fun index ↦
      buffer[index]? = some first ∧ token.take (buffer.length - index) = buffer.drop index
    match found with
    | some index => buffer.length - index
    | none => 0

/-- `safe_text_len`: the length of the text before the next marker, or before what may become
one. -/
def safeTextLen (marker text : Text) : Res Char ℕ :=
  if text = [] then .incomplete
  else match find text marker 0 with
    | some startIdx => .ok startIdx (text.drop startIdx)
    | none =>
      let emitLen := text.length - partialPrefixLen text marker
      if emitLen = 0 then .incomplete else .ok emitLen (text.drop emitLen)

inductive JsonObjectScanPhase
  | initial
  | scanning
  | complete
  deriving DecidableEq

/-- Lexical state of the scan of a top-level JSON object. -/
structure JsonObjectScanState where
  objectDepth : ℕ := 0
  arrayDepth : ℕ := 0
  inString : Bool := false
  escape : Bool := false
  phase : JsonObjectScanPhase := .initial
  deriving DecidableEq

namespace JsonObjectScanState

/-- Whether the top-level object has closed. -/
def complete (state : JsonObjectScanState) : Bool := state.phase = .complete

section

variable (state : JsonObjectScanState)

/-- One character inside a string. -/
def scanInString (c : Char) : JsonObjectScanState :=
  if state.escape then { state with escape := false }
  else if c = '\\' then { state with escape := true }
  else if c = '"' then { state with inString := false }
  else state

/-- A closing brace; `none` where it closes nothing, or the object around an open array. -/
def closeObject : Option JsonObjectScanState :=
  match state.objectDepth with
  | 0 => none
  | depth + 1 =>
    if depth = 0 ∧ state.arrayDepth = 0 then
      some { state with objectDepth := depth, phase := .complete }
    else if depth = 0 then none
    else some { state with objectDepth := depth }

/-- A closing bracket; `none` where it closes nothing. -/
def closeArray : Option JsonObjectScanState :=
  match state.arrayDepth with
  | 0 => none
  | depth + 1 => some { state with arrayDepth := depth }

/-- One round of the loop of `take_json_object`. -/
def scanChar (c : Char) : Option JsonObjectScanState :=
  if state.inString then some (state.scanInString c)
  else if c = '"' then some { state with inString := true }
  else if c = '{' then some { state with objectDepth := state.objectDepth + 1 }
  else if c = '}' then state.closeObject
  else if c = '[' then some { state with arrayDepth := state.arrayDepth + 1 }
  else if c = ']' then state.closeArray
  else some state

/-- The loop of `take_json_object`, up to the end of the object or of the text: what was taken, the
state after it, and the rest. -/
def scanChars : JsonObjectScanState → Text → Option (Text × JsonObjectScanState × Text)
  | state, [] => some ([], state, [])
  | state, c :: text =>
    match state.scanChar c with
    | none => none
    | some state' =>
      if state'.complete then some ([c], state', text)
      else (scanChars state' text).map fun (taken, last, rest) ↦ (c :: taken, last, rest)

/-- The state in which the first brace has been read. -/
def started : JsonObjectScanState :=
  { state with phase := .scanning, objectDepth := 1 }

/-- The scan of a non-empty text; an object starts with a brace. -/
def scan : Text → Option (Text × JsonObjectScanState × Text)
  | [] => none
  | c :: text =>
    if state.phase ≠ .initial then state.scanChars (c :: text)
    else if c = '{' then
      (state.started.scanChars text).map fun (taken, last, rest) ↦ (c :: taken, last, rest)
    else none

end

end JsonObjectScanState

/-- `take_json_object`: the text that belongs to the object, and the state after it. -/
def takeJsonObject (state : JsonObjectScanState) (text : Text) :
    Res Char (Text × JsonObjectScanState) :=
  if text = [] then .incomplete
  else if state.complete then .cut
  else match state.scan text with
    | none => .cut
    | some (taken, state', rest) => .ok (taken, state') rest

/-- The loop of `json_str`: the characters up to the closing quote, and what follows it. -/
def takeString : Bool → Text → Option (Text × Text)
  | _, [] => none
  | true, c :: text => (takeString false text).map fun (raw, rest) ↦ (c :: raw, rest)
  | false, c :: text =>
    if c = '"' then some ([c], text)
    else (takeString (c = '\\') text).map fun (raw, rest) ↦ (c :: raw, rest)

/-- `json_str`; `fromStr` is what `serde_json` makes of a string literal. -/
def jsonStr (fromStr : Text → Option Text) : Text → Res Char Text
  | [] => .incomplete
  | c :: text =>
    if c ≠ '"' then .cut
    else match takeString false text with
      | none => .incomplete
      | some (raw, rest) =>
        match fromStr (c :: raw) with
        | none => .cut
        | some value => .ok value rest

/-! ### Configuration, state and output -/

inductive JsonToolCallWhitespace
  | optional
  | exact (whitespace : Text)
  deriving DecidableEq

/-- `JsonToolCallConfig`. -/
structure JsonToolCallConfig where
  startMarker : Text
  endMarker : Text
  markerWhitespace : JsonToolCallWhitespace
  delimiter : Option Text
  nameKey : Text
  argumentsKey : Text
  deriving DecidableEq

/-- `HERMES_CONFIG`. -/
def hermesConfig : JsonToolCallConfig where
  startMarker := ['<', 't', 'o', 'o', 'l', '_', 'c', 'a', 'l', 'l', '>']
  endMarker := ['<', '/', 't', 'o', 'o', 'l', '_', 'c', 'a', 'l', 'l', '>']
  markerWhitespace := .optional
  delimiter := none
  nameKey := ['n', 'a', 'm', 'e']
  argumentsKey := ['a', 'r', 'g', 'u', 'm', 'e', 'n', 't', 's']

/-- `MISTRAL_CONFIG`. -/
def mistralConfig : JsonToolCallConfig where
  startMarker := ['[', 'T', 'O', 'O', 'L', '_', 'C', 'A', 'L', 'L', 'S', ']', ' ', '[']
  endMarker := [']']
  markerWhitespace := .optional
  delimiter := some [',']
  nameKey := hermesConfig.nameKey
  argumentsKey := hermesConfig.argumentsKey

/-- `QWEN_XML_CONFIG`, the markers and keys of `HERMES_CONFIG` with a line for each marker. -/
def qwenXmlConfig : JsonToolCallConfig :=
  { hermesConfig with markerWhitespace := .exact ['\n'] }

inductive JsonToolCallMode
  | text
  | header
  | arguments (jsonScan : JsonObjectScanState)
  deriving DecidableEq

/-- Inside of an arguments object. -/
def JsonToolCallMode.scanning : JsonToolCallMode → Bool
  | .arguments jsonScan => jsonScan.phase = .scanning
  | _ => false

/-- The events, with the text that they take off the buffer where the source has its length. -/
inductive JsonToolCallEvent
  | text (run : Text)
  | toolCallStart
  | toolCallHeader (functionName : Text)
  | arguments (raw : Text)
  | toolCallDelimiter
  | toolCallEnd
  deriving DecidableEq

/-- One update of a tool call. -/
structure ToolCallDelta where
  toolIndex : ℕ
  /-- On the first update of a call. -/
  name : Option Text
  arguments : Text
  deriving DecidableEq

/-- What one input adds: plain text and updates of calls, **without their order to each other**. -/
structure ToolParserOutput where
  normalText : Text := []
  calls : List ToolCallDelta := []
  deriving DecidableEq

/-- The state of `JsonToolCallParser` without its buffer. -/
structure ParserCore where
  mode : JsonToolCallMode := .text
  activeToolIndex : Option ℕ := none
  emittedToolCount : ℕ := 0
  deriving DecidableEq

/-- `JsonToolCallParser`. -/
structure JsonToolCallParser where
  buffer : Text := []
  core : ParserCore := {}
  deriving DecidableEq

/-! ### The events -/

/-- `multispace0`. -/
def ws0 : Text → Res Char Unit :=
  skipWhile fun c ↦ c = ' ' || c = '\t' || c = '\r' || c = '\n'

/-- `marker_whitespace`. -/
def markerWhitespace (config : JsonToolCallConfig) : Text → Res Char Unit :=
  match config.markerWhitespace with
  | .optional => ws0
  | .exact whitespace => literal whitespace

/-- `json_key`. -/
def jsonKey (key : Text) : Text → Res Char Unit :=
  skips [literal ['"'], literal key, literal ['"']]

section

variable (config : JsonToolCallConfig)

/-- `tool_call_start_event`. -/
def toolCallStartEvent : Text → Res Char JsonToolCallEvent :=
  map (fun _ ↦ .toolCallStart) (skips [literal config.startMarker, markerWhitespace config])

/-- `safe_text_event`. -/
def safeTextEvent (text : Text) : Res Char JsonToolCallEvent :=
  map (fun len ↦ .text (text.take len)) (safeTextLen config.startMarker) text

/-- `parse_text_event`. -/
def parseTextEvent : Text → Res Char JsonToolCallEvent :=
  orElse (toolCallStartEvent config) (safeTextEvent config)

/-- `tool_call_header_event`. -/
def toolCallHeaderEvent (fromStr : Text → Option Text) : Text → Res Char JsonToolCallEvent :=
  seq (skips [ws0, literal ['{'], ws0, jsonKey config.nameKey, ws0, literal [':'], ws0]) fun _ ↦
    seq (jsonStr fromStr) fun functionName ↦
      map (fun _ ↦ .toolCallHeader functionName)
        (skips [ws0, literal [','], ws0, jsonKey config.argumentsKey, ws0, literal [':'], ws0])

/-- `tool_call_end_event`. -/
def toolCallEndEvent : Text → Res Char JsonToolCallEvent :=
  map (fun _ ↦ .toolCallEnd) (skips [markerWhitespace config, literal config.endMarker])

/-- `tool_call_delimiter_event`. -/
def toolCallDelimiterEvent (delimiter : Text) : Text → Res Char JsonToolCallEvent :=
  map (fun _ ↦ .toolCallDelimiter) (skips [ws0, literal delimiter, ws0])

/-- `tool_call_close_event`. -/
def toolCallCloseEvent : Text → Res Char JsonToolCallEvent :=
  seq (literal ['}']) fun _ ↦
    match config.delimiter with
    | some delimiter => orElse (toolCallEndEvent config) (toolCallDelimiterEvent delimiter)
    | none => toolCallEndEvent config

/-- `parse_arguments_event`, with the scan state after it. -/
def parseArgumentsEvent (jsonScan : JsonObjectScanState) :
    Text → Res Char (JsonToolCallEvent × JsonToolCallMode) :=
  if jsonScan.complete then map (·, .arguments jsonScan) (toolCallCloseEvent config)
  else map (fun (raw, jsonScan) ↦ (.arguments raw, .arguments jsonScan)) (takeJsonObject jsonScan)

/-- `parse_next_json_tool_call_event`, with the mode after it: reading arguments moves the scan
on. -/
def parseNextJsonToolCallEvent (fromStr : Text → Option Text) (mode : JsonToolCallMode) :
    Text → Res Char (JsonToolCallEvent × JsonToolCallMode) :=
  match mode with
  | .text => map (·, .text) (parseTextEvent config)
  | .header => map (·, .header) (toolCallHeaderEvent config fromStr)
  | .arguments jsonScan => parseArgumentsEvent config jsonScan

end

/-! ### The parser -/

/-- The parser while it works on one input: its state and the output so far. -/
structure ParseState where
  core : ParserCore
  output : ToolParserOutput
  deriving DecidableEq

namespace ParseState

/-- The state with another mode. -/
def withMode (s : ParseState) (mode : JsonToolCallMode) : ParseState :=
  { s with core := { s.core with mode := mode } }

/-- Plain text. -/
def addText (s : ParseState) (text : Text) : ParseState :=
  { s with output := { s.output with normalText := s.output.normalText ++ text } }

/-- An update of a call. -/
def addCall (s : ParseState) (call : ToolCallDelta) : ParseState :=
  { s with output := { s.output with calls := s.output.calls ++ [call] } }

/-- `apply_event`; arguments without an active call are an error. -/
def applyEvent (s : ParseState) (event : JsonToolCallEvent) : Option ParseState :=
  match event with
  | .text run => some (s.addText run)
  | .toolCallStart => some (s.withMode .header)
  | .toolCallHeader functionName =>
    let toolIndex := s.core.emittedToolCount
    let core : ParserCore :=
      { mode := .arguments {}, activeToolIndex := some toolIndex,
        emittedToolCount := toolIndex + 1 }
    some ({ s with core := core }.addCall ⟨toolIndex, some functionName, []⟩)
  | .arguments raw =>
    match s.core.activeToolIndex with
    | none => none
    | some toolIndex => some (s.addCall ⟨toolIndex, none, raw⟩)
  | .toolCallDelimiter =>
    some { s with core := { s.core with activeToolIndex := none, mode := .header } }
  | .toolCallEnd =>
    some { s with core := { s.core with activeToolIndex := none, mode := .text } }

/-- One round of the loop of `parse_into`: `parse_buffered_event`, then `apply_event` in the mode
that the parsing left. -/
def step (config : JsonToolCallConfig) (fromStr : Text → Option Text) :
    ParseState → Text → Buffered.Progress ParseState Char :=
  Buffered.readStep (fun s ↦ parseNextJsonToolCallEvent config fromStr s.core.mode)
    fun s (event, mode) ↦ (s.withMode mode).applyEvent event

end ParseState

namespace JsonToolCallParser

/-- `parse_into`: the parser and the output after it, and whether it failed. What was output before
a failure stands, and the buffer keeps what was not consumed. -/
def parseInto (config : JsonToolCallConfig) (fromStr : Text → Option Text)
    (parser : JsonToolCallParser) (chunk : Text) (output : ToolParserOutput) :
    JsonToolCallParser × ToolParserOutput × Bool :=
  let stop := Buffered.run (ParseState.step config fromStr) ⟨parser.core, output⟩
    (parser.buffer ++ chunk)
  (⟨stop.rest, stop.state.core⟩, stop.state.output, stop.failed)

/-- `reset`: a new parser, and the text that was not consumed. -/
def reset (parser : JsonToolCallParser) : JsonToolCallParser × Text := ({}, parser.buffer)

/-- `finish`: an error inside of a call, otherwise the text that was kept back. -/
def finish (parser : JsonToolCallParser) : Except Unit (JsonToolCallParser × ToolParserOutput) :=
  match parser.core.mode with
  | .text => .ok (parser.reset.1, { normalText := parser.buffer })
  | .header => .error ()
  | .arguments _ => .error ()

end JsonToolCallParser

end OneCatVllm.Frontend
