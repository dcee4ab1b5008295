import OneCatVllm.Frontend.ToolReading

/-!
# Feeding the tool parser chunk by chunk

A stream feeds its chunks to `parse_into` until one fails, and then calls `finish`. Compared with
the same text in one chunk, the outcome and the plain text are the same, and so are the calls
(`stream_cut`), with **one exception**: a chunk that begins inside of an object of arguments and
does not continue one. Arguments are passed on as they arrive, but a chunk is scanned as a whole
before anything of it is passed on. So the parts in earlier chunks have been passed on when the scan
fails, and stay; in one chunk nothing of the object has been.

Parser and reading are compared along the run of the parser: each of its steps leads to where the
reading also comes (`run_charStep`), and where it fails the reading may have come further in the
arguments (`FailsAt`).
-/

namespace OneCatVllm.Frontend

open Buffered JsonObjectScanState List Partial Reading
open JsonToolCallMode (inArguments_iff)

/-! ### Streams -/

/-- The parsers for JSON between markers, by the configuration each is made with. -/
inductive JsonToolParser
  | hermes
  | mistral
  | qwen3Xml
  deriving DecidableEq

def JsonToolParser.config : JsonToolParser → JsonToolCallConfig
  | hermes => hermesConfig
  | mistral => mistralConfig
  | qwen3Xml => qwenXmlConfig

/-- An update taken into a list of calls: a named one is a new call, any other goes on with the
last. -/
def addCallDelta (calls : List (Text × Text)) (call : ToolCallDelta) : List (Text × Text) :=
  match call.name with
  | some name => calls ++ [(name, call.arguments)]
  | none => calls.modifyLast fun c ↦ (c.1, c.2 ++ call.arguments)

/-- The names of the calls with their whole arguments. -/
def toolCalls (calls : List ToolCallDelta) : List (Text × Text) := calls.foldl addCallDelta []

/-- What a stream comes to: whether all of it was parsed, the plain text, and the calls with their
whole arguments. -/
structure ToolOutcome where
  success : Bool
  normalText : Text
  calls : List (Text × Text)
  deriving DecidableEq

namespace JsonToolCallParser

variable (config : JsonToolCallConfig) (fromStr : Text → Option Text)

/-- `parse_into` for one chunk after the other, until the first error. -/
def parseChunks : JsonToolCallParser → ToolParserOutput → List Text →
    JsonToolCallParser × ToolParserOutput × Bool
  | parser, output, [] => (parser, output, false)
  | parser, output, chunk :: chunks =>
    match parser.parseInto config fromStr chunk output with
    | (parser', output', true) => (parser', output', true)
    | (parser', output', false) => parseChunks parser' output' chunks

/-- The chunks and then `finish`, from a new parser. -/
def stream (chunks : List Text) : ToolOutcome :=
  match parseChunks config fromStr {} {} chunks with
  | (_, output, true) => ⟨false, output.normalText, toolCalls output.calls⟩
  | (parser, output, false) =>
    match parser.finish with
    | .error _ => ⟨false, output.normalText, toolCalls output.calls⟩
    | .ok (_, last) =>
      ⟨true, output.normalText ++ last.normalText, toolCalls (output.calls ++ last.calls)⟩

/-- **A chunk breaks arguments**: the text before it ends inside of an object, and the chunk does
not continue one. -/
def BreaksArguments (before chunk : Text) : Prop :=
  ∃ σ, (readText config fromStr before).failed = false ∧
    (readText config fromStr before).state.core.mode = .arguments σ ∧ σ.phase = .scanning ∧
    σ.scanChars chunk = none

end JsonToolCallParser

/-! ### A stream as a fed run -/

/-- The reading that the parser and its output come to. -/
def ParseState.reading (s : ParseState) : Reading :=
  ⟨s.core, s.output.normalText, toolCalls s.output.calls⟩

theorem ParseState.reading_applyEvent (s : ParseState) (event : JsonToolCallEvent) :
    s.reading.applyEvent event = (s.applyEvent event).map reading := by
  have hcalls (call : ToolCallDelta) : toolCalls (s.output.calls ++ [call]) =
      addCallDelta (toolCalls s.output.calls) call := foldl_append
  cases event with
  | toolCallHeader name =>
    show some _ = some (Reading.mk _ _ (toolCalls (_ ++ [_])))
    rw [hcalls]
    rfl
  | arguments raw =>
    unfold applyEvent Reading.applyEvent
    show ite (s.core.activeToolIndex = none) _ _ = _
    rcases s.core.activeToolIndex with - | i
    · rfl
    · show some _ = some (Reading.mk _ _ (toolCalls (_ ++ [_])))
      rw [hcalls]
      rfl
  | _ => rfl

namespace JsonToolCallParser

variable (config : JsonToolCallConfig) (fromStr : Text → Option Text)

theorem parseChunks_eq (chunks : List Text) (s : ParseState) (buffer : Text) :
    let (parser, output, failed) := parseChunks config fromStr ⟨buffer, s.core⟩ s.output chunks
    chunks.foldl (Stop.feed (step config fromStr)) ⟨s.reading, buffer, false⟩ =
      ⟨ParseState.reading ⟨parser.core, output⟩, parser.buffer, failed⟩ := by
  induction chunks generalizing s buffer with
  | nil => rfl
  | cons chunk chunks ih =>
    have hrun : run (step config fromStr) s.reading (buffer ++ chunk) =
        let stop := run (ParseState.step config fromStr) s (buffer ++ chunk)
        ⟨stop.state.reading, stop.rest, stop.failed⟩ :=
      run_readStep_map (fun _ ↦ rfl)
        (fun s (event, mode) ↦ (s.withMode mode).reading_applyEvent event) s _
    rw [parseChunks, parseInto, foldl_cons, Stop.feed, if_neg Bool.false_ne_true, hrun]
    rcases run (ParseState.step config fromStr) s (buffer ++ chunk) with ⟨s', rest, - | -⟩
    · exact ih s' rest
    · exact foldl_feed_of_failed rfl chunks

/-- Where a stream stops. -/
def streamStop (chunks : List Text) : Stop Reading Char :=
  chunks.foldl (Stop.feed (step config fromStr)) ⟨{}, [], false⟩

/-- What `finish` makes of that. -/
def outcome (a : Stop Reading Char) : ToolOutcome :=
  if a.failed = false ∧ a.state.core.mode = .text then
    ⟨true, a.state.normalText ++ a.rest, a.state.calls⟩
  else ⟨false, a.state.normalText, a.state.calls⟩

theorem outcome_of_failed {a : Stop Reading Char} (h : a.failed = true) :
    outcome a = ⟨false, a.state.normalText, a.state.calls⟩ := if_neg (by simp [h])

theorem stream_eq (chunks : List Text) :
    stream config fromStr chunks = outcome (streamStop config fromStr chunks) := by
  have hstop : streamStop config fromStr chunks = _ :=
    parseChunks_eq config fromStr chunks ⟨{}, {}⟩ []
  rw [stream, hstop]
  rcases parseChunks config fromStr {} {} chunks with
    ⟨⟨buffer, ⟨mode, active, count⟩⟩, output, - | -⟩
  · rcases mode with - | - | σ
    · simp [finish, outcome, ParseState.reading]
    · rfl
    · rfl
  · rfl

end JsonToolCallParser

variable {config : JsonToolCallConfig} {fromStr : Text → Option Text} {x rest : Text}

namespace Reading

variable {r r' : Reading} {σ σ' : JsonObjectScanState}

/-! ### Arguments character by character -/

theorem modifyLast_modifyLast {α : Type*} (f g : α → α) (l : List α) :
    (l.modifyLast f).modifyLast g = l.modifyLast (g ∘ f) := by
  rcases l.eq_nil_or_concat' with rfl | ⟨front, last, rfl⟩
  · rfl
  · rw [modifyLast_concat, modifyLast_concat, modifyLast_concat]
    rfl

theorem addArguments_addArguments (r : Reading) (mode mode' : JsonToolCallMode) (x y : Text) :
    (((r.withMode mode).addArguments x).withMode mode').addArguments y =
      (r.withMode mode').addArguments (x ++ y) := by
  simp [addArguments, withMode, modifyLast_modifyLast, Function.comp_def]

theorem modifyLast_append_nil (calls : List (Text × Text)) :
    calls.modifyLast (fun call ↦ (call.1, call.2 ++ [])) = calls := by
  rcases calls.eq_nil_or_concat' with rfl | ⟨front, last, rfl⟩
  · rfl
  · rw [modifyLast_concat, append_nil]

/-- The calls without what is there of an object that is not complete. -/
def settled (r : Reading) : List (Text × Text) :=
  if r.core.mode.inArguments then r.calls.modifyLast fun call ↦ (call.1, []) else r.calls

theorem settled_addArguments (hopen : r.core.mode.inArguments = true) (hσ : σ.complete = false)
    (x : Text) : ((r.withMode (.arguments σ)).addArguments x).settled = r.settled := by
  unfold settled
  rw [if_pos hopen]
  exact (if_pos (inArguments_iff.2 ⟨σ, rfl, hσ⟩)).trans (modifyLast_modifyLast ..)

/-- `a` fails, and has at most read on in the arguments that `r` is in. -/
structure FailsAt (r : Reading) (a : Stop Reading Char) : Prop where
  failed : a.failed = true
  normalText : a.state.normalText = r.normalText
  settled : a.state.settled = r.settled

theorem FailsAt.of_fail (h : r.charStep config fromStr x = .fail) :
    FailsAt r (run (charStep config fromStr) r x) := by
  rw [run_of_fail h]
  exact ⟨rfl, rfl, rfl⟩

/-- **Arguments one character at a time** come to what is made of them at once, unless the scan
fails. -/
theorem run_arguments (config : JsonToolCallConfig) (fromStr : Text → Option Text)
    (hmode : r.core.mode = .arguments σ) (hσ : σ.complete = false)
    (hactive : r.core.activeToolIndex ≠ none) (hx : x ≠ []) :
    (σ.scan x).elim (FailsAt r (run (charStep config fromStr) r x)) fun (taken, σ', rest) ↦
      run (charStep config fromStr) r x =
        run (charStep config fromStr) ((r.withMode (.arguments σ')).addArguments taken) rest := by
  induction x generalizing r σ with
  | nil => exact absurd rfl hx
  | cons c x ih =>
    have hopen := inArguments_iff.2 ⟨σ, hmode, hσ⟩
    have hchar : r.charStep config fromStr (c :: x) = _ := charStep_cons hopen c
    rw [step_arguments hmode hσ hactive (cons_ne_nil c [])] at hchar
    rw [scan_cons]
    rcases hscan : σ.scan [c] with - | ⟨taken, σ', left⟩ <;> rw [hscan] at hchar
    · exact .of_fail hchar
    obtain ⟨htaken, hne, hphase, -⟩ := scan_spec hscan
    obtain ⟨rfl, rfl⟩ := singleton_eq_append_iff.1 htaken |>.resolve_left fun h ↦ hne h.1
    have hnext := run_of_next charStep_shrinks hchar
    rw [nil_append] at hnext
    rw [Option.bind_some, hnext]
    dsimp only
    split_ifs with hσ'
    · rfl
    rcases eq_or_ne x [] with rfl | hx
    · rfl
    -- the object goes on behind the character
    rw [Bool.not_eq_true] at hσ'
    have hrest := ih (r := (r.withMode (.arguments σ')).addArguments [c]) rfl hσ' hactive hx
    rw [scan_eq_scanChars hphase hx] at hrest
    rcases hchars : σ'.scanChars x with - | ⟨taken, σ'', rest⟩ <;> rw [hchars] at hrest
    · obtain ⟨hfailed, htext, hsettled⟩ := hrest
      exact ⟨hfailed, htext, hsettled.trans (settled_addArguments hopen hσ' [c])⟩
    · exact hrest.trans (by rw [addArguments_addArguments]; rfl)

/-! ### Sound readings -/

/-- In arguments a call is active, and the last of the calls has what there is of them. -/
def Sound (r : Reading) : Prop :=
  ∀ σ, r.core.mode = .arguments σ → r.core.activeToolIndex ≠ none ∧ ∃ calls name args,
    r.calls = calls ++ [(name, args)] ∧ (args = [] ↔ σ.phase = .initial)

variable {mode mode' : JsonToolCallMode} {event : JsonToolCallEvent}

/-- Arguments are read by the scan and in no other event. -/
theorem parse_cases
    (h : parseNextJsonToolCallEvent config fromStr mode x = .ok (event, mode') rest) :
    (∃ σ σ' raw, mode = .arguments σ ∧ event = .arguments raw ∧ mode' = .arguments σ' ∧
      σ.scan x = some (raw, σ', rest)) ∨
    (∀ raw, event ≠ .arguments raw) ∧ ∀ run, event = .text run → mode' = .text := by
  rcases mode with - | - | σ
  · obtain ⟨e, he, heq⟩ := map_eq_ok.1 h
    cases heq
    refine .inr ⟨?_, fun _ _ ↦ rfl⟩
    unfold parseTextEvent orElse at he
    split at he
    · obtain ⟨_, _, rfl⟩ := map_eq_ok.1 he
      nofun
    · obtain ⟨_, _, rfl⟩ := map_eq_ok.1 he
      nofun
  · obtain ⟨e, he, heq⟩ := map_eq_ok.1 h
    cases heq
    obtain ⟨_, _, _, he⟩ := seq_eq_ok.1 he
    obtain ⟨_, _, _, he⟩ := seq_eq_ok.1 he
    obtain ⟨_, _, rfl⟩ := map_eq_ok.1 he
    exact .inr ⟨nofun, nofun⟩
  · unfold parseNextJsonToolCallEvent parseArgumentsEvent at h
    dsimp only at h
    split_ifs at h with hσ
    · obtain ⟨e, he, heq⟩ := map_eq_ok.1 h
      cases heq
      obtain ⟨_, left, _, he⟩ := seq_eq_ok.1 he
      right
      rcases hd : config.delimiter with - | delimiter <;> simp only [hd] at he
      · obtain ⟨_, _, rfl⟩ := map_eq_ok.1 he
        exact ⟨nofun, nofun⟩
      · unfold orElse at he
        split at he <;> obtain ⟨_, _, rfl⟩ := map_eq_ok.1 he <;> exact ⟨nofun, nofun⟩
    · obtain ⟨⟨raw, σ'⟩, htake, he⟩ := map_eq_ok.1 h
      cases he
      unfold takeJsonObject at htake
      split_ifs at htake
      rcases hscan : σ.scan x with - | ⟨taken, last, left⟩ <;> rw [hscan] at htake <;> cases htake
      exact .inl ⟨σ, _, _, rfl, rfl, rfl, hscan⟩

/-- **A step keeps the reading sound**, and stops inside of arguments only at the end of the
buffer. -/
theorem Sound.step (h : Sound r) (hstep : r.step config fromStr x = .next r' rest) :
    Sound r' ∧ (r'.core.mode.scanning = true → rest = []) := by
  obtain ⟨⟨event, mode⟩, hparse, -, happly⟩ := readStep_eq_next_iff.1 hstep
  rcases parse_cases hparse with ⟨σ, σ', raw, hmode, rfl, rfl, hscan⟩ | ⟨hargs, htext⟩
  · obtain ⟨hactive, calls, name, args, hcalls, -⟩ := h σ hmode
    obtain ⟨-, hne, hphase, hall⟩ := scan_spec hscan
    cases (if_neg hactive).symm.trans happly
    refine ⟨fun σ₁ hσ₁ ↦ ⟨hactive, calls, name, args ++ raw, ?_, ?_⟩, fun hs ↦ hall ?_⟩
    · show r.calls.modifyLast _ = _
      rw [hcalls, modifyLast_concat]
    · cases hσ₁
      exact iff_of_false (append_ne_nil_of_right_ne_nil _ hne) hphase
    · exact decide_eq_false (by rw [of_decide_eq_true hs]; nofun)
  · cases event with
    | text run =>
      cases happly
      rw [htext run rfl]
      exact ⟨fun σ ↦ nofun, nofun⟩
    | toolCallHeader name =>
      cases happly
      refine ⟨fun σ hσ ↦ ⟨nofun, r.calls, name, [], rfl, ?_⟩, nofun⟩
      cases hσ
      exact iff_of_true rfl rfl
    | arguments raw => exact absurd rfl (hargs raw)
    | _ =>
      cases happly
      exact ⟨fun σ ↦ nofun, nofun⟩

theorem Sound.run (h : Sound r) : Sound (run (Reading.step config fromStr) r x).state :=
  run_induction step_shrinks (P := fun r _ a ↦ Sound r → Sound a.state) (fun _ _ _ h ↦ h)
    (fun _ _ _ h ↦ h) (fun _ _ _ _ hs ih h ↦ ih (h.step hs).1) r x h

theorem inArguments_of_scanning (h : mode.scanning = true) : mode.inArguments = true := by
  rcases mode with - | - | σ
  · cases h
  · cases h
  · exact inArguments_iff.2
      ⟨σ, rfl, decide_eq_false (by rw [of_decide_eq_true h]; nofun)⟩

/-- **A run that fails inside of arguments** fails at once: it began there. -/
theorem Sound.fail_of_scanning (h : Sound r) :
    (Buffered.run (Reading.step config fromStr) r x).failed = true →
      (Buffered.run (Reading.step config fromStr) r x).state.core.mode.scanning = true →
      r.step config fromStr x = .fail := by
  refine run_induction step_shrinks (P := fun r x a ↦ Sound r → a.failed = true →
    a.state.core.mode.scanning = true → r.step config fromStr x = .fail) ?_ ?_ ?_ r x h
  · exact fun r x _ _ ↦ nofun
  · exact fun r x hfail _ _ _ ↦ hfail
  · intro r x r' rest hstep ih h hfailed hscanning
    obtain ⟨h', hrest⟩ := h.step hstep
    have hfail := ih h' hfailed hscanning
    rw [run_of_fail hfail] at hscanning
    obtain rfl := hrest hscanning
    obtain ⟨σ, hmode, hσ⟩ := inArguments_iff.1 (inArguments_of_scanning hscanning)
    cases (step_arguments_nil hmode hσ).symm.trans hfail

/-- What there is of an object that is not complete, on top of the settled calls. -/
theorem Sound.calls_eq (h : Sound r) :
    (∃ part, r.calls = r.settled.modifyLast fun call ↦ (call.1, call.2 ++ part)) ∧
      (r.calls = r.settled ↔ r.core.mode.scanning = false) := by
  unfold settled
  split_ifs with hopen
  · obtain ⟨σ, hmode, hσ⟩ := inArguments_iff.1 hopen
    obtain ⟨-, calls, name, args, hcalls, hargs⟩ := h σ hmode
    rw [hcalls, hmode, modifyLast_concat]
    refine ⟨⟨args, by rw [modifyLast_concat]; rfl⟩, ?_⟩
    have hphase : σ.phase = .initial ↔ ¬ σ.phase = .scanning := by
      have hcomplete := of_decide_eq_false hσ
      rcases hp : σ.phase with - | - | - <;> simp [hp] at hcomplete ⊢
    simp [JsonToolCallMode.scanning, hargs, hphase]
  · refine ⟨⟨[], (modifyLast_append_nil _).symm⟩, iff_of_true rfl ?_⟩
    exact Bool.eq_false_iff.2 fun h ↦ hopen (inArguments_of_scanning h)

/-! ### The parser and the reading -/

/-- **A step of the parser** and what the reading makes of the same buffer. -/
theorem Sound.step_charStep (h : Sound r) (config : JsonToolCallConfig)
    (fromStr : Text → Option Text) (x : Text) :
    match r.step config fromStr x with
    | .wait => r.charStep config fromStr x = .wait
    | .fail => FailsAt r (Buffered.run (charStep config fromStr) r x)
    | .next r' rest => Buffered.run (charStep config fromStr) r x =
        Buffered.run (charStep config fromStr) r' rest := by
  rcases hopen : r.core.mode.inArguments with - | -
  · have hstep : r.charStep config fromStr x = _ := charStep_of_not hopen
    rcases hs : r.step config fromStr x with - | - | ⟨r', rest⟩ <;> rw [hs] at hstep
    · exact hstep
    · exact .of_fail hstep
    · exact run_of_next charStep_shrinks hstep
  · obtain ⟨σ, hmode, hσ⟩ := inArguments_iff.1 hopen
    rcases eq_or_ne x [] with rfl | hx
    · rw [step_arguments_nil hmode hσ]
      exact charStep_nil hopen
    · have hactive := (h σ hmode).1
      rw [step_arguments hmode hσ hactive hx]
      have hrun := run_arguments config fromStr hmode hσ hactive hx
      rcases hscan : σ.scan x with - | ⟨taken, σ', rest⟩ <;> rw [hscan] at hrun <;> exact hrun

/-- **The parser comes to where the reading comes**, as long as it does not fail. -/
theorem Sound.run_charStep (h : Sound r) :
    Buffered.run (charStep config fromStr) r x = Buffered.run (charStep config fromStr)
      (Buffered.run (Reading.step config fromStr) r x).state
      (Buffered.run (Reading.step config fromStr) r x).rest := by
  refine run_induction step_shrinks (P := fun r x a ↦ Sound r →
    Buffered.run (charStep config fromStr) r x =
      Buffered.run (charStep config fromStr) a.state a.rest)
    (fun _ _ _ _ ↦ rfl) (fun _ _ _ _ ↦ rfl) (fun r x r' rest hstep ih h ↦ ?_) r x h
  have hnext := h.step_charStep config fromStr x
  rw [hstep] at hnext
  exact hnext.trans (ih (h.step hstep).1)

theorem Sound.step_eq_fail_iff (h : Sound r) (hmode : r.core.mode = .arguments σ)
    (hphase : σ.phase = .scanning) : r.step config fromStr x = .fail ↔ σ.scanChars x = none := by
  have hσ : σ.complete = false := decide_eq_false (by rw [hphase]; nofun)
  rcases eq_or_ne x [] with rfl | hx
  · rw [step_arguments_nil hmode hσ]
    exact iff_of_false nofun nofun
  · rw [step_arguments hmode hσ (h σ hmode).1 hx, scan_eq_scanChars (by rw [hphase]; nofun) hx]
    rcases σ.scanChars x with - | ⟨taken, σ', rest⟩
    · exact iff_of_true rfl rfl
    · exact iff_of_false nofun nofun

/-- A reading waits inside of arguments only when there is nothing left. -/
theorem Sound.eq_nil_of_wait (h : Sound r) (hopen : r.core.mode.inArguments = true)
    (hwait : r.charStep config fromStr x = .wait) : x = [] := by
  obtain ⟨σ, hmode, hσ⟩ := inArguments_iff.1 hopen
  cases x with
  | nil => rfl
  | cons c x =>
    rw [charStep_cons hopen, step_arguments hmode hσ (h σ hmode).1 (cons_ne_nil c [])] at hwait
    rcases hscan : σ.scan [c] with - | ⟨taken, σ', rest⟩ <;> rw [hscan] at hwait <;> cases hwait

end Reading

/-! ### Chunks and the whole text -/

namespace JsonToolCallParser

variable {parser : JsonToolParser} {chunks : List Text}

theorem readText_nil : readText parser.config fromStr [] = ⟨{}, [], false⟩ := by
  cases parser <;> rfl

/-- **A stream and the reading of its text.** -/
theorem streamStop_spec (parser : JsonToolParser) (fromStr : Text → Option Text)
    (chunks : List Text) :
    Sound (streamStop parser.config fromStr chunks).state ∧
      ((streamStop parser.config fromStr chunks).failed = false →
        readText parser.config fromStr chunks.flatten = streamStop parser.config fromStr chunks) ∧
      ((streamStop parser.config fromStr chunks).failed = true →
        FailsAt (streamStop parser.config fromStr chunks).state
          (readText parser.config fromStr chunks.flatten)) := by
  have hcut : Cuttable (charStep parser.config fromStr) :=
    charStep_cuttable (by cases parser <;> nofun)
  induction chunks using reverseRecOn with
  | nil => exact ⟨fun σ ↦ nofun, fun _ ↦ readText_nil, nofun⟩
  | append_singleton chunks chunk ih =>
    have hfeed : streamStop parser.config fromStr (chunks ++ [chunk]) =
        (streamStop parser.config fromStr chunks).feed (step parser.config fromStr) chunk := by
      rw [streamStop, foldl_append]
      rfl
    rw [hfeed, flatten_concat, Stop.feed]
    obtain ⟨hsound, hread, hfails⟩ := ih
    set a := streamStop parser.config fromStr chunks
    rcases ha : a.failed with - | -
    · rw [if_neg Bool.false_ne_true, readText, hcut.run_append, ← readText, hread ha,
        hsound.run_charStep]
      set b := run (step parser.config fromStr) a.state (a.rest ++ chunk)
      have hstop : b.state.step parser.config fromStr b.rest = _ := step_run step_shrinks
      have hb : Sound b.state := hsound.run
      have hcompare := hb.step_charStep parser.config fromStr b.rest
      rw [hstop] at hcompare
      refine ⟨hb, fun h ↦ ?_, fun h ↦ ?_⟩ <;> rw [h] at hcompare
      · rw [run_of_wait hcompare, ← h]
      · exact hcompare
    · obtain ⟨hfailed, htext, hsettled⟩ := hfails ha
      rw [if_pos rfl, ha, readText, hcut.run_append_of_failed hfailed]
      exact ⟨hsound, nofun, fun _ ↦ ⟨rfl, htext, hsettled⟩⟩

/-- **A stream fails inside of arguments** where a chunk breaks them. -/
theorem scanning_iff : ((streamStop parser.config fromStr chunks).failed = true ∧
      (streamStop parser.config fromStr chunks).state.core.mode.scanning = true) ↔
    ∃ before chunk after, chunks = before ++ chunk :: after ∧
      BreaksArguments parser.config fromStr before.flatten chunk := by
  have hrest (before : List Text) (h : (streamStop parser.config fromStr before).failed = false)
      (hs : (streamStop parser.config fromStr before).state.core.mode.scanning = true) :
      (streamStop parser.config fromStr before).rest = [] := by
    obtain ⟨hsound, hread, -⟩ := streamStop_spec parser fromStr before
    have hwait : charStep parser.config fromStr (readText _ _ before.flatten).state
        (readText _ _ before.flatten).rest = _ := step_run charStep_shrinks
    rw [← readText, hread h, h] at hwait
    exact hsound.eq_nil_of_wait (inArguments_of_scanning hs) hwait
  constructor
  · rintro ⟨hfailed, hscanning⟩
    obtain ⟨before, chunk, after, rfl, hbefore, heq⟩ : ∃ before chunk after, _ ∧
        (streamStop parser.config fromStr before).failed = false ∧ streamStop _ _ chunks =
          (streamStop parser.config fromStr before).feed _ chunk :=
      exists_feed_failed rfl hfailed
    obtain ⟨hsound, hread, -⟩ := streamStop_spec parser fromStr before
    rw [heq, Stop.feed, hbefore] at hfailed hscanning
    have hfail := hsound.fail_of_scanning hfailed hscanning
    rw [if_neg Bool.false_ne_true, run_of_fail hfail] at hscanning
    obtain ⟨σ, hmode, -⟩ :=
      inArguments_iff.1 (inArguments_of_scanning hscanning)
    rw [hrest before hbefore hscanning] at hfail
    rw [hmode] at hscanning
    have hphase := of_decide_eq_true hscanning
    refine ⟨before, chunk, after, rfl, σ, ?_⟩
    rw [hread hbefore]
    exact ⟨hbefore, hmode, hphase, (hsound.step_eq_fail_iff hmode hphase).1 hfail⟩
  · rintro ⟨before, chunk, after, rfl, σ, hfailed, hmode, hphase, hscan⟩
    obtain ⟨hsound, hread, hfails⟩ := streamStop_spec parser fromStr before
    have hbefore : (streamStop parser.config fromStr before).failed = false :=
      Bool.eq_false_iff.2 fun h ↦ by cases hfailed.symm.trans (hfails h).failed
    rw [hread hbefore] at hmode
    have hscanning : (JsonToolCallMode.arguments σ).scanning = true := decide_eq_true hphase
    rw [← hmode] at hscanning
    have hfail : step parser.config fromStr _ _ = _ :=
      (hsound.step_eq_fail_iff hmode hphase).2 hscan
    have heq : streamStop parser.config fromStr (before ++ chunk :: after) =
        ⟨(streamStop parser.config fromStr before).state, chunk, true⟩ := by
      rw [streamStop, foldl_append, ← streamStop, foldl_cons, Stop.feed, hbefore,
        hrest before hbefore hscanning]
      rw [if_neg Bool.false_ne_true, nil_append, run_of_fail hfail, foldl_feed_of_failed rfl]
    rw [heq]
    exact ⟨rfl, hscanning⟩

/-- In one chunk the parser fails before it has passed on anything of the object. -/
theorem not_scanning_singleton {text : Text}
    (h : (streamStop parser.config fromStr [text]).failed = true) :
    (streamStop parser.config fromStr [text]).state.core.mode.scanning = false := by
  refine Bool.eq_false_iff.2 fun hscanning ↦ ?_
  obtain ⟨before, chunk, after, hsplit, σ, -, hmode, -⟩ := scanning_iff.1 ⟨h, hscanning⟩
  obtain ⟨rfl, -⟩ | ⟨-, h⟩ := singleton_eq_append_iff.1 hsplit
  · rw [flatten_nil, readText_nil] at hmode
    cases hmode
  · cases h

/-- **How a text is cut into chunks** changes neither the outcome nor the plain text. The calls are
the same too, unless a chunk breaks arguments; then the last call has a part of them that it does
not have for the text in one chunk. -/
theorem stream_cut (parser : JsonToolParser) (fromStr : Text → Option Text) (chunks : List Text) :
    let cut := stream parser.config fromStr chunks
    let whole := stream parser.config fromStr [chunks.flatten]
    cut.success = whole.success ∧ cut.normalText = whole.normalText ∧
      (∃ part, cut.calls = whole.calls.modifyLast fun call ↦ (call.1, call.2 ++ part)) ∧
      (cut.calls = whole.calls ↔ ¬ ∃ before chunk after, chunks = before ++ chunk :: after ∧
        BreaksArguments parser.config fromStr before.flatten chunk) := by
  intro cut whole
  obtain ⟨hsound, hread, hfails⟩ := streamStop_spec parser fromStr chunks
  obtain ⟨hsound', hread', hfails'⟩ := streamStop_spec parser fromStr [chunks.flatten]
  rw [flatten_singleton] at hread' hfails'
  have hcut : cut = outcome _ := stream_eq parser.config fromStr chunks
  have hwhole : whole = outcome _ := stream_eq parser.config fromStr [chunks.flatten]
  rw [hcut, hwhole, ← scanning_iff]
  rcases hfailed : (streamStop parser.config fromStr chunks).failed with - | -
  · have hsame : streamStop parser.config fromStr [chunks.flatten] = _ :=
      (hread' (Bool.eq_false_iff.2 fun h ↦ ?_)).symm.trans (hread hfailed)
    · rw [hsame]
      exact ⟨rfl, rfl, ⟨[], (modifyLast_append_nil _).symm⟩, iff_of_true rfl nofun⟩
    · cases (hread hfailed ▸ hfailed).symm.trans (hfails' h).failed
  · have hfailed' : (streamStop parser.config fromStr [chunks.flatten]).failed = true :=
      eq_true_of_ne_false fun h ↦ by
        cases (hread' h ▸ h).symm.trans (hfails hfailed).failed
    obtain ⟨-, htext, hsettled⟩ := hfails hfailed
    obtain ⟨-, htext', hsettled'⟩ := hfails' hfailed'
    have hcalls := hsound'.calls_eq.2.2 (not_scanning_singleton hfailed')
    rw [← hsettled', hsettled] at hcalls
    rw [outcome_of_failed hfailed, outcome_of_failed hfailed', hcalls]
    refine ⟨rfl, htext.symm.trans htext', hsound.calls_eq.1, hsound.calls_eq.2.trans ?_⟩
    simp

/-- Arguments that end in a bracket which closes nothing. Their first brace is passed on when it
comes in a chunk of its own. -/
theorem stream_ne_of_cut :
    let first : Text :=
      hermesConfig.startMarker ++ ['{', '"', 'n', 'a', 'm', 'e', '"', ':', '"', 'f', '"', ',', '"',
        'a', 'r', 'g', 'u', 'm', 'e', 'n', 't', 's', '"', ':', '{']
    let fromStr : Text → Option Text := fun raw ↦ some (raw.drop 1).dropLast
    stream hermesConfig fromStr [first, [']']] = ⟨false, [], [(['f'], ['{'])]⟩ ∧
      stream hermesConfig fromStr [first ++ [']']] = ⟨false, [], [(['f'], [])]⟩ := by
  decide +kernel

end JsonToolCallParser

end OneCatVllm.Frontend
