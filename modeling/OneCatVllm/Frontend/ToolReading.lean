import Mathlib.Data.List.ModifyLast
import OneCatVllm.Frontend.ToolParser

/-!
# Reading a text for tool calls

What a text says does not depend on how it arrives. A `Reading` is what has been read so far: plain
text, and calls with the arguments that are there of each. It grows by the events of the grammar,
but arguments come **one character at a time** (`charStep`), where the parser takes all there are in
its buffer (`step`). The machine that reads like that is `Cuttable` (`charStep_cuttable`): it makes
the same of a text in pieces as of the text as a whole. So it says how a text is to be read
(`readText`), and the parser is compared with it.

Three reasons, one for each kind of event:

* markers, headers and ends are read by a **stable** grammar;
* text is emitted up to the first place where a start marker may begin, a place that more input can
  only move to the back (`FirstStart`);
* a character of the arguments is there or not.
-/

namespace OneCatVllm.Frontend

open Bool Buffered JsonObjectScanState List Nat Option Partial Substring

/-! ### The stable part of the grammar -/

theorem stable_ws0 : Stable ws0 := stable_skipWhile _

theorem stable_markerWhitespace (config : JsonToolCallConfig) :
    Stable (markerWhitespace config) := by
  unfold markerWhitespace
  split
  · exact stable_ws0
  · exact stable_literal _

theorem stable_jsonKey (key : Text) : Stable (jsonKey key) :=
  stable_skips (by simp [stable_literal])

theorem takeString_append {escape : Bool} {x y raw rest : Text}
    (h : takeString escape x = some (raw, rest)) :
    takeString escape (x ++ y) = some (raw, rest ++ y) := by
  induction x generalizing escape raw rest with
  | nil => cases escape <;> cases h
  | cons c x ih =>
    have hmap {e : Bool} (h : (takeString e x).map (Prod.map (c :: ·) id) = some (raw, rest)) :
        (takeString e (x ++ y)).map (Prod.map (c :: ·) id) = some (raw, rest ++ y) := by
      obtain ⟨⟨raw', rest'⟩, htail, hp⟩ := map_eq_some_iff.1 h
      cases hp
      rw [ih htail]
      rfl
    cases escape with
    | true => exact hmap h
    | false =>
      rw [cons_append]
      unfold takeString at h ⊢
      split at h
      · cases h
        rw [if_pos ‹_›]
      · rw [if_neg ‹_›]
        exact hmap h

theorem stable_jsonStr (fromStr : Text → Option Text) : Stable (jsonStr fromStr) := by
  intro x y hx
  cases x with
  | nil => exact absurd rfl hx
  | cons c x =>
    rw [cons_append]
    unfold jsonStr at hx ⊢
    dsimp only at hx ⊢
    by_cases hc : c ≠ '"'
    · rw [if_pos hc, if_pos hc]
      rfl
    · rw [if_neg hc] at hx ⊢
      rw [if_neg hc]
      rcases ht : takeString false x with - | ⟨raw, rest⟩
      · rw [ht] at hx
        exact absurd rfl hx
      · rw [takeString_append ht]
        dsimp only
        cases fromStr (c :: raw) <;> rfl

section

variable (config : JsonToolCallConfig)

theorem stable_toolCallStartEvent : Stable (toolCallStartEvent config) :=
  (stable_skips (by simp [stable_literal, stable_markerWhitespace])).map _

theorem stable_toolCallHeaderEvent (fromStr : Text → Option Text) :
    Stable (toolCallHeaderEvent config fromStr) := by
  have hfield (sep key : Text) :
      Stable (skips [ws0, literal sep, ws0, jsonKey key, ws0, literal [':'], ws0]) :=
    stable_skips (by simp [stable_literal, stable_ws0, stable_jsonKey])
  exact (hfield _ _).seq fun _ ↦ (stable_jsonStr fromStr).seq fun _ ↦ (hfield _ _).map _

theorem stable_toolCallEndEvent : Stable (toolCallEndEvent config) :=
  (stable_skips (by simp [stable_literal, stable_markerWhitespace])).map _

theorem stable_toolCallDelimiterEvent (delimiter : Text) :
    Stable (toolCallDelimiterEvent delimiter) :=
  (stable_skips (by simp [stable_literal, stable_ws0])).map _

theorem stable_toolCallCloseEvent : Stable (toolCallCloseEvent config) := by
  refine (stable_literal _).seq fun _ ↦ ?_
  split
  · exact (stable_toolCallEndEvent config).orElse (stable_toolCallDelimiterEvent _)
  · exact stable_toolCallEndEvent config

end

/-! ### Text up to where a marker may start -/

variable {config : JsonToolCallConfig} {rest : Text} {n : ℕ}

section Text

variable {marker text : Text} {i : ℕ}

/-- The test in the loop of `partial_prefix_len`. -/
theorem suffix_test_iff {first : Char} {tail : Text} (hi : i < text.length) :
    (text[i]? = some first ∧ (first :: tail).take (text.length - i) = text.drop i) ↔
      text.drop i <+: first :: tail := by
  rw [prefix_iff_eq_take, length_drop]
  refine ⟨fun h ↦ h.2.symm, fun h ↦ ⟨?_, h.symm⟩⟩
  obtain ⟨k, hk⟩ : ∃ k, text.length - i = k + 1 := ⟨text.length - i - 1, by omega⟩
  rw [hk] at h
  have hhead : (text.drop i)[0]? = some first := by rw [h]; rfl
  rwa [getElem?_drop] at hhead

section

variable (hmarker : marker ≠ []) (h : FirstStart marker text n)

include hmarker h

/-- Without a marker in the text, what is kept back starts where a marker may start. -/
theorem partialPrefixLen_eq (hnone : ∀ i, ¬ OccursAt marker text i) :
    partialPrefixLen text marker = text.length - n := by
  obtain ⟨first, tail, rfl⟩ := exists_cons_of_ne_nil hmarker
  have hback : ∀ i < n, ¬ text.drop i <+: first :: tail := fun i hi ↦
    (literal_eq_backtrack_iff.1 (h.least i hi)).2
  have hle := h.le
  unfold partialPrefixLen
  dsimp only
  rcases hle.lt_or_eq with hlt | rfl
  · -- the text ends in a part of the marker, and the first index of such a part is `n`
    have hpre : text.drop n <+: first :: tail := by
      by_contra hpre
      exact h.mayStart (literal_eq_backtrack_iff.2 ⟨hnone n, hpre⟩)
    have hshort : text.length - n < (first :: tail).length := by
      rcases lt_or_ge (text.length - n) (first :: tail).length with hl | hl
      · exact hl
      · refine absurd (hpre.eq_of_length_le ?_ ▸ prefix_refl _) (hnone n)
        rw [length_drop]
        exact hl
    have hfound : (range' (text.length - min text.length ((first :: tail).length - 1))
        (min text.length ((first :: tail).length - 1))).find? (fun index ↦
          decide (text[index]? = some first ∧
            (first :: tail).take (text.length - index) = text.drop index)) = some n := by
      rw [find?_range'_eq_some, mem_range'_1]
      simp only [decide_eq_true_eq, not_eq_true', decide_eq_false_iff_not]
      refine ⟨(suffix_test_iff hlt).2 hpre, ⟨by omega, by omega⟩, fun i _ hi htest ↦ ?_⟩
      exact hback i hi ((suffix_test_iff (by omega)).1 htest)
    rw [hfound]
  · rw [find?_eq_none.2]
    · simp
    · intro i hi htest
      rw [mem_range'_1] at hi
      have hi' : i < text.length := by omega
      exact hback i hi' ((suffix_test_iff hi').1 (of_decide_eq_true htest))

theorem find_eq_firstStart (hfind : find text marker 0 = some i) : i = n := by
  obtain ⟨-, hocc, hmin⟩ := (find_eq_some_iff hmarker).1 hfind
  rcases lt_trichotomy i n with hlt | heq | hlt
  · exact absurd hocc (literal_eq_backtrack_iff.1 (h.least i hlt)).1
  · exact heq
  · -- an occurrence behind `n` leaves no room for a mere part of the marker at `n`
    refine absurd (literal_eq_backtrack_iff.2 ⟨hmin n (zero_le n) hlt, fun hpre ↦ ?_⟩) h.mayStart
    have hlen := hocc.add_length_le hmarker
    have := hpre.length_le
    rw [length_drop] at this
    omega

/-- **`safe_text_len` reads up to the first place where a marker may start.** -/
theorem safeTextLen_eq (hn : 0 < n) : safeTextLen marker text = .ok n (text.drop n) := by
  have hle := h.le
  have hne : text ≠ [] := fun he ↦ by
    rw [he, length_nil] at hle
    omega
  rw [safeTextLen, if_neg hne]
  rcases hfind : find text marker 0 with - | i
  · have hnone := (find_eq_none_iff hmarker).1 hfind
    have hlen : text.length - partialPrefixLen text marker = n := by
      rw [partialPrefixLen_eq hmarker h fun i ↦ hnone i (zero_le i)]
      omega
    rw [hlen, if_neg (by omega)]
  · rw [find_eq_firstStart hmarker h hfind]

end

variable {event : JsonToolCallEvent}

theorem parseTextEvent_of_firstStart (hmarker : config.startMarker ≠ [])
    (h : FirstStart config.startMarker text n) (hn : 0 < n) :
    parseTextEvent config text = .ok (.text (text.take n)) (text.drop n) := by
  have hback := h.least 0 hn
  rw [drop_zero] at hback
  rw [parseTextEvent, orElse, toolCallStartEvent, Partial.map, seq, skips, hback]
  rw [safeTextEvent, Partial.map, seq, safeTextLen_eq hmarker h hn]
  rfl

/-- Where a marker may start at once, it is read, or nothing is. -/
theorem parseTextEvent_of_firstStart_zero (hmarker : config.startMarker ≠ [])
    (h : FirstStart config.startMarker text 0) :
    (parseTextEvent config text = toolCallStartEvent config text ∧
      toolCallStartEvent config text ≠ .backtrack) ∨
      parseTextEvent config text = .incomplete ∨
      parseTextEvent config text = .ok (.text []) text := by
  unfold parseTextEvent orElse
  rcases hstart : toolCallStartEvent config text with - | - | - | ⟨e, r⟩
  case backtrack =>
    right
    unfold safeTextEvent Partial.map seq safeTextLen
    by_cases hne : text = []
    · exact .inl (by rw [if_pos hne]; rfl)
    · rw [if_neg hne]
      rcases hfind : find text config.startMarker 0 with - | i
      · have hnone := (find_eq_none_iff hmarker).1 hfind
        rw [partialPrefixLen_eq hmarker h fun i ↦ hnone i (zero_le i), Nat.sub_zero,
          Nat.sub_self]
        exact .inl rfl
      · rw [find_eq_firstStart hmarker h hfind]
        exact .inr rfl
  all_goals exact .inl ⟨rfl, nofun⟩

end Text

/-! ### The scan of the arguments -/

variable {x y : Text}

namespace JsonObjectScanState

variable {state state' : JsonObjectScanState} {taken : Text}

/-- The scan does not go back to where it has not begun. -/
theorem phase_scanChar {c : Char} (h : state.scanChar c = some state')
    (hphase : state.phase ≠ .initial) : state'.phase ≠ .initial := by
  unfold scanChar closeObject closeArray at h
  split_ifs at h
  · cases h
    rw [scanInString]
    split_ifs <;> exact hphase
  · cases h
    exact hphase
  · cases h
    exact hphase
  · split at h
    · cases h
    · split_ifs at h
      · cases h
        nofun
      · cases h
        exact hphase
  · cases h
    exact hphase
  · split at h
    · cases h
    · cases h
      exact hphase
  · cases h
    exact hphase

/-- **The loop over a text**: it stays in the object, and it stops before the end of the text only
where the object is complete. -/
theorem scanChars_spec (h : state.scanChars x = some (taken, state', rest))
    (hphase : state.phase ≠ .initial) : x = taken ++ rest ∧ (x ≠ [] → taken ≠ []) ∧
      state'.phase ≠ .initial ∧ (state'.complete = false → rest = []) := by
  induction x generalizing state taken with
  | nil =>
    cases h
    exact ⟨rfl, fun h ↦ h, hphase, fun _ ↦ rfl⟩
  | cons c x ih =>
    unfold scanChars at h
    rcases hc : state.scanChar c with - | next <;> rw [hc] at h
    · cases h
    · have hnext := phase_scanChar hc hphase
      dsimp only at h
      split_ifs at h with hcomplete
      · cases h
        refine ⟨rfl, fun _ ↦ nofun, hnext, fun hf ↦ ?_⟩
        cases hcomplete.symm.trans hf
      · obtain ⟨⟨taken', last, left⟩, htail, heq⟩ := map_eq_some_iff.1 h
        cases heq
        obtain ⟨rfl, -, hp, hr⟩ := ih htail hnext
        exact ⟨rfl, fun _ ↦ nofun, hp, hr⟩

theorem scan_spec (h : state.scan x = some (taken, state', rest)) :
    x = taken ++ rest ∧ taken ≠ [] ∧ state'.phase ≠ .initial ∧
      (state'.complete = false → rest = []) := by
  cases x with
  | nil => cases h
  | cons c x =>
    rw [scan] at h
    split_ifs at h with hphase
    · obtain ⟨hx, hne, hp, hr⟩ := scanChars_spec h hphase
      exact ⟨hx, hne nofun, hp, hr⟩
    · obtain ⟨⟨taken', last, left⟩, htail, heq⟩ := map_eq_some_iff.1 h
      cases heq
      obtain ⟨rfl, -, hp, hr⟩ := scanChars_spec htail nofun
      exact ⟨rfl, nofun, hp, hr⟩

theorem scan_eq_scanChars (hphase : state.phase ≠ .initial) (hx : x ≠ []) :
    state.scan x = state.scanChars x := by
  cases x with
  | nil => exact absurd rfl hx
  | cons c x => rw [scan, if_pos hphase]

/-- **The scan goes character by character.** -/
theorem scan_cons (c : Char) (x : Text) : state.scan (c :: x) =
    (state.scan [c]).bind fun (_, state', _) ↦
      if state'.complete then some ([c], state', x)
      else (state'.scanChars x).map fun (taken, last, rest) ↦ (c :: taken, last, rest) := by
  rw [scan, scan]
  split_ifs
  · rw [scanChars, scanChars]
    rcases state.scanChar c with - | next
    · rfl
    · dsimp only
      split_ifs with hnext <;> simp [scanChars, hnext]
  · rw [scanChars]
    rfl
  · rfl

end JsonObjectScanState

/-! ### Readings -/

/-- Arguments that are not complete. -/
def JsonToolCallMode.inArguments : JsonToolCallMode → Bool
  | .arguments jsonScan => !jsonScan.complete
  | _ => false

theorem JsonToolCallMode.inArguments_iff {mode : JsonToolCallMode} : mode.inArguments = true ↔
    ∃ σ : JsonObjectScanState, mode = .arguments σ ∧ σ.complete = false := by
  rcases mode with - | - | σ <;> simp [inArguments]

/-- **What has been read**: the state of the parser, the plain text, and the calls with their
arguments. -/
structure Reading where
  core : ParserCore := {}
  normalText : Text := []
  calls : List (Text × Text) := []

variable {fromStr : Text → Option Text} {r : Reading} {σ : JsonObjectScanState}

namespace Reading

def withMode (r : Reading) (mode : JsonToolCallMode) : Reading :=
  { r with core := { r.core with mode := mode } }

def addText (r : Reading) (text : Text) : Reading := { r with normalText := r.normalText ++ text }

/-- More of the arguments of the last call. -/
def addArguments (r : Reading) (raw : Text) : Reading :=
  { r with calls := r.calls.modifyLast fun call ↦ (call.1, call.2 ++ raw) }

/-- What an event adds. -/
def applyEvent (r : Reading) (event : JsonToolCallEvent) : Option Reading :=
  match event with
  | .text run => some (r.addText run)
  | .toolCallStart => some (r.withMode .header)
  | .toolCallHeader functionName =>
    some { r with
      core := ⟨.arguments {}, some r.core.emittedToolCount, r.core.emittedToolCount + 1⟩
      calls := r.calls ++ [(functionName, [])] }
  | .arguments raw => if r.core.activeToolIndex = none then none else some (r.addArguments raw)
  | .toolCallDelimiter =>
    some { r with core := { r.core with activeToolIndex := none, mode := .header } }
  | .toolCallEnd => some { r with core := { r.core with activeToolIndex := none, mode := .text } }

section

variable (config : JsonToolCallConfig) (fromStr : Text → Option Text)

/-- One event, as the parser takes it. -/
def step : Reading → Text → Progress Reading Char :=
  readStep (fun r ↦ parseNextJsonToolCallEvent config fromStr r.core.mode)
    fun r (event, mode) ↦ (r.withMode mode).applyEvent event

/-- One event, or one character of the arguments. -/
def charStep (r : Reading) (x : Text) : Progress Reading Char :=
  if r.core.mode.inArguments then (r.step config fromStr (x.take 1)).append (x.drop 1)
  else r.step config fromStr x

/-- **A text is read** from the beginning. -/
def readText (text : Text) : Stop Reading Char := run (charStep config fromStr) {} text

end

theorem step_shrinks : Shrinks (step config fromStr) := readStep_shrinks

theorem charStep_of_not (h : r.core.mode.inArguments = false) :
    r.charStep config fromStr x = r.step config fromStr x := if_neg (eq_false_iff.1 h)

theorem charStep_cons (h : r.core.mode.inArguments = true) (c : Char) :
    r.charStep config fromStr (c :: x) = (r.step config fromStr [c]).append x := if_pos h

theorem charStep_shrinks : Shrinks (charStep config fromStr) := by
  intro r x r' rest h
  unfold charStep at h
  split_ifs at h
  · rcases hstep : r.step config fromStr (x.take 1) with - | - | ⟨t, left⟩ <;> rw [hstep] at h <;>
      cases h
    have hlt := step_shrinks hstep
    rw [length_append, length_drop]
    rw [length_take] at hlt
    omega
  · exact step_shrinks h

section

variable (hmarker : config.startMarker ≠ []) (hmode : r.core.mode = .text)

include hmarker hmode

/-- Text is read up to where a marker may start. -/
theorem step_text (h : FirstStart config.startMarker x n) (hn : 0 < n) :
    r.step config fromStr x = .next (r.addText (x.take n)) (x.drop n) := by
  refine readStep_eq_next_iff.2 ⟨(.text (x.take n), .text), ?_, ?_, ?_⟩
  · rw [hmode]
    exact map_eq_ok.2 ⟨_, parseTextEvent_of_firstStart hmarker h hn, rfl⟩
  · have := h.le
    rw [length_drop]
    omega
  · rw [← hmode]
    rfl

/-- Where a marker may start at once, the parser waits or its answer stands. -/
theorem step_text_zero (h : FirstStart config.startMarker x 0) : r.step config fromStr x = .wait ∨
      parseNextJsonToolCallEvent config fromStr r.core.mode (x ++ y) =
        (parseNextJsonToolCallEvent config fromStr r.core.mode x).append y := by
  have hparse (x : Text) : parseNextJsonToolCallEvent config fromStr r.core.mode x =
      (parseTextEvent config x).andThen fun event rest ↦ .ok (event, .text) rest := by
    rw [hmode]
    rfl
  have hwait (h : parseTextEvent config x = .incomplete) : r.step config fromStr x = .wait :=
    readStep_of_incomplete (by rw [hparse, h]; rfl)
  rcases parseTextEvent_of_firstStart_zero hmarker h with ⟨hstart, hback⟩ | hinc | hnone
  · by_cases hinc : toolCallStartEvent config x = .incomplete
    · exact .inl (hwait (hstart.trans hinc))
    · right
      have hstay := stable_toolCallStartEvent config x y hinc
      have happend : parseTextEvent config (x ++ y) = (toolCallStartEvent config x).append y := by
        rw [parseTextEvent, orElse, hstay]
        rcases hs : toolCallStartEvent config x with - | - | - | ⟨e, r⟩
        · exact absurd hs hinc
        · exact absurd hs hback
        · rfl
        · rfl
      rw [hparse, hparse, happend, hstart]
      cases toolCallStartEvent config x <;> rfl
  · exact .inl (hwait hinc)
  · exact .inl (readStep_of_length_le (by rw [hparse, hnone]; rfl) le_rfl)

end

section

variable (hmode : r.core.mode = .arguments σ) (hσ : σ.complete = false)

include hmode hσ

/-- Arguments are read up to the end of the object or of the buffer. -/
theorem step_arguments (hactive : r.core.activeToolIndex ≠ none) (hx : x ≠ []) :
    r.step config fromStr x = (σ.scan x).elim .fail fun (taken, σ', rest) ↦
      .next ((r.withMode (.arguments σ')).addArguments taken) rest := by
  have hparse : parseNextJsonToolCallEvent config fromStr r.core.mode x =
      (σ.scan x).elim .cut fun p ↦ .ok (.arguments p.1, .arguments p.2.1) p.2.2 := by
    rw [hmode]
    unfold parseNextJsonToolCallEvent parseArgumentsEvent
    dsimp only
    rw [if_neg (eq_false_iff.1 hσ)]
    rw [Partial.map, seq, takeJsonObject, if_neg hx, if_neg (eq_false_iff.1 hσ)]
    rcases σ.scan x with - | ⟨taken, σ', rest⟩ <;> rfl
  unfold step readStep
  dsimp only
  rw [hparse]
  rcases hscan : σ.scan x with - | ⟨taken, σ', rest⟩
  · rfl
  · obtain ⟨rfl, htaken, -, -⟩ := scan_spec hscan
    have hpos := length_pos_iff.2 htaken
    rw [elim_some]
    dsimp only
    rw [if_pos (by rw [length_append]; omega)]
    dsimp only [withMode, applyEvent]
    rw [if_neg hactive]
    rfl

theorem step_arguments_nil : r.step config fromStr [] = .wait := by
  refine readStep_of_incomplete ?_
  rw [hmode]
  unfold parseNextJsonToolCallEvent parseArgumentsEvent
  dsimp only
  rw [if_neg (eq_false_iff.1 hσ)]
  rfl

end

/-- Outside of text and of open arguments, an answer of the parser stands. -/
theorem parse_append {mode : JsonToolCallMode}
    (hmode : mode = .header ∨ ∃ σ : JsonObjectScanState, mode = .arguments σ ∧ σ.complete = true)
    (hne : parseNextJsonToolCallEvent config fromStr mode x ≠ .incomplete) :
    parseNextJsonToolCallEvent config fromStr mode (x ++ y) =
      (parseNextJsonToolCallEvent config fromStr mode x).append y := by
  rcases hmode with rfl | ⟨σ, rfl, hσ⟩
  · exact (stable_toolCallHeaderEvent config fromStr).map _ x y hne
  · unfold parseNextJsonToolCallEvent parseArgumentsEvent at hne ⊢
    dsimp only at hne ⊢
    rw [if_pos hσ] at hne ⊢
    exact (stable_toolCallCloseEvent config).map _ x y hne

theorem charStep_nil (h : r.core.mode.inArguments = true) :
    r.charStep config fromStr [] = .wait := by
  obtain ⟨σ, hmode, hσ⟩ := JsonToolCallMode.inArguments_iff.1 h
  rw [charStep, if_pos h, take_nil, step_arguments_nil hmode hσ]
  rfl

/-- What more input does to a step over text. -/
theorem charStep_text_extends (hmarker : config.startMarker ≠ []) (hmode : r.core.mode = .text)
    (hfirst : FirstStart config.startMarker x n) (hn : 0 < n) (y : Text) :
    Extends (charStep config fromStr) r x y := by
  have htext {t : Reading} (ht : t.core.mode = .text) {z : Text} {m : ℕ}
      (hz : FirstStart config.startMarker z m) (hm : 0 < m) :
      t.charStep config fromStr z = .next (t.addText (z.take m)) (z.drop m) :=
    (charStep_of_not (by rw [ht]; rfl)).trans (step_text hmarker ht hz hm)
  rw [extends_iff, htext hmode hfirst hn]
  refine ⟨nofun, fun r' rest h ↦ ?_⟩
  cases h
  obtain ⟨m, hfirst'⟩ := exists_firstStart config.startMarker (x ++ y)
  have hnm := hfirst.le_of_append hfirst'
  rw [htext hmode hfirst' (by omega), ← drop_append_of_le_length hfirst.le]
  rcases hnm.eq_or_lt with rfl | hlt
  · rw [take_append_of_le_length hfirst.le]
    exact .inl rfl
  · -- the rest of the longer text is read by the step after this one
    refine .inr ⟨_, _, rfl, ?_⟩
    rw [htext (t := r.addText (x.take n)) hmode (hfirst'.drop hnm) (by omega), drop_drop]
    unfold addText
    have htake : (x ++ y).take n = x.take n := take_append_of_le_length hfirst.le
    rw [append_assoc, ← htake, ← take_add, Nat.add_sub_cancel' hnm]

/-- **The reading of a text does not depend on how it is cut.** -/
theorem charStep_cuttable (hmarker : config.startMarker ≠ []) :
    Cuttable (charStep config fromStr) where
  shrinks := charStep_shrinks
  extend r x y := by
    rcases hopen : r.core.mode.inArguments with - | -
    · by_cases hwait : r.step config fromStr x = .wait
      · exact extends_of_wait ((charStep_of_not hopen).trans hwait)
      have hne : parseNextJsonToolCallEvent config fromStr r.core.mode x ≠ .incomplete :=
        fun h ↦ hwait (readStep_of_incomplete h)
      have hstable (h : parseNextJsonToolCallEvent config fromStr r.core.mode (x ++ y) =
          (parseNextJsonToolCallEvent config fromStr r.core.mode x).append y) :
          Extends (charStep config fromStr) r x y := by
        refine extends_of_append ?_
        rw [charStep_of_not hopen, charStep_of_not hopen]
        exact readStep_append h
      rcases hm : r.core.mode with - | - | σ
      · obtain ⟨n, hfirst⟩ := exists_firstStart config.startMarker x
        rcases n.eq_zero_or_pos with rfl | hpos
        · exact hstable ((step_text_zero hmarker hm hfirst).resolve_left hwait)
        · exact charStep_text_extends hmarker hm hfirst hpos y
      · exact hstable (parse_append (.inl hm) hne)
      · rw [hm] at hopen
        exact hstable (parse_append (.inr ⟨σ, hm, not_eq_false' .. ▸ hopen⟩) hne)
    · cases x with
      | nil => exact extends_of_wait (charStep_nil hopen)
      | cons c x =>
        refine extends_of_append ?_
        rw [cons_append, charStep_cons hopen, charStep_cons hopen, Progress.append_append]

end Reading

end OneCatVllm.Frontend
