import Mathlib.Data.List.Fold
import Mathlib.Data.List.MinMax
import OneCatVllm.Engine.StopStrings

/-!
# What an update leaves of the text

One `update` of a detokenizer appends the ids of its tokens, and the text grows or is cut at a stop
string (`TextUpdate`). **The cut never reaches text that the stop buffer has let out**: a stop
string that ends behind the old text starts in its last `stop_buffer_length` characters at the
earliest. Neither depends on how much of the text was sent (`update_offset`), and the next delta of
the text goes on where the last one ended (`getNextOutputText_delta`).
-/

namespace OneCatVllm

open BaseIncrementalDetokenizer List Substring

section

variable {p : DetokenizerParams} {offset : ℕ} {old new : List Char}

/-- The loop of `update` appends ids and texts, and moves the offset within the text. -/
theorem appendTokens_eq (p : DetokenizerParams) (ts : List Token) (d : Detokenizer)
    (h : offset ≤ d.outputText.length) :
    (appendTokens p ts (d, offset)).1 =
        { d with tokenIds := d.tokenIds ++ ts.map (·.id)
                 outputText := d.outputText ++ textOf ts } ∧
      offset ≤ (appendTokens p ts (d, offset)).2 ∧
      (appendTokens p ts (d, offset)).2 ≤ (d.outputText ++ textOf ts).length := by
  induction ts generalizing d offset with
  | nil => simp [appendTokens, textOf, h]
  | cons t ts ih =>
    rw [appendTokens]
    set d' : Detokenizer :=
      { d with tokenIds := d.tokenIds ++ [t.id], outputText := d.outputText ++ t.text } with hd'
    set offset' :=
      if p.minTokens ≠ 0 ∧ d'.numOutputTokens ≤ p.minTokens then d'.outputText.length else offset
      with hoffset'
    have hlen : d.outputText.length ≤ d'.outputText.length := by simp [hd']
    have hbounds : offset ≤ offset' ∧ offset' ≤ d'.outputText.length := by
      rw [hoffset']
      split_ifs
      · exact ⟨h.trans hlen, le_rfl⟩
      · exact ⟨le_rfl, h.trans hlen⟩
    obtain ⟨heq, hlo, hhi⟩ := ih d' hbounds.2
    have htext : d'.outputText ++ textOf ts = d.outputText ++ textOf (t :: ts) := by
      simp [hd', textOf]
    rw [htext] at heq hhi
    refine ⟨?_, hbounds.1.trans hlo, hhi⟩
    rw [heq, hd']
    simp

/-- A stop string is no longer than the buffer and one. -/
theorem length_le_stopBufferLength {s : List Char} (hs : s ∈ p.stop)
    (h : ¬ p.includeStopStrInOutput) : s.length ≤ p.stopBufferLength + 1 := by
  have hle : s.length ≤ (p.stop.map length).foldl max 0 := by
    rw [foldl_eq_foldr]
    exact le_max_of_le' 0 (mem_map_of_mem hs) (Nat.le_refl _)
  rw [DetokenizerParams.stopBufferLength, if_pos ⟨ne_nil_of_mem hs, h⟩]
  omega

/-- **The search for stop strings** keeps the text, or cuts off at most the stop buffer in front of
the offset. -/
theorem evaluateStop_spec (p : DetokenizerParams) (d : Detokenizer)
    (h : offset ≤ d.outputText.length) :
    evaluateStop p d offset = (none, d) ∨
      ∃ s n, offset - p.stopBufferLength ≤ n ∧
        evaluateStop p d offset = (some s, { d with outputText := d.outputText.take n }) := by
  unfold evaluateStop
  split_ifs with hcheck
  · rcases checkStopStrings_eq p.stop p.stop_ne_nil h p.includeStopStrInOutput with
      ⟨hnone, -⟩ | ⟨s, e, trunc, hsome, hfind, hfirst, htrunc⟩
    · rw [hnone]
      exact .inl rfl
    · have hcut : offset - p.stopBufferLength ≤
          if p.includeStopStrInOutput then e else e - s.length := by
        have hlt := hfirst.lt
        split_ifs with hincl
        · omega
        · have := length_le_stopBufferLength (mem_of_find?_eq_some hfind) hincl
          omega
      rw [hsome]
      refine .inr ⟨s, _, hcut, ?_⟩
      rcases trunc with - | n
      · rw [← htrunc]
        rfl
      · rw [← htrunc]
        rfl
  · exact .inl rfl

/-- What `update` does to the text: it grows, or a stop string cuts it, behind what the stop buffer
leaves. -/
inductive TextUpdate (p : DetokenizerParams) (old : List Char) : Option (List Char) → List Char →
    Prop
  | grows {new : List Char} : TextUpdate p old none (old ++ new)
  | cut {s new : List Char} {n : ℕ} : old.length - p.stopBufferLength ≤ n →
      TextUpdate p old (some s) ((old ++ new).take n)

section

variable (p : DetokenizerParams) (d : Detokenizer)

/-- What `evaluateStop` leaves of an appended text. -/
theorem textUpdate_evaluateStop (hd : d.outputText = old ++ new) (hlo : old.length ≤ offset)
    (hhi : offset ≤ d.outputText.length) :
    (evaluateStop p d offset).2.tokenIds = d.tokenIds ∧
      TextUpdate p old (evaluateStop p d offset).1 (evaluateStop p d offset).2.outputText := by
  rcases evaluateStop_spec p d hhi with heq | ⟨s, n, hn, heq⟩
  · rw [heq, hd]
    exact ⟨rfl, .grows⟩
  · rw [heq]
    refine ⟨rfl, ?_⟩
    rw [hd]
    exact .cut (by omega)

/-- **One update**: the ids are appended, and the text grows or is cut. -/
theorem update_spec (ts : List Token) (stopTerminated : Bool) :
    (d.update p ts stopTerminated).2.tokenIds = d.tokenIds ++ ts.map (·.id) ∧
      TextUpdate p d.outputText (d.update p ts stopTerminated).1
        (d.update p ts stopTerminated).2.outputText := by
  have hsame : TextUpdate p d.outputText none d.outputText := by
    conv => arg 4; rw [← append_nil d.outputText]
    exact .grows
  unfold Detokenizer.update
  split_ifs with hdet
  · unfold update
    split_ifs with hnil hstop
    · rw [hnil, map_nil, append_nil]
      exact ⟨rfl, hsame⟩
    · obtain ⟨heq, hlo, hhi⟩ := appendTokens_eq p ts.dropLast d le_rfl
      set res := appendTokens p ts.dropLast (d, d.outputText.length)
      set d' : Detokenizer :=
        { res.1 with tokenIds := res.1.tokenIds ++ ts.getLast?.toList.map (·.id) } with hd'
      have hd : d'.outputText = d.outputText ++ textOf ts.dropLast := by rw [hd', heq]
      obtain ⟨hids, htext⟩ := textUpdate_evaluateStop p d' hd hlo (by rw [hd]; exact hhi)
      refine ⟨hids.trans ?_, htext⟩
      rw [hd', heq]
      rw [append_assoc, ← map_append, getLast?_eq_some_getLast hnil]
      simp [dropLast_append_getLast hnil]
    · obtain ⟨heq, hlo, hhi⟩ := appendTokens_eq p ts d le_rfl
      set res := appendTokens p ts (d, d.outputText.length)
      have hd : res.1.outputText = d.outputText ++ textOf ts := by rw [heq]
      obtain ⟨hids, htext⟩ := textUpdate_evaluateStop p res.1 hd hlo (by rw [hd]; exact hhi)
      refine ⟨hids.trans ?_, htext⟩
      rw [heq]
  · exact ⟨rfl, hsame⟩

/-- The loop of `update` does not read how much text was sent. -/
theorem appendTokens_offset (ts : List Token) (offset x : ℕ) :
    appendTokens p ts ({ d with lastOutputTextOffset := x }, offset) =
      ({ (appendTokens p ts (d, offset)).1 with
          lastOutputTextOffset := x },
        (appendTokens p ts (d, offset)).2) := by
  induction ts generalizing d offset with
  | nil => rfl
  | cons t ts ih =>
    exact ih { d with tokenIds := d.tokenIds ++ [t.id], outputText := d.outputText ++ t.text } _

/-- Nor does the search for stop strings. -/
theorem evaluateStop_offset (offset x : ℕ) :
    evaluateStop p { d with lastOutputTextOffset := x } offset =
      ((evaluateStop p d offset).1,
        { (evaluateStop p d offset).2 with
          lastOutputTextOffset := x }) := by
  unfold evaluateStop
  show (if p.stop ≠ [] ∧ p.minTokens < d.numOutputTokens then _ else _) = _
  split_ifs
  · rcases checkStopStrings d.outputText (d.outputText.length - offset)
      p.stop p.includeStopStrInOutput with - | ⟨s, - | n⟩ <;> rfl
  · rfl

/-- **What is generated does not depend on what was sent.** -/
theorem update_offset (ts : List Token) (stopTerminated : Bool) (x : ℕ) :
    Detokenizer.update p ts stopTerminated { d with lastOutputTextOffset := x } =
      ((d.update p ts stopTerminated).1,
        { (d.update p ts stopTerminated).2 with lastOutputTextOffset := x }) := by
  unfold Detokenizer.update update
  split_ifs
  · rfl
  · dsimp only
    rw [appendTokens_offset]
    exact evaluateStop_offset p
      { (appendTokens p ts.dropLast (d, d.outputText.length)).1 with
        tokenIds := _ } _ x
  · dsimp only
    rw [appendTokens_offset]
    exact evaluateStop_offset p _ _ x
  · rfl

end

/-- **The text that was sent stays** a first part of the text if the stop buffer was held back; and
the buffer can be held back as before if no stop string was matched. -/
theorem TextUpdate.take_eq {r : Option (List Char)} {x : ℕ} (h : TextUpdate p old r new)
    (hx : x ≤ old.length - p.stopBufferLength) :
    new.take x = old.take x ∧ x ≤ new.length ∧
      (r = none → x ≤ new.length - p.stopBufferLength) := by
  cases h with
  | grows =>
    rw [take_append_of_le_length (by omega), length_append]
    exact ⟨rfl, by omega, fun _ ↦ by omega⟩
  | cut hn =>
    rw [take_take, min_eq_left (hx.trans hn), take_append_of_le_length (by omega),
      length_take, length_append]
    exact ⟨rfl, by omega, nofun⟩

/-- Without a tokenizer there is no text. -/
theorem outputText_update (ts : List Token) (stopTerminated : Bool) (d : Detokenizer)
    (hdet : p.detokenize = false) : (d.update p ts stopTerminated).2.outputText = d.outputText := by
  rw [Detokenizer.update, if_neg (by rw [hdet]; exact Bool.false_ne_true)]

/-- **The next delta of the text** continues what was sent, up to the end when the request has
finished and up to the stop buffer otherwise. -/
theorem getNextOutputText_delta (finished : Bool) {d : Detokenizer}
    (hdet : p.detokenize = false → d.outputText = [])
    (hoff : d.lastOutputTextOffset ≤ d.outputText.length) :
    ∃ x, d.getNextOutputText p finished true =
        ((d.outputText.take x).drop d.lastOutputTextOffset, { d with lastOutputTextOffset := x }) ∧
      d.lastOutputTextOffset ≤ x ∧ x ≤ d.outputText.length ∧
      (finished = true → x = d.outputText.length) ∧
      (d.lastOutputTextOffset ≤ d.outputText.length - p.stopBufferLength → finished = false →
        x ≤ d.outputText.length - p.stopBufferLength) := by
  have hnone : (d.outputText.take d.lastOutputTextOffset).drop d.lastOutputTextOffset = [] :=
    drop_eq_nil_of_le (length_take_le _ _)
  unfold Detokenizer.getNextOutputText
  by_cases hd : p.detokenize = true
  · unfold getNextOutputText
    set buffer := if finished then 0 else p.stopBufferLength with hbuffer
    have hfin : finished = true → buffer = 0 := fun hf ↦ by rw [hbuffer, if_pos hf]
    have hrun : finished = false → buffer = p.stopBufferLength := fun hf ↦ by rw [hbuffer, hf]; rfl
    rw [if_neg (not_not.2 rfl)]
    split_ifs with hlt
    · exact ⟨_, rfl, hlt.le, Nat.sub_le _ _, fun hf ↦ by rw [hfin hf, Nat.sub_zero],
        fun _ hf ↦ by rw [hrun hf]⟩
    · refine ⟨d.lastOutputTextOffset, by rw [hnone], le_rfl, hoff, fun hf ↦ ?_, fun h _ ↦ h⟩
      have := hfin hf
      omega
  · have hlen : d.outputText.length = 0 := by rw [hdet (Bool.eq_false_iff.2 hd), length_nil]
    rw [if_neg hd]
    exact ⟨d.lastOutputTextOffset, by rw [hnone], le_rfl, hoff, fun _ ↦ by omega, fun h _ ↦ h⟩

end

end OneCatVllm
