import OneCatVllm.Frontend.ReasoningSplit

/-!
# Gemma4's thought label

`Gemma4ReasoningParser` removes the label `thought` and a newline from the front of the reasoning
that the delimited parser returns. It keeps the reasoning back while that may still become the
label, and `finish` does not release it: `shown` is what is returned of a reasoning part.
-/

namespace OneCatVllm.Frontend

open List ReasoningDelimiters

/-- `THOUGHT_PREFIX`. -/
def thoughtPrefix : Text := "thought\n".toList

structure Gemma4ReasoningParser where
  inner : DelimitedReasoningParser
  reasoningText : Text := []
  prefixStripped : Bool := false
  deriving DecidableEq

namespace Gemma4ReasoningParser

variable (parser : Gemma4ReasoningParser)

def stripThoughtPrefix (reasoning : Text) : Gemma4ReasoningParser × Option Text :=
  if parser.prefixStripped then (parser, some reasoning) else
  let reasoningText := parser.reasoningText ++ reasoning
  let kept := { parser with reasoningText }
  let done := { parser with reasoningText := [], prefixStripped := true }
  if thoughtPrefix <+: reasoningText then
    let prefixLen := thoughtPrefix.length
    let previousLen := reasoningText.length - reasoning.length
    if prefixLen ≤ previousLen then (done, some reasoning) else
    let stripped := reasoning.drop (min (prefixLen - previousLen) reasoning.length)
    if stripped = [] then (if prefixLen ≤ reasoningText.length then done else kept, none)
    else (done, some stripped)
  else if reasoningText <+: thoughtPrefix then (kept, none)
  else (done, some reasoningText)

def postProcess (result : ReasoningDelta) : Gemma4ReasoningParser × ReasoningDelta :=
  match result.reasoning with
  | some reasoning =>
    let (parser, text) := parser.stripThoughtPrefix reasoning
    (parser, { result with reasoning := text.filter (· ≠ []) })
  | none => (parser, result)

def push (delta : Text) : Gemma4ReasoningParser × ReasoningDelta :=
  let (inner, result) := parser.inner.push channel delta
  { parser with inner }.postProcess result

def finish : ReasoningDelta := (parser.postProcess (parser.inner.finish channel)).2

/-- What the pushes of a stream and `finish` return. -/
def stream : Gemma4ReasoningParser → List Text → List ReasoningDelta
  | parser, [] => [parser.finish]
  | parser, delta :: deltas => (parser.push delta).2 :: stream (parser.push delta).1 deltas

/-! ### What is returned of the reasoning -/

/-- A reasoning part without its label. -/
def unlabelled (x : Text) : Text :=
  if thoughtPrefix <+: x then x.drop thoughtPrefix.length else x

/-- Reasoning that may still become the label. -/
def Kept (x : Text) : Prop := x <+: thoughtPrefix ∧ x ≠ thoughtPrefix

instance (x : Text) : Decidable (Kept x) := inferInstanceAs (Decidable (_ ∧ _))

/-- What the parser has returned of the reasoning `x`. -/
def shown (x : Text) : Text := if Kept x then [] else unlabelled x

/-- The parser behind the reasoning `x`. -/
def after (inner : DelimitedReasoningParser) (x : Text) : Gemma4ReasoningParser :=
  ⟨inner, if Kept x then x else [], !Kept x⟩

variable {x y : Text} {p : DelimitedReasoningParser}

theorem Kept.not_label (h : Kept x) : ¬ thoughtPrefix <+: x := fun hlabel ↦
  h.2 (h.1.eq_of_length_le hlabel.length_le)

/-- Once the label is decided on, all reasoning is returned. -/
theorem unlabelled_append (h : ¬ Kept x) :
    ¬ Kept (x ++ y) ∧ unlabelled (x ++ y) = unlabelled x ++ y := by
  have hle := prefix_append x y
  unfold unlabelled
  by_cases hlabel : thoughtPrefix <+: x
  · refine ⟨fun hkept ↦ hkept.not_label (hlabel.trans hle), ?_⟩
    rw [if_pos hlabel, if_pos (hlabel.trans hle), drop_append_of_le_length hlabel.length_le]
  · have hx : ¬ x <+: thoughtPrefix := fun hx ↦ h ⟨hx, fun heq ↦ hlabel (heq ▸ prefix_rfl)⟩
    refine ⟨fun hkept ↦ hx (hle.trans hkept.1), ?_⟩
    rw [if_neg hlabel, if_neg fun hl ↦ not_or_intro hlabel hx <| prefix_or_prefix_of_prefix hl hle]

/-- **One piece of reasoning**: whatever came before, the parser returns what `shown` gains. -/
theorem stripThoughtPrefix_after :
    ((after p x).stripThoughtPrefix y).1 = after p (x ++ y) ∧
      shown (x ++ y) = shown x ++ ((after p x).stripThoughtPrefix y).2.getD [] := by
  by_cases hx : Kept x
  · have hlt : x.length < thoughtPrefix.length :=
      lt_of_le_of_ne hx.1.length_le fun hlen ↦ hx.2 (hx.1.eq_of_length hlen)
    by_cases hlabel : thoughtPrefix <+: x ++ y
    · have hkept : ¬ Kept (x ++ y) := fun hkept ↦ hkept.not_label hlabel
      have hle := hlabel.length_le
      rw [length_append] at hle
      have hmin := Nat.min_eq_left (Nat.sub_le_iff_le_add'.2 hle)
      by_cases hempty : y.drop (thoughtPrefix.length - x.length) = [] <;>
        simp [after, shown, unlabelled, stripThoughtPrefix, hx, hlabel, hkept, hlt.not_ge, hlt.le,
          hle, hmin, hempty, drop_append]
    · have hkept : Kept (x ++ y) ↔ x ++ y <+: thoughtPrefix :=
        and_iff_left fun heq ↦ hlabel (heq ▸ prefix_rfl)
      by_cases hpre : x ++ y <+: thoughtPrefix <;>
        simp [after, shown, unlabelled, stripThoughtPrefix, hx, hlabel, hkept, hpre]
  · obtain ⟨hkept, hshown⟩ := unlabelled_append (y := y) hx
    simp [after, shown, stripThoughtPrefix, hx, hkept, hshown]

theorem postProcess_after (δ : ReasoningDelta) :
    ((after p x).postProcess δ).1 = after p (x ++ δ.text true) ∧
      shown (x ++ δ.text true) = shown x ++ ((after p x).postProcess δ).2.text true := by
  have hfilter (t : Option Text) : (t.filter (· ≠ [])).getD [] = t.getD [] := by
    cases t with
    | none => rfl
    | some t => cases t <;> rfl
  unfold postProcess
  cases h : δ.reasoning with
  | none => simp [ReasoningDelta.text, h]
  | some y =>
    have htext : δ.text true = y := by simp [ReasoningDelta.text, h]
    obtain ⟨h₁, h₂⟩ := stripThoughtPrefix_after (p := p) (x := x) (y := y)
    rw [htext, h₂]
    exact ⟨h₁, congrArg _ (hfilter _).symm⟩

/-- **A stream returns what `shown` gains** by the reasoning of the delimited parser. -/
theorem shown_stream (deltas : List Text) :
    shown (x ++ (p.stream channel deltas).flatMap (·.text true)) =
      shown x ++ ((after p x).stream deltas).flatMap (·.text true) := by
  induction deltas generalizing p x with
  | nil =>
    rw [stream, DelimitedReasoningParser.stream, flatMap_singleton, flatMap_singleton]
    exact (postProcess_after _).2
  | cons delta deltas ih =>
    obtain ⟨h₁, h₂⟩ := postProcess_after (p := (p.push channel delta).1) (x := x)
      (p.push channel delta).2
    have hpush : (after p x).push delta =
        (after (p.push channel delta).1 x).postProcess (p.push channel delta).2 := rfl
    rw [stream, hpush, DelimitedReasoningParser.stream, flatMap_cons, flatMap_cons, ← append_assoc,
      ih, h₁, h₂, append_assoc]

theorem stream_reasoning (b : Bool) (deltas : List Text) :
    (stream ⟨⟨b, []⟩, [], false⟩ deltas).flatMap (·.text true) =
      shown (part true (channel.split b 0 deltas.flatten).2) := by
  have h := shown_stream (p := ⟨b, []⟩) (x := []) deltas
  rw [DelimitedReasoningParser.stream_eq] at h
  exact h.symm

/-- **Only a part of the label is lost**: whatever the deltas, the reasoning returned is that of
the whole text without its label, unless the reasoning is a proper part of the label. -/
theorem stream_unlabelled_iff (b : Bool) (deltas : List Text) :
    (stream ⟨⟨b, []⟩, [], false⟩ deltas).flatMap (·.text true) =
        unlabelled (part true (channel.split b 0 deltas.flatten).2) ↔
      (Kept (part true (channel.split b 0 deltas.flatten).2) →
        part true (channel.split b 0 deltas.flatten).2 = []) := by
  rw [stream_reasoning]
  rw [shown]
  split_ifs with hx
  · rw [unlabelled, if_neg hx.not_label, eq_comm, forall_prop_of_true hx]
  · exact iff_of_true rfl fun h ↦ absurd h hx

/-- The reasoning `thou` is lost. -/
theorem stream_loses_thou :
    (stream ⟨⟨false, []⟩, [], false⟩ ["<|channel>thou".toList]).flatMap (·.text true) ≠
      unlabelled (part true (channel.split false 0 "<|channel>thou".toList).2) := by
  rw [stream_reasoning]
  decide

end Gemma4ReasoningParser

end OneCatVllm.Frontend
