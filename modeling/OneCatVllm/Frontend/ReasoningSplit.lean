import OneCatVllm.Frontend.DecodeStream

/-!
# Splitting reasoning from content

`DelimitedReasoningParser` splits a stream of text deltas at two delimiters. A push keeps back the
longest suffix of its buffer that may still become a delimiter, and parses the text before it.
`split` says what a text means, one character after the other, with no search and no buffer.

**No delimiter is cut** (`not_cut`): the first character of a delimiter occurs in none of them
again, so that a delimiter which begins in the stable text does not reach into the suffix that is
kept back, and the suffix is the longest, so that it does not reach beyond.
-/

namespace OneCatVllm.Frontend

open List Substring

/-! ### The parser -/

structure ReasoningDelta where
  reasoning : Option Text := none
  content : Option Text := none
  deriving DecidableEq

namespace ReasoningDelta

/-- Append text to a portion, creating it on first use. -/
def pushStr (portion : Option Text) (text : Text) : Option Text :=
  if text = [] then portion else some (portion.getD [] ++ text)

/-- `push_reasoning`, or `push_content`. -/
def push (inReasoning : Bool) (delta : ReasoningDelta) (text : Text) : ReasoningDelta :=
  if inReasoning then { delta with reasoning := pushStr delta.reasoning text }
  else { delta with content := pushStr delta.content text }

/-- The reasoning of a delta, or its content. -/
def text (inReasoning : Bool) (delta : ReasoningDelta) : Text :=
  (if inReasoning then delta.reasoning else delta.content).getD []

theorem text_push (b k : Bool) (δ : ReasoningDelta) (x : Text) :
    (δ.push b x).text k = δ.text k ++ if b = k then x else [] := by
  have h (portion : Option Text) : (pushStr portion x).getD [] = portion.getD [] ++ x := by
    rw [pushStr]
    split_ifs with hx
    · rw [hx, append_nil]
    · rfl
  cases b <;> cases k <;> simp [push, text, h]

end ReasoningDelta

/-- The shipped pairs of delimiters. -/
inductive ReasoningDelimiters
  | think
  | channel
  | startThinking
  | kimi
  deriving DecidableEq

namespace ReasoningDelimiters

def startToken : ReasoningDelimiters → Text
  | think => "<think>".toList
  | channel => "<|channel>".toList
  | startThinking => "<|START_THINKING|>".toList
  | kimi => "◁think▷".toList

def endToken : ReasoningDelimiters → Text
  | think => "</think>".toList
  | channel => "<channel|>".toList
  | startThinking => "<|END_THINKING|>".toList
  | kimi => "◁/think▷".toList

variable (d : ReasoningDelimiters)

/-- The delimiter that the parser looks for. -/
def awaited (inReasoning : Bool) : Text := if inReasoning then d.endToken else d.startToken

/-- The first character of both delimiters. -/
def first : ReasoningDelimiters → Char
  | kimi => '◁'
  | _ => '<'

theorem awaited_eq (b : Bool) : ∃ t, d.awaited b = d.first :: t ∧ d.first ∉ t :=
  ⟨(d.awaited b).tail, by cases d <;> cases b <;> decide⟩

theorem awaited_ne_nil (b : Bool) : d.awaited b ≠ [] := by
  obtain ⟨t, ht, -⟩ := d.awaited_eq b
  exact ht ▸ cons_ne_nil _ t

/-- The loop of `parse_stable_text`. -/
def parseStableText (inReasoning : Bool) (delta : ReasoningDelta) (stable : Text) :
    Bool × ReasoningDelta :=
  match _hfind : find stable (d.awaited inReasoning) 0 with
  | some idx => parseStableText (!inReasoning) (delta.push inReasoning (stable.take idx))
      (stable.drop (idx + (d.awaited inReasoning).length))
  | none => (inReasoning, delta.push inReasoning stable)
termination_by stable.length
decreasing_by
  have hne := d.awaited_ne_nil inReasoning
  have hle := ((find_eq_some_iff hne).1 _hfind).2.1.add_length_le hne
  have hpos := length_pos_iff.2 hne
  rw [length_drop]
  omega

/-- A suffix that may still become a delimiter. -/
def Partial (suffix : Text) : Prop := ∃ b, suffix <+: d.awaited b ∧ d.awaited b ≠ suffix

instance (suffix : Text) : Decidable (d.Partial suffix) := inferInstanceAs (Decidable (∃ _, _))

/-- One round of `partial_suffix_len`. -/
def longer (text : Text) (best idx : ℕ) : ℕ :=
  if d.Partial (text.drop idx) then max best (text.length - idx) else best

/-- `partial_suffix_len`: the proper suffixes, then the text itself. -/
def partialSuffixLen (text : Text) : ℕ :=
  (range' 1 (text.length - 1) ++ [0]).foldl (d.longer text) 0

end ReasoningDelimiters

/-- `DelimitedReasoningParser` after `initialize`. -/
structure DelimitedReasoningParser where
  currentInReasoning : Bool
  buffer : Text := []
  deriving DecidableEq

namespace DelimitedReasoningParser

variable (d : ReasoningDelimiters) (parser : DelimitedReasoningParser)

def push (delta : Text) : DelimitedReasoningParser × ReasoningDelta :=
  let buffer := parser.buffer ++ delta
  let stableLen := buffer.length - d.partialSuffixLen buffer
  let (inReasoning, out) := d.parseStableText parser.currentInReasoning {} (buffer.take stableLen)
  (⟨inReasoning, buffer.drop stableLen⟩, out)

def finish : ReasoningDelta := (d.parseStableText parser.currentInReasoning {} parser.buffer).2

/-- What the pushes of a stream and `finish` return. -/
def stream : DelimitedReasoningParser → List Text → List ReasoningDelta
  | parser, [] => [parser.finish d]
  | parser, delta :: deltas => (parser.push d delta).2 :: stream (parser.push d delta).1 deltas

end DelimitedReasoningParser

/-! ### What a text means -/

namespace ReasoningDelimiters

variable (d : ReasoningDelimiters)

/-- **The characters of a text outside its delimiters**, each with whether it is reasoning, and
whether the text ends in reasoning; its first `skip` characters belong to a delimiter. -/
def split : Bool → ℕ → Text → Bool × List (Bool × Char)
  | inReasoning, _, [] => (inReasoning, [])
  | inReasoning, skip + 1, _ :: text => split inReasoning skip text
  | inReasoning, 0, c :: text =>
    if d.awaited inReasoning <+: c :: text then
      split (!inReasoning) ((d.awaited inReasoning).length - 1) text
    else (split inReasoning 0 text).map id ((inReasoning, c) :: ·)

/-- The reasoning among such characters, or the content. -/
def part (inReasoning : Bool) (l : List (Bool × Char)) : Text :=
  (l.filter (·.1 = inReasoning)).map (·.2)

variable {d} {b : Bool} {x y : Text} {i k : ℕ}

theorem split_skip : d.split b k x = d.split b 0 (x.drop k) := by
  induction x generalizing k with
  | nil => cases k <;> rfl
  | cons c x ih =>
    cases k with
    | zero => rfl
    | succ k => exact ih

/-- Before the awaited delimiter all text is of one kind. -/
theorem split_take (h : ∀ j < i, ¬ OccursAt (d.awaited b) x j) :
    d.split b 0 x = (d.split b 0 (x.drop i)).map id ((x.take i).map (b, ·) ++ ·) := by
  induction i generalizing x with
  | zero => rfl
  | succ i ih =>
    cases x with
    | nil => rfl
    | cons c x =>
      have h₀ : ¬ d.awaited b <+: c :: x := h 0 i.succ_pos
      rw [split, if_neg h₀, ih fun j hj ↦ h (j + 1) (by omega)]
      rfl

/-- At the awaited delimiter the kind changes. -/
theorem split_drop (h : OccursAt (d.awaited b) x i) :
    d.split b 0 (x.drop i) = d.split (!b) 0 (x.drop (i + (d.awaited b).length)) := by
  rw [← drop_drop]
  obtain ⟨t, ht, -⟩ := d.awaited_eq b
  cases hx : x.drop i with
  | nil => exact absurd (prefix_nil.1 (hx ▸ h)) (d.awaited_ne_nil b)
  | cons c y => rw [split, if_pos (hx ▸ h), split_skip, ht]; rfl

theorem part_append (k : Bool) (l l' : List (Bool × Char)) :
    part k (l ++ l') = part k l ++ part k l' := by
  rw [part, filter_append, map_append]
  rfl

theorem part_map (k : Bool) : part k (x.map (b, ·)) = if b = k then x else [] := by
  rw [part, filter_map]
  split_ifs with h <;> simp [Function.comp_def, h]

/-- **The loop computes the split.** -/
theorem parseStableText_eq (b : Bool) (δ : ReasoningDelta) (x : Text) :
    (d.parseStableText b δ x).1 = (d.split b 0 x).1 ∧ ∀ k,
      (d.parseStableText b δ x).2.text k = δ.text k ++ part k (d.split b 0 x).2 := by
  fun_induction parseStableText d b δ x with
  | case1 b δ x i h ih =>
    obtain ⟨-, hocc, hmin⟩ := (find_eq_some_iff (d.awaited_ne_nil b)).1 h
    rw [split_take fun j hj ↦ hmin j j.zero_le hj, split_drop hocc]
    refine ⟨ih.1, fun k ↦ ?_⟩
    rw [ih.2, δ.text_push, append_assoc, ← part_map, part, part, ← map_append, ← filter_append]
    rfl
  | case2 b δ x h =>
    have hnone := (find_eq_none_iff (d.awaited_ne_nil b)).1 h
    rw [split_take (i := x.length) fun j _ ↦ hnone j j.zero_le, drop_length, take_length]
    refine ⟨rfl, fun k ↦ ?_⟩
    rw [δ.text_push, ← part_map, split, Prod.map, append_nil]

/-- No delimiter reaches from one text into the next. -/
def Apart (d : ReasoningDelimiters) (x y : Text) : Prop := ∀ b, ∀ i < x.length,
  OccursAt (d.awaited b) (x ++ y) i → i + (d.awaited b).length ≤ x.length

theorem split_append (hk : k ≤ x.length) (h : d.Apart x y) :
    d.split b k (x ++ y) = (d.split (d.split b k x).1 0 y).map id ((d.split b k x).2 ++ ·) := by
  induction x generalizing b k with
  | nil =>
    obtain rfl := Nat.le_zero.1 hk
    rfl
  | cons c x ih =>
    have hx : d.Apart x y := fun b i hi hocc ↦ by
      have := h b (i + 1) (Nat.succ_lt_succ hi) hocc
      rw [length_cons] at this
      omega
    cases k with
    | succ k => exact ih (Nat.le_of_succ_le_succ hk) hx
    | zero =>
      have hiff : d.awaited b <+: c :: (x ++ y) ↔ d.awaited b <+: c :: x := by
        refine ⟨fun hocc ↦ ?_, fun hocc ↦ hocc.trans (prefix_append (c :: x) y)⟩
        have hle := h b 0 (Nat.succ_pos _) hocc
        rw [Nat.zero_add] at hle
        exact prefix_of_prefix_length_le hocc (prefix_append (c :: x) y) hle
      rw [cons_append, split, split]
      simp only [hiff]
      split_ifs with hocc
      · exact ih (Nat.sub_le_of_le_add hocc.length_le) hx
      · rw [ih (Nat.zero_le _) hx]
        rfl

/-! ### The suffix that is kept back -/

/-- The loop finds the longest suffix that may become a delimiter, among those it looks at. -/
theorem foldl_longer_spec (l : List ℕ) (best : ℕ) : best ≤ l.foldl (d.longer x) best ∧
    (∀ i ∈ l, d.Partial (x.drop i) → x.length - i ≤ l.foldl (d.longer x) best) ∧
    (l.foldl (d.longer x) best = best ∨
      ∃ i ∈ l, d.Partial (x.drop i) ∧ l.foldl (d.longer x) best = x.length - i) := by
  induction l generalizing best with
  | nil => exact ⟨le_rfl, nofun, .inl rfl⟩
  | cons i l ih =>
    obtain ⟨hle, hall, hlast⟩ := ih (d.longer x best i)
    rw [foldl_cons, forall_mem_cons, exists_mem_cons_iff]
    generalize l.foldl _ _ = n at hle hall hlast
    unfold longer at hle hlast
    split_ifs at hle hlast with hp
    · refine ⟨le_trans (le_max_left ..) hle, ⟨fun _ ↦ le_trans (le_max_right ..) hle, hall⟩, ?_⟩
      rcases hlast with rfl | hlast
      · rcases le_total (x.length - i) best with hm | hm
        · exact .inl (max_eq_left hm)
        · exact .inr (.inl ⟨hp, max_eq_right hm⟩)
      · exact .inr (.inr hlast)
    · exact ⟨hle, ⟨fun h ↦ absurd h hp, hall⟩, hlast.imp_right .inr⟩

theorem Partial.getElem?_zero (h : d.Partial x) (hne : x ≠ []) : x[0]? = some d.first := by
  obtain ⟨b, hpre, -⟩ := h
  obtain ⟨t, ht, -⟩ := d.awaited_eq b
  obtain ⟨c, x, rfl⟩ := exists_cons_of_ne_nil hne
  rw [ht] at hpre
  exact congrArg some (cons_prefix_cons.1 hpre).1

/-- Inside of a delimiter its first character does not come again. -/
theorem getElem?_ne_first (h : d.awaited b <+: x) (hi : 0 < i) (hlt : i < (d.awaited b).length) :
    x[i]? ≠ some d.first := by
  obtain ⟨y, rfl⟩ := h
  obtain ⟨t, ht, hfirst⟩ := d.awaited_eq b
  rw [getElem?_append_left hlt, ht]
  cases i with
  | zero => cases hi
  | succ i => exact fun hsome ↦ hfirst (mem_of_getElem? hsome)

/-- **No delimiter is cut** at the end of the stable text. -/
theorem not_cut (x y : Text) : d.Apart (x.take (x.length - d.partialSuffixLen x))
    (x.drop (x.length - d.partialSuffixLen x) ++ y) := by
  intro b i hi h
  rw [← append_assoc, take_append_drop] at h
  rw [length_take_of_le (Nat.sub_le ..)] at hi ⊢
  obtain ⟨-, hall, hlast⟩ := foldl_longer_spec (d := d) (x := x) (range' 1 (x.length - 1) ++ [0]) 0
  rw [← partialSuffixLen] at hall hlast
  rw [OccursAt, drop_append_of_le_length (by omega)] at h
  rcases lt_or_ge x.length (i + (d.awaited b).length) with hlong | hshort
  · -- the delimiter reaches beyond the text, whose suffix from it on is then kept back
    clear hlast
    have hlt : (x.drop i).length < (d.awaited b).length := by
      rw [length_drop]
      omega
    have := hall i (by simp; omega)
      ⟨b, prefix_of_prefix_length_le (prefix_append _ y) h hlt.le, fun heq ↦ hlt.ne (heq ▸ rfl)⟩
    omega
  · -- the suffix kept back would begin inside of the delimiter
    by_contra hcut
    obtain h₀ | ⟨j, -, hj, hn⟩ := hlast
    · omega
    have hne : x.drop j ≠ [] := by
      rw [ne_eq, drop_eq_nil_iff]
      omega
    refine getElem?_ne_first (i := j - i) h (by omega) (by omega) ?_
    rw [← hj.getElem?_zero hne, getElem?_append_left (by rw [length_drop]; omega), getElem?_drop,
      getElem?_drop]
    congr 1
    omega

end ReasoningDelimiters

namespace DelimitedReasoningParser

open ReasoningDelimiters

variable (d : ReasoningDelimiters)

theorem stream_eq (k : Bool) (deltas : List Text) (p : DelimitedReasoningParser) :
    (p.stream d deltas).flatMap (·.text k) =
      part k (d.split p.currentInReasoning 0 (p.buffer ++ deltas.flatten)).2 := by
  have hnil : ReasoningDelta.text k {} = [] := by cases k <;> rfl
  induction deltas generalizing p with
  | nil =>
    rw [flatten_nil, append_nil, stream, flatMap_singleton, finish, (parseStableText_eq ..).2, hnil]
    rfl
  | cons delta deltas ih =>
    rw [stream, flatMap_cons, ih, flatten_cons, ← append_assoc]
    simp only [push]
    generalize p.buffer ++ delta = x
    rw [(parseStableText_eq ..).1, (parseStableText_eq ..).2, hnil, nil_append]
    conv_rhs => rw [← x.take_append_drop (x.length - d.partialSuffixLen x), append_assoc]
    rw [split_append (Nat.zero_le _) (not_cut x _), Prod.map, part_append]

/-- **The split does not depend on the chunking**: whatever the deltas, the reasoning and content
returned are those of the whole text. -/
theorem stream_splits (b k : Bool) (deltas : List Text) :
    (stream d ⟨b, []⟩ deltas).flatMap (·.text k) = part k (d.split b 0 deltas.flatten).2 :=
  stream_eq d k deltas ⟨b, []⟩

end DelimitedReasoningParser

end OneCatVllm.Frontend
