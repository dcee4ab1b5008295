import Mathlib.Data.List.Find
import OneCatVllm.Engine.Detokenizer

/-!
# Stop strings and the grouping of tokens

With speculative decoding an engine output brings several tokens at once, and `update` looks for
stop strings in the text of all of them. `Outcome` says what a detokenizer has found after a list of
tokens: nothing, or **the first listed of the stop strings that have ended** so far, at its first
end. A group of tokens therefore gives the result of its tokens one by one unless a stop string
ends in it after another one that is listed later (`sameStop_iff`).

Tokens up to `min_tokens` take no part: a stop string counts if it ends behind their text.
-/

namespace OneCatVllm

open BaseIncrementalDetokenizer Detokenizer List Nat Substring

/-! ### Feeding tokens -/

/-- Feed groups of tokens to a detokenizer until a stop string is matched. -/
def feed (p : DetokenizerParams) : List (List Token) → Detokenizer →
    Option (List Char) × Detokenizer
  | [], d => (none, d)
  | g :: groups, d =>
    match BaseIncrementalDetokenizer.update p g false d with
    | (some s, d') => (some s, d')
    | (none, d') => feed p groups d'

section

variable (p : DetokenizerParams) (ts : List Token)

/-- A stop string has ended in the text of `ts`, behind the minimal number of tokens. -/
def Ended (s : List Char) : Prop :=
  EndsIn s (textOf ts) (textOf (ts.take p.minTokens)).length (textOf ts).length

instance (s : List Char) : Decidable (Ended p ts s) :=
  inferInstanceAs (Decidable (EndsIn _ _ _ _))

/-- The detokenizer has taken in the tokens `ts` and truncated nothing. -/
structure Fed (d : Detokenizer) : Prop where
  tokenIds : d.tokenIds = ts.map (·.id)
  outputText : d.outputText = textOf ts

/-- The text that is left when a stop string with its first end at `e` is matched. -/
def truncated (text s : List Char) (e : ℕ) : List Char :=
  text.take (if p.includeStopStrInOutput then e else e - s.length)

end

/-- **What a detokenizer has found** in the tokens `ts`. -/
inductive Outcome (p : DetokenizerParams) (ts : List Token) :
    Option (List Char) × Detokenizer → Prop
  | runs {d : Detokenizer} : (∀ s ∈ p.stop, ¬ Ended p ts s) → Fed ts d → Outcome p ts (none, d)
  | stops {s : List Char} {e : ℕ} {d : Detokenizer} :
      p.stop.find? (fun s ↦ decide (Ended p ts s)) = some s →
      FirstEnd s (textOf ts) (textOf (ts.take p.minTokens)).length e →
      d.outputText = truncated p (textOf ts) s e → Outcome p ts (some s, d)

section

variable {p : DetokenizerParams} {ts past g : List Token} {d : Detokenizer} {s text : List Char}
  {n offset : ℕ}

@[simp] theorem textOf_append (ts ts' : List Token) :
    textOf (ts ++ ts') = textOf ts ++ textOf ts' :=
  flatMap_append

theorem length_textOf_take_le (ts : List Token) (n : ℕ) :
    (textOf (ts.take n)).length ≤ (textOf ts).length := by
  conv_rhs => rw [← take_append_drop n ts, textOf_append, length_append]
  exact le_add_right _ _

/-- Within the minimal number of tokens nothing has ended. -/
theorem not_ended_of_le (h : ts.length ≤ p.minTokens) : ¬ Ended p ts s := by
  rw [Ended, take_of_length_le h]
  rintro ⟨i, -, hlt, hle⟩
  omega

/-- The positions behind the minimal tokens are those of any longer list. -/
theorem take_minTokens_append (h : p.minTokens ≤ past.length) (g : List Token) :
    (past ++ g).take p.minTokens = past.take p.minTokens :=
  take_append_of_le_length h

/-- A stop string that has ended stays so. -/
theorem Ended.append (hs : s ≠ []) (h : Ended p past s) (g : List Token) :
    Ended p (past ++ g) s := by
  have hmin : p.minTokens ≤ past.length := by
    by_contra hlt
    exact not_ended_of_le (not_le.1 hlt).le h
  obtain ⟨i, hocc, hlt, hle⟩ := h
  rw [Ended, take_minTokens_append hmin, textOf_append]
  refine ⟨i, ?_, hlt, ?_⟩
  · have htake : (textOf past ++ textOf g).take (textOf past).length = textOf past := take_left
    rw [← htake] at hocc
    exact ((occursAt_take_iff hs).1 hocc).1
  · rw [length_append]
    omega

/-! ### One update -/

/-- **The loop of `update`**: the tokens are taken in, and stop strings are looked for behind the
old text and the minimal tokens. -/
theorem appendTokens_spec (h : Fed past d) (offset : ℕ) :
    Fed (past ++ g) (appendTokens p g (d, offset)).1 ∧
      (appendTokens p g (d, offset)).2 =
        if past.length < p.minTokens ∧ g ≠ [] then
          (textOf ((past ++ g).take p.minTokens)).length
        else offset := by
  induction g generalizing past d offset with
  | nil =>
    rw [append_nil, if_neg fun hg ↦ hg.2 rfl]
    exact ⟨h, rfl⟩
  | cons t g ih =>
    set d' : Detokenizer :=
      { d with tokenIds := d.tokenIds ++ [t.id], outputText := d.outputText ++ t.text } with hd'
    have hfed : Fed (past ++ [t]) d' := by
      refine ⟨?_, ?_⟩
      · rw [map_append, ← h.tokenIds]
        rfl
      · rw [hd', textOf_append, ← h.outputText]
        simp [textOf]
    have hnum : d'.numOutputTokens = past.length + 1 := by
      rw [numOutputTokens, hfed.tokenIds, length_map, length_append]
      rfl
    obtain ⟨hfed', hoffset⟩ := ih hfed
      (if p.minTokens ≠ 0 ∧ d'.numOutputTokens ≤ p.minTokens then d'.outputText.length else offset)
    rw [append_assoc] at hfed' hoffset
    refine ⟨hfed', hoffset.trans ?_⟩
    rw [hnum, length_append, length_singleton, hfed.outputText]
    by_cases hlt : past.length < p.minTokens
    · have hnew : (if p.minTokens ≠ 0 ∧ past.length + 1 ≤ p.minTokens then
          (textOf (past ++ [t])).length else offset) = (textOf (past ++ [t])).length :=
        if_pos ⟨by omega, hlt⟩
      rw [hnew, if_pos (show past.length < p.minTokens ∧ t :: g ≠ [] from ⟨hlt, nofun⟩)]
      split_ifs with hmore
      · rfl
      · -- the last of the minimal tokens, or the last of the group
        have htake : (past ++ t :: g).take p.minTokens = past ++ [t] := by
          rw [← singleton_append, ← append_assoc]
          rcases not_and_or.1 hmore with hge | hnil
          · rw [take_left' (by rw [length_append, length_singleton]; omega)]
          · rw [not_not.1 hnil, append_nil, take_of_length_le
              (by rw [length_append, length_singleton]; omega)]
        rw [htake]
    · rw [if_neg (fun hc ↦ hlt (by omega)), if_neg (fun hc ↦ hlt (by omega)),
        if_neg (fun hc ↦ hlt hc.1)]

/-- The search for one stop string, behind the offset. -/
theorem searchStart_eq (hs : s ≠ []) (h : offset ≤ text.length) :
    searchStart text (text.length - offset + s.length - 1) = offset + 1 - s.length := by
  have := length_pos_iff.2 hs
  unfold searchStart
  omega

/-- **`check_stop_strings`** returns the first listed stop string that ends behind the offset, with
the length of the text up to it. -/
theorem checkStopStrings_eq (stop : List (List Char)) (hstop : ∀ s ∈ stop, s ≠ [])
    (h : offset ≤ text.length) (incl : Bool) :
    (checkStopStrings text (text.length - offset) stop incl = none ∧
      ∀ s ∈ stop, ¬ EndsIn s text offset text.length) ∨
    ∃ s e trunc, checkStopStrings text (text.length - offset) stop incl = some (s, trunc) ∧
      stop.find? (fun s ↦ decide (EndsIn s text offset text.length)) = some s ∧
      FirstEnd s text offset e ∧
      trunc.elim text text.take = text.take (if incl then e else e - s.length) := by
  by_cases hzero : text.length - offset = 0
  · refine .inl ⟨if_pos hzero, ?_⟩
    rintro s - ⟨i, -, hlt, hle⟩
    omega
  rw [checkStopStrings, if_neg hzero]
  induction stop with
  | nil => exact .inl ⟨rfl, fun s hs ↦ absurd hs not_mem_nil⟩
  | cons s stop ih =>
    have hs := hstop s mem_cons_self
    rw [findSome?_cons, searchStart_eq hs h]
    rcases hfind : find text s (offset + 1 - s.length) with - | i
    · have hnot := (find_eq_none_iff_endsIn hs).1 hfind
      rw [find?_cons_of_neg (by simpa using hnot)]
      rcases ih fun s' hs' ↦ hstop s' (mem_cons_of_mem s hs') with ⟨hnone, hall⟩ | hsome
      · refine .inl ⟨hnone, fun s' hs' ↦ ?_⟩
        rcases mem_cons.1 hs' with rfl | hs'
        · exact hnot
        · exact hall s' hs'
      · exact .inr hsome
    · have hfirst := (find_eq_some_iff_firstEnd hs).1 hfind
      have hends := hfirst.endsIn (hfirst.le_length hs)
      rw [find?_cons_of_pos (by simpa using hends)]
      refine .inr ⟨s, i + s.length, ?_⟩
      rcases incl with - | -
      · exact ⟨some i, rfl, rfl, hfirst, by simp⟩
      · by_cases hlen : text.length ≤ i + s.length
        · refine ⟨none, by simp [hlen], rfl, hfirst, ?_⟩
          rw [if_pos rfl, take_of_length_le hlen]
          rfl
        · exact ⟨some (i + s.length), by simp [hlen], rfl, hfirst, by simp⟩

/-- **One update.** If no stop string had ended before, the group brings the first listed one that
has ended now. -/
theorem update_outcome (h : Fed past d) (hpast : ∀ s ∈ p.stop, ¬ Ended p past s) :
    Outcome p (past ++ g) (BaseIncrementalDetokenizer.update p g false d) := by
  unfold BaseIncrementalDetokenizer.update
  by_cases hg : g = []
  · rw [hg, append_nil]
    exact .runs hpast h
  rw [if_neg hg, if_neg (fun hc ↦ Bool.false_ne_true hc.1)]
  obtain ⟨hfed, hoffset⟩ := appendTokens_spec h d.outputText.length
  set res := appendTokens p g (d, d.outputText.length) with hres
  set lo := (textOf ((past ++ g).take p.minTokens)).length with hlo
  have hnum : res.1.numOutputTokens = (past ++ g).length := by
    rw [numOutputTokens, hfed.tokenIds, length_map]
  unfold evaluateStop
  by_cases hcheck : p.stop ≠ [] ∧ p.minTokens < res.1.numOutputTokens
  · rw [if_pos hcheck, hfed.outputText]
    have hle : res.2 ≤ (textOf (past ++ g)).length := by
      rw [hoffset, h.outputText]
      split_ifs
      · exact length_textOf_take_le _ _
      · rw [textOf_append, length_append]
        exact le_add_right _ _
    -- nothing ends between the minimal tokens and the offset
    have hends : lo ≤ res.2 ∧ ∀ s ∈ p.stop, ¬ EndsIn s (textOf (past ++ g)) lo res.2 := by
      rw [hoffset]
      split_ifs with hmin
      · refine ⟨le_rfl, fun s _ ⟨i, _, hlt, hle⟩ ↦ ?_⟩
        omega
      · have hmin : p.minTokens ≤ past.length := by
          by_contra hlt
          exact hmin ⟨not_le.1 hlt, hg⟩
        rw [hlo, take_minTokens_append hmin, h.outputText]
        refine ⟨length_textOf_take_le _ _, fun s hs hends ↦ hpast s hs ?_⟩
        have htake : (textOf (past ++ g)).take (textOf past).length = textOf past := by
          rw [textOf_append, take_left]
        rwa [Ended, ← htake, endsIn_take_iff (p.stop_ne_nil s hs), htake, min_self]
    have hiff : ∀ s ∈ p.stop, (EndsIn s (textOf (past ++ g)) res.2 (textOf (past ++ g)).length ↔
        Ended p (past ++ g) s) := fun s hs ↦
      ⟨fun h ↦ h.mono hends.1, fun h ↦ h.of_not (hends.2 s hs)⟩
    rcases checkStopStrings_eq p.stop p.stop_ne_nil hle p.includeStopStrInOutput with
      ⟨hnone, hall⟩ | ⟨s, e, trunc, hsome, hfind, hfirst, htrunc⟩
    · rw [hnone]
      exact .runs (fun s hs hended ↦ hall s hs ((hiff s hs).2 hended)) hfed
    · have hs : s ∈ p.stop := mem_of_find?_eq_some hfind
      have hfind' : p.stop.find? (fun s ↦ decide (Ended p (past ++ g) s)) = some s := by
        rw [← hfind]
        exact find?_congr fun s' hs' ↦ decide_eq_decide.2 (hiff s' hs').symm
      have hfirst' := hfirst.mono hends.1 (hends.2 s hs)
      rw [hsome]
      rcases trunc with - | n
      · exact .stops hfind' hfirst' (hfed.outputText.trans htrunc)
      · exact .stops hfind' hfirst' htrunc
  · rw [if_neg hcheck]
    refine .runs (fun s hs ↦ not_ended_of_le ?_) hfed
    rw [hnum] at hcheck
    by_contra hlt
    exact hcheck ⟨ne_nil_of_mem hs, not_le.1 hlt⟩

/-! ### Groups -/

/-- **Feeding groups**: nothing has ended in all of them, or the first group in which something ends
decides. -/
theorem feed_outcome (groups : List (List Token)) (h : Fed past d)
    (hpast : ∀ s ∈ p.stop, ¬ Ended p past s) :
    ((feed p groups d).1 = none ∧ Outcome p (past ++ groups.flatten) (feed p groups d)) ∨
    ∃ pre g post, groups = pre ++ g :: post ∧
      (∀ s ∈ p.stop, ¬ Ended p (past ++ pre.flatten) s) ∧
      (feed p groups d).1 ≠ none ∧ Outcome p (past ++ pre.flatten ++ g) (feed p groups d) := by
  induction groups generalizing past d with
  | nil =>
    refine .inl ⟨rfl, ?_⟩
    rw [flatten_nil, append_nil]
    exact .runs hpast h
  | cons g groups ih =>
    have hout := update_outcome (g := g) h hpast
    rw [feed]
    rcases hup : BaseIncrementalDetokenizer.update p g false d with ⟨s | s, d'⟩ <;>
      rw [hup] at hout
    · cases hout with
      | runs hnone hfed =>
        rcases ih hfed hnone with ⟨hres, hrest⟩ | ⟨pre, g', post, rfl, hpre, hres, hrest⟩
        · refine .inl ⟨hres, ?_⟩
          rwa [flatten_cons, ← append_assoc]
        · refine .inr ⟨g :: pre, g', post, rfl, ?_, hres, ?_⟩
          · rwa [flatten_cons, ← append_assoc]
          · rwa [flatten_cons, ← append_assoc past]
    · refine .inr ⟨[], g, groups, rfl, ?_, Option.some_ne_none s, ?_⟩
      · rwa [flatten_nil, append_nil]
      · rwa [flatten_nil, append_nil]

section

variable (p : DetokenizerParams) (groups : List (List Token))

/-- **The stop strings end in the order of the list** in the group that decides: when one has ended
with a token of the group, every stop string that has ended with the whole group is listed at or
behind one that has ended with the token. -/
def StopsInOrder : Prop :=
  ∀ pre g post, groups = pre ++ g :: post → (∀ s ∈ p.stop, ¬ Ended p pre.flatten s) →
    ∀ g₁ t g₂, g = g₁ ++ t :: g₂ → (∃ s ∈ p.stop, Ended p (pre.flatten ++ (g₁ ++ [t])) s) →
      ∀ s ∈ p.stop, Ended p (pre.flatten ++ g) s →
        ∃ s' ∈ p.stop, Ended p (pre.flatten ++ (g₁ ++ [t])) s' ∧ p.stop.idxOf s' ≤ p.stop.idxOf s

/-- Groups and single tokens give the same stop string and the same text. -/
def SameStop : Prop :=
  (feed p groups {}).1 = (feed p (groups.flatten.map fun t ↦ [t]) {}).1 ∧
    (feed p groups {}).2.outputText = (feed p (groups.flatten.map fun t ↦ [t]) {}).2.outputText

instance : Decidable (SameStop p groups) :=
  inferInstanceAs (Decidable (_ ∧ _))

end

/-- Tokens one by one: nothing ends, or the first token with which something ends decides. -/
theorem feed_singles_outcome (p : DetokenizerParams) (ts : List Token) :
    ((feed p (ts.map fun t ↦ [t]) {}).1 = none ∧ Outcome p ts (feed p (ts.map fun t ↦ [t]) {})) ∨
    ∃ u t v, ts = u ++ t :: v ∧ (∀ s ∈ p.stop, ¬ Ended p u s) ∧
      (feed p (ts.map fun t ↦ [t]) {}).1 ≠ none ∧
      Outcome p (u ++ [t]) (feed p (ts.map fun t ↦ [t]) {}) := by
  have hflat (l : List Token) : (l.map fun t ↦ [t]).flatten = l := by
    simp [← flatMap_def]
  have hnil : ∀ s ∈ p.stop, ¬ Ended p [] s := fun s _ ↦ not_ended_of_le (zero_le _)
  have hfed : Fed [] {} := ⟨rfl, rfl⟩
  rcases feed_outcome (ts.map fun t ↦ [t]) hfed hnil with
    ⟨hres, hout⟩ | ⟨pre, g, post, heq, hpre, hres, hout⟩
  · refine .inl ⟨hres, ?_⟩
    rwa [hflat] at hout
  · obtain ⟨u, w, rfl, rfl, hw⟩ := map_eq_append_iff.1 heq
    obtain ⟨t, v, rfl, rfl, rfl⟩ := map_eq_cons_iff.1 hw
    rw [hflat] at hpre hout
    exact .inr ⟨u, t, v, rfl, hpre, hres, hout⟩

theorem Ended.of_prefix (hs : s ≠ []) (h : Ended p past s) (hpre : past <+: ts) : Ended p ts s := by
  obtain ⟨g, rfl⟩ := hpre
  exact h.append hs g

/-- The stop string that is brought has ended. -/
theorem ended_of_find? (h : p.stop.find? (fun s ↦ decide (Ended p ts s)) = some s) :
    s ∈ p.stop ∧ Ended p ts s := by
  have hs := find?_some h
  exact ⟨mem_of_find?_eq_some h, of_decide_eq_true hs⟩

/-- The first element of a list with a property is listed before the others. -/
theorem idxOf_le_of_find? {α : Type} [BEq α] [LawfulBEq α] {l : List α} {q : α → Bool} {a b : α}
    (h : l.find? q = some a) (hb : q b = true) : l.idxOf a ≤ l.idxOf b := by
  obtain ⟨ha, as, bs, rfl, has⟩ := find?_eq_some_iff_append.1 h
  have hnot {x : α} (hx : q x = true) : x ∉ as := fun hmem ↦ by
    have := has x hmem
    rw [hx] at this
    cases this
  rw [idxOf_append_of_notMem (hnot ha), idxOf_append_of_notMem (hnot hb), idxOf_cons_self]
  exact le_add_right _ _

/-- A longer text ends at the same place. -/
theorem truncated_eq_of_prefix {e e' : ℕ} (hs : s ≠ []) (hended : Ended p past s)
    (hpre : past <+: ts) (h : FirstEnd s (textOf past) (textOf (past.take p.minTokens)).length e)
    (h' : FirstEnd s (textOf ts) (textOf (ts.take p.minTokens)).length e') :
    truncated p (textOf ts) s e' = truncated p (textOf past) s e := by
  obtain ⟨g, rfl⟩ := hpre
  have hmin : p.minTokens ≤ past.length := by
    by_contra hlt
    exact not_ended_of_le (not_le.1 hlt).le hended
  have htake : (textOf (past ++ g)).take (textOf past).length = textOf past := by
    rw [textOf_append, take_left]
  have hle := h.le_length hs
  rw [take_minTokens_append hmin] at h'
  rw [← htake] at h
  obtain rfl := (h.of_take hs).eq h'
  unfold truncated
  rw [textOf_append, take_append_of_le_length]
  split_ifs <;> omega

section

variable {groups pre post : List (List Token)} {s₁ s₂ : List Char} {t : Token}

theorem prefix_flatten (h : groups = pre ++ g :: post) : pre.flatten ++ g <+: groups.flatten :=
  ⟨post.flatten, by rw [h, flatten_append, flatten_cons, append_assoc]⟩

/-- **The deciding token lies in the deciding group.** -/
theorem exists_deciding_token {u v : List Token} (hgroups : groups = pre ++ g :: post)
    (hpre : ∀ s ∈ p.stop, ¬ Ended p pre.flatten s) (hs₂ : s₂ ∈ p.stop)
    (hended₂ : Ended p (pre.flatten ++ g) s₂) (hflat : groups.flatten = u ++ t :: v)
    (hu : ∀ s ∈ p.stop, ¬ Ended p u s) (hs₁ : s₁ ∈ p.stop) (hended₁ : Ended p (u ++ [t]) s₁) :
    ∃ g₁ g₂, u = pre.flatten ++ g₁ ∧ g = g₁ ++ t :: g₂ := by
  have hg : pre.flatten ++ g <+: u ++ t :: v := hflat ▸ prefix_flatten hgroups
  have ht : u ++ [t] <+: u ++ t :: v := ⟨v, by rw [append_assoc, singleton_append]⟩
  have hlt₁ : pre.flatten.length < (u ++ [t]).length := by
    by_contra hle
    exact hpre s₁ hs₁ (hended₁.of_prefix (p.stop_ne_nil s₁ hs₁)
      (prefix_of_prefix_length_le ht ((prefix_append _ g).trans hg) (not_lt.1 hle)))
  have hlt₂ : u.length < (pre.flatten ++ g).length := by
    by_contra hle
    exact hu s₂ hs₂ (hended₂.of_prefix (p.stop_ne_nil s₂ hs₂)
      (prefix_of_prefix_length_le hg (prefix_append u _) (not_lt.1 hle)))
  rw [length_append, length_singleton] at hlt₁
  obtain ⟨g₁, rfl⟩ : pre.flatten <+: u :=
    prefix_of_prefix_length_le ((prefix_append _ g).trans hg) (prefix_append u _) (by omega)
  obtain ⟨g₂, hg₂⟩ : pre.flatten ++ g₁ ++ [t] <+: pre.flatten ++ g :=
    prefix_of_prefix_length_le ht hg (by rw [length_append, length_singleton]; omega)
  refine ⟨g₁, g₂, rfl, ?_⟩
  rw [append_assoc, append_assoc, append_cancel_left_eq] at hg₂
  rw [← hg₂, singleton_append]

/-- There is one deciding group. -/
theorem eq_of_deciding {pre' post' : List (List Token)} {g' : List Token} {s' : List Char}
    (hgroups : pre ++ g :: post = pre' ++ g' :: post')
    (hpre : ∀ s ∈ p.stop, ¬ Ended p pre.flatten s) (hs₂ : s₂ ∈ p.stop)
    (hended₂ : Ended p (pre.flatten ++ g) s₂) (hpre' : ∀ s ∈ p.stop, ¬ Ended p pre'.flatten s)
    (hs' : s' ∈ p.stop) (hended' : Ended p (pre'.flatten ++ g') s') : pre' = pre ∧ g' = g := by
  rcases append_eq_append_iff.1 hgroups with ⟨l, rfl, hl⟩ | ⟨l, rfl, hl⟩
  · rcases l with - | ⟨g₀, l⟩
    · rw [nil_append, cons.injEq] at hl
      exact ⟨append_nil pre, hl.1.symm⟩
    · -- the first deciding group would be before the second one
      obtain ⟨rfl, -⟩ := hl
      refine absurd (hended₂.of_prefix (p.stop_ne_nil s₂ hs₂) ?_) (hpre' s₂ hs₂)
      exact ⟨l.flatten, by rw [flatten_append, flatten_cons, append_assoc]⟩
  · rcases l with - | ⟨g₀, l⟩
    · rw [nil_append, cons.injEq] at hl
      exact ⟨(append_nil pre').symm, hl.1⟩
    · obtain ⟨rfl, -⟩ := hl
      refine absurd (hended'.of_prefix (p.stop_ne_nil s' hs') ?_) (hpre s' hs')
      exact ⟨l.flatten, by rw [flatten_append, flatten_cons, append_assoc]⟩

/-- **The order condition at the deciding token**: the stop string that the token brings is the one
that the group brings. -/
theorem stopsInOrder_iff {g₁ g₂ : List Token} (hgroups : groups = pre ++ g :: post)
    (hg : g = g₁ ++ t :: g₂) (hu : ∀ s ∈ p.stop, ¬ Ended p (pre.flatten ++ g₁) s)
    (hfind₁ : p.stop.find? (fun s ↦ decide (Ended p (pre.flatten ++ (g₁ ++ [t])) s)) = some s₁)
    (hfind₂ : p.stop.find? (fun s ↦ decide (Ended p (pre.flatten ++ g) s)) = some s₂) :
    StopsInOrder p groups ↔ s₁ = s₂ := by
  obtain ⟨hs₁, hended₁⟩ := ended_of_find? hfind₁
  obtain ⟨hs₂, hended₂⟩ := ended_of_find? hfind₂
  have hpre : ∀ s ∈ p.stop, ¬ Ended p pre.flatten s := fun s hs h ↦
    hu s hs (h.append (p.stop_ne_nil s hs) g₁)
  have hpart : pre.flatten ++ (g₁ ++ [t]) <+: pre.flatten ++ g :=
    ⟨g₂, by rw [hg, append_assoc, append_assoc, singleton_append]⟩
  constructor
  · intro h
    obtain ⟨s', -, hended', hidx⟩ := h pre g post hgroups hpre g₁ t g₂ hg ⟨s₁, hs₁, hended₁⟩
      s₂ hs₂ hended₂
    have h₁ := idxOf_le_of_find? hfind₁ (decide_eq_true hended')
    have h₂ := idxOf_le_of_find? hfind₂
      (decide_eq_true (hended₁.of_prefix (p.stop_ne_nil s₁ hs₁) hpart))
    exact (idxOf_inj hs₁).1 (by omega)
  · rintro rfl pre' g' post' hgroups' hpre' g₁' t' g₂' hg' ⟨s', hs', hended'⟩ s hs hended
    have hpart' : pre'.flatten ++ (g₁' ++ [t']) <+: pre'.flatten ++ g' :=
      ⟨g₂', by rw [hg', append_assoc, append_assoc, singleton_append]⟩
    obtain ⟨rfl, rfl⟩ := eq_of_deciding (hgroups.symm.trans hgroups') hpre hs₂ hended₂ hpre' hs'
      (hended'.of_prefix (p.stop_ne_nil s' hs') hpart')
    -- a token with which something has ended is not before the deciding one
    refine ⟨s₁, hs₁, hended₁.of_prefix (p.stop_ne_nil s₁ hs₁) ?_,
      idxOf_le_of_find? hfind₂ (decide_eq_true hended)⟩
    refine prefix_of_prefix_length_le hpart hpart' ?_
    by_contra hlt
    refine hu s' hs' (hended'.of_prefix (p.stop_ne_nil s' hs') ?_)
    have hpart₁ : pre'.flatten ++ g₁ <+: pre'.flatten ++ g' :=
      ⟨t :: g₂, by rw [hg, append_assoc]⟩
    refine prefix_of_prefix_length_le hpart' hpart₁ ?_
    simp only [length_append, length_singleton] at hlt ⊢
    omega

end

/-- **Stop strings and grouping**: groups of tokens give the matched stop string and the text that
the tokens give one by one, if and only if the stop strings end in the order of the list in the
group that decides. -/
theorem sameStop_iff (p : DetokenizerParams) (groups : List (List Token)) :
    SameStop p groups ↔ StopsInOrder p groups := by
  have hnil : ∀ s ∈ p.stop, ¬ Ended p [] s := fun s _ ↦ not_ended_of_le (zero_le _)
  have hfed : Fed [] {} := ⟨rfl, rfl⟩
  have hgroups := feed_outcome groups hfed hnil
  have hsingles := feed_singles_outcome p groups.flatten
  simp only [nil_append] at hgroups
  unfold SameStop
  generalize feed p groups {} = r₂ at hgroups ⊢
  generalize feed p (groups.flatten.map fun t ↦ [t]) {} = r₁ at hsingles ⊢
  rcases hgroups with ⟨hr₂, hout₂⟩ | ⟨pre, g, post, hgroups, hpre, hr₂, hout₂⟩
  · -- no stop string ends at all
    cases hout₂ with
    | stops => cases hr₂
    | runs hnone hfed₂ =>
      have hin : StopsInOrder p groups := by
        rintro pre g post hgroups - g₁ t g₂ hg ⟨s, hs, hended⟩
        refine absurd (hended.of_prefix (p.stop_ne_nil s hs) ?_) (hnone s hs)
        refine IsPrefix.trans ?_ (prefix_flatten hgroups)
        exact ⟨g₂, by rw [hg, append_assoc, append_assoc, singleton_append]⟩
      refine iff_of_true ?_ hin
      rcases hsingles with ⟨hr₁, hout₁⟩ | ⟨u, t, v, hflat, hu, hr₁, hout₁⟩
      · cases hout₁ with
        | stops => cases hr₁
        | runs _ hfed₁ => exact ⟨rfl, hfed₂.outputText.trans hfed₁.outputText.symm⟩
      · cases hout₁ with
        | runs => exact absurd rfl hr₁
        | stops hfind₁ =>
          obtain ⟨hs, hended⟩ := ended_of_find? hfind₁
          refine absurd (hended.of_prefix (p.stop_ne_nil _ hs) ?_) (hnone _ hs)
          exact ⟨v, by rw [hflat, append_assoc, singleton_append]⟩
  · cases hout₂ with
    | runs => exact absurd rfl hr₂
    | @stops s₂ e₂ d₂ hfind₂ hfirst₂ htext₂ =>
      obtain ⟨hs₂, hended₂⟩ := ended_of_find? hfind₂
      rcases hsingles with ⟨hr₁, hout₁⟩ | ⟨u, t, v, hflat, hu, hr₁, hout₁⟩
      · cases hout₁ with
        | stops => cases hr₁
        | runs hnone =>
          exact absurd (hended₂.of_prefix (p.stop_ne_nil s₂ hs₂) (prefix_flatten hgroups))
            (hnone s₂ hs₂)
      · cases hout₁ with
        | runs => exact absurd rfl hr₁
        | @stops s₁ e₁ d₁ hfind₁ hfirst₁ htext₁ =>
          obtain ⟨hs₁, hended₁⟩ := ended_of_find? hfind₁
          obtain ⟨g₁, g₂, rfl, hg⟩ :=
            exists_deciding_token hgroups hpre hs₂ hended₂ hflat hu hs₁ hended₁
          rw [append_assoc] at hfind₁ hfirst₁ hended₁ htext₁
          rw [stopsInOrder_iff hgroups hg hu hfind₁ hfind₂]
          refine ⟨fun h ↦ (Option.some.inj h.1).symm, ?_⟩
          rintro rfl
          refine ⟨rfl, ?_⟩
          rw [htext₁, htext₂]
          refine truncated_eq_of_prefix (p.stop_ne_nil s₁ hs₁) hended₁ ?_ hfirst₁ hfirst₂
          exact ⟨g₂, by rw [hg, append_assoc, append_assoc, singleton_append]⟩

/-- Two stop strings of one character, and a group of two tokens that spell them in the other
order. -/
def swappedStops : DetokenizerParams where
  stop := [['b'], ['a']]

/-- One by one, the first token stops with `a`; as a group, the tokens stop with `b`. -/
theorem not_sameStop_swappedStops : ¬ SameStop swappedStops [[⟨0, ['a']⟩, ⟨1, ['b']⟩]] := by
  decide

example : SameStop { stop := [['a'], ['b']] } [[⟨0, ['a']⟩, ⟨1, ['b']⟩]] := by
  decide

end

end OneCatVllm
