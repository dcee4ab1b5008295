import OneCatVllm.Lib.Borders
import OneCatVllm.Lib.Substring

/-!
# The n-gram proposer

`_find_longest_matched_ngram_and_propose_tokens` of `vllm/v1/spec_decode/ngram_proposer.py`. The
tokens are reversed, so that the n-gram at their end is a prefix, and one scan with the table of
longest borders finds where it occurs again. The table is cut at `max_ngram` entries: a match of
that length goes on with the longest border of the n-gram.

The scan of the reversed tokens finds **the longest border of any part of them** and the last part
that has it (`Scanned`). In the original order this is the longest n-gram at the end that occurs
before, and its earliest occurrence.
-/

namespace OneCatVllm.Ngram

open Border Function List Nat Substring

variable {T : Type}

/-! ### The scan -/

/-- The local variables of the loop. -/
structure Scan where
  lps : ℕ → ℕ := fun _ ↦ 0
  longestNgram : ℕ := 0
  position : ℕ := 0
  prevLps : ℕ := 0
  i : ℕ := 1

/-- The element prolongs the border: it may be the best match so far. -/
def Scan.matched (maxNgram : ℕ) (s : Scan) : Scan :=
  let prevLps := s.prevLps + 1
  let lps := if s.i < maxNgram then update s.lps s.i prevLps else s.lps
  { lps
    longestNgram := if s.longestNgram ≤ prevLps then prevLps else s.longestNgram
    position := if s.longestNgram ≤ prevLps then s.i else s.position
    prevLps := if prevLps = maxNgram then lps (maxNgram - 1) else prevLps
    i := s.i + 1 }

/-- The body of the loop. -/
def Scan.step [DecidableEq T] (tokens : List T) (maxNgram : ℕ) (s : Scan) : Scan :=
  if tokens[s.prevLps]? = tokens[s.i]? then s.matched maxNgram
  else if s.prevLps ≠ 0 then { s with prevLps := s.lps (s.prevLps - 1) }
  else { s with i := s.i + 1 }

/-- The loop. The fuel is enough for all its steps. -/
def Scan.run [DecidableEq T] (tokens : List T) (maxNgram : ℕ) : ℕ → Scan → Scan
  | 0, s => s
  | fuel + 1, s =>
    if s.i < tokens.length then run tokens maxNgram fuel (s.step tokens maxNgram) else s

/-- `_find_longest_matched_ngram_and_propose_tokens`. -/
def findLongestMatchedNgramAndProposeTokens [DecidableEq T] (originTokens : List T)
    (minNgram maxNgram : ℕ) (maxModelLen k : ℤ) : List T :=
  let totalToken := originTokens.length
  let k := min k (maxModelLen - totalToken)
  if totalToken < minNgram then []
  else if k ≤ 0 then []
  else
    let s := Scan.run originTokens.reverse maxNgram (2 * totalToken) {}
    if s.longestNgram < minNgram then []
    else
      let startPosition := totalToken - 1 - s.position + s.longestNgram
      (originTokens.drop startPosition).take (min k.toNat (totalToken - startPosition))

/-! ### What the scan finds -/

variable {tokens : List T} {maxNgram i n p longest position : ℕ} {s : Scan}

/-- **The best match** in the first `i` elements: the longest border of at most `maxNgram` elements,
and the last part that has it. -/
structure Best (tokens : List T) (maxNgram longest position i : ℕ) : Prop where
  isBorder : IsBorder tokens longest (position + 1)
  longest_le : longest ≤ maxNgram
  position_lt : position < i
  le : ∀ i' ≤ i, ∀ w ≤ maxNgram, IsBorder tokens w i' → w ≤ longest
  last : longest ≠ 0 → ∀ i' ≤ i, IsBorder tokens longest i' → i' ≤ position + 1

/-- **The invariant of the loop.** No border longer than `prev_lps` is prolonged by the next
element. -/
structure Scanned (tokens : List T) (maxNgram : ℕ) (s : Scan) : Prop where
  lps : ∀ j < s.i, j < maxNgram → IsLongest tokens (s.lps j) (j + 1)
  lps_eq_zero : ∀ j, s.i ≤ j → s.lps j = 0
  prev_lt : s.prevLps < maxNgram
  isBorder : IsBorder tokens s.prevLps s.i
  prolonged_le : ∀ w ≤ maxNgram, IsBorder tokens w (s.i + 1) → w ≤ s.prevLps + 1
  best : Best tokens maxNgram s.longestNgram s.position s.i

/-- The next part has only shorter borders. -/
theorem Best.keep (h : Best tokens maxNgram longest position i)
    (hlt : ∀ w ≤ maxNgram, IsBorder tokens w (i + 1) → w < longest ∨ w = 0) :
    Best tokens maxNgram longest position (i + 1) := by
  refine ⟨h.isBorder, h.longest_le, lt_succ_of_lt h.position_lt, fun i' hi' w hw hb ↦ ?_,
    fun hne i' hi' hb ↦ ?_⟩
  · rcases le_succ_iff.1 hi' with hi' | rfl
    · exact h.le i' hi' w hw hb
    · have := hlt w hw hb
      omega
  · rcases le_succ_iff.1 hi' with hi' | rfl
    · exact h.last hne i' hi' hb
    · have := hlt longest h.longest_le hb
      omega

/-- The next part has the longest border `p`. -/
theorem Best.update (h : Best tokens maxNgram longest position i) (hle : p ≤ maxNgram)
    (hb : IsBorder tokens p (i + 1)) (hmax : ∀ w ≤ maxNgram, IsBorder tokens w (i + 1) → w ≤ p) :
    Best tokens maxNgram (if longest ≤ p then p else longest)
      (if longest ≤ p then i else position) (i + 1) := by
  split_ifs with hlp
  · refine ⟨hb, hle, lt_succ_self i, fun i' hi' w hw hb ↦ ?_, fun _ i' hi' _ ↦ hi'⟩
    rcases le_succ_iff.1 hi' with hi' | rfl
    · exact (h.le i' hi' w hw hb).trans hlp
    · exact hmax w hw hb
  · exact h.keep fun w hw hb ↦ .inl ((hmax w hw hb).trans_lt (not_le.1 hlp))

/-- The borders of the next part are prolonged borders of this one. -/
theorem prolonged_le_of (h : ∀ v < maxNgram, IsBorder tokens v i → v ≤ n) :
    ∀ w ≤ maxNgram, IsBorder tokens w (i + 1) → w ≤ n + 1 := by
  rintro (- | v) hw hb
  · exact zero_le _
  · exact succ_le_succ (h v hw (isBorder_succ_iff.1 hb).1)

section

variable (h : Scanned tokens maxNgram s)

include h

/-- **A longer match.** -/
theorem Scanned.matched
    (heq : tokens[s.prevLps]? = tokens[s.i]?) : Scanned tokens maxNgram (s.matched maxNgram) := by
  have hborder : IsBorder tokens (s.prevLps + 1) (s.i + 1) := isBorder_succ_iff.2 ⟨h.isBorder, heq⟩
  have hbest := h.best.update h.prev_lt hborder h.prolonged_le
  set lps := if s.i < maxNgram then update s.lps s.i (s.prevLps + 1) else s.lps with hdef
  have hother : ∀ j, j ≠ s.i → lps j = s.lps j := by
    intro j hj
    rw [hdef]
    split_ifs
    · exact update_of_ne hj _ _
    · rfl
  have hlps : ∀ j < s.i + 1, j < maxNgram → IsLongest tokens (lps j) (j + 1) := by
    intro j hj hmax
    rcases Nat.lt_succ_iff_lt_or_eq.1 hj with hj | rfl
    · exact hother j hj.ne ▸ h.lps j hj hmax
    · rw [hdef, if_pos hmax, update_self]
      exact ⟨hborder, fun w hw ↦ h.prolonged_le w (hw.1.trans_le hmax).le hw⟩
  have hzero : ∀ j, s.i + 1 ≤ j → lps j = 0 := fun j hj ↦
    (hother j (by omega)).trans (h.lps_eq_zero j (by omega))
  suffices hprev : ∀ prev, prev = (if s.prevLps + 1 = maxNgram then lps (maxNgram - 1)
      else s.prevLps + 1) → prev < maxNgram ∧ IsBorder tokens prev (s.i + 1) ∧
        ∀ v < maxNgram, IsBorder tokens v (s.i + 1) → v ≤ prev by
    obtain ⟨hlt, hb, hle⟩ := hprev _ rfl
    exact ⟨hlps, hzero, hlt, hb, prolonged_le_of hle, hbest⟩
  rintro prev rfl
  have hprev := h.prev_lt
  split_ifs with hfull
  · -- a match of `maxNgram` elements goes on with its longest border
    have hi := hborder.1
    obtain ⟨hlong, hlongest⟩ := hlps (maxNgram - 1) (by omega) (by omega)
    rw [Nat.sub_add_cancel (by omega)] at hlong hlongest
    rw [hfull] at hborder
    exact ⟨hlong.1, hlong.trans hborder, fun v hv hb ↦ hlongest v (hb.of_lt hborder hv)⟩
  · exact ⟨by omega, hborder, fun v hv hb ↦ h.prolonged_le v hv.le hb⟩

/-- **A shorter border.** -/
theorem Scanned.fallBack (heq : tokens[s.prevLps]? ≠ tokens[s.i]?) (hne : s.prevLps ≠ 0) :
    Scanned tokens maxNgram { s with prevLps := s.lps (s.prevLps - 1) } ∧
      s.lps (s.prevLps - 1) < s.prevLps := by
  have hi := h.isBorder.1
  have hprev := h.prev_lt
  obtain ⟨hlong, hlongest⟩ := h.lps (s.prevLps - 1) (by omega) (by omega)
  rw [Nat.sub_add_cancel (by omega)] at hlong hlongest
  refine ⟨⟨h.lps, h.lps_eq_zero, hlong.1.trans hprev, hlong.trans h.isBorder, ?_, h.best⟩, hlong.1⟩
  rintro (- | v) hw hb
  · exact zero_le _
  · obtain ⟨hv, hnext⟩ := isBorder_succ_iff.1 hb
    have hle := h.prolonged_le _ hw hb
    have hvp : v ≠ s.prevLps := fun hvp ↦ heq (hvp ▸ hnext)
    exact succ_le_succ (hlongest v (hv.of_lt h.isBorder (by omega)))

/-- **No border** for the next part. -/
theorem Scanned.skip (heq : tokens[s.prevLps]? ≠ tokens[s.i]?)
    (hp : s.prevLps = 0) : Scanned tokens maxNgram { s with i := s.i + 1 } := by
  have hzero : ∀ w ≤ maxNgram, IsBorder tokens w (s.i + 1) → w = 0 := by
    rintro (- | v) hw hb
    · rfl
    · have hle := h.prolonged_le _ hw hb
      obtain rfl : v = s.prevLps := by omega
      exact absurd (isBorder_succ_iff.1 hb).2 heq
  refine ⟨fun j hj hmax ↦ ?_, fun j hj ↦ h.lps_eq_zero j (le_of_succ_le hj), h.prev_lt, ?_,
    prolonged_le_of fun v hv hb ↦ (hzero v hv.le hb).trans_le (zero_le _),
    h.best.keep fun w hw hb ↦ .inr (hzero w hw hb)⟩
  · rcases Nat.lt_succ_iff_lt_or_eq.1 hj with hj | rfl
    · exact h.lps j hj hmax
    · rw [h.lps_eq_zero _ le_rfl]
      exact ⟨isBorder_zero (succ_pos _),
        fun w hw ↦ (hzero w (hw.1.trans_le hmax).le hw).le⟩
  · rw [hp]
    exact isBorder_zero (succ_pos _)

end

/-- Before the loop. -/
theorem scanned_init (tokens : List T) (hmax : 0 < maxNgram) : Scanned tokens maxNgram {} := by
  have hzero : ∀ i ≤ 1, ∀ w, IsBorder tokens w i → w = 0 := fun i hi w hb ↦ by
    have := hb.1
    omega
  refine ⟨fun j hj _ ↦ ?_, fun _ _ ↦ rfl, hmax, isBorder_zero Nat.one_pos,
    prolonged_le_of fun v _ hb ↦ (hzero 1 le_rfl v hb).le,
    ⟨isBorder_zero Nat.one_pos, zero_le _, Nat.one_pos,
      fun i' hi' w _ hb ↦ (hzero i' hi' w hb).le, fun hne ↦ absurd rfl hne⟩⟩
  obtain rfl : j = 0 := lt_one_iff.1 hj
  exact ⟨isBorder_zero Nat.one_pos, fun w hw ↦ (hzero 1 le_rfl w hw).le⟩

/-- **The loop ends at the end of the tokens**, with the invariant: in every step the part gets
longer or the border shorter. -/
theorem Scanned.run [DecidableEq T] (h : Scanned tokens maxNgram s) (fuel : ℕ)
    (hle : s.i ≤ tokens.length) (hfuel : 2 * (tokens.length - s.i) + s.prevLps ≤ fuel) :
    Scanned tokens maxNgram (s.run tokens maxNgram fuel) ∧
      (s.run tokens maxNgram fuel).i = tokens.length := by
  induction fuel generalizing s with
  | zero => exact ⟨h, by show s.i = tokens.length; omega⟩
  | succ fuel ih =>
    rw [Scan.run, Scan.step]
    split_ifs with hi heq hne
    · have hmatched := h.matched heq
      have hprev := h.prolonged_le _ hmatched.prev_lt.le hmatched.isBorder
      refine ih hmatched hi ?_
      show 2 * (tokens.length - (s.i + 1)) + _ ≤ fuel
      omega
    · obtain ⟨hback, hlt⟩ := h.fallBack heq hne
      exact ih hback hle (by dsimp only; omega)
    · exact ih (h.skip heq (not_not.1 hne)) hi (by dsimp only; omega)
    · exact ⟨h, hle.antisymm (not_lt.1 hi)⟩

/-! ### The proposal -/

/-- The last `n` tokens occur at an earlier position `p`. -/
def OccursBefore (tokens : List T) (n p : ℕ) : Prop :=
  p + n < tokens.length ∧ OccursAt (tokens.drop (tokens.length - n)) tokens p

instance [DecidableEq T] (tokens : List T) (n p : ℕ) : Decidable (OccursBefore tokens n p) :=
  inferInstanceAs (Decidable (_ ∧ _))

/-- **The longest n-gram at the end** that occurs before, and its earliest occurrence. -/
structure LongestMatch (tokens : List T) (maxNgram n p : ℕ) : Prop where
  le : n ≤ maxNgram
  occurs : OccursBefore tokens n p
  longest : ∀ n' p', n' ≤ maxNgram → OccursBefore tokens n' p' → n' ≤ n
  earliest : ∀ p', OccursBefore tokens n p' → p ≤ p'

/-- In the reversed tokens, an occurrence is a border. -/
theorem occursBefore_iff :
    OccursBefore tokens n p ↔ IsBorder tokens.reverse n (tokens.length - p) := by
  have hlt : p + n < tokens.length ↔ n < tokens.length - p := by omega
  rw [OccursBefore, hlt]
  refine and_congr_right fun hlt ↦ ?_
  have hdrop : (tokens.drop (tokens.length - n)).length = n := by
    rw [length_drop]
    omega
  have hmirror : ∀ j < n, (tokens.reverse[j]? = tokens.reverse[tokens.length - p - n + j]? ↔
      tokens[p + (n - 1 - j)]? = tokens[tokens.length - n + (n - 1 - j)]?) := by
    intro j hj
    rw [getElem?_reverse (by omega), getElem?_reverse (by omega), eq_comm,
      show tokens.length - 1 - (tokens.length - p - n + j) = p + (n - 1 - j) by omega,
      show tokens.length - 1 - j = tokens.length - n + (n - 1 - j) by omega]
  rw [OccursAt, prefix_iff_getElem?]
  simp only [← getElem?_eq_getElem, getElem?_drop, hdrop]
  constructor
  · intro h j hj
    exact (hmirror j hj).2 (h _ (by omega))
  · intro h j hj
    have hj' := (hmirror (n - 1 - j) (by omega)).1 (h _ (by omega))
    rwa [show n - 1 - (n - 1 - j) = j by omega] at hj'

theorem LongestMatch.unique {n' p' : ℕ} (h : LongestMatch tokens maxNgram n p)
    (h' : LongestMatch tokens maxNgram n' p') : n = n' ∧ p = p' := by
  obtain rfl := (h'.longest n p h.le h.occurs).antisymm (h.longest n' p' h'.le h'.occurs)
  exact ⟨rfl, (h.earliest p' h'.occurs).antisymm (h'.earliest p h.occurs)⟩

/-- **What the scan finds** is the longest match, if there is any. -/
theorem Best.longestMatch (h : Best tokens.reverse maxNgram longest position tokens.length) :
    (∀ n p, n ≤ maxNgram → OccursBefore tokens n p → n ≤ longest) ∧
      (longest ≠ 0 → LongestMatch tokens maxNgram longest (tokens.length - 1 - position)) := by
  have hle : ∀ n p, n ≤ maxNgram → OccursBefore tokens n p → n ≤ longest := fun n p hn hocc ↦
    h.le _ (sub_le _ _) n hn (occursBefore_iff.1 hocc)
  have hlt := h.position_lt
  refine ⟨hle, fun hne ↦ ⟨h.longest_le, occursBefore_iff.2 ?_, hle, fun p hocc ↦ ?_⟩⟩
  · rw [show tokens.length - (tokens.length - 1 - position) = position + 1 by omega]
    exact h.isBorder
  · have := h.last hne _ (sub_le _ _) (occursBefore_iff.1 hocc)
    omega

/-- **The proposal** is what follows the earliest occurrence of the longest n-gram at the end of the
tokens that occurs before, if it has the minimal length. -/
theorem findLongestMatchedNgramAndProposeTokens_spec [DecidableEq T] {minNgram : ℕ}
    (hmin : 1 ≤ minNgram) (hmax : minNgram ≤ maxNgram) (tokens : List T) (maxModelLen k : ℤ) :
    (∀ n p, LongestMatch tokens maxNgram n p → minNgram ≤ n →
      findLongestMatchedNgramAndProposeTokens tokens minNgram maxNgram maxModelLen k =
        (tokens.drop (p + n)).take (min k (maxModelLen - tokens.length)).toNat) ∧
    ((∀ n p, LongestMatch tokens maxNgram n p → n < minNgram) →
      findLongestMatchedNgramAndProposeTokens tokens minNgram maxNgram maxModelLen k = []) := by
  unfold findLongestMatchedNgramAndProposeTokens
  dsimp only
  split_ifs with htotal hk hshort
  · refine ⟨fun n p h hn ↦ ?_, fun _ ↦ rfl⟩
    have := h.occurs.1
    omega
  · refine ⟨fun n p h hn ↦ ?_, fun _ ↦ rfl⟩
    rw [Int.toNat_of_nonpos hk, take_zero]
  all_goals
    obtain ⟨hscan, hend⟩ := (scanned_init tokens.reverse (hmin.trans hmax)).run
      (2 * tokens.length) (by rw [length_reverse]; show 1 ≤ _; omega)
      (by rw [length_reverse]; show 2 * (_ - 1) + 0 ≤ _; omega)
    have hbest := hscan.best
    rw [hend, length_reverse] at hbest
    obtain ⟨hle, hlongest⟩ := hbest.longestMatch
  · refine ⟨fun n p h hn ↦ ?_, fun _ ↦ rfl⟩
    have := hle n p h.le h.occurs
    omega
  · have hmatch := hlongest (by omega)
    refine ⟨fun n p h hn ↦ ?_, fun h ↦ absurd (h _ _ hmatch) hshort⟩
    obtain ⟨rfl, rfl⟩ := h.unique hmatch
    rw [take_eq_take_iff, length_drop]
    omega

/-- The last two tokens occur at the start, and two more tokens fit into the model. -/
theorem proposed_after_repeated_pair :
    LongestMatch [1, 2, 3, 1, 2] 3 2 0 ∧
      findLongestMatchedNgramAndProposeTokens [1, 2, 3, 1, 2] 1 3 7 4 = [3, 1] := by
  have hnot : ∀ p < 2, ¬ OccursBefore [1, 2, 3, 1, 2] 3 p := by decide
  have hmatch : LongestMatch [1, 2, 3, 1, 2] 3 2 0 := by
    refine ⟨by decide, by decide, fun n p hn hocc ↦ ?_, fun p _ ↦ zero_le p⟩
    by_contra hlt
    obtain rfl : n = 3 := by omega
    have hp : p + 3 < 5 := hocc.1
    exact hnot p (by omega) hocc
  exact ⟨hmatch, (findLongestMatchedNgramAndProposeTokens_spec (by decide) (by decide)
    [1, 2, 3, 1, 2] 7 4).1 2 0 hmatch (by decide)⟩

end OneCatVllm.Ngram
