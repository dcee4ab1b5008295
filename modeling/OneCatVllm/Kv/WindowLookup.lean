import Mathlib.Order.Bounds.Defs
import OneCatVllm.Kv.Lookup

/-!
# The longest sliding-window hit

`SlidingWindowManager.find_longest_cache_hit` searches from right to left for contiguous cached
blocks. `WindowQuery.Outcome` says what the search stops at: the **greatest** index at which a
complete match ends, or, when there is none, the leading run of cached blocks.

The search finds the longest hit, with two exceptions (`WindowQuery.FindsLongest`). A window of one
token needs no block, but the search only stops at cached ones. And with EAGLE a leading run shorter
than the window is rounded down to the alignment **before** its last block is dropped, so the hit in
front of that block is lost unless every number of blocks is aligned.
-/

namespace OneCatVllm

open Bool Grid List Nat

/-- Block `i` is cached. -/
abbrev Cached (look : ℕ → Option HitRow) (i : ℕ) : Prop := (look i).isSome = true

/-- A lookup of a sliding-window group: the rows of the index and the arguments of the search. -/
structure WindowQuery where
  look : ℕ → Option HitRow
  blockSize : ℕ
  blockSize_pos : 0 < blockSize
  maxLength : ℕ
  eagle : Bool
  alignment : ℕ
  window : ℕ

namespace WindowQuery

variable (Q : WindowQuery)

/-- `SlidingWindowManager.find_longest_cache_hit`. -/
def hit (numGroups : ℕ) : Except KvError (List HitRow) :=
  slidingWindowHit (fun i ↦ .ok (Q.look i)) numGroups Q.blockSize Q.maxLength Q.eagle Q.alignment
    Q.window

/-- `max_num_blocks`. -/
def numBlocks : ℕ := Q.maxLength / Q.blockSize

/-- The blocks that the window before a block boundary spans. -/
def span : ℕ := cdiv (Q.window - 1) Q.blockSize

/-- EAGLE matches one block more, and drops it. -/
def peek : ℕ := if Q.eagle = true then 1 else 0

/-- The contiguous blocks of a complete match. The search always matches one. -/
def need : ℕ := max (contiguousBlocksForHit Q.window Q.blockSize Q.eagle) 1

def misaligned : ℕ → Bool := misalignedWindow Q.blockSize Q.eagle Q.alignment

theorem need_eq : Q.need = max (Q.span + Q.peek) 1 := rfl

/-! ### The search -/

/-- A complete match that ends at index `e`: contiguous cached blocks, the last accepted. -/
structure FullMatch (e : ℕ) : Prop where
  lt : e < Q.numBlocks
  accepted : Q.misaligned e = false
  need_le : Q.need ≤ e + 1
  cached : ∀ j, e + 1 ≤ j + Q.need → j ≤ e → Cached Q.look j

/-- A leading run of cached blocks that ends at index `e`, the last accepted. -/
structure LeadingRun (e : ℕ) : Prop where
  lt : e < Q.numBlocks
  accepted : Q.misaligned e = false
  cached : ∀ j ≤ e, Cached Q.look j

/-- **What the search stops at**: whether a complete match was found, and the number of rows. -/
inductive Outcome : Bool → ℕ → Prop
  | found {e : ℕ} : IsGreatest {e | Q.FullMatch e} e → Outcome true (e + 1)
  | leading {num : ℕ} : (∀ e, ¬ Q.FullMatch e) → (∀ e, Q.LeadingRun e → e < num) →
      (0 < num → Q.LeadingRun (num - 1)) → Outcome false num

/-- **The search at index `i`**, with `num` blocks matched from there on: no run of cached blocks
from `i` on has a greater accepted end. -/
structure Searching (i num : ℕ) : Prop where
  le : i + num ≤ Q.numBlocks
  cached : ∀ j, i ≤ j → j < i + num → Cached Q.look j
  accepted : 0 < num → Q.misaligned (i + num - 1) = false
  greatest : ∀ e, i ≤ e → e < Q.numBlocks → Q.misaligned e = false →
    (∀ j, i ≤ j → j ≤ e → Cached Q.look j) → e < i + num

variable {Q} {i num k e : ℕ}

theorem LeadingRun.fullMatch (h : Q.LeadingRun e) (hle : Q.need ≤ e + 1) : Q.FullMatch e :=
  ⟨h.lt, h.accepted, hle, fun j _ hj ↦ h.cached j hj⟩

/-- A complete match that reaches down to `i` contains the blocks from there on, so that it is no
longer than the matched run. -/
theorem Searching.lt_of_fullMatch (h : Q.Searching i num) (hlt : num < Q.need)
    (hnone : ∀ e, Q.FullMatch e → e + 1 < i + 1 + Q.need) :
    ∀ e, Q.FullMatch e → e + 1 < i + Q.need := by
  intro e he
  have hle := hnone e he
  by_contra hge
  have := h.greatest e (by omega) he.lt he.accepted fun j hj ↦ he.cached j (by omega)
  omega

/-- **The search**, when no complete match lies to the right (`hnone`). -/
theorem Searching.outcome {computed : List HitRow} (h : Q.Searching i num)
    (hlen : computed.length = Q.numBlocks) (hnone : ∀ e, Q.FullMatch e → e + 1 < i + Q.need) :
    ∃ found rows, scanWindow (fun j ↦ .ok (Q.look j)) Q.misaligned
        (contiguousBlocksForHit Q.window Q.blockSize Q.eagle) i num computed = .ok (found, rows) ∧
      Q.Outcome found rows.length := by
  have hneed : Q.need = max (contiguousBlocksForHit Q.window Q.blockSize Q.eagle) 1 := rfl
  induction i generalizing num computed with
  | zero =>
    have hle := h.le
    have hl : (computed.take num).length = num := by
      rw [length_take]
      omega
    refine ⟨false, _, rfl, hl.symm ▸ .leading (fun e he ↦ ?_) (fun e he ↦ ?_) fun hpos ↦ ?_⟩
    · have := hnone e he
      have := he.need_le
      omega
    · have := h.greatest e e.zero_le he.lt he.accepted fun j _ ↦ he.cached j
      omega
    · exact ⟨by omega, zero_add num ▸ h.accepted hpos, fun j hj ↦ h.cached j j.zero_le (by omega)⟩
  | succ i ih =>
    have hle := h.le
    rw [scanWindow]
    rcases hlook : Q.look i with - | r
    · have hmiss : ¬ Cached Q.look i := by rw [Cached, hlook]; exact false_ne_true
      have hnext : Q.Searching i 0 := ⟨by omega, fun j _ _ ↦ by omega, (absurd · (lt_irrefl 0)),
        fun e hie _ _ hall ↦ absurd (hall i le_rfl hie) hmiss⟩
      exact ih hnext hlen (hnext.lt_of_fullMatch (by omega) hnone)
    split_ifs with hskip hfull
    · obtain ⟨rfl, hmis⟩ := hskip
      have hnext : Q.Searching i 0 := by
        refine ⟨by omega, fun j _ _ ↦ by omega, (absurd · (lt_irrefl 0)),
          fun e hie he hacc hall ↦ ?_⟩
        rcases hie.eq_or_lt with rfl | hlt
        · cases hacc.symm.trans hmis
        · have := h.greatest e hlt he hacc fun j hj ↦ hall j (by omega)
          omega
      exact ih hnext hlen (hnext.lt_of_fullMatch (by omega) hnone)
    all_goals
      have hnext : Q.Searching i (num + 1) := by
        refine ⟨by omega, fun j hj hlt ↦ ?_, fun _ ↦ ?_, fun e hie he hacc hall ↦ ?_⟩
        · rcases hj.eq_or_lt with rfl | hlt'
          · rw [Cached, hlook]
            rfl
          · exact h.cached j hlt' (by omega)
        · rcases Nat.eq_zero_or_pos num with rfl | hpos
          · exact eq_false_iff.2 fun h ↦ hskip ⟨rfl, h⟩
          · rw [← h.accepted hpos]
            congr 1
            omega
        · rcases hie.eq_or_lt with rfl | hlt
          · omega
          · have := h.greatest e hlt he hacc fun j hj ↦ hall j (by omega)
            omega
    · have hl : ((computed.set i r).take (i + (num + 1))).length = i + num + 1 := by
        rw [length_take, length_set]
        omega
      refine ⟨true, _, rfl, hl.symm ▸ .found ⟨?_, fun e he ↦ ?_⟩⟩
      · exact ⟨by omega, hnext.accepted num.succ_pos, by omega,
          fun j hj hle ↦ hnext.cached j (by omega) (by omega)⟩
      · by_contra hlt
        have := hnone e he
        omega
    · exact ih hnext (length_set.trans hlen) (hnext.lt_of_fullMatch (by omega) hnone)

/-! ### Hits -/

variable (Q)

/-- **The blocks needed to continue from `hit` tokens are cached**: those with a token of the window
before `hit`, and with EAGLE the one after `hit`, which is dropped. -/
def Continues (hit : ℕ) : Prop :=
  ∀ j, (∃ t, j * Q.blockSize ≤ t ∧ t < (j + 1) * Q.blockSize ∧ t < hit ∧
      hit ≤ t + (Q.window - 1)) ∨
    (Q.eagle = true ∧ 0 < hit ∧ j = hit / Q.blockSize) → Cached Q.look j

/-- The aligned lengths, in whole blocks, from which the request can be continued. -/
def hits : Set ℕ :=
  {hit | Q.alignment ∣ hit ∧ Q.blockSize ∣ hit ∧ hit ≤ Q.maxLength ∧ Q.Continues hit}

/-- When the lookup finds the longest hit. Without EAGLE the window needs a block, or the last
aligned block is cached. With EAGLE the longest hit leaves room for the block that is dropped, and
every number of blocks is aligned or a hit shorter than the window comes with a longer one. -/
def FindsLongest : Prop :=
  if Q.eagle = true then
    (0 < Q.numBlocks → Q.numBlocks * Q.blockSize ∉ Q.hits) ∧
      (Q.alignment ∣ Q.blockSize ∨ ∀ k, 0 < k → k < Q.span → k < Q.numBlocks →
        k * Q.blockSize ∈ Q.hits →
        ∃ k' < Q.numBlocks, Q.span ≤ k' ∧ k' * Q.blockSize ∈ Q.hits)
  else
    Q.span = 0 → 0 < alignedLength Q.blockSize Q.alignment Q.numBlocks →
      Cached Q.look (alignedLength Q.blockSize Q.alignment Q.numBlocks - 1)

variable {Q}

theorem le_alignedLength {b a n : ℕ} (hk : k ≤ n) (h : a ∣ k * b) : k ≤ alignedLength b a n := by
  induction n with
  | zero => exact hk
  | succ n ih =>
    rw [alignedLength]
    split_ifs with hmis
    · rcases hk.eq_or_lt with rfl | hlt
      · exact absurd (mod_eq_zero_of_dvd h) hmis.2
      · exact ih (le_of_lt_succ hlt)
    · exact hk

/-- The window in blocks. -/
theorem mem_hits_iff (hk : 0 < k) : k * Q.blockSize ∈ Q.hits ↔
    Q.alignment ∣ k * Q.blockSize ∧ k ≤ Q.numBlocks ∧
      ∀ j, k ≤ j + Q.span → j < k + Q.peek → Cached Q.look j := by
  have hb := Q.blockSize_pos
  have hkb : 0 < k * Q.blockSize := Nat.mul_pos hk hb
  -- The last token of a block is the one nearest to the hit.
  have hwindow : ∀ j < k, (∃ t, j * Q.blockSize ≤ t ∧ t < (j + 1) * Q.blockSize ∧
      t < k * Q.blockSize ∧ k * Q.blockSize ≤ t + (Q.window - 1)) ↔ k ≤ j + Q.span := by
    intro j hj
    have hlt : k ≤ j + Q.span ↔ (k - j - 1) * Q.blockSize < Q.window - 1 := by
      rw [← lt_cdiv_iff hb, span]
      omega
    have hmul : (k - j - 1) * Q.blockSize + (j + 1) * Q.blockSize = k * Q.blockSize := by
      rw [← Nat.add_mul]
      congr 1
      omega
    have hsucc : (j + 1) * Q.blockSize = j * Q.blockSize + Q.blockSize := succ_mul _ _
    refine ⟨fun ⟨t, _, ht, _, hle⟩ ↦ by omega, fun h ↦ ⟨(j + 1) * Q.blockSize - 1, ?_⟩⟩
    omega
  show (_ ∧ Q.blockSize ∣ k * Q.blockSize ∧ k * Q.blockSize ≤ Q.maxLength ∧ Q.Continues _) ↔ _
  rw [← le_div_iff_mul_le hb, Continues, Nat.mul_div_cancel k hb]
  refine ⟨fun ⟨ha, _, hle, hall⟩ ↦ ⟨ha, hle, fun j hj hlt ↦ hall j ?_⟩,
    fun ⟨ha, hle, hall⟩ ↦ ⟨ha, Nat.dvd_mul_left _ k, hle, fun j hj ↦ ?_⟩⟩
  · rcases lt_or_ge j k with hjk | hjk
    · exact .inl ((hwindow j hjk).2 hj)
    · rw [peek] at hlt
      split_ifs at hlt with heagle
      · exact .inr ⟨heagle, hkb, by omega⟩
      · omega
  · rcases hj with ⟨t, ht⟩ | ⟨heagle, -, rfl⟩
    · have hjk : j < k := Nat.lt_of_mul_lt_mul_right (ht.1.trans_lt ht.2.2.1)
      exact hall j ((hwindow j hjk).1 ⟨t, ht⟩) (by omega)
    · exact hall j (by omega) (by rw [peek, if_pos heagle]; omega)

theorem zero_mem_hits : 0 * Q.blockSize ∈ Q.hits := by
  rw [zero_mul]
  refine ⟨Nat.dvd_zero _, Nat.dvd_zero _, zero_le _, ?_⟩
  rintro j (⟨t, -, -, ht, -⟩ | ⟨-, h, -⟩)
  · exact absurd ht (not_lt_zero t)
  · exact absurd h (lt_irrefl 0)

theorem isGreatest_hits_iff : IsGreatest Q.hits (k * Q.blockSize) ↔
    k * Q.blockSize ∈ Q.hits ∧ ∀ m, m * Q.blockSize ∈ Q.hits → m ≤ k := by
  refine and_congr_right fun _ ↦
    ⟨fun h m hm ↦ Nat.le_of_mul_le_mul_right (h hm) Q.blockSize_pos, ?_⟩
  rintro h hit hmem
  obtain ⟨m, rfl⟩ := hmem.2.1
  rw [mul_comm] at hmem ⊢
  exact mul_le_mul_right _ (h m hmem)

/-- The last block that a hit needs is cached, unless the hit needs none. -/
theorem cached_of_mem_hits (hk : 0 < k) (hmem : k * Q.blockSize ∈ Q.hits)
    (hneed : 0 < Q.span + Q.peek) : Cached Q.look (k + Q.peek - 1) := by
  exact ((mem_hits_iff hk).1 hmem).2.2 _ (by omega) (by omega)

/-! ### Matches as hits -/

section Matches

variable (he : k + Q.peek = e + 1)
include he

theorem accepted_iff : Q.misaligned e = false ↔ Q.alignment ∣ k * Q.blockSize := by
  have hend : (if Q.eagle = true then e else e + 1) = k := by
    rw [peek] at he
    split_ifs at he ⊢ <;> omega
  rw [misaligned, misalignedWindow_eq_false_iff, hend]

variable (hk : 0 < k)
include hk

/-- A complete match is a hit of at least the window, with its last block cached. -/
theorem fullMatch_iff : Q.FullMatch e ↔
    e < Q.numBlocks ∧ Q.span ≤ k ∧ k * Q.blockSize ∈ Q.hits ∧ Cached Q.look e := by
  have hacc := accepted_iff he
  have hneed := Q.need_eq
  rw [mem_hits_iff hk]
  constructor
  · rintro ⟨hlt, haccepted, hle, hcached⟩
    refine ⟨hlt, by omega, ⟨hacc.1 haccepted, by omega, fun j hj hlt ↦ ?_⟩, hcached e ?_ le_rfl⟩
    · exact hcached j (by omega) (by omega)
    · omega
  · rintro ⟨hlt, hle, ⟨hdvd, -, hcached⟩, he'⟩
    refine ⟨hlt, hacc.2 hdvd, by omega, fun j hj hje ↦ ?_⟩
    rcases hje.eq_or_lt with rfl | hje
    · exact he'
    · exact hcached j (by omega) (by omega)

/-- A leading run no longer than the window is a hit. -/
theorem leadingRun_iff (hle : k ≤ Q.span) :
    Q.LeadingRun e ↔ e < Q.numBlocks ∧ k * Q.blockSize ∈ Q.hits := by
  have hacc := accepted_iff he
  rw [mem_hits_iff hk]
  constructor
  · rintro ⟨hlt, haccepted, hcached⟩
    exact ⟨hlt, hacc.1 haccepted, by omega, fun j _ hj ↦ hcached j (by omega)⟩
  · rintro ⟨hlt, hdvd, -, hcached⟩
    exact ⟨hlt, hacc.2 hdvd, fun j hj ↦ hcached j (by omega) (by omega)⟩

end Matches

/-- **What the search stops at, as a hit**: `k` blocks are one, of at least the window when a
complete match was found and shorter otherwise. No hit with room for the eagle block and with its
last block cached is longer. -/
structure StopsAt (Q : WindowQuery) (found : Bool) (k : ℕ) : Prop where
  mem : k * Q.blockSize ∈ Q.hits
  room : 0 < k → k + Q.peek ≤ Q.numBlocks
  complete : found = true → Q.span ≤ k ∧ Cached Q.look (k + Q.peek - 1)
  short : found = false → 0 < k → k < Q.span
  greatest : ∀ m, 0 < m → m * Q.blockSize ∈ Q.hits → m + Q.peek ≤ Q.numBlocks →
    Cached Q.look (m + Q.peek - 1) → m ≤ k

variable {found : Bool}

theorem Outcome.stopsAt {num : ℕ} (h : Q.Outcome found num) (hk : k + Q.peek = max num Q.peek) :
    Q.StopsAt found k := by
  have hneed := Q.need_eq
  have hm {m : ℕ} (hm : 0 < m) : m + Q.peek = m + Q.peek - 1 + 1 := by omega
  rcases h with @⟨e, he⟩ | @⟨num, hnone, hmax, hlead⟩
  · have hnl := he.1.need_le
    have hlt := he.1.lt
    have hke : k + Q.peek - 1 = e := by omega
    refine ⟨?_, fun _ ↦ by omega, fun _ ↦ ⟨by omega, ?_⟩, nofun, fun m hpos hmem hle hlast ↦ ?_⟩
    · rcases Nat.eq_zero_or_pos k with rfl | hpos
      · exact zero_mem_hits
      · exact ((fullMatch_iff (by omega) hpos).1 he.1).2.2.1
    · rw [hke]
      exact he.1.cached e (by omega) le_rfl
    · rcases le_or_gt Q.span m with hc | hc
      · have := he.2 ((fullMatch_iff (hm hpos) hpos).2 ⟨by omega, hc, hmem, hlast⟩)
        omega
      · omega
  · have hshort : 0 < k → k < Q.span ∧ Q.LeadingRun (num - 1) := by
      intro hpos
      have hrun := hlead (by omega)
      exact ⟨not_le.1 fun hc ↦ hnone _ (hrun.fullMatch (by omega)), hrun⟩
    refine ⟨?_, fun hpos ↦ ?_, nofun, fun _ hpos ↦ (hshort hpos).1, fun m hpos hmem hle hlast ↦ ?_⟩
    · rcases Nat.eq_zero_or_pos k with rfl | hpos
      · exact zero_mem_hits
      · obtain ⟨hc, hrun⟩ := hshort hpos
        exact ((leadingRun_iff (by omega) hpos hc.le).1 hrun).2
    · have := (hshort hpos).2.lt
      omega
    · rcases le_or_gt Q.span m with hc | hc
      · exact absurd ((fullMatch_iff (hm hpos) hpos).2 ⟨by omega, hc, hmem, hlast⟩) (hnone _)
      · have := hmax _ ((leadingRun_iff (hm hpos) hpos hc.le).2 ⟨by omega, hmem⟩)
        omega

variable (Q) in
/-- **The lookup** returns what the search stops at, trimmed. -/
theorem exists_stopsAt (numGroups : ℕ) :
    ∃ rows found k, Q.hit numGroups = .ok rows ∧ Q.StopsAt found k ∧ rows.length =
      if k = 0 then 0 else trimLength Q.blockSize Q.eagle Q.alignment found (k + Q.peek) := by
  have hstart : Q.Searching Q.numBlocks 0 :=
    ⟨le_rfl, fun j _ _ ↦ by omega, nofun, fun e _ _ _ _ ↦ by omega⟩
  obtain ⟨found, rows, hscan, hout⟩ :=
    hstart.outcome (length_replicate (a := nullRow numGroups))
      fun e he ↦ (succ_le_of_lt he.lt).trans_lt (by have := Q.need_eq; omega)
  refine ⟨trimWindow Q.blockSize Q.eagle Q.alignment found rows, found,
    max rows.length Q.peek - Q.peek, ?_, hout.stopsAt (by omega), ?_⟩
  · show (scanWindow _ _ _ _ _ _).map _ = _
    rw [numBlocks, misaligned] at hscan
    rw [hscan]
    rfl
  · have hle : trimLength Q.blockSize Q.eagle Q.alignment found rows.length ≤
      rows.length - Q.peek := trimLength_le
    rw [trimWindow_eq_take, length_take]
    split_ifs with hk
    · omega
    · have hrows : max rows.length Q.peek - Q.peek + Q.peek = rows.length := by omega
      rw [hrows]
      omega

/-! ### Two pools -/

/-- `k` blocks are a hit, and the last block of its match is cached. -/
def IsMatch (Q : WindowQuery) (k : ℕ) : Prop :=
  k * Q.blockSize ∈ Q.hits ∧ Cached Q.look (k + Q.peek - 1)

theorem StopsAt.isMatch (h : Q.StopsAt found k) (hk : 0 < k) : Q.IsMatch k := by
  rcases found with - | -
  · have := h.short rfl hk
    exact ⟨h.mem, cached_of_mem_hits hk h.mem (by omega)⟩
  · exact ⟨h.mem, (h.complete rfl).2⟩

/-- **Pools with the same matches** give hits of the same length. -/
theorem hit_length_congr {look' : ℕ → Option HitRow}
    (h : ∀ k, 0 < k → (Q.IsMatch k ↔ IsMatch { Q with look := look' } k)) (numGroups : ℕ) :
    (Q.hit numGroups).map length = (hit { Q with look := look' } numGroups).map length := by
  obtain ⟨rows, found, k, hrows, hstop, hlen⟩ := Q.exists_stopsAt numGroups
  obtain ⟨rows', found', k', hrows', hstop', hlen'⟩ :=
    exists_stopsAt { Q with look := look' } numGroups
  have hkk : k = k' := by
    refine le_antisymm (Nat.le_of_not_lt fun hlt ↦ ?_) (Nat.le_of_not_lt fun hlt ↦ ?_)
    · have hm := (h k (by omega)).1 (hstop.isMatch (by omega))
      exact absurd (hstop'.greatest k (by omega) hm.1 (hstop.room (by omega)) hm.2) (by omega)
    · have hm := (h k' (by omega)).2 (hstop'.isMatch (by omega))
      exact absurd (hstop.greatest k' (by omega) hm.1 (hstop'.room (by omega)) hm.2) (by omega)
  subst hkk
  rw [hrows, hrows']
  show Except.ok rows.length = Except.ok rows'.length
  rw [hlen, hlen']
  split_ifs with hk
  · rfl
  have hpos := pos_of_ne_zero hk
  have hfound : found = found' := by
    rcases found with - | - <;> rcases found' with - | -
    · rfl
    · exact absurd (hstop'.complete rfl).1 (not_le.2 (hstop.short rfl hpos))
    · exact absurd (hstop.complete rfl).1 (not_le.2 (hstop'.short rfl hpos))
    · rfl
  rw [hfound]
  rfl

/-! ### The longest hit -/

/-- **Without EAGLE.** -/
theorem StopsAt.isGreatest_iff (h : Q.StopsAt found k) (heagle : Q.eagle = false) :
    IsGreatest Q.hits (k * Q.blockSize) ↔ Q.FindsLongest := by
  have hpeek : Q.peek = 0 := by rw [peek, heagle]; rfl
  have hmem {m : ℕ} (hc : Q.span = 0) (hdvd : Q.alignment ∣ m * Q.blockSize)
      (hle : m ≤ Q.numBlocks) : m * Q.blockSize ∈ Q.hits := by
    rcases Nat.eq_zero_or_pos m with rfl | hm
    · exact zero_mem_hits
    · exact (mem_hits_iff hm).2 ⟨hdvd, hle, fun j hj hlt ↦ by omega⟩
  have hnum {m : ℕ} (hm : m * Q.blockSize ∈ Q.hits) : m ≤ Q.numBlocks :=
    (le_div_iff_mul_le Q.blockSize_pos).2 hm.2.2.1
  rw [isGreatest_hits_iff, FindsLongest, heagle]
  set top := alignedLength Q.blockSize Q.alignment Q.numBlocks with htop
  have htople : top ≤ Q.numBlocks := alignedLength_le _ _ _
  have htopdvd : Q.alignment ∣ top * Q.blockSize := dvd_alignedLength_mul _ _ _
  refine ⟨fun ⟨_, hmax⟩ hc hpos ↦ ?_, fun hcond ↦ ⟨h.mem, fun m hm ↦ ?_⟩⟩
  · have hktop : k = top := le_antisymm (le_alignedLength (hnum h.mem) h.mem.1)
      (hmax top (hmem hc htopdvd htople))
    rcases found with - | -
    · have := h.short rfl (by omega)
      omega
    · have hlast := (h.complete rfl).2
      rwa [hpeek, hktop] at hlast
  · rcases Nat.eq_zero_or_pos m with rfl | hpos
    · exact zero_le k
    have hle := hnum hm
    rcases Nat.eq_zero_or_pos Q.span with hc | hc
    · have hmtop : m ≤ top := le_alignedLength hle hm.1
      refine hmtop.trans (h.greatest top (by omega) (hmem hc htopdvd htople) (by omega) ?_)
      rw [hpeek]
      exact hcond hc (by omega)
    · exact h.greatest m hpos hm (by omega) (cached_of_mem_hits hpos hm (by omega))

/-- **With EAGLE**, when dropping the eagle block leaves what the search stopped at. -/
theorem StopsAt.isGreatest_iff_of_eagle (h : Q.StopsAt found k) (heagle : Q.eagle = true)
    (hk : found = true ∨ Q.alignment ∣ Q.blockSize ∨ k = 0) :
    IsGreatest Q.hits (k * Q.blockSize) ↔ Q.FindsLongest := by
  have hpeek : Q.peek = 1 := by rw [peek, heagle]; rfl
  have hgreatest {m : ℕ} (hpos : 0 < m) (hlt : m < Q.numBlocks)
      (hm : m * Q.blockSize ∈ Q.hits) : m ≤ k :=
    h.greatest m hpos hm (by omega) (cached_of_mem_hits hpos hm (by omega))
  rw [isGreatest_hits_iff, FindsLongest, if_pos heagle]
  refine ⟨fun ⟨_, hmax⟩ ↦ ⟨fun hpos hmem ↦ ?_, ?_⟩, fun hcond ↦ ⟨h.mem, fun m hm ↦ ?_⟩⟩
  · have hle := hmax _ hmem
    have hroom := h.room (by omega)
    omega
  · refine or_iff_not_imp_left.2 fun hdvd m hpos hc hlt hm ↦ ?_
    have hle := hgreatest hpos hlt hm
    rcases found with - | -
    · rcases hk with hk | hk | hk
      · cases hk
      · exact absurd hk hdvd
      · omega
    · have hroom := h.room (by omega)
      exact ⟨k, by omega, (h.complete rfl).1, h.mem⟩
  · rcases Nat.eq_zero_or_pos m with rfl | hpos
    · exact zero_le k
    rcases ((mem_hits_iff hpos).1 hm).2.1.eq_or_lt with rfl | hlt
    · exact absurd hm (hcond.1 hpos)
    · exact hgreatest hpos hlt hm

/-- **With EAGLE**, when the hit in front of the eagle block is rounded away. -/
theorem StopsAt.not_findsLongest (h : Q.StopsAt false k) (heagle : Q.eagle = true) (hk : 0 < k)
    (hdvd : ¬ Q.alignment ∣ Q.blockSize) : ¬ Q.FindsLongest := by
  have hpeek : Q.peek = 1 := by rw [peek, heagle]; rfl
  rw [FindsLongest, if_pos heagle]
  rintro ⟨-, hall⟩
  have hshort := h.short rfl hk
  have hroom := h.room hk
  obtain ⟨m, hlt, hc, hm⟩ := (hall.resolve_left hdvd) k hk hshort (by omega) h.mem
  have := h.greatest m (by omega) hm (by omega) (cached_of_mem_hits (by omega) hm (by omega))
  omega

variable (Q) in
/-- **The lookup returns the longest hit** exactly when `FindsLongest`. -/
theorem hit_isGreatest_iff (numGroups : ℕ) :
    ∃ rows, Q.hit numGroups = .ok rows ∧
      (IsGreatest Q.hits (rows.length * Q.blockSize) ↔ Q.FindsLongest) := by
  obtain ⟨rows, found, k, hrows, hstop, hlen⟩ := Q.exists_stopsAt numGroups
  refine ⟨rows, hrows, ?_⟩
  have hself : alignedLength Q.blockSize Q.alignment k = k := alignedLength_eq_self hstop.mem.1
  rcases heagle : Q.eagle with - | -
  · have hrk : rows.length = k := by
      rw [hlen, peek, heagle, if_neg Bool.false_ne_true]
      split_ifs with hk
      · exact hk.symm
      · rcases found with - | -
        · exact hself
        · rfl
    rw [hrk]
    exact hstop.isGreatest_iff heagle
  rw [peek, heagle, if_pos rfl] at hlen
  by_cases hk : found = true ∨ Q.alignment ∣ Q.blockSize ∨ k = 0
  · have hrk : rows.length = k := by
      rw [hlen]
      split_ifs with hk0
      · exact hk0.symm
      · rcases found with - | -
        · have hdvd := (hk.resolve_left false_ne_true).resolve_right hk0
          have hnum : alignedLength Q.blockSize Q.alignment (k + 1) = k + 1 :=
            alignedLength_eq_self (Nat.dvd_mul_left_of_dvd hdvd _)
          show alignedLength _ _ (alignedLength _ _ (k + 1) - 1) = k
          rw [hnum]
          exact hself
        · exact hself
    rw [hrk]
    exact hstop.isGreatest_iff_of_eagle heagle hk
  · -- The run is cut to an aligned length, at least its last block, and then popped.
    obtain ⟨hfound, hdvd, hpos⟩ := not_or.1 hk |>.imp_right not_or.1
    rw [not_eq_true] at hfound
    subst hfound
    have hcut : alignedLength Q.blockSize Q.alignment (k + 1) < k + 1 := by
      refine lt_of_le_of_ne (alignedLength_le _ _ _) fun heq ↦ hdvd ?_
      have hsub := dvd_sub (dvd_alignedLength_mul Q.blockSize Q.alignment (k + 1)) hstop.mem.1
      rwa [heq, ← Nat.sub_mul, Nat.add_sub_cancel_left, one_mul] at hsub
    have hlt : rows.length < k := by
      have := alignedLength_le Q.blockSize Q.alignment
        (alignedLength Q.blockSize Q.alignment (k + 1) - 1)
      rw [hlen, if_neg hpos]
      show alignedLength _ _ (alignedLength _ _ (k + 1) - 1) < k
      omega
    refine iff_of_false (fun hgreatest ↦ ?_)
      (hstop.not_findsLongest heagle (pos_of_ne_zero hpos) hdvd)
    exact absurd ((isGreatest_hits_iff.1 hgreatest).2 _ hstop.mem) (not_le.2 hlt)

/-- Blocks of four tokens under a window of sixteen, the first three cached, and an alignment of two
blocks. -/
def threeCached : WindowQuery where
  look i := if i < 3 then some [i + 1] else none
  blockSize := 4
  blockSize_pos := succ_pos (nat_lit 3)
  maxLength := 19
  eagle := true
  alignment := 8
  window := 16

/-- **A lost hit.** The third block lies behind the hit of two blocks, and the first two hold the
window before it; but the run of three is cut to two blocks and the eagle block popped from
those. -/
theorem eagle_loses_short_hit : threeCached.hit 1 = .ok [] ∧ 8 ∈ threeCached.hits := by
  refine ⟨by decide, (mem_hits_iff (k := 2) (by decide)).2 ⟨by decide, by decide, ?_⟩⟩
  intro j _ hj
  show (if j < 3 then some [j + 1] else none).isSome = true
  rw [if_pos (show j < 2 + 1 from hj)]
  rfl

end WindowQuery

end OneCatVllm
