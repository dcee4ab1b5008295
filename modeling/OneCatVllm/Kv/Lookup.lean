import OneCatVllm.Kv.Pool
import OneCatVllm.Lib.Grid

/-!
# Prefix lookups of the single-type managers

`find_longest_cache_hit` of the managers in `vllm/v1/core/single_type_kv_cache_manager.py`: the
longest prefix of a request, in blocks of one spec, that the prefix index can serve.

A lookup serves all groups of a spec at once and returns one list of blocks per group. All lists
have the same length, so a lookup is modelled by its **rows**: row `i` holds the blocks at index
`i`, one for each group.
-/

namespace OneCatVllm

open Grid List Nat Option

variable {Q H X E : Type} {α β : Type} {cached : ℕ → α → Prop} {l : List α} {b a n i : ℕ}

/-! ### Specs -/

/-- The classes of `KVCacheSpec` that the managers tell apart, with the fields they read. -/
inductive SpecKind
  /-- `FullAttentionSpec` and its subclasses. -/
  | fullAttention
  | slidingWindow (slidingWindow : ℕ)
  | chunkedLocalAttention (attentionChunkSize : ℕ)
  | mamba (align : Bool) (numSpeculativeBlocks : ℕ)
  | crossAttention
  deriving DecidableEq

/-- `KVCacheSpec`. Specs are compared as wholes; `layout` stands for the fields that no manager
reads (numbers of heads, head sizes, dtypes). -/
structure KVCacheSpec where
  kind : SpecKind
  blockSize : ℕ
  blockSize_pos : 0 < blockSize
  layout : ℕ
  deriving DecidableEq

/-- `isinstance(spec, FullAttentionSpec)`. -/
def KVCacheSpec.isFullAttention (spec : KVCacheSpec) : Bool :=
  spec.kind = .fullAttention

/-! ### Scans -/

/-- A row of a lookup: one block for each group. -/
abbrev HitRow : Type := List ℕ

/-- The row of null blocks. -/
def nullRow (numGroups : ℕ) : HitRow := replicate numGroups 0

section Scans

variable (row : ℕ → Except KvError (Option HitRow))

/-- The rows from index `i` on, up to the first miss: at most `n` of them. -/
def scanForward : ℕ → ℕ → Except KvError (List HitRow)
  | 0, _ => .ok []
  | n + 1, i =>
    match row i with
    | .error e => .error e
    | .ok none => .ok []
    | .ok (some r) => (scanForward n (i + 1)).map (r :: ·)

/-- The sliding-window search from right to left: `num` contiguous blocks are matched so far, the
leftmost at index `i`. Returns whether `need` contiguous blocks were found, and the rows up to the
right end of the match, or the leading run of matches. -/
def scanWindow (misaligned : ℕ → Bool) (need : ℕ) :
    ℕ → ℕ → List HitRow → Except KvError (Bool × List HitRow)
  | 0, num, computed => .ok (false, computed.take num)
  | i + 1, num, computed =>
    match row i with
    | .error e => .error e
    | .ok none => scanWindow misaligned need i 0 computed
    | .ok (some r) =>
      if num = 0 ∧ misaligned i then scanWindow misaligned need i num computed
      else if need ≤ num + 1 then .ok (true, (computed.set i r).take (i + (num + 1)))
      else scanWindow misaligned need i (num + 1) (computed.set i r)

/-- The Mamba search from right to left, for the last cached state: null rows before it. -/
def scanState (misaligned : ℕ → Bool) (numGroups : ℕ) : ℕ → Except KvError (List HitRow)
  | 0 => .ok []
  | i + 1 =>
    match row i with
    | .error e => .error e
    | .ok none => scanState misaligned numGroups i
    | .ok (some r) =>
      if misaligned i then scanState misaligned numGroups i
      else .ok (replicate i (nullRow numGroups) ++ [r])

end Scans

/-- How far `while block_size != alignment_tokens and len * block_size % alignment_tokens != 0`
pops a list of length `n`. -/
def alignedLength (blockSize alignmentTokens : ℕ) : ℕ → ℕ
  | 0 => 0
  | n + 1 =>
    if blockSize ≠ alignmentTokens ∧ (n + 1) * blockSize % alignmentTokens ≠ 0 then
      alignedLength blockSize alignmentTokens n
    else n + 1

/-- Pops rows until the length is aligned. -/
def popMisaligned (blockSize alignmentTokens : ℕ) (rows : List HitRow) : List HitRow :=
  rows.take (alignedLength blockSize alignmentTokens rows.length)

/-! ### The managers -/

section Managers

variable (row : ℕ → Except KvError (Option HitRow)) (numHashes numGroups blockSize maxLength : ℕ)
  (dropEagleBlock : Bool) (alignmentTokens : ℕ)

/-- `FullAttentionManager.find_longest_cache_hit`. -/
def fullAttentionHit : Except KvError (List HitRow) :=
  (scanForward row (min (maxLength / blockSize) numHashes) 0).map fun computed ↦
    popMisaligned blockSize alignmentTokens (if dropEagleBlock then computed.dropLast else computed)

/-- `SlidingWindowManager._contiguous_blocks_for_hit`. -/
def contiguousBlocksForHit (windowSize blockSize : ℕ) (useEagle : Bool) : ℕ :=
  cdiv (windowSize - 1) blockSize + if useEagle then 1 else 0

/-- The sliding-window search skips a first match whose end, after the eagle block is popped, is not
aligned. -/
def misalignedWindow (i : ℕ) : Bool :=
  blockSize ≠ alignmentTokens ∧
    (if dropEagleBlock then i else i + 1) * blockSize % alignmentTokens ≠ 0

/-- The end of `SlidingWindowManager.find_longest_cache_hit`: an incomplete match is aligned, then
the eagle block is popped and the rest aligned again. -/
def trimWindow (matchFound : Bool) (computed : List HitRow) : List HitRow :=
  let aligned := if matchFound then computed else popMisaligned blockSize alignmentTokens computed
  if dropEagleBlock ∧ aligned ≠ [] then
    popMisaligned blockSize alignmentTokens aligned.dropLast
  else aligned

/-- `SlidingWindowManager.find_longest_cache_hit`. -/
def slidingWindowHit (slidingWindow : ℕ) : Except KvError (List HitRow) :=
  let maxNumBlocks := maxLength / blockSize
  (scanWindow row (misalignedWindow blockSize dropEagleBlock alignmentTokens)
      (contiguousBlocksForHit slidingWindow blockSize dropEagleBlock) maxNumBlocks 0
      (replicate maxNumBlocks (nullRow numGroups))).map fun (matchFound, computed) ↦
    trimWindow blockSize dropEagleBlock alignmentTokens matchFound computed

/-- `ChunkedLocalAttentionManager.find_longest_cache_hit`. -/
def chunkedLocalAttentionHit (attentionChunkSize : ℕ) : Except KvError (List HitRow) :=
  if dropEagleBlock then .error .assertion
  else if blockSize ≠ alignmentTokens then .error .assertion
  else
    let localAttentionStartIdx := maxLength / attentionChunkSize * attentionChunkSize
    let localAttentionStartBlockIdx := localAttentionStartIdx / blockSize
    (scanForward row (maxLength / blockSize - localAttentionStartBlockIdx)
      localAttentionStartBlockIdx).map
        (replicate localAttentionStartBlockIdx (nullRow numGroups) ++ ·)

/-- `MambaManager.find_longest_cache_hit`. -/
def mambaHit : Except KvError (List HitRow) :=
  let maxNumBlocks := maxLength / blockSize - if dropEagleBlock then 1 else 0
  scanState row
    (fun i ↦ blockSize ≠ alignmentTokens ∧ (i + 1) * blockSize % alignmentTokens ≠ 0)
    numGroups maxNumBlocks

/-- `find_longest_cache_hit` of the manager class of a spec. -/
def findLongestCacheHit (spec : KVCacheSpec) : Except KvError (List HitRow) :=
  match spec.kind with
  | .fullAttention =>
    fullAttentionHit row numHashes spec.blockSize maxLength dropEagleBlock alignmentTokens
  | .slidingWindow w =>
    slidingWindowHit row numGroups spec.blockSize maxLength dropEagleBlock alignmentTokens w
  | .chunkedLocalAttention c =>
    chunkedLocalAttentionHit row numGroups spec.blockSize maxLength dropEagleBlock alignmentTokens c
  | .mamba _ _ =>
    mambaHit row numGroups spec.blockSize maxLength dropEagleBlock alignmentTokens
  | .crossAttention => .error .notImplemented

end Managers

/-! ### What a lookup returns -/

/-- **A sound list of blocks** for a hit of `hit` tokens, by the kind of its group, where
`cached i a` says that `a` is the cached entry of index `i`: every entry of full attention; for a
sliding window every entry of a block with a token of the window before `hit`, which are the last
`slidingWindow - 1` positions; for Mamba the last entry, the state at `hit`. -/
def SpecKind.Sound (kind : SpecKind) (blockSize hit : ℕ) (cached : ℕ → α → Prop) (l : List α) :
    Prop :=
  match kind with
  | .fullAttention => ∀ i a, l[i]? = some a → cached i a
  | .slidingWindow w => ∀ i a, l[i]? = some a →
      (∃ t, i * blockSize ≤ t ∧ t < (i + 1) * blockSize ∧ t < hit ∧ hit ≤ t + (w - 1)) → cached i a
  | .chunkedLocalAttention _ => True
  | .mamba _ _ => ∀ a, l.getLast? = some a → cached (l.length - 1) a
  | .crossAttention => True

theorem SpecKind.Sound.map {kind : SpecKind} {blockSize hit : ℕ} {cached' : ℕ → β → Prop}
    {f : α → β} (h : kind.Sound blockSize hit cached l) (hf : ∀ i a, cached i a → cached' i (f a)) :
    kind.Sound blockSize hit cached' (l.map f) := by
  cases kind with
  | fullAttention =>
    intro i b hb
    obtain ⟨a, ha, rfl⟩ := map_eq_some_iff.1 (getElem?_map ▸ hb)
    exact hf i a (h i a ha)
  | slidingWindow w =>
    intro i b hb hwindow
    obtain ⟨a, ha, rfl⟩ := map_eq_some_iff.1 (getElem?_map ▸ hb)
    exact hf i a (h i a ha hwindow)
  | chunkedLocalAttention c => trivial
  | mamba align n =>
    intro b hb
    obtain ⟨a, ha, rfl⟩ := map_eq_some_iff.1 (getLast?_map ▸ hb)
    rw [length_map]
    exact hf _ a (h a ha)
  | crossAttention => trivial

theorem getElem?_of_take {a : α} (h : (l.take n)[i]? = some a) : l[i]? = some a := by
  rw [getElem?_take] at h
  split at h
  · exact h
  · cases h

/-- A full-attention hit can be cut anywhere. -/
theorem SpecKind.Sound.take {blockSize hit hit' : ℕ}
    (h : SpecKind.fullAttention.Sound blockSize hit cached l) (n : ℕ) :
    SpecKind.fullAttention.Sound blockSize hit' cached (l.take n) :=
  fun i a ha ↦ h i a (getElem?_of_take ha)

/-- Whether the managers accept a spec in a lookup: chunked local attention neither drops an eagle
block nor serves another alignment than its own, and cross attention has no lookup. -/
def KVCacheSpec.Supported (spec : KVCacheSpec) (dropEagleBlock : Bool) (alignmentTokens : ℕ) :
    Prop :=
  match spec.kind with
  | .chunkedLocalAttention _ => dropEagleBlock = false ∧ spec.blockSize = alignmentTokens
  | .crossAttention => False
  | _ => True

/-! ### Alignment -/

theorem not_misaligned_iff : ¬ (b ≠ a ∧ n * b % a ≠ 0) ↔ a ∣ n * b := by
  rw [dvd_iff_mod_eq_zero]
  refine ⟨fun h ↦ not_not.1 fun hmod ↦ h ⟨fun hb ↦ hmod ?_, hmod⟩, fun h hne ↦ hne.2 h⟩
  rw [hb]
  exact mul_mod_left _ _

theorem alignedLength_le (b a n : ℕ) : alignedLength b a n ≤ n := by
  induction n with
  | zero => exact le_rfl
  | succ n ih =>
    rw [alignedLength]
    split
    · exact ih.trans n.le_succ
    · exact le_rfl

theorem dvd_alignedLength_mul (b a n : ℕ) : a ∣ alignedLength b a n * b := by
  induction n with
  | zero => rw [alignedLength, zero_mul]; exact Nat.dvd_zero a
  | succ n ih =>
    rw [alignedLength]
    split_ifs with hstop
    · exact ih
    · exact not_misaligned_iff.1 hstop

theorem alignedLength_eq_self (h : a ∣ n * b) : alignedLength b a n = n := by
  cases n with
  | zero => rfl
  | succ n => rw [alignedLength, if_neg (not_misaligned_iff.2 h)]

theorem length_popMisaligned (b a : ℕ) (rows : List HitRow) :
    (popMisaligned b a rows).length = alignedLength b a rows.length := by
  rw [popMisaligned, length_take, min_eq_left (alignedLength_le b a _)]

/-! ### The scans -/

section ScanSpec

variable {row : ℕ → Except KvError (Option HitRow)} {look : ℕ → Option HitRow}

/-- **The forward scan** returns the leading run of matches. -/
theorem exists_scanForward (hrow : ∀ j < i + n, row j = .ok (look j)) :
    ∃ rows, scanForward row n i = .ok rows ∧ rows.length ≤ n ∧
      ∀ j a, rows[j]? = some a → look (i + j) = some a := by
  induction n generalizing i with
  | zero => exact ⟨[], rfl, le_rfl, nofun⟩
  | succ n ih =>
    rw [scanForward, hrow i (by omega)]
    cases hlook : look i with
    | none => exact ⟨[], rfl, n.succ.zero_le, nofun⟩
    | some r =>
      obtain ⟨rows, hscan, hlen, hget⟩ := ih (i := i + 1) fun j hj ↦ hrow j (by omega)
      refine ⟨r :: rows, ?_, succ_le_succ hlen, fun j a hj ↦ ?_⟩
      · rw [hscan]
        rfl
      · cases j with
        | zero => rw [← hj]; exact hlook
        | succ j =>
          rw [← succ_add_eq_add_succ]
          exact hget j a hj

/-- **The window scan**: the last `need` rows of what it returns are cached, and all of them when no
complete match was found. The invariant is that the `num` rows from `i` on are cached and that their
right end was accepted. -/
theorem exists_scanWindow (misaligned : ℕ → Bool) (need num : ℕ) {computed : List HitRow}
    (hrow : ∀ j < i, row j = .ok (look j)) (hlen : i + num ≤ computed.length)
    (hrun : ∀ j, i ≤ j → j < i + num → computed[j]? = look j)
    (hend : 0 < num → misaligned (i + num - 1) = false) :
    ∃ found rows, scanWindow row misaligned need i num computed = .ok (found, rows) ∧
      rows.length ≤ computed.length ∧
      (found = true → 0 < rows.length ∧ misaligned (rows.length - 1) = false) ∧
      (∀ j < rows.length, rows.length ≤ j + need ∨ found = false → rows[j]? = look j) := by
  induction i generalizing num computed with
  | zero =>
    rw [zero_add] at hlen
    have hl : (computed.take num).length = num := by
      rw [length_take, min_eq_left hlen]
    refine ⟨false, computed.take num, rfl, by omega, nofun, fun j hj _ ↦ ?_⟩
    rw [hl] at hj
    rw [getElem?_take_of_lt hj]
    exact hrun j (zero_le j) (by omega)
  | succ i ih =>
    rw [scanWindow, hrow i (lt_succ_self i)]
    have hrow' : ∀ j < i, row j = .ok (look j) := fun j hj ↦ hrow j (by omega)
    cases hlook : look i with
    | none => exact ih 0 hrow' (by omega) (fun j _ _ ↦ by omega) nofun
    | some r =>
      show ∃ found rows, (if num = 0 ∧ misaligned i = true then _ else _) = _ ∧ _
      by_cases hskip : num = 0 ∧ misaligned i = true
      · rw [if_pos hskip]
        exact ih num hrow' (by omega) (fun j _ _ ↦ by omega) (fun _ ↦ by omega)
      -- the row at `i` extends the run to the left
      have hlen' : i + (num + 1) ≤ (computed.set i r).length := by
        rw [length_set]; omega
      have hrun' : ∀ j, i ≤ j → j < i + (num + 1) → (computed.set i r)[j]? = look j := by
        intro j hij hj
        rcases hij.eq_or_lt with rfl | hlt
        · rw [getElem?_set_self (by omega), hlook]
        · rw [getElem?_set_ne hlt.ne]
          exact hrun j hlt (by omega)
      have hend' : misaligned (i + (num + 1) - 1) = false := by
        rcases Nat.eq_zero_or_pos num with rfl | hpos
        · exact Bool.eq_false_iff.2 fun h ↦ hskip ⟨rfl, h⟩
        · have h := hend hpos
          rwa [show i + 1 + num - 1 = i + (num + 1) - 1 by omega] at h
      split_ifs with hneed
      · have hl : ((computed.set i r).take (i + (num + 1))).length = i + (num + 1) := by
          rw [length_take, min_eq_left hlen']
        refine ⟨true, _, rfl, ?_, fun _ ↦ ?_, fun j hj hlast ↦ ?_⟩
        · rw [hl]
          rwa [length_set] at hlen'
        · rw [hl]
          exact ⟨by omega, hend'⟩
        · rw [hl] at hj hlast
          rw [getElem?_take_of_lt hj]
          exact hrun' j (by rcases hlast with h | h; omega; cases h) hj
      · obtain ⟨found, rows, hscan, hle, hrest⟩ := ih (num + 1) hrow' hlen' hrun' (fun _ ↦ hend')
        exact ⟨found, rows, hscan, hle.trans_eq length_set, hrest⟩

/-- **The state scan** ends in a cached row at an aligned index, or finds nothing. -/
theorem exists_scanState (misaligned : ℕ → Bool) (numGroups : ℕ)
    (hrow : ∀ j < i, row j = .ok (look j)) :
    ∃ rows, scanState row misaligned numGroups i = .ok rows ∧ rows.length ≤ i ∧
      (rows ≠ [] → misaligned (rows.length - 1) = false) ∧
      ∀ a, rows.getLast? = some a → look (rows.length - 1) = some a := by
  induction i with
  | zero => exact ⟨[], rfl, le_rfl, fun h ↦ absurd rfl h, nofun⟩
  | succ i ih =>
    obtain ⟨rows, hscan, hlen, hrest⟩ := ih fun j hj ↦ hrow j (by omega)
    rw [scanState, hrow i (lt_succ_self i)]
    cases hlook : look i with
    | none => exact ⟨rows, hscan, by omega, hrest⟩
    | some r =>
      split_ifs with hmis
      · exact ⟨rows, hscan, by omega, hrest⟩
      · have hl : (replicate i (nullRow numGroups) ++ [r]).length = i + 1 := by
          rw [length_append, length_replicate, length_singleton]
        refine ⟨_, rfl, hl.le, fun _ ↦ ?_, fun a ha ↦ ?_⟩
        · rw [hl]
          exact Bool.eq_false_iff.2 hmis
        · rw [getLast?_concat] at ha
          rw [hl, Nat.add_sub_cancel, hlook]
          exact ha

/-! ### The managers -/

variable {numHashes numGroups maxLength align : ℕ} {eagle found : Bool}
  {spec : KVCacheSpec} {rows : List HitRow}

/-- The entries of a lookup's rows are those of the index. -/
abbrev RowCached (look : ℕ → Option HitRow) (i : ℕ) (r : HitRow) : Prop := look i = some r

/-- **What a lookup returns**: aligned sound rows within the bound, one fewer than fit when the
eagle block is dropped. -/
structure LookupSpec (look : ℕ → Option HitRow) (spec : KVCacheSpec) (maxLength : ℕ)
    (dropEagleBlock : Bool) (alignmentTokens : ℕ) (rows : List HitRow) : Prop where
  length_le : rows.length ≤ maxLength / spec.blockSize - if dropEagleBlock then 1 else 0
  aligned : alignmentTokens ∣ rows.length * spec.blockSize
  sound : spec.kind.Sound spec.blockSize (rows.length * spec.blockSize) (RowCached look) rows

/-- The number of rows that `trimWindow` keeps of `n`. -/
def trimLength (b : ℕ) (dropEagleBlock : Bool) (a : ℕ) (found : Bool) (n : ℕ) : ℕ :=
  let aligned := if found then n else alignedLength b a n
  if dropEagleBlock then alignedLength b a (aligned - 1) else aligned

theorem trimLength_le : trimLength b eagle a found n ≤ n - if eagle = true then 1 else 0 := by
  have hle := alignedLength_le b a n
  have hle' := alignedLength_le b a ((if found = true then n else alignedLength b a n) - 1)
  rw [trimLength]
  split_ifs at hle' ⊢ <;> omega

theorem trimWindow_eq_take (rows : List HitRow) :
    trimWindow b eagle a found rows = rows.take (trimLength b eagle a found rows.length) := by
  set m := if found = true then rows.length else alignedLength b a rows.length with hm
  have hle : m ≤ rows.length := by
    rw [hm]
    split_ifs
    · exact le_rfl
    · exact alignedLength_le b a _
  have haligned : (if found = true then rows else popMisaligned b a rows) = rows.take m := by
    rw [hm]
    split_ifs
    · exact take_length.symm
    · rfl
  rw [trimWindow, haligned]
  show (if eagle = true ∧ rows.take m ≠ [] then _ else _) =
    rows.take (if eagle = true then alignedLength b a (m - 1) else m)
  have hpop := alignedLength_le b a (m - 1)
  rcases eagle with - | -
  · rfl
  · rw [if_pos rfl]
    split_ifs with hne
    · have hlen : (rows.take m).dropLast.length = m - 1 := by
        rw [length_dropLast, length_take, min_eq_left hle]
      rw [popMisaligned, hlen, dropLast_eq_take, take_take, take_take, length_take]
      congr 1
      omega
    · have hnil : rows.take m = [] := not_not.1 fun h ↦ hne ⟨rfl, h⟩
      rw [← min_eq_left (hpop.trans (sub_le m 1)), ← take_take, hnil, take_nil]

theorem misalignedWindow_eq_false_iff :
    misalignedWindow b eagle a i = false ↔ a ∣ (if eagle = true then i else i + 1) * b := by
  rw [misalignedWindow, decide_eq_false_iff_not, not_misaligned_iff]

/-- A complete match only loses its eagle block: its end was accepted by the search. -/
theorem trimLength_of_found (hpos : 0 < n) (hend : misalignedWindow b eagle a (n - 1) = false) :
    trimLength b eagle a true n = n - (if eagle = true then 1 else 0) ∧
      a ∣ (n - if eagle = true then 1 else 0) * b := by
  rw [misalignedWindow_eq_false_iff, Nat.sub_add_cancel hpos] at hend
  rcases eagle with - | -
  · exact ⟨rfl, hend⟩
  · exact ⟨alignedLength_eq_self hend, hend⟩

/-- Trimming keeps the last `need` rows cached, and all of an incomplete match. -/
theorem trimWindow_spec {need : ℕ} (hend : found = true →
      0 < rows.length ∧ misalignedWindow b eagle a (rows.length - 1) = false)
    (hrows : ∀ j < rows.length,
      rows.length ≤ j + (need + if eagle = true then 1 else 0) ∨ found = false →
        rows[j]? = look j) :
    (trimWindow b eagle a found rows).length ≤
        rows.length - (if eagle = true then 1 else 0) ∧
      a ∣ (trimWindow b eagle a found rows).length * b ∧
      ∀ j < (trimWindow b eagle a found rows).length,
        (trimWindow b eagle a found rows).length ≤ j + need →
          (trimWindow b eagle a found rows)[j]? = look j := by
  set m := trimLength b eagle a found rows.length with hm
  have hle : m ≤ rows.length - if eagle = true then 1 else 0 := trimLength_le
  have hlen : (rows.take m).length = m := by
    rw [length_take]
    omega
  rw [trimWindow_eq_take, hlen]
  refine ⟨hle, ?_, fun j hj hlast ↦ ?_⟩
  · rcases found with - | -
    · rw [hm, trimLength]
      split_ifs <;> first | exact dvd_alignedLength_mul _ _ _ | contradiction
    · obtain ⟨hpos, hmis⟩ := hend rfl
      obtain ⟨heq, hdvd⟩ := trimLength_of_found hpos hmis
      rw [hm, heq]
      exact hdvd
  · rw [getElem?_take_of_lt hj]
    refine hrows j (by omega) ?_
    rcases found with - | -
    · exact .inr rfl
    · obtain ⟨hpos, hmis⟩ := hend rfl
      have heq := (trimLength_of_found hpos hmis).1
      exact .inl (by omega)

section

variable (hrow : ∀ j < maxLength / spec.blockSize, row j = .ok (look j))

include hrow

theorem fullAttentionHit_spec (hkind : spec.kind = .fullAttention) :
    ∃ rows, fullAttentionHit row numHashes spec.blockSize maxLength eagle align = .ok rows ∧
      LookupSpec look spec maxLength eagle align rows := by
  obtain ⟨rows, hscan, hlen, hget⟩ :=
    exists_scanForward (n := min (maxLength / spec.blockSize) numHashes) (i := 0)
      fun j hj ↦ hrow j (by omega)
  set kept := if eagle = true then rows.dropLast else rows with hkept
  have htake : kept = rows.take (rows.length - if eagle = true then 1 else 0) := by
    rw [hkept]
    split
    · exact dropLast_eq_take
    · exact take_length.symm
  have hkget : ∀ j a, kept[j]? = some a → look j = some a := by
    intro j a hj
    rw [← zero_add j]
    exact hget j a (getElem?_of_take (htake ▸ hj))
  refine ⟨popMisaligned spec.blockSize align kept, ?_, ?_, ?_, ?_⟩
  · rw [fullAttentionHit, hscan]
    rfl
  · rw [length_popMisaligned]
    refine (alignedLength_le _ _ _).trans ?_
    rw [htake, length_take]
    omega
  · rw [length_popMisaligned]
    exact dvd_alignedLength_mul _ _ _
  · rw [hkind]
    have hsound : SpecKind.fullAttention.Sound spec.blockSize 0 (RowCached look) kept := hkget
    exact hsound.take _

theorem slidingWindowHit_spec {w : ℕ} (hkind : spec.kind = .slidingWindow w) :
    ∃ rows, slidingWindowHit row numGroups spec.blockSize maxLength eagle align w = .ok rows ∧
      LookupSpec look spec maxLength eagle align rows := by
  have hrep : (replicate (maxLength / spec.blockSize) (nullRow numGroups)).length =
    maxLength / spec.blockSize := length_replicate
  obtain ⟨found, rows, hscan, hlen, hend, hrows⟩ :=
    exists_scanWindow (misalignedWindow spec.blockSize eagle align)
      (contiguousBlocksForHit w spec.blockSize eagle) 0 hrow hrep.ge
      (fun j _ _ ↦ by omega) nofun
  obtain ⟨hle, hdvd, hlast⟩ := trimWindow_spec hend hrows
  refine ⟨_, ?_, ?_, hdvd, ?_⟩
  · rw [slidingWindowHit, hscan]
    rfl
  · omega
  · rw [hkind]
    rintro i r hr ⟨t, -, ht, -, hwindow⟩
    obtain ⟨hi, -⟩ := List.getElem?_eq_some_iff.1 hr
    rw [RowCached, ← hlast i hi ?_]
    · exact hr
    · -- a block that ends before the last `cdiv (w - 1) blockSize` ones holds no such token
      by_contra hfar
      have hgap : cdiv (w - 1) spec.blockSize ≤
          (trimWindow spec.blockSize eagle align found rows).length - i - 1 := by
        omega
      rw [cdiv_le_iff spec.blockSize_pos, Nat.sub_sub, Nat.sub_mul] at hgap
      have hend := mul_le_mul_right spec.blockSize (succ_le_of_lt hi)
      rw [succ_eq_add_one] at hend
      omega

theorem mambaHit_spec {m : Bool} (hkind : spec.kind = .mamba m n) :
    ∃ rows, mambaHit row numGroups spec.blockSize maxLength eagle align = .ok rows ∧
      LookupSpec look spec maxLength eagle align rows := by
  obtain ⟨rows, hscan, hlen, hend, hlast⟩ :=
    exists_scanState (fun i ↦ decide (spec.blockSize ≠ align ∧
        (i + 1) * spec.blockSize % align ≠ 0)) numGroups
      (i := maxLength / spec.blockSize - if eagle = true then 1 else 0)
      fun j hj ↦ hrow j (by omega)
  refine ⟨rows, hscan, hlen, ?_, ?_⟩
  · by_cases hnil : rows = []
    · rw [hnil, length_nil, zero_mul]
      exact Nat.dvd_zero _
    · have hmis := decide_eq_false_iff_not.1 (hend hnil)
      rw [Nat.sub_add_cancel (length_pos_of_ne_nil hnil)] at hmis
      exact not_misaligned_iff.1 hmis
  · rw [hkind]
    exact hlast

theorem chunkedLocalAttentionHit_spec {c : ℕ} (hkind : spec.kind = .chunkedLocalAttention c)
    (hsupported : spec.Supported eagle align) :
    ∃ rows, chunkedLocalAttentionHit row numGroups spec.blockSize maxLength eagle align c =
        .ok rows ∧
      LookupSpec look spec maxLength eagle align rows := by
  rw [KVCacheSpec.Supported, hkind] at hsupported
  obtain ⟨rfl, rfl⟩ := hsupported
  have hstart : maxLength / c * c / spec.blockSize ≤ maxLength / spec.blockSize :=
    Nat.div_le_div_right (div_mul_le_self maxLength c)
  obtain ⟨rows, hscan, hlen, -⟩ :=
    exists_scanForward (n := maxLength / spec.blockSize - maxLength / c * c / spec.blockSize)
      (i := maxLength / c * c / spec.blockSize) fun j hj ↦ hrow j (by omega)
  refine ⟨replicate (maxLength / c * c / spec.blockSize) (nullRow numGroups) ++ rows,
    ?_, ?_, Nat.dvd_mul_left _ _, ?_⟩
  · rw [chunkedLocalAttentionHit, if_neg (not_not.2 rfl)]
    simp only [hscan]
    rfl
  · rw [length_append, length_replicate, if_neg Bool.false_ne_true]
    omega
  · rw [hkind]
    trivial

/-- **Every lookup** of a supported spec returns, with aligned sound rows within its bound. -/
theorem findLongestCacheHit_spec (hsupported : spec.Supported eagle align) :
    ∃ rows, findLongestCacheHit row numHashes numGroups maxLength eagle align
        spec = .ok rows ∧
      LookupSpec look spec maxLength eagle align rows := by
  rw [findLongestCacheHit]
  cases hkind : spec.kind with
  | fullAttention => exact fullAttentionHit_spec hrow hkind
  | slidingWindow w => exact slidingWindowHit_spec hrow hkind
  | chunkedLocalAttention c => exact chunkedLocalAttentionHit_spec hrow hkind hsupported
  | mamba align n => exact mambaHit_spec hrow hkind
  | crossAttention =>
    rw [KVCacheSpec.Supported, hkind] at hsupported
    exact hsupported.elim

end

/-- A lookup of an unsupported spec raises. -/
theorem supported_of_findLongestCacheHit_eq_ok
    (h : findLongestCacheHit row numHashes numGroups maxLength eagle align
      spec = .ok rows) : spec.Supported eagle align := by
  rw [findLongestCacheHit] at h
  rw [KVCacheSpec.Supported]
  cases hkind : spec.kind with
  | fullAttention => trivial
  | slidingWindow w => trivial
  | chunkedLocalAttention c =>
    simp only [hkind, chunkedLocalAttentionHit] at h
    split_ifs at h with heagle halign
    exact ⟨Bool.eq_false_iff.2 heagle, not_not.1 halign⟩
  | mamba align n => trivial
  | crossAttention =>
    rw [hkind] at h
    cases h

end ScanSpec

end OneCatVllm
