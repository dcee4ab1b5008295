import OneCatVllm.Hash.BlockHasher

/-!
# Block hashes and the arrival of tokens

A request hashes its prompt when it is built and hashes again after every appended chunk of output.
`Hashed first r` says what that leaves behind: the first `first` blocks were hashed by a call that
saw every multimodal item, the others by calls that saw the last item only. `hashed_grow` proves it
of a request grown from its prompt by any sequence of chunks, where `first` is the number of blocks
complete at the first call that had a block to hash (`firstHashed`).

`blockHashes_grow_eq_iff` compares the grown list with the list computed in one call. They are the
same exactly when, in every block completed after the first hashing call, the items a full scan
records carry the same identifiers and offsets as what the last item alone records.
-/

namespace OneCatVllm

open BlockHasher HashChain List Nat Request

variable {H E : Type} {r : Request H E}

namespace Request

section

variable (hasher : Option (Request H E → List H)) (r : Request H E)

/-- A request after a sequence of chunks has been appended to its output. -/
def grow (chunks : List (List ℕ)) : Request H E :=
  chunks.foldl (fun r c ↦ r.appendOutputTokenIds hasher c) r

@[simp] theorem grow_nil : r.grow hasher [] = r := rfl

@[simp] theorem grow_cons (c : List ℕ) (cs : List (List ℕ)) :
    r.grow hasher (c :: cs) = (r.appendOutputTokenIds hasher c).grow hasher cs := rfl

end

end Request

/-- The number of blocks hashed by the first call that finds a full block, for a request that has
`n` tokens now and to which `chunks` are appended. -/
def firstHashed (blockSize : ℕ) : ℕ → List (List ℕ) → ℕ
  | n, [] => n / blockSize
  | n, c :: cs =>
    if n / blockSize = 0 then firstHashed blockSize (n + c.length) cs else n / blockSize

/-- The items seen when block `j` was hashed. -/
def seenAt (first : ℕ) (fs : List MultiModalFeatureSpec) (j : ℕ) : List MultiModalFeatureSpec :=
  if j < first then fs else lastOnly fs

theorem range_eq_append_range' {m n : ℕ} (h : m ≤ n) : range n = range m ++ range' m (n - m) := by
  obtain ⟨k, rfl⟩ := Nat.exists_eq_add_of_le h
  rw [range_eq_range', range_eq_range']
  simpa using (range'_append_1 (s := 0)).symm

variable {B : BlockHasher H E}

namespace BlockHasher

variable {first : ℕ}

/-- **The hashes of a grown request.** -/
structure Hashed (B : BlockHasher H E) (first : ℕ) (r : Request H E) : Prop where
  blockHashes_eq : r.blockHashes = hashChain B.chainStep B.noneHash
    ((range (B.numBlocks r)).map fun j ↦ B.blockInput r (seenAt first r.mmFeatures j) j)
  first_le : first ≤ B.numBlocks r
  numBlocks_eq_zero : first = 0 → B.numBlocks r = 0

/-- **One call of `update_block_hashes`** on a request whose hashes cover the tokens it had before
`c` was appended. -/
theorem Hashed.updateBlockHashes {r' : Request H E} {c : List ℕ} (h : B.Hashed first r)
    (hhashes : r'.blockHashes = r.blockHashes) (htokens : r'.allTokenIds = r.allTokenIds ++ c)
    (hfs : r'.mmFeatures = r.mmFeatures) (hlora : r'.loraRequest = r.loraRequest)
    (hsalt : r'.cacheSalt = r.cacheSalt) (hembeds : r'.promptEmbeds = r.promptEmbeds) :
    B.Hashed (if first = 0 then B.numBlocks r' else first)
      (r'.updateBlockHashes (some B.requestBlockHasher)) := by
  have hmono : B.numBlocks r ≤ B.numBlocks r' := by
    unfold numBlocks numTokens
    rw [htokens, length_append]
    exact Nat.div_le_div_right (le_add_right _ _)
  set first' := if first = 0 then B.numBlocks r' else first with hfirst'
  have hold : ∀ j < B.numBlocks r, B.blockInput r (seenAt first r.mmFeatures j) j =
      B.blockInput r' (seenAt first' r'.mmFeatures j) j := by
    intro j hj
    have hne : first ≠ 0 := fun h0 ↦ by
      rw [h.numBlocks_eq_zero h0] at hj
      exact absurd hj (not_lt_zero j)
    rw [blockInput_append htokens hlora hsalt hembeds hj, hfs, hfirst', if_neg hne]
  have hnew : ∀ j, B.numBlocks r ≤ j → j < B.numBlocks r' →
      seen r'.mmFeatures (B.numBlocks r) = seenAt first' r'.mmFeatures j := by
    intro j hj hj'
    rcases Nat.eq_zero_or_pos first with h0 | hpos
    · rw [hfirst', if_pos h0, seenAt, if_pos hj', seen, if_pos (h.numBlocks_eq_zero h0)]
    · have hne : first ≠ 0 := hpos.ne'
      rw [hfirst', if_neg hne, seenAt, if_neg (not_lt.2 (h.first_le.trans hj)), seen,
        if_neg (hpos.trans_le h.first_le).ne']
  refine ⟨?_, ?_, ?_⟩
  · -- the old chain, continued over the blocks that have become full
    have hchain := h.blockHashes_eq
    rw [← hhashes] at hchain
    rw [updateBlockHashes_blockHashes hchain, length_map, length_range]
    congr 1
    show _ = (range (B.numBlocks r')).map
      fun j ↦ B.blockInput r' (seenAt first' r'.mmFeatures j) j
    rw [range_eq_append_range' hmono, map_append]
    congr 1
    · exact map_congr_left fun j hj ↦ hold j (mem_range.1 hj)
    · refine map_congr_left fun j hj ↦ ?_
      obtain ⟨hle, hlt⟩ := mem_range'_1.1 hj
      rw [hnew j hle (by omega)]
  · rw [hfirst']
    split_ifs
    exacts [le_rfl, h.first_le.trans hmono]
  · intro h0
    rw [hfirst'] at h0
    split_ifs at h0 with hz
    exacts [h0, absurd h0 hz]

/-- **One appended chunk.** -/
theorem Hashed.append (h : B.Hashed first r) (c : List ℕ) :
    B.Hashed (if first = 0 then (r.numTokens + c.length) / B.blockSize else first)
      (r.appendOutputTokenIds (some B.requestBlockHasher) c) := by
  have hn : (r.numTokens + c.length) / B.blockSize = B.numBlocks
      { r with outputTokenIds := r.outputTokenIds ++ c, allTokenIds := r.allTokenIds ++ c } := by
    simp [numBlocks, numTokens]
  rw [hn]
  exact h.updateBlockHashes rfl rfl rfl rfl rfl rfl

/-- **Any sequence of chunks.** A request whose hashes were all computed in one call stays
`Hashed`, at the number of blocks of the first call that had a block to hash. -/
theorem Hashed.grow (h : B.Hashed (B.numBlocks r) r) (chunks : List (List ℕ)) :
    B.Hashed (firstHashed B.blockSize r.numTokens chunks)
      (r.grow (some B.requestBlockHasher) chunks) := by
  -- once a block is hashed `first` no longer moves; before that it follows the token count
  have hfixed : ∀ (cs : List (List ℕ)) {r : Request H E} {first : ℕ}, 0 < first →
      B.Hashed first r → B.Hashed first (r.grow (some B.requestBlockHasher) cs) := by
    intro cs
    induction cs with
    | nil => exact fun _ h ↦ h
    | cons c cs ih =>
      intro r first hpos h
      have hc := h.append c
      rw [if_neg hpos.ne'] at hc
      exact ih hpos hc
  induction chunks generalizing r with
  | nil => exact h
  | cons c cs ih =>
    rw [firstHashed]
    have hc := h.append c
    split_ifs with h0
    · rw [if_pos (show B.numBlocks r = 0 from h0)] at hc
      have hlen : (r.appendOutputTokenIds (some B.requestBlockHasher) c).numTokens =
          r.numTokens + c.length := length_append
      have hnum : B.numBlocks (r.appendOutputTokenIds (some B.requestBlockHasher) c) =
          (r.numTokens + c.length) / B.blockSize := congrArg (· / B.blockSize) hlen
      rw [← hnum] at hc
      have hrec := ih hc
      rwa [hlen] at hrec
    · rw [if_neg (show B.numBlocks r ≠ 0 from h0)] at hc
      exact hfixed cs (pos_of_ne_zero h0) hc

/-- **A new request**: the constructor hashes the whole prompt in one call. -/
theorem hashed_new {a : NewRequest E} (h : new (some B.requestBlockHasher) a = some r) :
    B.Hashed (B.numBlocks r) r := by
  obtain ⟨n, -, rfl⟩ := Option.map_eq_some_iff.1 h
  set r₀ : Request H E := ofNew a n
  have hchain : r₀.blockHashes = hashChain B.chainStep B.noneHash [] := rfl
  refine ⟨?_, le_rfl, id⟩
  rw [updateBlockHashes_blockHashes hchain, range_eq_range']
  congr 1
  refine map_congr_left fun j hj ↦ ?_
  have hlt : j < B.numBlocks r₀ := by simpa using (mem_range'_1.1 hj).2
  show B.blockInput r₀ r₀.mmFeatures j = B.blockInput r₀ (seenAt (B.numBlocks r₀) r₀.mmFeatures j) j
  rw [seenAt, if_pos hlt]

end BlockHasher

/-! ### Comparison with one call -/

/-- What a block's keys say about the items recorded for it. -/
def itemKeys (fs : List MultiModalFeatureSpec) : List (String × ℕ) :=
  fs.map fun f ↦ (f.identifier, f.offset)

theorem map_mmKey_eq_iff {s : ℕ} {fs gs : List MultiModalFeatureSpec} :
    fs.map (mmKey (H := H) s) = gs.map (mmKey s) ↔ itemKeys fs = itemKeys gs := by
  have hinj : Function.Injective fun p : String × ℕ ↦
      (ExtraKey.mm p.1 ((p.2 : ℤ) - s) : ExtraKey H) := by
    rintro ⟨i, o⟩ ⟨i', o'⟩ h
    simp only [ExtraKey.mm.injEq] at h
    have ho : o = o' := by omega
    rw [h.1, ho]
  have hcomp : ∀ l : List MultiModalFeatureSpec, l.map (mmKey (H := H) s) =
      (itemKeys l).map fun p ↦ ExtraKey.mm p.1 ((p.2 : ℤ) - s) := by
    intro l
    simp [itemKeys, mmKey]
  rw [hcomp, hcomp, (map_injective_iff.2 hinj).eq_iff]

namespace BlockHasher

/-- For one request, the input of a block is decided by what is recorded of the items seen. -/
theorem blockInput_eq_iff {vs ws : List MultiModalFeatureSpec} {j : ℕ} :
    B.blockInput r vs j = B.blockInput r ws j ↔
      itemKeys (recorded vs (j * B.blockSize) (j * B.blockSize + B.blockSize)) =
        itemKeys (recorded ws (j * B.blockSize) (j * B.blockSize + B.blockSize)) := by
  simp only [blockInput, Prod.mk.injEq, true_and, keyTuple_injective.eq_iff, keyList,
    append_cancel_right_eq, append_cancel_left_eq, map_mmKey_eq_iff]

end BlockHasher

/-- **The last item speaks for all**: in every block completed after the first hashing call, the
items a full scan records carry the keys that the last item alone gives. -/
def LastItemSuffices (blockSize : ℕ) (fs : List MultiModalFeatureSpec) (promptLen : ℕ)
    (chunks : List (List ℕ)) : Prop :=
  ∀ j < (promptLen + chunks.flatten.length) / blockSize,
    firstHashed blockSize promptLen chunks ≤ j →
    itemKeys (recorded (lastOnly fs) (j * blockSize) (j * blockSize + blockSize)) =
      itemKeys (recorded fs (j * blockSize) (j * blockSize + blockSize))

namespace Request

variable {hasher : Option (Request H E → List H)}

@[simp] theorem updateBlockHashes_allTokenIds :
    (r.updateBlockHashes hasher).allTokenIds = r.allTokenIds := by
  cases hasher <;> rfl

@[simp] theorem updateBlockHashes_mmFeatures :
    (r.updateBlockHashes hasher).mmFeatures = r.mmFeatures := by
  cases hasher <;> rfl

@[simp] theorem grow_allTokenIds (chunks : List (List ℕ)) :
    (r.grow hasher chunks).allTokenIds = r.allTokenIds ++ chunks.flatten := by
  induction chunks generalizing r with
  | nil => simp
  | cons c cs ih => simp [ih, appendOutputTokenIds]

@[simp] theorem grow_mmFeatures (chunks : List (List ℕ)) :
    (r.grow hasher chunks).mmFeatures = r.mmFeatures := by
  induction chunks generalizing r with
  | nil => rfl
  | cons c cs ih => simp [ih, appendOutputTokenIds]

end Request

/-- **The hashes of a request and the order of arrival.** The list grown chunk by chunk is the list
of one hashing call over all tokens, exactly when the last item speaks for all items in every block
completed after the first hashing call. -/
theorem blockHashes_grow_eq_iff {B : BlockHasher H E} (hB : B.Ideal) {a : NewRequest E}
    {r : Request H E} (hr : new (some B.requestBlockHasher) a = some r) (chunks : List (List ℕ)) :
    (r.grow (some B.requestBlockHasher) chunks).blockHashes =
        B.requestBlockHasher { r.grow (some B.requestBlockHasher) chunks with blockHashes := [] } ↔
      LastItemSuffices B.blockSize r.mmFeatures r.numTokens chunks := by
  set g := r.grow (some B.requestBlockHasher) chunks with hg
  set first := firstHashed B.blockSize r.numTokens chunks with hfirst
  have hgrown : B.Hashed first g := (hashed_new hr).grow chunks
  have hblocks : B.numBlocks g = (r.numTokens + chunks.flatten.length) / B.blockSize := by
    simp [numBlocks, numTokens, hg]
  -- both lists are chains from one seed, so they are equal when their inputs are
  have hone : B.requestBlockHasher { g with blockHashes := [] } =
      hashChain B.chainStep B.noneHash
        ((range (B.numBlocks g)).map (B.blockInput g g.mmFeatures)) := by
    rw [requestBlockHasher_eq, range_eq_range']
    rfl
  rw [hone, hgrown.blockHashes_eq, hashChain_inj hB.injective2, map_inj_left,
    LastItemSuffices, ← hblocks]
  have hfs : g.mmFeatures = r.mmFeatures := grow_mmFeatures chunks
  rw [← hfs]
  refine ⟨fun h j hj hle ↦ ?_, fun h j hj ↦ ?_⟩
  · have hj' := h j (mem_range.2 hj)
    rwa [seenAt, if_neg (not_lt.2 hle), blockInput_eq_iff] at hj'
  · rw [seenAt]
    split_ifs with hlt
    · rfl
    · exact blockInput_eq_iff.2 (h j (mem_range.1 hj) (not_lt.1 hlt))

/-- Symbolic hashing of blocks of four tokens. -/
def hasherOfFour : BlockHasher SymbolicDigest ℕ := symbolicHasher 4 (succ_pos _)

/-- A prompt of seven tokens with two one-token items, at `i` and `i + 1`. -/
def twoItemRequest (i : ℕ) : NewRequest ℕ where
  requestId := 0
  promptTokenIds := some [0, 1, 2, 3, 4, 5, 6]
  mmFeatures := [⟨"a", ⟨i, 1⟩⟩, ⟨"b", ⟨i + 1, 1⟩⟩]

/-- With both items in the second block, which the prompt leaves one token short, an appended token
completes that block in a call that sees item `b` only. -/
theorem blockHashes_grow_ne_oneCall :
    (twoItemRequest 4).mmFeatures.Pairwise (·.offset ≤ ·.offset) ∧
      ∃ r, new (some hasherOfFour.requestBlockHasher) (twoItemRequest 4) = some r ∧
        (r.grow (some hasherOfFour.requestBlockHasher) [[7]]).blockHashes ≠
          hasherOfFour.requestBlockHasher
            { r.grow (some hasherOfFour.requestBlockHasher) [[7]] with blockHashes := [] } := by
  refine ⟨by decide, _, rfl, fun h ↦ ?_⟩
  have hkeys : (some [.mm "b" 1] : Option (List (ExtraKey SymbolicDigest))) =
      some [.mm "a" 0, .mm "b" 1] := by
    injection h with _ h
    injection h with h _
    injection h
  simp at hkeys

/-- With both items in the first block, the second one may be completed by output. -/
theorem blockHashes_grow_eq_oneCall :
    ∃ r, new (some hasherOfFour.requestBlockHasher) (twoItemRequest 1) = some r ∧
      (r.grow (some hasherOfFour.requestBlockHasher) [[7]]).blockHashes =
        hasherOfFour.requestBlockHasher
          { r.grow (some hasherOfFour.requestBlockHasher) [[7]] with blockHashes := [] } := by
  refine ⟨_, rfl, ?_⟩
  exact (blockHashes_grow_eq_iff (symbolicHasher_ideal 4 (by decide)) (a := twoItemRequest 1) rfl
    [[7]]).2 (by unfold LastItemSuffices; decide)

end OneCatVllm
