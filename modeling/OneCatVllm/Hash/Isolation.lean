import OneCatVllm.Hash.Arrival
import OneCatVllm.Lib.Blocks

/-!
# Isolation of prefix hashes

Two requests share cached blocks when their block hashes are equal, so equal hashes ought to mean
equal inputs: the same tokens, adapter, salt, multimodal items and prompt embeddings. With ideal
hashing an equality of hashes is an equality of the block inputs up to that block; what is left is
whether the **flattened** key tuple of a block can be read back.

It can, except in three respects. LoRA names and cache salts are both plain strings, so in a first
block without multimodal items the one may stand for the other (`NamesAlike`); an empty salt leaves
no key; and an item that a scan does not record leaves none either. `KeyedAlike` collects exactly
what equal hashes give (`getElem?_blockHashes_eq_iff`), and `isolated_iff` says when that is enough.
-/

namespace OneCatVllm

open BlockHasher Blocks ExtraKey Function HashChain List Nat Request

variable {H E : Type} {r r' : Request H E}

/-! ### Reading the key tuple back -/

namespace Request

/-- The adapter's name. -/
def loraName (r : Request H E) : Option String := r.loraRequest.map (·.loraName)

/-- The salt as far as it leaves a key. -/
def effectiveSalt (r : Request H E) : Option String := r.cacheSalt.filter (· ≠ "")

end Request

/-- Optional strings as keys. -/
def strKeys (o : Option String) : List (ExtraKey H) := o.toList.map .str

theorem genLoraExtraHashKeys_eq (r : Request H E) :
    genLoraExtraHashKeys r = strKeys r.loraName := by
  rcases h : r.loraRequest with - | l <;> simp [genLoraExtraHashKeys, loraName, strKeys, h]

theorem cacheSaltKeys_zero (r : Request H E) : cacheSaltKeys r 0 = strKeys r.effectiveSalt := by
  rcases h : r.cacheSalt with - | salt
  · simp [cacheSaltKeys, effectiveSalt, strKeys, h]
  · by_cases hs : salt = "" <;>
      simp [cacheSaltKeys, effectiveSalt, strKeys, h, hs, Option.filter]

theorem cacheSaltKeys_of_pos (r : Request H E) {s : ℕ} (hs : 0 < s) : cacheSaltKeys r s = [] := by
  rcases h : r.cacheSalt with - | salt <;> simp [cacheSaltKeys, h, hs.ne']

/-- **Strings around the multimodal keys.** The two strings can be told apart by their place,
unless no multimodal key stands between them and each side has one of the two. -/
theorem strKeys_append_eq_iff {l l' s s' : Option String} {m : List (ExtraKey H)}
    (hm : ∀ k ∈ m, ∃ i o, k = .mm i o) :
    strKeys l ++ m ++ strKeys s = strKeys l' ++ m ++ strKeys s' ↔
      (l = l' ∧ s = s') ∨ (m = [] ∧ l = s' ∧ s = l' ∧ (l = none ∨ l' = none)) := by
  rcases m with - | ⟨k, m⟩
  · cases l <;> cases l' <;> cases s <;> cases s' <;> simp only [strKeys] <;> grind
  · obtain ⟨i, o, rfl⟩ := hm k (mem_cons_self)
    cases l <;> cases l' <;> cases s <;> cases s' <;> simp [strKeys]

/-- Whether a key is a multimodal one. -/
def ExtraKey.isMm : ExtraKey H → Bool
  | .mm _ _ => true
  | _ => false

/-- Whether a key is a digest of prompt embeddings. -/
def ExtraKey.isDigest : ExtraKey H → Bool
  | .digest _ => true
  | _ => false

@[simp] theorem filter_isMm_strKeys (o : Option String) :
    (strKeys (H := H) o).filter isMm = [] := by
  cases o <;> simp [strKeys, isMm]

@[simp] theorem filter_isDigest_strKeys (o : Option String) :
    (strKeys (H := H) o).filter isDigest = [] := by
  cases o <;> simp [strKeys, isDigest]

@[simp] theorem filter_isMm_map_mmKey (s : ℕ) (fs : List MultiModalFeatureSpec) :
    (fs.map (mmKey (H := H) s)).filter isMm = fs.map (mmKey s) := by
  simp [filter_map, comp_def, mmKey, isMm]

@[simp] theorem filter_isDigest_map_mmKey (s : ℕ) (fs : List MultiModalFeatureSpec) :
    (fs.map (mmKey (H := H) s)).filter isDigest = [] := by
  simp [filter_map, comp_def, mmKey, isDigest]

/-- The salt's key of block `j`. -/
def saltAt (r : Request H E) (j : ℕ) : Option String := if j = 0 then r.effectiveSalt else none

variable {B : BlockHasher H E}

namespace BlockHasher

variable {j : ℕ}

/-- The digest keys of block `j`. -/
def embedsKeys (B : BlockHasher H E) (r : Request H E) (j : ℕ) : List (ExtraKey H) :=
  r.promptEmbeds.toList.map fun rows ↦ .digest (B.sha256 (blockAt B.blockSize rows j))

theorem keyList_eq (B : BlockHasher H E) (r : Request H E) (vs : List MultiModalFeatureSpec)
    (j : ℕ) :
    B.keyList r vs (j * B.blockSize) =
      strKeys r.loraName ++
        (recorded vs (j * B.blockSize) (j * B.blockSize + B.blockSize)).map
          (mmKey (j * B.blockSize)) ++ strKeys (saltAt r j) ++ B.embedsKeys r j := by
  have hsalt : cacheSaltKeys r (j * B.blockSize) = strKeys (saltAt r j) := by
    rcases Nat.eq_zero_or_pos j with rfl | hj
    · rw [Nat.zero_mul, cacheSaltKeys_zero, saltAt, if_pos rfl]
    · rw [cacheSaltKeys_of_pos r (Nat.mul_pos hj B.blockSize_pos), saltAt, if_neg hj.ne']
      rfl
  have hembeds : genPromptEmbedsExtraHashKeys B.sha256 r (j * B.blockSize)
      (j * B.blockSize + B.blockSize) = B.embedsKeys r j := by
    rcases h : r.promptEmbeds with - | rows <;>
      simp [genPromptEmbedsExtraHashKeys, embedsKeys, h, blockAt]
  rw [keyList, genLoraExtraHashKeys_eq, hsalt, hembeds]

@[simp] theorem filter_isMm_embedsKeys (r : Request H E) (j : ℕ) :
    (B.embedsKeys r j).filter isMm = [] := by
  cases h : r.promptEmbeds <;> simp [embedsKeys, h, isMm]

@[simp] theorem filter_isDigest_embedsKeys (r : Request H E) (j : ℕ) :
    (B.embedsKeys r j).filter isDigest = B.embedsKeys r j := by
  cases h : r.promptEmbeds <;> simp [embedsKeys, h, isDigest]

theorem embedsKeys_eq_iff (hB : B.Ideal) :
    B.embedsKeys r j = B.embedsKeys r' j ↔
      r.promptEmbeds.map (blockAt B.blockSize · j) =
        r'.promptEmbeds.map (blockAt B.blockSize · j) := by
  cases h : r.promptEmbeds <;> cases h' : r'.promptEmbeds <;>
    simp [embedsKeys, h, h', hB.sha256_injective.eq_iff]

/-- The adapter name and the salt give the same string keys in block `j`, whose items are `fs`. -/
def StringsAlike (fs : List MultiModalFeatureSpec) (r r' : Request H E) (j : ℕ) : Prop :=
  (r.loraName = r'.loraName ∧ saltAt r j = saltAt r' j) ∨
    (fs = [] ∧ r.loraName = saltAt r' j ∧ saltAt r j = r'.loraName ∧
      (r.loraName = none ∨ r'.loraName = none))

/-- **Equal key tuples.** -/
theorem keyList_eq_iff (hB : B.Ideal) {vs vs' : List MultiModalFeatureSpec} :
    B.keyList r vs (j * B.blockSize) = B.keyList r' vs' (j * B.blockSize) ↔
      itemKeys (recorded vs (j * B.blockSize) (j * B.blockSize + B.blockSize)) =
          itemKeys (recorded vs' (j * B.blockSize) (j * B.blockSize + B.blockSize)) ∧
        StringsAlike (recorded vs (j * B.blockSize) (j * B.blockSize + B.blockSize)) r r' j ∧
        r.promptEmbeds.map (blockAt B.blockSize · j) =
          r'.promptEmbeds.map (blockAt B.blockSize · j) := by
  rw [keyList_eq, keyList_eq, ← embedsKeys_eq_iff hB, ← map_mmKey_eq_iff (H := H)]
  set fs := recorded vs (j * B.blockSize) (j * B.blockSize + B.blockSize)
  set fs' := recorded vs' (j * B.blockSize) (j * B.blockSize + B.blockSize)
  have hmm : ∀ k ∈ fs.map (mmKey (H := H) (j * B.blockSize)), ∃ i o, k = .mm i o := by
    intro k hk
    obtain ⟨f, -, rfl⟩ := mem_map.1 hk
    exact ⟨_, _, rfl⟩
  -- once the multimodal keys and the digests agree, only the strings are left to compare
  have hstrings
      (heq : fs.map (mmKey (H := H) (j * B.blockSize)) = fs'.map (mmKey (j * B.blockSize)))
      (hd : B.embedsKeys r j = B.embedsKeys r' j) :
      strKeys r.loraName ++ fs.map (mmKey (j * B.blockSize)) ++ strKeys (saltAt r j) ++
          B.embedsKeys r j =
        strKeys r'.loraName ++ fs'.map (mmKey (j * B.blockSize)) ++ strKeys (saltAt r' j) ++
          B.embedsKeys r' j ↔ StringsAlike fs r r' j := by
    rw [← heq, ← hd, append_cancel_right_eq, strKeys_append_eq_iff hmm, map_eq_nil_iff]
    rfl
  constructor
  · intro h
    have heq : fs.map (mmKey (H := H) (j * B.blockSize)) = fs'.map (mmKey (j * B.blockSize)) := by
      simpa using congrArg (filter isMm) h
    have hd : B.embedsKeys r j = B.embedsKeys r' j := by
      simpa using congrArg (filter isDigest) h
    exact ⟨heq, (hstrings heq hd).1 h, hd⟩
  · rintro ⟨heq, hs, hd⟩
    exact (hstrings heq hd).2 hs

end BlockHasher

/-! ### Equal hashes -/

/-- The names give the same keys up to block `i`: they are the same, or block `0` is the only block,
it records no item, and one request's adapter is named like the other's salt. -/
def NamesAlike (fs : List MultiModalFeatureSpec) (i : ℕ) (r r' : Request H E) : Prop :=
  (r.loraName = r'.loraName ∧ r.effectiveSalt = r'.effectiveSalt) ∨
    (i = 0 ∧ fs = [] ∧ r.loraName = r'.effectiveSalt ∧ r.effectiveSalt = r'.loraName ∧
      (r.loraName = none ∨ r'.loraName = none))

/-- **What equal hashes give.** Two requests, whose first `first` and `first'` blocks were hashed
with every item in view, are keyed alike up to block `i`. -/
structure KeyedAlike (blockSize i first first' : ℕ) (r r' : Request H E) : Prop where
  tokens : r.allTokenIds.take ((i + 1) * blockSize) = r'.allTokenIds.take ((i + 1) * blockSize)
  embeds : r.promptEmbeds.map (·.take ((i + 1) * blockSize)) =
    r'.promptEmbeds.map (·.take ((i + 1) * blockSize))
  items : ∀ j ≤ i,
    itemKeys (recorded (seenAt first r.mmFeatures j) (j * blockSize) (j * blockSize + blockSize)) =
      itemKeys (recorded (seenAt first' r'.mmFeatures j) (j * blockSize)
        (j * blockSize + blockSize))
  names : NamesAlike (recorded (seenAt first r.mmFeatures 0) 0 blockSize) i r r'

theorem forall_map_blockAt_eq_iff {b i : ℕ} {o o' : Option (List E)} :
    (∀ j ≤ i, o.map (blockAt b · j) = o'.map (blockAt b · j)) ↔
      o.map (·.take ((i + 1) * b)) = o'.map (·.take ((i + 1) * b)) := by
  rcases o with - | l <;> rcases o' with - | l'
  · simp
  · simpa using ⟨0, zero_le i⟩
  · simpa using ⟨0, zero_le i⟩
  · simpa using forall_blockAt_eq_iff

/-- Only the first block carries the salt, so from the second block on the adapters' names are
told apart. -/
theorem forall_stringsAlike_iff {g : ℕ → List MultiModalFeatureSpec} {i : ℕ} :
    (∀ j ≤ i, StringsAlike (g j) r r' j) ↔ NamesAlike (g 0) i r r' := by
  constructor
  · intro h
    have h0 : StringsAlike (g 0) r r' 0 := h 0 (zero_le i)
    rcases h0 with h0 | ⟨hfs, hl, hs, hnone⟩
    · exact .inl h0
    rcases i with - | i
    · exact .inr ⟨rfl, hfs, hl, hs, hnone⟩
    · have h1 : StringsAlike (g 1) r r' 1 := h 1 (by omega)
      have hlora : r.loraName = r'.loraName := by
        rcases h1 with ⟨h1, -⟩ | ⟨-, h1, h1', -⟩
        exacts [h1, h1.trans h1']
      exact .inl ⟨hlora, hs.trans (hlora.symm.trans hl)⟩
  · rintro (⟨hl, hs⟩ | ⟨rfl, hfs, hl, hs, hnone⟩) j hj
    · exact .inl ⟨hl, by simp only [saltAt, hs]⟩
    · obtain rfl : j = 0 := le_zero.1 hj
      exact .inr ⟨hfs, hl, hs, hnone⟩

/-- **Equal hashes**, block by block: the `i`-th hashes of two requests are equal exactly when the
requests are keyed alike up to block `i`. -/
theorem getElem?_blockHashes_eq_iff (hB : B.Ideal) {first first' i : ℕ}
    (h : B.Hashed first r) (h' : B.Hashed first' r') (hi : i < B.numBlocks r)
    (hi' : i < B.numBlocks r') :
    r.blockHashes[i]? = r'.blockHashes[i]? ↔ KeyedAlike B.blockSize i first first' r r' := by
  have htake : ∀ {n : ℕ} (f : ℕ → List ℕ × Option (List (ExtraKey H))), i < n →
      ((range n).map f).take (i + 1) = (range (i + 1)).map f := by
    intro n f hn
    rw [← map_take, take_range, min_eq_left hn]
  rw [h.blockHashes_eq, h'.blockHashes_eq,
    getElem?_hashChain_eq_iff hB.injective2 (by simpa using hi) (by simpa using hi'),
    htake _ hi, htake _ hi', map_inj_left]
  simp only [mem_range, Nat.lt_succ_iff, blockInput, Prod.mk.injEq,
    keyTuple_injective.eq_iff, keyList_eq_iff hB]
  constructor
  · intro hall
    refine ⟨forall_blockAt_eq_iff.1 fun j hj ↦ (hall j hj).1,
      forall_map_blockAt_eq_iff.1 fun j hj ↦ (hall j hj).2.2.2, fun j hj ↦ (hall j hj).2.1, ?_⟩
    have hnames := forall_stringsAlike_iff.1 fun j hj ↦ (hall j hj).2.2.1
    rwa [Nat.zero_mul, zero_add] at hnames
  · rintro ⟨htokens, hembeds, hitems, hnames⟩ j hj
    refine ⟨forall_blockAt_eq_iff.2 htokens j hj, hitems j hj, ?_,
      forall_map_blockAt_eq_iff.2 hembeds j hj⟩
    refine forall_stringsAlike_iff (g := fun j ↦ recorded (seenAt first r.mmFeatures j)
      (j * B.blockSize) (j * B.blockSize + B.blockSize)) |>.2 ?_ j hj
    rwa [Nat.zero_mul, zero_add]

/-! ### Isolation -/

namespace Request

variable {hasher : Option (Request H E → List H)}

@[simp] theorem grow_loraName (chunks : List (List ℕ)) :
    (r.grow hasher chunks).loraName = r.loraName := by
  induction chunks generalizing r with
  | nil => rfl
  | cons c cs ih =>
    rw [grow_cons, ih]
    cases hasher <;> rfl

@[simp] theorem grow_cacheSalt (chunks : List (List ℕ)) :
    (r.grow hasher chunks).cacheSalt = r.cacheSalt := by
  induction chunks generalizing r with
  | nil => rfl
  | cons c cs ih =>
    rw [grow_cons, ih]
    cases hasher <;> rfl

end Request

/-- The items that overlap the first `n` positions. -/
def overlapping (n : ℕ) (fs : List MultiModalFeatureSpec) : List MultiModalFeatureSpec :=
  fs.filter fun f ↦ f.offset < n ∧ f.offset < f.stop

/-- The same identifiers at the same offsets overlap the first `n` positions. -/
def SameItems (n : ℕ) (fs fs' : List MultiModalFeatureSpec) : Prop :=
  ∀ k, k ∈ itemKeys (overlapping n fs) ↔ k ∈ itemKeys (overlapping n fs')

/-- **Agreement** of two requests on everything that enters the cache contents of the first `n`
positions. -/
structure SamePrefix (n : ℕ) (r r' : Request H E) : Prop where
  tokens : r.allTokenIds.take n = r'.allTokenIds.take n
  lora : r.loraName = r'.loraName
  salt : r.cacheSalt = r'.cacheSalt
  items : SameItems n r.mmFeatures r'.mmFeatures
  embeds : r.promptEmbeds.map (·.take n) = r'.promptEmbeds.map (·.take n)

/-- **Isolation of two grown requests.** Equal `i`-th hashes mean agreement up to block `i`, exactly
when being keyed alike there (the same tokens, embeddings and recorded items, and strings that read
alike) brings with it the same adapter, the same salt and the same overlapping items. -/
theorem isolated_iff {B : BlockHasher H E} (hB : B.Ideal) {a a' : NewRequest E}
    {r r' : Request H E} (hr : new (some B.requestBlockHasher) a = some r)
    (hr' : new (some B.requestBlockHasher) a' = some r') (chunks chunks' : List (List ℕ))
    {i : ℕ} (hi : i < B.numBlocks (r.grow (some B.requestBlockHasher) chunks))
    (hi' : i < B.numBlocks (r'.grow (some B.requestBlockHasher) chunks')) :
    ((r.grow (some B.requestBlockHasher) chunks).blockHashes[i]? =
          (r'.grow (some B.requestBlockHasher) chunks').blockHashes[i]? →
        SamePrefix ((i + 1) * B.blockSize) (r.grow (some B.requestBlockHasher) chunks)
          (r'.grow (some B.requestBlockHasher) chunks')) ↔
      (KeyedAlike B.blockSize i (firstHashed B.blockSize r.numTokens chunks)
          (firstHashed B.blockSize r'.numTokens chunks')
          (r.grow (some B.requestBlockHasher) chunks)
          (r'.grow (some B.requestBlockHasher) chunks') →
        r.loraName = r'.loraName ∧ r.cacheSalt = r'.cacheSalt ∧
          SameItems ((i + 1) * B.blockSize) r.mmFeatures r'.mmFeatures) := by
  rw [getElem?_blockHashes_eq_iff hB ((hashed_new hr).grow chunks)
    ((hashed_new hr').grow chunks') hi hi']
  refine ⟨fun h hk ↦ ?_, fun h hk ↦ ?_⟩
  · obtain ⟨-, hlora, hsalt, hitems, -⟩ := h hk
    rw [grow_loraName, grow_loraName] at hlora
    rw [grow_cacheSalt, grow_cacheSalt] at hsalt
    rw [grow_mmFeatures, grow_mmFeatures] at hitems
    exact ⟨hlora, hsalt, hitems⟩
  · obtain ⟨hlora, hsalt, hitems⟩ := h hk
    refine ⟨hk.tokens, ?_, ?_, ?_, hk.embeds⟩
    · simpa only [grow_loraName] using hlora
    · simpa only [grow_cacheSalt] using hsalt
    · simpa only [grow_mmFeatures] using hitems

/-- A four-token prompt with an adapter or a salt. -/
def namedRequest (lora : Option LoraRequest) (salt : Option String) : NewRequest ℕ where
  requestId := 0
  promptTokenIds := some [0, 1, 2, 3]
  loraRequest := lora
  cacheSalt := salt

/-- An adapter called `x` and a salt `x` give one and the same first block hash. -/
theorem loraName_salt_collision :
    ∃ r r', new (some hasherOfFour.requestBlockHasher)
          (namedRequest (some ⟨"x", 1⟩) none) = some r ∧
        new (some hasherOfFour.requestBlockHasher) (namedRequest none (some "x")) = some r' ∧
        r.blockHashes[0]? = r'.blockHashes[0]? ∧ r.blockHashes.length = 1 ∧
        ¬ SamePrefix 4 r r' := by
  refine ⟨_, _, rfl, rfl, rfl, rfl, fun h ↦ ?_⟩
  have hlora : (some "x" : Option String) = none := h.lora
  exact absurd hlora (by decide)

/-- `twoItemRequest 1` with an eighth token in its prompt. -/
def eightTokenRequest : NewRequest ℕ :=
  { twoItemRequest 1 with promptTokenIds := some [0, 1, 2, 3, 4, 5, 6, 7] }

/-- A prompt of eight tokens and one of seven with an output token appended: equal hashes of their
second blocks mean agreement on all eight tokens. -/
theorem isolated_eightTokenRequest :
    ∃ r r', new (some hasherOfFour.requestBlockHasher) (twoItemRequest 1) = some r ∧
      new (some hasherOfFour.requestBlockHasher) eightTokenRequest = some r' ∧
      ((r.grow (some hasherOfFour.requestBlockHasher) [[7]]).blockHashes[1]? =
          (r'.grow (some hasherOfFour.requestBlockHasher) []).blockHashes[1]? →
        SamePrefix 8 (r.grow (some hasherOfFour.requestBlockHasher) [[7]])
          (r'.grow (some hasherOfFour.requestBlockHasher) [])) := by
  refine ⟨_, _, rfl, rfl, ?_⟩
  have hnew : new (some hasherOfFour.requestBlockHasher) eightTokenRequest = some _ := rfl
  exact (isolated_iff (symbolicHasher_ideal 4 (by decide)) (a := twoItemRequest 1) rfl
    hnew [[7]] [] (by decide) (by decide)).2 fun _ ↦ ⟨rfl, rfl, fun _ ↦ Iff.rfl⟩

end OneCatVllm
