import Mathlib.Algebra.Order.Group.Nat
import OneCatVllm.Hash.ExtraKeys
import OneCatVllm.Lib.HashChain

/-!
# The block hasher

`get_request_block_hasher` returns the function that a request calls whenever its token list has
grown: it hashes the full blocks that are not hashed yet, each chained to the one before. The hash
function and the digest of prompt embeddings are parameters (`BlockHasher`); what is assumed of
them is `BlockHasher.Ideal`.

**The chain form.** `requestBlockHasher_eq` writes a call as a chain over block inputs: the block's
tokens and its extra keys. The items a call sees are all of the request's items when the call
starts at block `0`, and the **last item only** when it starts later (`seen`). This is where the
history of a request shows in its hashes.
-/

namespace OneCatVllm

open Function HashChain List Nat

variable {H E : Type}

/-- What the hasher is built from: the block size, the hash function on
`(parent, tokens, extra_keys)`, the seed `NONE_HASH` and the digest of prompt embeddings. A digest
is never the empty byte string, so a parent hash is absent only for the first block. -/
structure BlockHasher (H E : Type) where
  blockSize : ℕ
  blockSize_pos : 0 < blockSize
  hashFunction : H × List ℕ × Option (List (ExtraKey H)) → H
  noneHash : H
  sha256 : List E → H

namespace BlockHasher

/-- **Ideal hashing**: no collisions of the block hash, none of the embeddings' digest. -/
structure Ideal (B : BlockHasher H E) : Prop where
  hashFunction_injective : Injective B.hashFunction
  sha256_injective : Injective B.sha256

end BlockHasher

/-- Digests as terms: the hash of an input is the input itself. -/
inductive SymbolicDigest
  | seed
  | block (parent : SymbolicDigest) (tokens : List ℕ)
      (keys : Option (List (ExtraKey SymbolicDigest)))
  | embeds (rows : List ℕ)

/-- **Symbolic hashing**, the standard model of an ideal hash function. -/
def symbolicHasher (blockSize : ℕ) (h : 0 < blockSize) : BlockHasher SymbolicDigest ℕ where
  blockSize := blockSize
  blockSize_pos := h
  hashFunction := fun x ↦ .block x.1 x.2.1 x.2.2
  noneHash := .seed
  sha256 := .embeds

theorem symbolicHasher_ideal (blockSize : ℕ) (h : 0 < blockSize) :
    (symbolicHasher blockSize h).Ideal where
  hashFunction_injective := by
    rintro ⟨p, t, k⟩ ⟨p', t', k'⟩ hx
    obtain ⟨rfl, rfl, rfl⟩ := SymbolicDigest.block.inj hx
    rfl
  sha256_injective := fun _ _ hx ↦ SymbolicDigest.embeds.inj hx

variable {r : Request H E} {B : BlockHasher H E}

namespace BlockHasher

variable (B : BlockHasher H E)

/-! ### The code -/

/-- `hash_block_tokens`. -/
def hashBlockTokens (parent : Option H) (tokens : List ℕ) (keys : Option (List (ExtraKey H))) : H :=
  B.hashFunction (parent.getD B.noneHash, tokens, keys)

/-- The `while` loop of `request_block_hasher`. Every iteration consumes a whole block, so the
number of tokens is fuel enough. -/
def hashLoop (r : Request H E) : ℕ → ℕ → ℤ → Option H → List H
  | 0, _, _, _ => []
  | fuel + 1, start, c, prev =>
    let stop := start + B.blockSize
    if stop > r.numTokens then []
    else
      let res := generateBlockHashExtraKeys B.sha256 r start stop c
      let h := B.hashBlockTokens prev ((r.allTokenIds.drop start).take B.blockSize) res.1
      h :: hashLoop r fuel stop res.2 (some h)

/-- `request_block_hasher`: the hashes of the full blocks not hashed yet. -/
def requestBlockHasher (r : Request H E) : List H :=
  let start := r.blockHashes.length * B.blockSize
  if start + B.blockSize > r.numTokens then []
  else B.hashLoop r r.numTokens start (if start > 0 then -1 else 0) r.blockHashes.getLast?

/-! ### The chain form of a call -/

/-- One step of the chain. -/
def chainStep (p : H) (x : List ℕ × Option (List (ExtraKey H))) : H :=
  B.hashFunction (p, x.1, x.2)

theorem Ideal.injective2 (hB : B.Ideal) : Injective2 B.chainStep := by
  intro p q x y h
  have := hB.hashFunction_injective h
  simp only [Prod.mk.injEq] at this
  exact ⟨this.1, Prod.ext this.2.1 this.2.2⟩

/-- The extra keys of the block that starts at `s`, when the items `vs` are seen. -/
def keyList (r : Request H E) (vs : List MultiModalFeatureSpec) (s : ℕ) : List (ExtraKey H) :=
  genLoraExtraHashKeys r ++ (recorded vs s (s + B.blockSize)).map (mmKey s) ++ cacheSaltKeys r s ++
    genPromptEmbedsExtraHashKeys B.sha256 r s (s + B.blockSize)

/-- The key tuple of a block: absent when there is no key. -/
def keyTuple (keys : List (ExtraKey H)) : Option (List (ExtraKey H)) :=
  if keys = [] then none else some keys

theorem keyTuple_injective : Injective (keyTuple (H := H)) := by
  intro k l h
  unfold keyTuple at h
  split_ifs at h with hk hl
  · rw [hk, hl]
  · exact Option.some.inj h

/-- The input hashed for block `j`, when the items `vs` are seen. -/
def blockInput (r : Request H E) (vs : List MultiModalFeatureSpec) (j : ℕ) :
    List ℕ × Option (List (ExtraKey H)) :=
  ((r.allTokenIds.drop (j * B.blockSize)).take B.blockSize,
    keyTuple (B.keyList r vs (j * B.blockSize)))

/-- The number of full blocks of a request. -/
def numBlocks (r : Request H E) : ℕ := r.numTokens / B.blockSize

variable {B} {vs : List MultiModalFeatureSpec}

theorem hashLoop_eq (hvs : vs <:+ r.mmFeatures) (hlast : vs.getLast? = r.mmFeatures.getLast?)
    {fuel b : ℕ} {c : ℤ} {prev : Option H} (hc : CursorAt r.mmFeatures vs (b * B.blockSize) c)
    (hfuel : B.numBlocks r ≤ b + fuel) :
    B.hashLoop r fuel (b * B.blockSize) c prev =
      hashChain B.chainStep (prev.getD B.noneHash)
        ((range' b (B.numBlocks r - b)).map (B.blockInput r vs)) := by
  induction fuel generalizing b c prev with
  | zero =>
    have hb : B.numBlocks r - b = 0 := by omega
    simp [hashLoop, hb]
  | succ fuel ih =>
    rw [hashLoop, ← succ_mul]
    by_cases hstop : b.succ * B.blockSize > r.numTokens
    · have hb : B.numBlocks r - b = 0 := by
        have := (div_lt_iff_lt_mul B.blockSize_pos).2 hstop
        unfold numBlocks
        omega
      simp [hstop, hb]
    · have hle : b + 1 ≤ B.numBlocks r :=
        (le_div_iff_mul_le B.blockSize_pos).2 (not_lt.1 hstop)
      have hcount : B.numBlocks r - b = (B.numBlocks r - (b + 1)) + 1 := by omega
      obtain ⟨hkeys, hcur⟩ := genMmExtraHashKeys_spec hvs hlast
        (mul_le_mul_right B.blockSize (le_succ b)) hc
      rw [if_neg hstop, hcount, range'_succ, map_cons, hashChain_cons]
      have hinput : B.chainStep (prev.getD B.noneHash) (B.blockInput r vs b) =
          B.hashBlockTokens prev ((r.allTokenIds.drop (b * B.blockSize)).take B.blockSize)
            (generateBlockHashExtraKeys B.sha256 r (b * B.blockSize)
              (b.succ * B.blockSize) c).1 := by
        rw [generateBlockHashExtraKeys, hkeys, succ_mul]
        rfl
      rw [hinput]
      exact congrArg (cons _) (ih hcur (by omega))

end BlockHasher

/-- The items seen by a hashing call that starts at block `b`. -/
def seen (fs : List MultiModalFeatureSpec) (b : ℕ) : List MultiModalFeatureSpec :=
  if b = 0 then fs else lastOnly fs

namespace BlockHasher

/-- **A call of the hasher** is the chain over the blocks not hashed yet, continued from the last
hash, with the items that a call from that block sees. -/
theorem requestBlockHasher_eq (B : BlockHasher H E) (r : Request H E) :
    B.requestBlockHasher r =
      hashChain B.chainStep (r.blockHashes.getLast?.getD B.noneHash)
        ((range' r.blockHashes.length (B.numBlocks r - r.blockHashes.length)).map
          (B.blockInput r (seen r.mmFeatures r.blockHashes.length))) := by
  have hfuel : B.numBlocks r ≤ r.blockHashes.length + r.numTokens :=
    (div_le_self _ _).trans (le_add_left _ _)
  unfold requestBlockHasher
  by_cases hstop : r.blockHashes.length * B.blockSize + B.blockSize > r.numTokens
  · have hb : B.numBlocks r - r.blockHashes.length = 0 := by
      rw [← succ_mul] at hstop
      have := (div_lt_iff_lt_mul B.blockSize_pos).2 hstop
      unfold numBlocks
      omega
    simp [hstop, hb]
  · simp only [hstop, if_false]
    rcases Nat.eq_zero_or_pos r.blockHashes.length with h0 | hpos
    · rw [h0] at hfuel ⊢
      simp only [Nat.zero_mul, gt_iff_lt, lt_irrefl, if_false]
      have hc : CursorAt r.mmFeatures r.mmFeatures (0 * B.blockSize) 0 := by
        exact .inl (by simp [resolveCursor])
      have h : B.hashLoop r r.numTokens (0 * B.blockSize) 0 r.blockHashes.getLast? = _ :=
        hashLoop_eq suffix_rfl rfl hc hfuel
      rwa [Nat.zero_mul] at h
    · have hs : r.blockHashes.length * B.blockSize > 0 := Nat.mul_pos hpos B.blockSize_pos
      rw [if_pos hs, seen, if_neg hpos.ne']
      exact hashLoop_eq (lastOnly_suffix _) (getLast?_lastOnly _) (cursorAt_lastOnly _ _) hfuel

/-- **Hashing what is new** extends the chain that the request's hashes already form. -/
theorem updateBlockHashes_blockHashes {xs : List (List ℕ × Option (List (ExtraKey H)))}
    (hr : r.blockHashes = hashChain B.chainStep B.noneHash xs) :
    (r.updateBlockHashes (some B.requestBlockHasher)).blockHashes =
      hashChain B.chainStep B.noneHash
        (xs ++ (range' xs.length (B.numBlocks r - xs.length)).map
          (B.blockInput r (seen r.mmFeatures xs.length))) := by
  have hlen : r.blockHashes.length = xs.length := by rw [hr, length_hashChain]
  rw [hashChain_append, ← getLast?_hashChain_getD, ← hr, ← hlen, ← requestBlockHasher_eq]
  rfl

/-- The input of a full block does not change when tokens are appended after it. -/
theorem blockInput_append {r r' : Request H E} {c : List ℕ} {j : ℕ}
    (htokens : r'.allTokenIds = r.allTokenIds ++ c) (hlora : r'.loraRequest = r.loraRequest)
    (hsalt : r'.cacheSalt = r.cacheSalt) (hembeds : r'.promptEmbeds = r.promptEmbeds)
    (hj : j < B.numBlocks r) (vs : List MultiModalFeatureSpec) :
    B.blockInput r' vs j = B.blockInput r vs j := by
  have hkeys : B.keyList r' vs (j * B.blockSize) = B.keyList r vs (j * B.blockSize) := by
    simp only [keyList, genLoraExtraHashKeys, cacheSaltKeys, genPromptEmbedsExtraHashKeys, hlora,
      hsalt, hembeds]
  have hfull : j * B.blockSize + B.blockSize ≤ r.allTokenIds.length := by
    rw [← succ_mul]
    exact (le_div_iff_mul_le B.blockSize_pos).1 hj
  have hslice : (r'.allTokenIds.drop (j * B.blockSize)).take B.blockSize =
      (r.allTokenIds.drop (j * B.blockSize)).take B.blockSize := by
    rw [htokens, drop_append_of_le_length (by omega),
      take_append_of_le_length (by rw [length_drop]; omega)]
  simp only [blockInput, hkeys, hslice]

end BlockHasher

end OneCatVllm
