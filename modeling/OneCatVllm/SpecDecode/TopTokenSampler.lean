import Mathlib.Data.List.Fold
import Mathlib.Data.List.MinMax
import Mathlib.Data.Nat.Size
import OneCatVllm.SpecDecode.TreeWalk

/-!
# The walk on the device

`greedy_sample_ddtree_payloads_from_top_tokens_gpu` walks the trees of a batch without branching: in
each of `max_rows` iterations it masks the rows that are children of the cursor with the target
token, takes the maximum of the masked row numbers, and writes to the next column; a walk that has
ended stays inactive. There is a kernel for one request, a version of it in tensor operations, and
the version for a batch, in which requests with smaller trees are padded. They differ in how the
rows are loaded and masked, and in what an inactive walk writes (`maskedWalk`).

Rows and tokens fit in 32 bits and are integers here, with `-1` for no token and no row.
-/

namespace OneCatVllm

open DDTreeDraftPayload Descent Fallible List Nat Option

/-- `PLACEHOLDER_TOKEN_ID`. -/
def placeholderTokenId : ℤ := -1

/-! ### Parent rows -/

/-- The errors of `build_padded_parent_ids`. -/
inductive ParentIdsError
  | lengthMismatch
  | padTo (required got : ℕ)
  deriving DecidableEq

/-- `DDTreeParentMetadata`: per request, the parents of the root (column 0) and of the tree
nodes. -/
structure DDTreeParentMetadata where
  width : ℕ
  parentIds : List (List ℤ)
  length_eq : ∀ row ∈ parentIds, row.length = width

/-- `full_parent_ids_from_payload`. -/
def DDTreeDraftPayload.fullParentIds (p : DDTreeDraftPayload) : Except ParentIdsError (List ℤ) :=
  if p.numTreeNodes ≠ p.parentIndices.length then .error .lengthMismatch
  else .ok (-1 :: p.parentIndices.map fun parent ↦ if parent < 0 then -1 else parent + 1)

/-- The parents of one request: none without a tree. -/
def parentsOf : Option DDTreeDraftPayload → Except ParentIdsError (List ℤ)
  | none => .ok []
  | some p => if p.treeTokenIds = [] then .ok [] else p.fullParentIds

/-- A row of parents, filled with `PADDING_PARENT`. -/
def padParents (width : ℕ) (parents : List ℤ) : List ℤ :=
  (parents ++ replicate (width - parents.length) 0).take width

theorem length_padParents (width : ℕ) (parents : List ℤ) :
    (padParents width parents).length = width := by
  rw [padParents, length_take, length_append, length_replicate]
  omega

/-- The rows of a batch, filled to a width. -/
def paddedMetadata (width : ℕ) (parents : List (List ℤ)) : DDTreeParentMetadata where
  width := width
  parentIds := parents.map (padParents width)
  length_eq := fun row hrow ↦ by
    obtain ⟨ps, -, rfl⟩ := mem_map.1 hrow
    exact length_padParents width ps

/-- `build_padded_parent_ids`. -/
def buildPaddedParentIds (payloads : List (Option DDTreeDraftPayload)) (padTo : Option ℕ) :
    Except ParentIdsError (Option DDTreeParentMetadata) := do
  let parents ← payloads.mapM parentsOf
  let maxLen := (parents.map length).foldl max 0
  if maxLen = 0 then return none
  else
    match padTo with
    | none => return some (paddedMetadata maxLen parents)
    | some n =>
      if n < maxLen then .error (.padTo maxLen n)
      else return some (paddedMetadata n parents)

/-! ### The sampler -/

/-- The errors of the sampler. -/
inductive SamplerError
  | inputRows (inputs tops : ℕ)
  | parentShape
  | topRows (expected got : ℕ)
  | parentWidth (width required : ℕ)
  deriving DecidableEq

/-- The state of the loop: the cursor, whether the walk goes on, and the rows written so far. -/
structure SamplerState where
  cursor : ℕ
  active : Bool
  sampledTokenIds : List ℤ
  acceptedNodeIndices : List ℤ
  deriving DecidableEq

/-- The maximum of the row numbers under a mask. -/
def maskedMax (lanes : ℕ) (mask : ℕ → Bool) : ℕ :=
  ((range lanes).map fun i ↦ if mask i then i else 0).foldl max 0

section Loop

variable (maxRows lanes : ℕ) (top : ℕ → ℤ) (isChild : ℕ → ℤ → ℕ → Bool) (inactive : List ℤ → ℕ → ℤ)

/-- One iteration of the loop over the output columns. -/
def samplerStep (s : SamplerState) (outputPos : ℕ) : SamplerState :=
  let nextToken := top s.cursor
  let sampled := s.sampledTokenIds.set outputPos
    (if s.active then nextToken else inactive s.sampledTokenIds outputPos)
  if outputPos + 1 < maxRows then
    let child := maskedMax lanes fun i ↦ s.active && decide (0 < i) && isChild s.cursor nextToken i
    let isMatched := s.active && decide (0 < child)
    { cursor := if isMatched then child else s.cursor
      active := isMatched
      sampledTokenIds := sampled
      acceptedNodeIndices := s.acceptedNodeIndices.set (outputPos + 1)
        (if isMatched then child else inactive s.acceptedNodeIndices (outputPos + 1)) }
  else { s with sampledTokenIds := sampled }

/-- The loop, with the rows that it starts from: no tokens, and the root accepted. -/
def maskedWalk : List ℤ × List ℤ :=
  let s := (range maxRows).foldl (samplerStep maxRows lanes top isChild inactive)
    { cursor := 0
      active := true
      sampledTokenIds := replicate maxRows placeholderTokenId
      acceptedNodeIndices := (replicate maxRows placeholderTokenId).set 0 0 }
  (s.sampledTokenIds, s.acceptedNodeIndices)

end Loop

/-- `_next_power_of_2`. -/
def nextPowerOfTwo (value : ℕ) : ℕ := 2 ^ (max 1 value - 1).size

/-- The root as parent: `where(parents < 0, 0, parents)`. -/
def clampParent (parent : ℤ) : ℤ := if parent < 0 then 0 else parent

/-- `_ddtree_single_top_token_sampler_kernel`: as many lanes as the next power of two, with loads
masked to the rows. -/
def singleTopTokenSamplerKernel (compactTopTokens compactInputIds parents : List ℤ)
    (maxRows : ℕ) : List ℤ × List ℤ :=
  let parent := fun i ↦ clampParent (if i < maxRows then parents.getD i 0 else 0)
  let treeToken := fun i ↦ if i < maxRows then compactInputIds.getD i 0 else -1
  maskedWalk maxRows (nextPowerOfTwo maxRows) (fun i ↦ compactTopTokens.getD i 0)
    (fun cursor nextToken i ↦
      decide (i < maxRows) && parent i == cursor && treeToken i == nextToken)
    (fun _ _ ↦ -1)

/-- What `torch.where` leaves of a row. -/
def keepOld (row : List ℤ) (pos : ℕ) : ℤ := row.getD pos 0

/-- The version for one request in tensor operations. -/
def singleTopTokenSampler (compactTopTokens compactInputIds parents : List ℤ) (maxRows : ℕ) :
    List ℤ × List ℤ :=
  let parent := fun i ↦ clampParent ((parents.take maxRows).getD i 0)
  maskedWalk maxRows maxRows (fun i ↦ (compactTopTokens.take maxRows).getD i 0)
    (fun cursor nextToken i ↦
      parent i == cursor && (compactInputIds.take maxRows).getD i 0 == nextToken)
    keepOld

/-- The first compact row of each request. -/
def rowOffsets : ℕ → List ℕ → List ℕ
  | _, [] => []
  | offset, draftLen :: draftLens => offset :: rowOffsets (offset + (draftLen + 1)) draftLens

/-- One request of the version for a batch. Rows behind the tree of the request are padding. -/
def batchedTopTokenSampler (compactTopTokens compactInputIds : List ℤ) (expectedRows maxRows : ℕ)
    (draftLen rowOffset : ℕ) (parents : List ℤ) : List ℤ × List ℤ :=
  let compactRow := fun i ↦ min (rowOffset + i) (expectedRows - 1)
  let validRow := fun i ↦ decide (i ≤ draftLen)
  let topToken := fun i ↦
    if validRow i then compactTopTokens.getD (compactRow i) 0 else placeholderTokenId
  let treeToken := fun i ↦
    if validRow i then compactInputIds.getD (compactRow i) 0 else placeholderTokenId
  maskedWalk maxRows maxRows topToken
    (fun cursor nextToken i ↦
      validRow i && clampParent (parents.getD i 0) == cursor && treeToken i == nextToken)
    keepOld

/-- `greedy_sample_ddtree_payloads_from_top_tokens_gpu`: the rows of sampled tokens and of accepted
nodes. -/
def greedySampleFromTopTokensGpu (tritonSampler : Bool)
    (compactTopTokens compactInputIds : List ℤ) (m : DDTreeParentMetadata)
    (numDraftTokens : List ℕ) : Except SamplerError (List (List ℤ × List ℤ)) :=
  let maxRows := numDraftTokens.foldl max 0 + 1
  let expectedRows := (numDraftTokens.map (· + 1)).sum
  if compactInputIds.length ≠ compactTopTokens.length then
    .error (.inputRows compactInputIds.length compactTopTokens.length)
  else if numDraftTokens = [] then .ok []
  else if m.parentIds.length < numDraftTokens.length then .error .parentShape
  else if compactTopTokens.length ≠ expectedRows then
    .error (.topRows expectedRows compactTopTokens.length)
  else if m.width < maxRows then .error (.parentWidth m.width maxRows)
  else if numDraftTokens.length = 1 then
    let parents := m.parentIds.getD 0 []
    .ok [if tritonSampler then
        singleTopTokenSamplerKernel compactTopTokens compactInputIds parents maxRows
      else singleTopTokenSampler compactTopTokens compactInputIds parents maxRows]
  else
    .ok ((numDraftTokens.zip ((rowOffsets 0 numDraftTokens).zip m.parentIds)).map fun r ↦
      batchedTopTokenSampler compactTopTokens compactInputIds expectedRows maxRows r.1 r.2.1 r.2.2)

/-! ### The loop walks -/

/-- A row of results, filled with placeholders. -/
def padResults (maxRows : ℕ) (l : List ℤ) : List ℤ :=
  l ++ replicate (maxRows - l.length) placeholderTokenId

variable {maxRows lanes : ℕ} {top : ℕ → ℤ} {isChild : ℕ → ℤ → ℕ → Bool} {inactive : List ℤ → ℕ → ℤ}

section Loop

/-- A walk that has ended writes placeholders over placeholders. -/
def WritesPlaceholders (inactive : List ℤ → ℕ → ℤ) : Prop :=
  ∀ (pre : List ℤ) (m : ℕ),
    inactive (pre ++ replicate (m + 1) placeholderTokenId) pre.length = placeholderTokenId

theorem writesPlaceholders_keepOld : WritesPlaceholders keepOld := fun pre m ↦ by
  rw [keepOld, getD_eq_getElem?_getD, getElem?_append_right le_rfl, Nat.sub_self]
  rfl

/-- Writing the first placeholder. -/
theorem set_append_replicate (pre : List ℤ) (m : ℕ) (a : ℤ) {pos : ℕ} (hpos : pos = pre.length) :
    (pre ++ replicate (m + 1) placeholderTokenId).set pos a =
      (pre ++ [a]) ++ replicate m placeholderTokenId := by
  rw [hpos, set_append_right _ _ le_rfl, Nat.sub_self, append_assoc]
  rfl

/-- The state with `m + 1` columns to come: what was written so far, and placeholders. -/
def SamplerState.columns (cursor : ℕ) (active : Bool) (sampled accepted : List ℤ) (m : ℕ) :
    SamplerState :=
  ⟨cursor, active, sampled ++ replicate (m + 1) placeholderTokenId,
    accepted ++ replicate m placeholderTokenId⟩

section

variable (hin : WritesPlaceholders inactive) {pos : ℕ} {sampled accepted : List ℤ}
  (hs : sampled.length = pos) (cursor : ℕ) (active : Bool)

include hin hs

/-- The last column. -/
theorem samplerStep_last (hm : pos + 1 = maxRows) :
    samplerStep maxRows lanes top isChild inactive (.columns cursor active sampled accepted 0) pos =
      ⟨cursor, active, sampled ++ [if active then top cursor else placeholderTokenId],
        accepted⟩ := by
  have hwrite := hin sampled 0
  rw [hs] at hwrite
  dsimp only [samplerStep, SamplerState.columns]
  rw [if_neg (by omega), hwrite, set_append_replicate _ _ _ hs.symm]
  simp

/-- A column before the last. -/
theorem samplerStep_columns (ha : accepted.length = pos + 1) {m : ℕ} (hm : pos + 1 < maxRows) :
    let child := maskedMax lanes fun i ↦ active && decide (0 < i) && isChild cursor (top cursor) i
    let isMatched := active && decide (0 < child)
    samplerStep maxRows lanes top isChild inactive
        (.columns cursor active sampled accepted (m + 1)) pos =
      .columns (if isMatched then child else cursor) isMatched
        (sampled ++ [if active then top cursor else placeholderTokenId])
        (accepted ++ [if isMatched then (child : ℤ) else placeholderTokenId]) m := by
  have hwrite := hin sampled (m + 1)
  have hwrite' := hin accepted m
  rw [hs] at hwrite
  rw [ha] at hwrite'
  dsimp only [samplerStep, SamplerState.columns]
  rw [if_pos hm, hwrite, hwrite', set_append_replicate _ _ _ hs.symm,
    set_append_replicate _ _ _ ha.symm]

end

/-- **A walk that has ended** changes nothing. -/
theorem foldl_samplerStep_inactive (hin : WritesPlaceholders inactive) (m pos cursor : ℕ)
    (sampled accepted : List ℤ) (hs : sampled.length = pos) (ha : accepted.length = pos + 1)
    (hm : pos + (m + 1) = maxRows) :
    (range' pos (m + 1)).foldl (samplerStep maxRows lanes top isChild inactive)
      (.columns cursor false sampled accepted m) = .columns cursor false sampled accepted m := by
  induction m generalizing pos sampled accepted with
  | zero =>
    rw [range'_succ, foldl_cons, samplerStep_last hin hs cursor false hm]
    simp [SamplerState.columns]
  | succ m ih =>
    rw [range'_succ, foldl_cons, samplerStep_columns hin hs cursor false ha (by omega)]
    simp only [Bool.false_and, Bool.false_eq_true, if_false]
    rw [ih (pos + 1) _ _ (by simp [hs]) (by simp [ha]) (by omega)]
    simp only [SamplerState.columns, append_assoc, replicate_succ, singleton_append]

variable {child : ℕ → ℕ → Option ℕ} {target : ℕ → ℕ} {P : ℕ → Prop}

/-- The masks find the children of the rows on the way. -/
structure FindsChildren (lanes : ℕ) (top : ℕ → ℤ) (isChild : ℕ → ℤ → ℕ → Bool)
    (child : ℕ → ℕ → Option ℕ) (target : ℕ → ℕ) (P : ℕ → Prop) : Prop where
  top_eq : ∀ {row}, P row → top row = target row
  max_eq : ∀ {row}, P row → maskedMax lanes (fun i ↦ decide (0 < i) && isChild row (target row) i) =
    (child row (target row)).getD 0
  pos : ∀ {row b}, P row → child row (target row) = some b → 0 < b
  next : ∀ {row b}, P row → child row (target row) = some b → P b

section

variable (hin : WritesPlaceholders inactive)
  (hfind : FindsChildren lanes top isChild child target P)

include hin hfind

/-- **A walk that goes on**: the columns get the tokens and the nodes of the walk. -/
theorem foldl_samplerStep_active (m pos cursor : ℕ)
    (sampled accepted : List ℤ) (hP : P cursor) (hs : sampled.length = pos)
    (ha : accepted.length = pos + 1) (hm : pos + (m + 1) = maxRows) :
    let s := (range' pos (m + 1)).foldl (samplerStep maxRows lanes top isChild inactive)
      (.columns cursor true sampled accepted m)
    let path := walk child target m cursor
    s.sampledTokenIds = sampled ++ (cursor :: path).map (fun row : ℕ ↦ (target row : ℤ)) ++
        replicate (m - path.length) placeholderTokenId ∧
      s.acceptedNodeIndices = accepted ++ path.map (fun row : ℕ ↦ (row : ℤ)) ++
        replicate (m - path.length) placeholderTokenId := by
  induction m generalizing pos cursor sampled accepted with
  | zero =>
    rw [range'_succ, foldl_cons, samplerStep_last hin hs cursor true hm, hfind.top_eq hP]
    simp [walk]
  | succ m ih =>
    rw [range'_succ, foldl_cons, samplerStep_columns hin hs cursor true ha (by omega)]
    simp only [Bool.true_and, if_true, hfind.top_eq hP, hfind.max_eq hP]
    rcases hc : child cursor (target cursor) with - | b
    · -- no child: the walk ends here
      simp only [getD_none, lt_irrefl, decide_false, Bool.false_eq_true, if_false]
      rw [foldl_samplerStep_inactive hin m (pos + 1) cursor _ _ (by simp [hs]) (by simp [ha])
        (by omega), walk_succ_of_none hc]
      simp [SamplerState.columns, replicate_succ]
    · simp only [getD_some, hfind.pos hP hc, decide_true, if_true]
      obtain ⟨hsampled, haccepted⟩ := ih (pos + 1) b (sampled ++ [(target cursor : ℤ)])
        (accepted ++ [(b : ℤ)]) (hfind.next hP hc) (by simp [hs]) (by simp [ha]) (by omega)
      rw [walk_succ_of_some hc, hsampled, haccepted]
      simp

/-- **The loop writes the walk.** -/
theorem maskedWalk_eq (hP : P 0) (hpos : 1 ≤ maxRows) :
    maskedWalk maxRows lanes top isChild inactive =
      let path := 0 :: walk child target (maxRows - 1) 0
      (padResults maxRows (path.map fun row : ℕ ↦ (target row : ℤ)),
        padResults maxRows (path.map fun row : ℕ ↦ (row : ℤ))) := by
  obtain ⟨m, rfl⟩ : ∃ m, maxRows = m + 1 := ⟨maxRows - 1, by omega⟩
  obtain ⟨hsampled, haccepted⟩ := foldl_samplerStep_active hin hfind m 0 0 [] [0] hP rfl rfl
    (zero_add _)
  have hzero : (replicate (m + 1) placeholderTokenId).set 0 0 =
      [0] ++ replicate m placeholderTokenId := rfl
  rw [maskedWalk, range_eq_range', hzero]
  dsimp only [SamplerState.columns] at hsampled haccepted ⊢
  rw [nil_append] at hsampled haccepted
  rw [hsampled, haccepted]
  simp [padResults]

end

end Loop

/-! ### Requests with trees -/

/-- A request for the verifier: a well-formed payload, the token at its root, and one target token
per compact row. -/
structure TreeRequest where
  payload : DDTreeDraftPayload
  rootTokenId : ℕ
  targetTokens : List ℕ
  isTree : payload.IsTree
  length_targetTokens : targetTokens.length = payload.numTreeNodes + 1

namespace TreeRequest

variable (r : TreeRequest)

/-- The target token of a row. -/
def target (row : ℕ) : ℕ := r.targetTokens.getD row 0

/-- The rows that the walk enters. -/
def path : List ℕ := walk r.payload.childOf r.target r.payload.numTreeNodes 0

/-- What the walk returns. -/
def result : DDTreeVerificationResult := resultOf r.target 0 r.path

/-- The rows of `compact_top_tokens`. -/
def topRows : List ℤ := r.targetTokens.map fun t : ℕ ↦ (t : ℤ)

/-- The rows of `compact_input_ids`. -/
def inputRows : List ℤ := (r.rootTokenId :: r.payload.treeTokenIds).map fun t : ℕ ↦ (t : ℤ)

/-- The rows of the sampler for the request. -/
def sampledRows (maxRows : ℕ) : List ℤ × List ℤ :=
  (padResults maxRows (r.result.outputTokenIds.map fun t : ℕ ↦ (t : ℤ)),
    padResults maxRows (r.result.acceptedNodeIndices.map fun row : ℕ ↦ (row : ℤ)))

theorem length_topRows : r.topRows.length = r.payload.numTreeNodes + 1 := by
  rw [topRows, length_map, r.length_targetTokens]

theorem length_inputRows : r.inputRows.length = r.payload.numTreeNodes + 1 := by
  rw [inputRows, length_map]
  rfl

variable {r} {row : ℕ}

theorem getElem?_topRows (hle : row ≤ r.payload.numTreeNodes) :
    r.topRows[row]? = some (r.target row : ℤ) := by
  have hlt : row < r.targetTokens.length := by
    rw [r.length_targetTokens]
    omega
  rw [topRows, getElem?_map, target, getD_eq_getElem?_getD, getElem?_eq_getElem hlt]
  rfl

theorem getElem?_inputRows (h1 : 1 ≤ row) (hle : row ≤ r.payload.numTreeNodes) :
    r.inputRows[row]? = some (r.payload.tokenOf row : ℤ) := by
  obtain ⟨k, rfl⟩ : ∃ k, row = k + 1 := ⟨row - 1, by omega⟩
  have hlt : k < r.payload.treeTokenIds.length := hle
  rw [inputRows, getElem?_map, getElem?_cons_succ, tokenOf,
    Nat.add_sub_cancel, getD_eq_getElem?_getD, getElem?_eq_getElem hlt]
  rfl

end TreeRequest

/-- A row of parents holds those of a payload behind the root. -/
def HoldsParents (p : DDTreeDraftPayload) (parents : List ℤ) : Prop :=
  ∀ row, 1 ≤ row → row ≤ p.numTreeNodes →
    parents[row]? = some (if p.parentIndices.getD (row - 1) 0 < 0 then -1
      else p.parentIndices.getD (row - 1) 0 + 1)

variable {p : DDTreeDraftPayload}

section

variable {parents : List ℤ} {row : ℕ}

/-- The parents as the sampler reads them. -/
theorem clampParent_eq (h : HoldsParents p parents) (h1 : 1 ≤ row) (hle : row ≤ p.numTreeNodes) :
    clampParent (parents.getD row 0) = p.parentOf row := by
  rw [getD_eq_getElem?_getD, h row h1 hle, getD_some, parentOf, parentRow, clampParent]
  split_ifs <;> omega

variable {r : TreeRequest}

/-- **Masks find children** when they compare the parents and the tokens of the rows of the tree and
cover no other rows. -/
theorem findsChildren_of (hlanes : r.payload.numTreeNodes < lanes)
    (htop : ∀ row ≤ r.payload.numTreeNodes, top row = r.target row)
    (hin : ∀ cursor nextToken row, 1 ≤ row → row ≤ r.payload.numTreeNodes →
      isChild cursor (nextToken : ℕ) row =
        decide (r.payload.parentOf row = cursor ∧ r.payload.tokenOf row = nextToken))
    (hout : ∀ cursor nextToken row, r.payload.numTreeNodes < row → row < lanes →
      isChild cursor nextToken row = false) :
    FindsChildren lanes top isChild r.payload.childOf r.target (· ≤ r.payload.numTreeNodes) where
  top_eq := fun {row} hrow ↦ htop row hrow
  max_eq := fun {row} _ ↦ by
    obtain ⟨n, rfl⟩ : ∃ n, lanes = n + 1 := ⟨lanes - 1, by omega⟩
    rw [maskedMax, foldl_max_eq_lastRow rfl,
      lastRow_eq_of_le (Nat.lt_succ_iff.1 hlanes) fun i hi hle ↦ by
        rw [hout _ _ i hi (by omega), Bool.and_false]]
    congr 1
    refine lastRow_congr fun i h1 hle ↦ ?_
    rw [hin _ _ i h1 hle, decide_eq_true (show 0 < i by omega), Bool.true_and]
  pos := fun _ hc ↦ (childOf_eq_some hc).1
  next := fun _ hc ↦ (childOf_eq_some hc).2.1

/-- What the loop writes for a request. -/
theorem maskedWalk_eq_sampledRows (hin : WritesPlaceholders inactive)
    (hfind : FindsChildren lanes top isChild r.payload.childOf r.target
      (· ≤ r.payload.numTreeNodes)) (hrows : r.payload.numTreeNodes + 1 ≤ maxRows) :
    maskedWalk maxRows lanes top isChild inactive = r.sampledRows maxRows := by
  have hpath : walk r.payload.childOf r.target (maxRows - 1) 0 = r.path :=
    r.isTree.ranked.walk_eq (by omega) (by simp)
  rw [maskedWalk_eq hin hfind (zero_le _) (by omega), TreeRequest.sampledRows,
    TreeRequest.result, resultOf_outputTokenIds, List.map_map, hpath]
  rfl

theorem le_nextPowerOfTwo (n : ℕ) : n ≤ nextPowerOfTwo n := by
  have := lt_size_self (max 1 n - 1)
  rw [nextPowerOfTwo]
  omega

/-- The comparison of integers that stand for rows and tokens. -/
theorem beq_and_beq_eq (a b c d : ℕ) :
    ((a : ℤ) == (b : ℤ) && (c : ℤ) == (d : ℤ)) = decide (a = b ∧ c = d) := by
  rw [Bool.eq_iff_iff]
  simp

section

variable (h : HoldsParents r.payload parents)

include h

/-- **The kernel.** -/
theorem singleTopTokenSamplerKernel_eq :
    singleTopTokenSamplerKernel r.topRows r.inputRows parents (r.payload.numTreeNodes + 1) =
      r.sampledRows (r.payload.numTreeNodes + 1) := by
  refine maskedWalk_eq_sampledRows (fun _ _ ↦ rfl) (findsChildren_of ?_ ?_ ?_ ?_) le_rfl
  · exact (lt_succ_self _).trans_le (le_nextPowerOfTwo _)
  · intro row hrow
    rw [getD_eq_getElem?_getD, TreeRequest.getElem?_topRows hrow]
    rfl
  · intro cursor nextToken row h1 hle
    have hlt : row < r.payload.numTreeNodes + 1 := by omega
    simp only [hlt, decide_true, Bool.true_and, if_true]
    rw [clampParent_eq h h1 hle, getD_eq_getElem?_getD,
      TreeRequest.getElem?_inputRows h1 hle, getD_some, beq_and_beq_eq]
  · intro cursor nextToken row hlt _
    have hnot : ¬ row < r.payload.numTreeNodes + 1 := by omega
    simp [hnot]

/-- **The version for one request.** -/
theorem singleTopTokenSampler_eq :
    singleTopTokenSampler r.topRows r.inputRows parents (r.payload.numTreeNodes + 1) =
      r.sampledRows (r.payload.numTreeNodes + 1) := by
  have hget (l : List ℤ) (row : ℕ) (hrow : row ≤ r.payload.numTreeNodes) :
      (l.take (r.payload.numTreeNodes + 1)).getD row 0 = l.getD row 0 := by
    rw [getD_eq_getElem?_getD, getD_eq_getElem?_getD, getElem?_take_of_lt (by omega)]
  refine maskedWalk_eq_sampledRows writesPlaceholders_keepOld
    (findsChildren_of (lt_succ_self _) ?_ ?_ ?_) le_rfl
  · intro row hrow
    rw [hget _ _ hrow, getD_eq_getElem?_getD, TreeRequest.getElem?_topRows hrow]
    rfl
  · intro cursor nextToken row h1 hle
    dsimp only
    rw [hget _ _ hle, hget _ _ hle, clampParent_eq h h1 hle, getD_eq_getElem?_getD,
      TreeRequest.getElem?_inputRows h1 hle, getD_some, beq_and_beq_eq]
  · intro cursor nextToken row hlt hlt'
    omega

/-- **One request of a batch**, with the rows of the other requests around its own. -/
theorem batchedTopTokenSampler_eq
    (hrows : r.payload.numTreeNodes + 1 ≤ maxRows) (tops tops' inputs inputs' : List ℤ)
    (hlen : inputs.length = tops.length) :
    batchedTopTokenSampler (tops ++ r.topRows ++ tops') (inputs ++ r.inputRows ++ inputs')
        (tops ++ r.topRows ++ tops').length maxRows r.payload.numTreeNodes tops.length parents =
      r.sampledRows maxRows := by
  have hmin : ∀ row ≤ r.payload.numTreeNodes,
      min (tops.length + row) ((tops ++ r.topRows ++ tops').length - 1) = tops.length + row := by
    intro row hrow
    rw [length_append, length_append, r.length_topRows]
    omega
  have hget (pre l post : List ℤ) (row : ℕ) (hrow : row < l.length) :
      (pre ++ l ++ post)[pre.length + row]? = l[row]? := by
    rw [append_assoc, getElem?_append_right (le_add_right _ _),
      Nat.add_sub_cancel_left, getElem?_append_left hrow]
  refine maskedWalk_eq_sampledRows writesPlaceholders_keepOld
    (findsChildren_of (by omega) ?_ ?_ ?_) hrows
  · intro row hrow
    simp only [hrow, decide_true, if_true]
    rw [hmin row hrow, getD_eq_getElem?_getD,
      hget _ _ _ _ (by rw [r.length_topRows]; omega), TreeRequest.getElem?_topRows hrow]
    rfl
  · intro cursor nextToken row h1 hle
    simp only [hle, decide_true, Bool.true_and, if_true]
    rw [hmin row hle, clampParent_eq h h1 hle, ← hlen, getD_eq_getElem?_getD,
      hget _ _ _ _ (by rw [r.length_inputRows]; omega), TreeRequest.getElem?_inputRows h1 hle,
      getD_some, beq_and_beq_eq]
  · intro cursor nextToken row hlt _
    have hnot : ¬ row ≤ r.payload.numTreeNodes := by omega
    simp [hnot]

end

end

/-! ### Batches -/

/-- The parent rows of a batch hold those of its payloads, with room for every tree. -/
structure DDTreeParentMetadata.Covers (m : DDTreeParentMetadata)
    (payloads : List DDTreeDraftPayload) : Prop where
  parents : Forall₂ HoldsParents payloads (m.parentIds.take payloads.length)
  width : ∀ p ∈ payloads, p.numTreeNodes + 1 ≤ m.width

variable {l : List ℕ}

theorem le_foldl_max {n : ℕ} (hn : n ∈ l) : n ≤ l.foldl max 0 := by
  rw [foldl_eq_foldr]
  exact le_max_of_le hn le_rfl

section

variable {reqs : List TreeRequest} {m : DDTreeParentMetadata} {payloads : List DDTreeDraftPayload}
  {parents : List (List ℤ)}

/-- The requests of a batch one after the other, with the rows of those before. -/
theorem map_batchedTopTokenSampler
    (hparents : Forall₂ HoldsParents (reqs.map (·.payload)) (parents.take reqs.length))
    (hrows : ∀ r ∈ reqs, r.payload.numTreeNodes + 1 ≤ maxRows) (tops inputs : List ℤ)
    (hlen : inputs.length = tops.length) :
    ((reqs.map (·.payload.numTreeNodes)).zip
        ((rowOffsets tops.length (reqs.map (·.payload.numTreeNodes))).zip parents)).map (fun r ↦
      batchedTopTokenSampler (tops ++ reqs.flatMap (·.topRows))
        (inputs ++ reqs.flatMap (·.inputRows)) (tops ++ reqs.flatMap (·.topRows)).length maxRows
        r.1 r.2.1 r.2.2) =
      reqs.map (·.sampledRows maxRows) := by
  induction reqs generalizing tops inputs parents with
  | nil => rfl
  | cons r reqs ih =>
    rcases parents with - | ⟨ps, parents⟩
    · exact nomatch hparents
    obtain ⟨hps, hrest⟩ := forall₂_cons.1 hparents
    have hhead := batchedTopTokenSampler_eq hps (hrows r mem_cons_self) tops
      (reqs.flatMap (·.topRows)) inputs (reqs.flatMap (·.inputRows)) hlen
    have htail := ih hrest (fun r' hr' ↦ hrows r' (mem_cons_of_mem r hr'))
      (tops ++ r.topRows) (inputs ++ r.inputRows)
      (by rw [length_append, length_append, hlen, r.length_inputRows, r.length_topRows])
    have hoffset : (tops ++ r.topRows).length = tops.length + (r.payload.numTreeNodes + 1) := by
      rw [length_append, r.length_topRows]
    simp only [map_cons, rowOffsets, zip_cons_cons, flatMap_cons, ← append_assoc]
    rw [← hoffset, htail, hhead]

/-- **The sampler writes the walks of all requests.** -/
theorem greedySampleFromTopTokensGpu_eq (hcover : m.Covers (reqs.map (·.payload)))
    (tritonSampler : Bool) :
    greedySampleFromTopTokensGpu tritonSampler (reqs.flatMap (·.topRows))
        (reqs.flatMap (·.inputRows)) m (reqs.map (·.payload.numTreeNodes)) =
      .ok (reqs.map (·.sampledRows ((reqs.map (·.payload.numTreeNodes)).foldl max 0 + 1))) := by
  have htops : (reqs.flatMap (·.topRows)).length =
      ((reqs.map (·.payload.numTreeNodes)).map (· + 1)).sum := by
    rw [length_flatMap, List.map_map]
    congr 1
    exact map_congr_left fun r _ ↦ r.length_topRows
  have hinputs : (reqs.flatMap (·.inputRows)).length = (reqs.flatMap (·.topRows)).length := by
    rw [length_flatMap, length_flatMap]
    congr 1
    exact map_congr_left fun r _ ↦ r.length_inputRows.trans r.length_topRows.symm
  rw [greedySampleFromTopTokensGpu, if_neg (not_not.2 hinputs)]
  rcases hreqs : reqs with - | ⟨r, rest⟩
  · rfl
  rw [← hreqs]
  have hne : reqs.map (·.payload.numTreeNodes) ≠ [] := by
    rw [hreqs]
    exact cons_ne_nil _ _
  have hshape : reqs.length ≤ m.parentIds.length := by
    have := hcover.parents.length_eq
    rw [length_take, length_map] at this
    omega
  have hwidth : (reqs.map (·.payload.numTreeNodes)).foldl max 0 + 1 ≤ m.width := by
    have hpos := hcover.width r.payload (by rw [hreqs]; exact mem_cons_self)
    have hmax : (reqs.map (·.payload.numTreeNodes)).foldl max 0 ≤ m.width - 1 := by
      rw [foldl_eq_foldr]
      refine max_le_of_forall_le _ _ fun n hn ↦ ?_
      obtain ⟨r', hr', rfl⟩ := mem_map.1 hn
      have := hcover.width r'.payload (mem_map_of_mem hr')
      omega
    omega
  rw [if_neg hne, if_neg (by rw [length_map]; omega), if_neg (not_not.2 htops), if_neg (by omega)]
  have hparents := hcover.parents
  rw [length_map] at hparents
  by_cases hone : (reqs.map (·.payload.numTreeNodes)).length = 1
  · -- one request
    rw [if_pos hone]
    rw [length_map, hreqs, length_cons] at hone
    obtain rfl : rest = [] := length_eq_zero_iff.1 (by omega)
    subst hreqs
    rcases hids : m.parentIds with - | ⟨ps, parents⟩
    · rw [hids] at hparents
      exact nomatch hparents
    rw [hids] at hparents
    have hps := (forall₂_cons.1 hparents).1
    simp only [flatMap_cons, flatMap_nil, append_nil, map_cons, map_nil,
      foldl_cons, foldl_nil, Nat.zero_max, getD_cons_zero]
    rw [singleTopTokenSamplerKernel_eq hps, singleTopTokenSampler_eq hps, ite_self]
  · rw [if_neg hone, ← htops]
    have hrows : ∀ r ∈ reqs, r.payload.numTreeNodes + 1 ≤
        (reqs.map (·.payload.numTreeNodes)).foldl max 0 + 1 := fun r hr ↦ by
      have hmem : r.payload.numTreeNodes ∈ reqs.map (·.payload.numTreeNodes) :=
        mem_map_of_mem hr
      exact succ_le_succ (le_foldl_max hmem)
    exact congrArg Except.ok (map_batchedTopTokenSampler hparents hrows [] [] rfl)

section

variable {parents : List ℤ} (hp : p.IsTree) (h : parentsOf (some p) = .ok parents)

include hp h

/-- The parents of one request with a tree. -/
theorem holdsParents_padParents {width : ℕ} (hwidth : parents.length ≤ width) :
    HoldsParents p (padParents width parents) := by
  intro row h1 hle
  have hne : p.treeTokenIds ≠ [] := by
    intro hnil
    rw [numTreeNodes, hnil, length_nil] at hle
    omega
  rw [parentsOf, if_neg hne, fullParentIds, if_neg (not_not.2 hp.parents_length.symm)] at h
  have hlt : row - 1 < p.parentIndices.length := by
    rw [hp.parents_length]
    omega
  obtain ⟨k, rfl⟩ : ∃ k, row = k + 1 := ⟨row - 1, by omega⟩
  cases h
  rw [length_cons, length_map] at hwidth
  rw [Nat.add_sub_cancel] at hlt
  rw [padParents, getElem?_take_of_lt (by omega),
    getElem?_append_left (by rw [length_cons, length_map]; omega),
    getElem?_cons_succ, getElem?_map, Nat.add_sub_cancel, getD_eq_getElem?_getD,
    getElem?_eq_getElem hlt]
  rfl

/-- The length of the parents of one request with a tree. -/
theorem length_of_parentsOf (hne : parents ≠ []) : parents.length = p.numTreeNodes + 1 := by
  rw [parentsOf] at h
  split_ifs at h with hnil
  · cases h
    exact absurd rfl hne
  · rw [fullParentIds, if_neg (not_not.2 hp.parents_length.symm)] at h
    cases h
    rw [length_cons, length_map, hp.parents_length]

end

theorem forall₂_of_mapM (h : (payloads.map some).mapM parentsOf = .ok parents) :
    Forall₂ (fun p ps ↦ parentsOf (some p) = .ok ps) payloads parents := by
  induction payloads generalizing parents with
  | nil =>
    cases h
    exact .nil
  | cons p payloads ih =>
    rw [map_cons, mapM_cons] at h
    obtain ⟨ps, hps, h⟩ := bind_eq_ok.1 h
    obtain ⟨rest, hrest, hret⟩ := bind_eq_ok.1 h
    cases hret
    exact .cons hps (ih hrest)

/-- **The parent rows of a batch cover its payloads.** -/
theorem covers_of_build (padTo : Option ℕ) (hp : ∀ p ∈ payloads, p.IsTree)
    (hbuild : buildPaddedParentIds (payloads.map some) padTo = .ok (some m)) :
    m.Covers payloads := by
  obtain ⟨parents, hmap, h⟩ := bind_eq_ok.1 hbuild
  have hall := forall₂_of_mapM hmap
  obtain ⟨width, hpos, hmax, rfl⟩ : ∃ width, 1 ≤ width ∧
      (parents.map length).foldl max 0 ≤ width ∧ m = paddedMetadata width parents := by
    dsimp only at h
    split_ifs at h with hzero
    · cases h
    rcases padTo with - | n
    · cases h
      exact ⟨_, by omega, le_rfl, rfl⟩
    · dsimp only at h
      split_ifs at h with hlt
      cases h
      exact ⟨n, by omega, by omega, rfl⟩
  have hle : ∀ ps ∈ parents, ps.length ≤ width := fun ps hps ↦
    (le_foldl_max (mem_map_of_mem hps)).trans hmax
  constructor
  · clear hbuild hmap hmax h
    induction hall with
    | nil => exact .nil
    | cons hps _ ih =>
      refine .cons (holdsParents_padParents (hp _ mem_cons_self) hps
        (hle _ mem_cons_self)) (ih (fun p hp' ↦ hp p (mem_cons_of_mem _ hp'))
        fun ps hps' ↦ hle ps (mem_cons_of_mem _ hps'))
  · intro p hmem
    obtain ⟨i, hi⟩ := mem_iff_getElem?.1 hmem
    obtain ⟨hlt, hget⟩ := List.getElem?_eq_some_iff.1 hi
    have hlt' : i < parents.length := hall.length_eq ▸ hlt
    have hps := hall.get hlt hlt'
    rw [get_eq_getElem, hget] at hps
    rcases eq_or_ne (parents.get ⟨i, hlt'⟩) [] with hnil | hne
    · -- no tree, and any width has room for the root
      rw [hnil, parentsOf] at hps
      split_ifs at hps with htree
      · show p.treeTokenIds.length + 1 ≤ width
        rw [htree]
        exact hpos
      · rw [fullParentIds, if_neg (not_not.2 (hp p hmem).parents_length.symm)]
          at hps
        cases hps
    · rw [← length_of_parentsOf (hp p hmem) hps hne]
      exact hle _ (get_mem _ _)

end

end OneCatVllm
