import OneCatVllm.Lib.Descent
import OneCatVllm.SpecDecode.DraftTree

/-!
# The walk of the payload and the walk of the tree

The verifier walks the child maps of a payload (`greedyVerify`). The reference walk of
`ddtree_tree.py` rebuilds the tree from the payload (`treeFromPayload`), asks an oracle for the
token after the path of a node, and looks its child up by that token (`greedyTreeWalk`). Both look
children up in dictionaries that are filled in the order of the rows, so that of siblings with one
token **the last one counts**: `childOf`. Both walks are descents along `childOf`.
-/

namespace OneCatVllm

open DDTreeDraftPayload Descent Dict Fallible List Nat Option

/-- `DDTreeVerificationResult.output_token_ids`. -/
def DDTreeVerificationResult.outputTokenIds (r : DDTreeVerificationResult) : List ℕ :=
  r.acceptedTokenIds ++ [r.bonusTokenId]

/-! ### Trees -/

/-- `DDTreeNode`, without its score. -/
structure DDTreeNode where
  index : ℕ
  parentIndex : Option ℕ
  tokenId : ℕ
  depth : ℕ
  deriving DecidableEq, Inhabited

/-- `DDTree`: node 0 is the root. -/
structure DDTree where
  nodes : List DDTreeNode
  deriving DecidableEq

namespace DDTree

def nonRootNodes (t : DDTree) : List DDTreeNode := t.nodes.drop 1

/-- The loop of `path_token_ids`, from a cursor up to the root. -/
def pathUp (t : DDTree) : ℕ → Option ℕ → List ℕ
  | 0, _ => []
  | _, none => []
  | fuel + 1, some cursor =>
    if cursor = 0 then []
    else
      match t.nodes[cursor]? with
      | none => []
      | some node => node.tokenId :: t.pathUp fuel node.parentIndex

/-- `path_token_ids`: the tokens on the path to a node. -/
def pathTokenIds (t : DDTree) (nodeIndex : ℕ) : List ℕ :=
  (t.pathUp t.nodes.length (some nodeIndex)).reverse

/-- `child_by_token`. -/
def childByToken (t : DDTree) (parentIndex : ℕ) : List (ℕ × ℕ) :=
  t.nonRootNodes.foldl
    (fun children node ↦
      if node.parentIndex = some parentIndex then Dict.set children node.tokenId node.index
      else children) []

/-- The node that a list of tokens leads to. -/
def nodeAt (t : DDTree) (tokens : List ℕ) : Option ℕ :=
  follow (fun node ↦ get? (t.childByToken node)) tokens 0

end DDTree

/-- `GreedyDDTreeWalk`. -/
structure GreedyDDTreeWalk where
  acceptedNodeIndices : List ℕ
  acceptedTokenIds : List ℕ
  bonusTokenId : ℕ
  visitedNodeIndices : List ℕ
  deriving DecidableEq

/-- The loop of `greedy_tree_walk` from a node on. -/
def greedyTreeWalkFrom (t : DDTree) (nextTokenForPath : List ℕ → ℕ) : ℕ → ℕ → GreedyDDTreeWalk
  | 0, cursor => ⟨[], [], nextTokenForPath (t.pathTokenIds cursor), []⟩
  | fuel + 1, cursor =>
    let nextToken := nextTokenForPath (t.pathTokenIds cursor)
    match get? (t.childByToken cursor) nextToken with
    | none => ⟨[], [], nextToken, []⟩
    | some child =>
      let rest := greedyTreeWalkFrom t nextTokenForPath fuel child
      ⟨child :: rest.acceptedNodeIndices, nextToken :: rest.acceptedTokenIds, rest.bonusTokenId,
        child :: rest.visitedNodeIndices⟩

/-- `greedy_tree_walk`. -/
def greedyTreeWalk (t : DDTree) (nextTokenForPath : List ℕ → ℕ) : GreedyDDTreeWalk :=
  let walk := greedyTreeWalkFrom t nextTokenForPath t.nodes.length 0
  { walk with
    acceptedNodeIndices := 0 :: walk.acceptedNodeIndices
    visitedNodeIndices := 0 :: walk.visitedNodeIndices }

variable {row parent token child m : ℕ}

namespace DDTreeDraftPayload

variable (p : DDTreeDraftPayload)

/-- One iteration of `tree_from_payload`. -/
def addNode (nodes : List DDTreeNode) (row : ℕ) : Except PayloadError (List DDTreeNode) :=
  let tokenId := p.treeTokenIds.getD (row - 1) 0
  let parentIndex := p.parentIndices.getD (row - 1) 0
  let depth := p.nodeDepths.getD (row - 1) 0
  let treeParentIndex := parentRow parentIndex
  let expectedDepth := (nodes.getD treeParentIndex default).depth + 1
  if parentIndex < -1 ∨ (row : ℤ) - 1 ≤ parentIndex then .error .parentNotEarlier
  else if depth ≠ expectedDepth then .error (.depthMismatch row expectedDepth depth)
  else .ok (nodes ++ [⟨row, some treeParentIndex, tokenId, depth⟩])

/-- `tree_from_payload`. The token of the root is not read; by default it is `-1`, which is no
token. -/
def treeFromPayload (rootTokenId : ℕ) : Except PayloadError DDTree :=
  if p.parentIndices.length ≠ p.numTreeNodes then .error .parentIndicesLength
  else if p.nodeDepths.length ≠ p.numTreeNodes then .error .nodeDepthsLength
  else if p.numNodeScores ≠ p.numTreeNodes then .error .nodeScoresLength
  else do
    let nodes ← (range' 1 p.numTreeNodes).foldlM p.addNode [⟨0, none, rootTokenId, 0⟩]
    return ⟨nodes⟩

/-! ### Well-formed payloads -/

/-- **A well-formed payload**: the lists fit, every parent comes before its child, and a child is
one deeper than its parent. -/
@[mk_iff]
structure IsTree : Prop where
  parents_length : p.parentIndices.length = p.numTreeNodes
  depths_length : p.nodeDepths.length = p.numTreeNodes
  scores_length : p.numNodeScores = p.numTreeNodes
  earlier : ∀ row ∈ range' 1 p.numTreeNodes,
    -1 ≤ p.parentIndices.getD (row - 1) 0 ∧ p.parentIndices.getD (row - 1) 0 < (row : ℤ) - 1
  deeper : ∀ row ∈ range' 1 p.numTreeNodes, p.depthOf row = p.depthOf (p.parentOf row) + 1

instance : Decidable p.IsTree := decidable_of_iff' _ p.isTree_iff

/-- The token of a row other than the root. -/
def tokenOf (row : ℕ) : ℕ := p.treeTokenIds.getD (row - 1) 0

/-- **The child of a row by a token**: the last one listed. -/
def childOf (parent token : ℕ) : Option ℕ :=
  lastRow (fun row ↦ p.parentOf row = parent ∧ p.tokenOf row = token) p.numTreeNodes

/-- No two children of a row have the same token. -/
def DistinctSiblings : Prop :=
  ∀ row ∈ range' 1 p.numTreeNodes, ∀ row' ∈ range' 1 p.numTreeNodes,
    p.parentOf row = p.parentOf row' → p.tokenOf row = p.tokenOf row' → row = row'

instance : Decidable p.DistinctSiblings :=
  inferInstanceAs (Decidable (∀ row ∈ range' 1 p.numTreeNodes, _))

variable {p}

theorem IsTree.parentOf_lt (h : p.IsTree) (h1 : 1 ≤ row) (hle : row ≤ p.numTreeNodes) :
    p.parentOf row < row := by
  have := h.earlier row (mem_rows.2 ⟨h1, hle⟩)
  rw [parentOf, parentRow]
  split_ifs <;> omega

theorem childOf_eq_some (h : p.childOf parent token = some child) :
    1 ≤ child ∧ child ≤ p.numTreeNodes ∧ p.parentOf child = parent ∧ p.tokenOf child = token := by
  obtain ⟨h1, hle, hq⟩ := lastRow_eq_some h
  exact ⟨h1, hle, of_decide_eq_true hq⟩

/-- Children have larger rows than their parents. -/
theorem IsTree.ranked (h : p.IsTree) : Ranked p.childOf id p.numTreeNodes where
  lt := fun hc ↦ by
    obtain ⟨h1, hle, rfl, -⟩ := childOf_eq_some hc
    exact h.parentOf_lt h1 hle
  le := fun hc ↦ (childOf_eq_some hc).2.1

/-- Without duplicates every row is the child of its parent by its token. -/
theorem DistinctSiblings.childOf_eq (h : p.DistinctSiblings) (h1 : 1 ≤ row)
    (hle : row ≤ p.numTreeNodes) : p.childOf (p.parentOf row) (p.tokenOf row) = some row := by
  refine lastRow_eq_of_unique h1 hle (by simp) fun row' h1' hle' hq ↦ ?_
  obtain ⟨hparent, htoken⟩ := of_decide_eq_true hq
  exact h row' (mem_rows.2 ⟨h1', hle'⟩) row (mem_rows.2 ⟨h1, hle⟩) hparent htoken

/-! ### The child maps -/

theorem addChild_of_isTree (h : p.IsTree) (h1 : 1 ≤ row) (hle : row ≤ p.numTreeNodes)
    (maps : List (List (ℕ × ℕ))) :
    p.addChild maps row = .ok (maps.set (p.parentOf row)
      (Dict.set (maps.getD (p.parentOf row) []) (p.tokenOf row) row)) := by
  have hearlier := h.earlier row (mem_rows.2 ⟨h1, hle⟩)
  have hdeeper := h.deeper row (mem_rows.2 ⟨h1, hle⟩)
  rw [depthOf, if_neg (by omega), parentOf] at hdeeper
  rw [addChild, if_neg (by omega), if_neg (not_not.2 hdeeper)]
  rfl

/-- The child maps after the first `m` rows. -/
theorem foldlM_addChild (h : p.IsTree) (hm : m ≤ p.numTreeNodes) :
    ∃ maps, (range' 1 m).foldlM p.addChild (replicate (p.numTreeNodes + 1) []) =
        .ok maps ∧ maps.length = p.numTreeNodes + 1 ∧
      ∀ parent token, get? (maps.getD parent []) token =
        lastRow (fun row ↦ p.parentOf row = parent ∧ p.tokenOf row = token) m := by
  induction m with
  | zero =>
    refine ⟨_, rfl, length_replicate, fun parent token ↦ ?_⟩
    rw [getD_eq_getElem?_getD, getElem?_replicate]
    split_ifs <;> rfl
  | succ m ih =>
    obtain ⟨maps, hmaps, hlen, hget⟩ := ih (by omega)
    have hlt : p.parentOf (m + 1) < m + 1 := h.parentOf_lt (by omega) hm
    refine ⟨maps.set (p.parentOf (m + 1)) (Dict.set (maps.getD (p.parentOf (m + 1)) [])
      (p.tokenOf (m + 1)) (m + 1)), ?_, by rw [length_set, hlen], fun parent token ↦ ?_⟩
    · rw [range'_1_concat, foldlM_append, hmaps]
      show p.addChild maps (1 + m) >>= pure = _
      rw [bind_pure, add_comm 1 m]
      exact addChild_of_isTree h (by omega) hm maps
    · rw [lastRow, getD_eq_getElem?_getD, getElem?_set]
      by_cases hparent : p.parentOf (m + 1) = parent
      · rw [if_pos hparent, if_pos (by omega), getD_some, get?_set, hparent, hget]
        by_cases htoken : p.tokenOf (m + 1) = token
        · rw [if_pos htoken, if_pos (by simp [htoken])]
        · rw [if_neg htoken, if_neg (by simp [htoken])]
      · rw [if_neg hparent, ← getD_eq_getElem?_getD, hget, if_neg (by simp [hparent])]

/-- **The child maps of a well-formed payload** give `childOf`. -/
theorem IsTree.childMaps_eq (h : p.IsTree) : ∃ maps, p.childMaps = .ok maps ∧
    ∀ parent token, get? (maps.getD parent []) token = p.childOf parent token := by
  obtain ⟨maps, hmaps, -, hget⟩ := foldlM_addChild h le_rfl
  refine ⟨maps, ?_, hget⟩
  rw [childMaps, if_neg (not_not.2 h.parents_length), if_neg (not_not.2 h.depths_length),
    if_neg (not_not.2 h.scores_length)]
  exact hmaps

end DDTreeDraftPayload

/-! ### The walk of the payload -/

section

variable (target : ℕ → ℕ) (cursor : ℕ) (path : List ℕ)

/-- What a walk returns that enters the nodes `path` from `cursor`: their tokens are the targets on
the way. -/
def resultOf : DDTreeVerificationResult where
  acceptedNodeIndices := cursor :: path
  acceptedTokenIds := (cursor :: path).dropLast.map target
  bonusTokenId := target ((cursor :: path).getLast (cons_ne_nil _ _))

@[simp] theorem resultOf_outputTokenIds :
    (resultOf target cursor path).outputTokenIds = (cursor :: path).map target := by
  conv_rhs => rw [← dropLast_append_getLast (cons_ne_nil cursor path), map_append]
  rfl

end

variable {p : DDTreeDraftPayload} {targetTokens : List ℕ}

/-- The loop of the verifier is a walk along `childOf`. -/
theorem treeWalk_eq {maps : List (List (ℕ × ℕ))}
    (hmaps : ∀ parent token, get? (maps.getD parent []) token = p.childOf parent token)
    (fuel cursor : ℕ) :
    let path := walk p.childOf (targetTokens.getD · 0) fuel cursor
    treeWalk maps targetTokens fuel cursor =
      { resultOf (targetTokens.getD · 0) cursor path with acceptedNodeIndices := path } := by
  induction fuel generalizing cursor with
  | zero => rfl
  | succ fuel ih =>
    rw [treeWalk, hmaps, walk]
    rcases p.childOf cursor (targetTokens.getD cursor 0) with - | child
    · rfl
    · have hrest := ih child
      dsimp only at hrest ⊢
      rw [hrest]
      rfl

/-- **The payload walk.** -/
theorem greedyVerify_eq (h : p.IsTree) (hrows : targetTokens.length = p.numTreeNodes + 1) :
    greedyVerify p targetTokens = .ok (resultOf (targetTokens.getD · 0) 0
      (walk p.childOf (targetTokens.getD · 0) p.numTreeNodes 0)) := by
  obtain ⟨maps, hmaps, hget⟩ := h.childMaps_eq
  have hfuel : walk p.childOf (targetTokens.getD · 0) (p.numTreeNodes + 1) 0 =
      walk p.childOf (targetTokens.getD · 0) p.numTreeNodes 0 :=
    h.ranked.walk_eq (le_succ _) le_rfl
  rw [greedyVerify, if_neg (not_not.2 hrows), hmaps]
  show Except.ok _ = _
  rw [treeWalk_eq hget, hfuel]
  rfl

/-! ### The tree of a payload -/

variable {rootTokenId : ℕ}

namespace DDTreeDraftPayload

/-- The node of a row. -/
def rowNode (p : DDTreeDraftPayload) (rootTokenId row : ℕ) : DDTreeNode :=
  if row = 0 then ⟨0, none, rootTokenId, 0⟩
  else ⟨row, some (p.parentOf row), p.tokenOf row, p.depthOf row⟩

theorem rowNode_of_pos (h : 1 ≤ row) : p.rowNode rootTokenId row =
    ⟨row, some (p.parentOf row), p.tokenOf row, p.depthOf row⟩ :=
  if_neg (by omega)

@[simp] theorem rowNode_depth (row : ℕ) : (p.rowNode rootTokenId row).depth = p.depthOf row := by
  unfold rowNode
  split_ifs with h
  · rw [h]
    rfl
  · rfl

/-- The tree of a well-formed payload. -/
def tree (p : DDTreeDraftPayload) (rootTokenId : ℕ) : DDTree where
  nodes := (range (p.numTreeNodes + 1)).map (p.rowNode rootTokenId)

theorem foldlM_addNode (h : p.IsTree) (hm : m ≤ p.numTreeNodes) :
    (range' 1 m).foldlM p.addNode [⟨0, none, rootTokenId, 0⟩] =
      .ok ((range (m + 1)).map (p.rowNode rootTokenId)) := by
  induction m with
  | zero => rfl
  | succ m ih =>
    have hrow : m + 1 ∈ range' 1 p.numTreeNodes := mem_rows.2 ⟨by omega, hm⟩
    have hearlier := h.earlier _ hrow
    have hdeeper := h.deeper _ hrow
    have hlt : p.parentOf (m + 1) < m + 1 := h.parentOf_lt (by omega) hm
    have hdepth : (((range (m + 1)).map (p.rowNode rootTokenId)).getD (p.parentOf (m + 1))
        default).depth = p.depthOf (p.parentOf (m + 1)) := by
      rw [getD_eq_getElem?_getD, getElem?_map, getElem?_range hlt, map_some,
        getD_some, rowNode_depth]
    rw [depthOf, if_neg (by omega), ← hdepth, parentOf] at hdeeper
    rw [range'_1_concat, foldlM_append, ih (by omega)]
    show p.addNode _ (1 + m) >>= pure = _
    rw [add_comm 1 m, addNode, if_neg (not_not.2 hdeeper), range_succ (n := m + 1), map_append,
      if_neg (by omega)]
    rfl

/-- **The tree is rebuilt.** -/
theorem IsTree.treeFromPayload_eq (h : p.IsTree) (rootTokenId : ℕ) :
    p.treeFromPayload rootTokenId = .ok (p.tree rootTokenId) := by
  rw [treeFromPayload, if_neg (not_not.2 h.parents_length), if_neg (not_not.2 h.depths_length),
    if_neg (not_not.2 h.scores_length), foldlM_addNode h le_rfl]
  rfl

/-- The children of a node by their tokens. -/
theorem get?_childByToken (parent token : ℕ) :
    get? ((p.tree rootTokenId).childByToken parent) token = p.childOf parent token := by
  have hnodes : (p.tree rootTokenId).nonRootNodes =
      (range' 1 p.numTreeNodes).map (p.rowNode rootTokenId) := by
    rw [tree, range_eq_range']
    rfl
  rw [DDTree.childByToken, hnodes, foldl_map, childOf]
  induction p.numTreeNodes with
  | zero => rfl
  | succ m ih =>
    rw [range'_1_concat, foldl_append, lastRow, ← ih, foldl_cons, foldl_nil,
      add_comm 1 m, rowNode_of_pos (by omega)]
    by_cases hparent : p.parentOf (m + 1) = parent
    · rw [if_pos (by rw [hparent]), get?_set]
      by_cases htoken : p.tokenOf (m + 1) = token
      · rw [if_pos htoken, if_pos (by simp [hparent, htoken])]
      · rw [if_neg htoken, if_neg (by simp [htoken])]
    · rw [if_neg (by simpa using hparent), if_neg (by simp [hparent])]

theorem nodeAt_eq (tokens : List ℕ) :
    (p.tree rootTokenId).nodeAt tokens = follow p.childOf tokens 0 := by
  have hchild : (fun node ↦ get? ((p.tree rootTokenId).childByToken node)) = p.childOf := by
    funext parent token
    exact get?_childByToken parent token
  rw [DDTree.nodeAt, hchild]

/-! #### Paths -/

theorem pathUp_succ {fuel : ℕ} (h1 : 1 ≤ row) (hle : row ≤ p.numTreeNodes) :
    (p.tree rootTokenId).pathUp (fuel + 1) (some row) =
      p.tokenOf row :: (p.tree rootTokenId).pathUp fuel (some (p.parentOf row)) := by
  have hnode : (p.tree rootTokenId).nodes[row]? = some (p.rowNode rootTokenId row) := by
    rw [tree, getElem?_map, getElem?_range (by omega)]
    rfl
  rw [DDTree.pathUp, if_neg (by omega), hnode, rowNode_of_pos h1]

/-- As many iterations as the row suffice for the path. -/
theorem IsTree.pathUp_eq (h : p.IsTree) {fuel fuel' : ℕ} (hle : row ≤ p.numTreeNodes)
    (hfuel : row ≤ fuel) (hfuel' : row ≤ fuel') :
    (p.tree rootTokenId).pathUp fuel (some row) = (p.tree rootTokenId).pathUp fuel' (some row) := by
  induction row using Nat.strong_induction_on generalizing fuel fuel' with
  | _ row ih =>
    rcases Nat.eq_zero_or_pos row with rfl | hpos
    · cases fuel <;> cases fuel' <;> simp [DDTree.pathUp]
    · have hlt := h.parentOf_lt hpos hle
      obtain ⟨fuel, rfl⟩ : ∃ n, fuel = n + 1 := ⟨fuel - 1, by omega⟩
      obtain ⟨fuel', rfl⟩ : ∃ n, fuel' = n + 1 := ⟨fuel' - 1, by omega⟩
      rw [pathUp_succ hpos hle, pathUp_succ hpos hle,
        ih _ hlt (by omega) (show p.parentOf row ≤ fuel by omega)
          (show p.parentOf row ≤ fuel' by omega)]

@[simp] theorem pathTokenIds_zero : (p.tree rootTokenId).pathTokenIds 0 = [] := by
  rw [DDTree.pathTokenIds]
  cases (p.tree rootTokenId).nodes.length <;> simp [DDTree.pathUp]

/-- **The path of a row** is that of its parent and its token. -/
theorem IsTree.pathTokenIds_eq (h : p.IsTree) (h1 : 1 ≤ row) (hle : row ≤ p.numTreeNodes) :
    (p.tree rootTokenId).pathTokenIds row =
      (p.tree rootTokenId).pathTokenIds (p.parentOf row) ++ [p.tokenOf row] := by
  have hlt := h.parentOf_lt h1 hle
  have hlen : (p.tree rootTokenId).nodes.length = p.numTreeNodes + 1 := by simp [tree]
  have hfuel : (p.tree rootTokenId).pathUp p.numTreeNodes (some (p.parentOf row)) =
      (p.tree rootTokenId).pathUp (p.numTreeNodes + 1) (some (p.parentOf row)) :=
    h.pathUp_eq (by omega) (by omega) (by omega)
  rw [DDTree.pathTokenIds, DDTree.pathTokenIds, hlen, pathUp_succ h1 hle, reverse_cons, hfuel]

theorem IsTree.pathTokenIds_child (h : p.IsTree) (hc : p.childOf parent token = some child) :
    (p.tree rootTokenId).pathTokenIds child =
      (p.tree rootTokenId).pathTokenIds parent ++ [token] := by
  obtain ⟨h1, hle, rfl, rfl⟩ := childOf_eq_some hc
  exact h.pathTokenIds_eq h1 hle

/-- Without duplicates the path of a row leads to it. -/
theorem IsTree.follow_pathTokenIds (h : p.IsTree) (rootTokenId : ℕ) (hdist : p.DistinctSiblings)
    (hle : row ≤ p.numTreeNodes) :
    follow p.childOf ((p.tree rootTokenId).pathTokenIds row) 0 = some row := by
  induction row using Nat.strong_induction_on with
  | _ row ih =>
    rcases Nat.eq_zero_or_pos row with rfl | hpos
    · rw [pathTokenIds_zero]
      rfl
    · have hlt := h.parentOf_lt hpos hle
      rw [h.pathTokenIds_eq hpos hle, follow_append, ih _ hlt (by omega), bind_some, follow,
        hdist.childOf_eq hpos hle]
      rfl

end DDTreeDraftPayload

/-! ### The walk of the tree -/

/-- **An oracle for the target tokens of the rows**: after the tokens that lead to a row it gives
the target token of the row. -/
def IsOracle (t : DDTree) (targetTokens : List ℕ) (nextTokenForPath : List ℕ → ℕ) : Prop :=
  ∀ tokens node, t.nodeAt tokens = some node → targetTokens[node]? = some (nextTokenForPath tokens)

section

variable {nextTokenForPath : List ℕ → ℕ}

/-- The loop of the tree walk is a walk too. -/
theorem greedyTreeWalkFrom_eq (fuel cursor : ℕ) :
    let target := fun row ↦ nextTokenForPath ((p.tree rootTokenId).pathTokenIds row)
    let path := walk p.childOf target fuel cursor
    greedyTreeWalkFrom (p.tree rootTokenId) nextTokenForPath fuel cursor =
      ⟨path, (resultOf target cursor path).acceptedTokenIds,
        (resultOf target cursor path).bonusTokenId, path⟩ := by
  induction fuel generalizing cursor with
  | zero => rfl
  | succ fuel ih =>
    intro target
    rw [greedyTreeWalkFrom, get?_childByToken]
    rcases hc : p.childOf cursor (target cursor) with - | child
    · rw [walk_succ_of_none hc]
      rfl
    · have hrest := ih child
      rw [walk_succ_of_some hc]
      dsimp only at hrest ⊢
      rw [hrest]
      rfl

/-- **The walk of the tree** with an oracle for the target tokens is the walk of the payload. -/
theorem greedyTreeWalk_eq (h : p.IsTree)
    (horacle : IsOracle (p.tree rootTokenId) targetTokens nextTokenForPath) :
    let path := walk p.childOf (targetTokens.getD · 0) p.numTreeNodes 0
    let result := resultOf (targetTokens.getD · 0) 0 path
    greedyTreeWalk (p.tree rootTokenId) nextTokenForPath =
      ⟨result.acceptedNodeIndices, result.acceptedTokenIds, result.bonusTokenId,
        result.acceptedNodeIndices⟩ := by
  set target := fun row ↦ nextTokenForPath ((p.tree rootTokenId).pathTokenIds row) with htarget
  -- the walk only meets rows that their paths lead to
  let P : ℕ → Prop := fun row ↦
    follow p.childOf ((p.tree rootTokenId).pathTokenIds row) 0 = some row
  have hsame : ∀ {row}, P row → target row = targetTokens.getD row 0 := fun {row} hrow ↦ by
    have := horacle _ row (by rw [nodeAt_eq]; exact hrow)
    rw [getD_eq_getElem?_getD, this]
    rfl
  have hstep : ∀ {row child}, P row → p.childOf row (targetTokens.getD row 0) = some child →
      P child := fun {row child} hrow hc ↦ by
    show follow p.childOf ((p.tree rootTokenId).pathTokenIds child) 0 = some child
    rw [h.pathTokenIds_child hc, follow_append, hrow, bind_some, follow, hc]
    rfl
  have hzero : P 0 := by
    show follow p.childOf ((p.tree rootTokenId).pathTokenIds 0) 0 = some 0
    rw [pathTokenIds_zero]
    rfl
  have hlen : (p.tree rootTokenId).nodes.length = p.numTreeNodes + 1 := by
    simp [tree]
  have hwalk : walk p.childOf target (p.numTreeNodes + 1) 0 =
      walk p.childOf (targetTokens.getD · 0) p.numTreeNodes 0 := by
    rw [walk_congr (fun hrow ↦ by rw [hsame hrow]) hstep hzero]
    exact h.ranked.walk_eq (le_succ _) le_rfl
  have hall : ∀ row ∈ 0 :: walk p.childOf (targetTokens.getD · 0) p.numTreeNodes 0,
      target row = targetTokens.getD row 0 := by
    intro row hrow
    rcases mem_cons.1 hrow with rfl | hrow
    · exact hsame hzero
    · exact hsame (forall_mem_walk hstep hzero row hrow)
  have hresult : resultOf target 0 (walk p.childOf (targetTokens.getD · 0) p.numTreeNodes 0) =
      resultOf (targetTokens.getD · 0) 0
        (walk p.childOf (targetTokens.getD · 0) p.numTreeNodes 0) := by
    rw [resultOf, resultOf, hall _ (getLast_mem _),
      map_congr_left fun row hrow ↦ hall row (dropLast_subset _ hrow)]
  rw [greedyTreeWalk, hlen, greedyTreeWalkFrom_eq, hwalk, hresult]
  rfl

end

end OneCatVllm
