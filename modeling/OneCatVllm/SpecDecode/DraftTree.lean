import Mathlib.Data.List.Chain
import Mathlib.Algebra.Order.Ring.Int
import OneCatVllm.Lib.Dict
import OneCatVllm.Lib.Fallible

/-!
# Draft trees and the walk of the verifier

A draft model proposes a tree of tokens. The payload lists the nodes other than the root in
**verifier coordinates**: node `k + 1` has its token, parent and depth at index `k`, and a parent
`-1` is the root, which is row `0` of the compact verifier rows. The verifier has one target token
per row; it starts at the root and follows the child that carries the target token of the current
row until there is none. What it accepts is a **path from the root** (`isChain_of_greedyVerify`).
-/

namespace OneCatVllm

open Dict Fallible List Option

/-- `DDTreeDraftPayload`: what the verifier and the worker read of a draft tree. Of the scores only
their number is read. -/
structure DDTreeDraftPayload where
  treeTokenIds : List ℕ
  parentIndices : List ℤ
  nodeDepths : List ℕ
  numNodeScores : ℕ
  flatDraftTokenIds : List ℕ
  deriving DecidableEq

/-- The errors that the verifier raises. -/
inductive PayloadError
  | parentIndicesLength
  | nodeDepthsLength
  | nodeScoresLength
  | parentNotEarlier
  | depthMismatch (node expected got : ℕ)
  | targetRows (expected got : ℕ)
  deriving DecidableEq

namespace DDTreeDraftPayload

variable (p : DDTreeDraftPayload)

def numTreeNodes : ℕ := p.treeTokenIds.length

/-- `is_flat_chain`: the verifier nodes are exactly the linear draft chain. -/
def isFlatChain : Bool :=
  p.treeTokenIds = p.flatDraftTokenIds ∧
    p.parentIndices = (range p.numTreeNodes).map (fun k : ℕ ↦ (k : ℤ) - 1) ∧
    p.nodeDepths = (range p.numTreeNodes).map (· + 1)

/-- The compact row of a parent index. -/
def parentRow (parentIndex : ℤ) : ℕ := if parentIndex = -1 then 0 else (parentIndex + 1).toNat

/-- The depth of a compact row; the root has depth 0. -/
def depthOf (row : ℕ) : ℕ := if row = 0 then 0 else p.nodeDepths.getD (row - 1) 0

/-- One iteration of `_payload_child_maps`: check node `row` and enter it below its parent. -/
def addChild (maps : List (List (ℕ × ℕ))) (row : ℕ) : Except PayloadError (List (List (ℕ × ℕ))) :=
  let tokenId := p.treeTokenIds.getD (row - 1) 0
  let parentIndex := p.parentIndices.getD (row - 1) 0
  let depth := p.nodeDepths.getD (row - 1) 0
  let parent := parentRow parentIndex
  if parentIndex < -1 ∨ (row : ℤ) - 1 ≤ parentIndex then .error .parentNotEarlier
  else if depth ≠ p.depthOf parent + 1 then
    .error (.depthMismatch row (p.depthOf parent + 1) depth)
  else .ok (maps.set parent (Dict.set (maps.getD parent []) tokenId row))

/-- `_payload_child_maps`: per compact row, the children by their tokens. -/
def childMaps : Except PayloadError (List (List (ℕ × ℕ))) :=
  if p.parentIndices.length ≠ p.numTreeNodes then .error .parentIndicesLength
  else if p.nodeDepths.length ≠ p.numTreeNodes then .error .nodeDepthsLength
  else if p.numNodeScores ≠ p.numTreeNodes then .error .nodeScoresLength
  else (range' 1 p.numTreeNodes).foldlM p.addChild (replicate (p.numTreeNodes + 1) [])

end DDTreeDraftPayload

/-- `DDTreeVerificationResult`. -/
structure DDTreeVerificationResult where
  acceptedNodeIndices : List ℕ
  acceptedTokenIds : List ℕ
  bonusTokenId : ℕ
  deriving DecidableEq

/-- The loop of the verifier from a row on. A child has a larger row than its parent, so that as
many iterations as there are rows suffice (`IsTree.ranked`). -/
def treeWalk (maps : List (List (ℕ × ℕ))) (targetTokens : List ℕ) :
    ℕ → ℕ → DDTreeVerificationResult
  | 0, cursor => ⟨[], [], targetTokens.getD cursor 0⟩
  | fuel + 1, cursor =>
    let nextToken := targetTokens.getD cursor 0
    match get? (maps.getD cursor []) nextToken with
    | none => ⟨[], [], nextToken⟩
    | some child =>
      let rest := treeWalk maps targetTokens fuel child
      ⟨child :: rest.acceptedNodeIndices, nextToken :: rest.acceptedTokenIds, rest.bonusTokenId⟩

/-- `greedy_verify_payload_from_target_tokens`. -/
def greedyVerify (p : DDTreeDraftPayload) (targetTokens : List ℕ) :
    Except PayloadError DDTreeVerificationResult :=
  if targetTokens.length ≠ p.numTreeNodes + 1 then
    .error (.targetRows (p.numTreeNodes + 1) targetTokens.length)
  else do
    let maps ← p.childMaps
    let walk := treeWalk maps targetTokens (p.numTreeNodes + 1) 0
    return { walk with acceptedNodeIndices := 0 :: walk.acceptedNodeIndices }

/-! ### Well-formed trees -/

namespace DDTreeDraftPayload

variable (p : DDTreeDraftPayload)

/-- The parent of a row other than the root. -/
def parentOf (row : ℕ) : ℕ := parentRow (p.parentIndices.getD (row - 1) 0)

/-- `child` is a node of the tree with the given parent. -/
def IsChild (parent child : ℕ) : Prop :=
  1 ≤ child ∧ child ≤ p.numTreeNodes ∧ p.parentOf child = parent

instance (parent child : ℕ) : Decidable (p.IsChild parent child) :=
  inferInstanceAs (Decidable (_ ∧ _ ∧ _))

/-- **The verifier accepts the payload**: parents come earlier, and a node is one deeper than its
parent. -/
structure WellFormed : Prop where
  depths_length : p.nodeDepths.length = p.numTreeNodes
  parentOf_lt : ∀ row, 1 ≤ row → row ≤ p.numTreeNodes → p.parentOf row < row
  depthOf_eq : ∀ row, 1 ≤ row → row ≤ p.numTreeNodes →
    p.depthOf row = p.depthOf (p.parentOf row) + 1

variable {p} {maps maps' : List (List (ℕ × ℕ))} {row j node cursor : ℕ} {path : List ℕ}

theorem addChild_eq_ok (h : p.addChild maps row = .ok maps') (hrow : 1 ≤ row) :
    p.parentOf row < row ∧ p.depthOf row = p.depthOf (p.parentOf row) + 1 ∧
      maps' = maps.set (p.parentOf row)
        (Dict.set (maps.getD (p.parentOf row) []) (p.treeTokenIds.getD (row - 1) 0) row) := by
  simp only [addChild] at h
  split_ifs at h with hparent hdepth
  refine ⟨?_, ?_, (Except.ok.inj h).symm⟩
  · rw [parentOf, parentRow]
    split_ifs <;> omega
  · rw [depthOf, if_neg (by omega)]
    exact not_not.1 hdepth

/-- The maps only list children. -/
def MapsChildren (p : DDTreeDraftPayload) (maps : List (List (ℕ × ℕ))) : Prop :=
  ∀ parent token child, get? (maps.getD parent []) token = some child → p.IsChild parent child

theorem mapsChildren_addChild (h : p.addChild maps row = .ok maps') (hrow : 1 ≤ row)
    (hle : row ≤ p.numTreeNodes) (hmaps : p.MapsChildren maps) : p.MapsChildren maps' := by
  obtain ⟨-, -, rfl⟩ := addChild_eq_ok h hrow
  intro parent token child hget
  rw [getD_eq_getElem?_getD, getElem?_set] at hget
  by_cases hparent : p.parentOf row = parent
  · subst hparent
    rw [if_pos rfl] at hget
    split_ifs at hget with hlen
    · rw [getD_some, get?_set] at hget
      split_ifs at hget with htoken
      · exact some.inj hget ▸ ⟨hrow, hle, rfl⟩
      · exact hmaps _ _ _ hget
    · cases hget
  · rw [if_neg hparent] at hget
    exact hmaps _ _ _ (by rwa [getD_eq_getElem?_getD])

theorem mem_rows : row ∈ range' 1 p.numTreeNodes ↔ 1 ≤ row ∧ row ≤ p.numTreeNodes := by
  rw [mem_range'_1]
  omega

/-- **The child maps** exist for well-formed payloads only, and list children. -/
theorem childMaps_eq_ok (h : p.childMaps = .ok maps) : p.WellFormed ∧ p.MapsChildren maps := by
  simp only [childMaps] at h
  split_ifs at h with hparents hdepths hscores
  refine ⟨⟨not_not.1 hdepths, fun row h1 hle ↦ ?_, fun row h1 hle ↦ ?_⟩, ?_⟩
  · obtain ⟨_, _, hadd⟩ := exists_of_foldlM_eq_ok h (mem_rows.2 ⟨h1, hle⟩)
    exact (addChild_eq_ok hadd h1).1
  · obtain ⟨_, _, hadd⟩ := exists_of_foldlM_eq_ok h (mem_rows.2 ⟨h1, hle⟩)
    exact (addChild_eq_ok hadd h1).2.1
  · refine foldlM_invariant h ?_ fun hrow hmaps hadd ↦
      mapsChildren_addChild hadd (mem_rows.1 hrow).1 (mem_rows.1 hrow).2 hmaps
    intro parent token child hget
    rw [getD_eq_getElem?_getD, getElem?_replicate] at hget
    split_ifs at hget <;> cases hget

namespace WellFormed

/-- A node is no deeper than its row. -/
theorem depthOf_le (hp : p.WellFormed) : ∀ row, row ≤ p.numTreeNodes → p.depthOf row ≤ row := by
  intro row
  induction row using Nat.strong_induction_on with
  | _ row ih =>
    intro hle
    rcases Nat.eq_zero_or_pos row with rfl | hpos
    · exact le_rfl
    · have hlt := hp.parentOf_lt row hpos hle
      have := ih _ hlt (by omega)
      rw [hp.depthOf_eq row hpos hle]
      omega

/-- **A path** from a row descends one level a step, to larger and larger rows. -/
theorem of_isChain (hp : p.WellFormed) (hpath : (cursor :: path).IsChain p.IsChild)
    (hj : path[j]? = some node) :
    p.depthOf node = p.depthOf cursor + j + 1 ∧ cursor + j + 1 ≤ node ∧ node ≤ p.numTreeNodes := by
  induction path generalizing cursor j with
  | nil => cases hj
  | cons child path ih =>
    obtain ⟨⟨h1, hle, hparent⟩, hrest⟩ := isChain_cons_cons.1 hpath
    have hlt := hp.parentOf_lt child h1 hle
    have hdepth := hp.depthOf_eq child h1 hle
    rw [hparent] at hlt hdepth
    cases j with
    | zero =>
      cases hj
      omega
    | succ j =>
      obtain ⟨hd, hge, hle'⟩ := ih hrest hj
      omega

end WellFormed

/-- In a flat chain the only path from the root is the chain. -/
theorem getElem?_of_isFlatChain (hp : p.isFlatChain = true)
    (hpath : (cursor :: path).IsChain p.IsChild) (hj : path[j]? = some node) :
    node = cursor + j + 1 := by
  have hparents : p.parentIndices = (range p.numTreeNodes).map (fun k : ℕ ↦ (k : ℤ) - 1) :=
    (of_decide_eq_true hp).2.1
  induction path generalizing cursor j with
  | nil => cases hj
  | cons child path ih =>
    obtain ⟨⟨h1, hle, hparent⟩, hrest⟩ := isChain_cons_cons.1 hpath
    have hchild : child = cursor + 1 := by
      rw [parentOf, hparents, getD_eq_getElem?_getD, getElem?_map,
        getElem?_range (by omega), map_some, getD_some, parentRow] at hparent
      split_ifs at hparent <;> omega
    cases j with
    | zero =>
      cases hj
      exact hchild
    | succ j =>
      have := ih hrest hj
      omega

end DDTreeDraftPayload

/-! ### The walk -/

section Walk

variable {p : DDTreeDraftPayload} {maps : List (List (ℕ × ℕ))} {targetTokens : List ℕ}

/-- The walk follows a path of the tree. -/
theorem isChain_treeWalk (hmaps : p.MapsChildren maps) (fuel cursor : ℕ) :
    (cursor :: (treeWalk maps targetTokens fuel cursor).acceptedNodeIndices).IsChain p.IsChild := by
  induction fuel generalizing cursor with
  | zero => exact isChain_singleton cursor
  | succ fuel ih =>
    rw [treeWalk]
    rcases hget : get? (maps.getD cursor []) (targetTokens.getD cursor 0) with - | child
    · exact isChain_singleton cursor
    · exact isChain_cons_cons.2 ⟨hmaps _ _ _ hget, ih child⟩

/-- **The verifier** accepts the root and a path from it, in a well-formed tree. -/
theorem isChain_of_greedyVerify {result : DDTreeVerificationResult}
    (h : greedyVerify p targetTokens = .ok result) :
    p.WellFormed ∧ ∃ path, result.acceptedNodeIndices = 0 :: path ∧
      (0 :: path).IsChain p.IsChild := by
  rw [greedyVerify] at h
  split_ifs at h with hrows
  obtain ⟨maps, hmaps, hret⟩ := bind_eq_ok.1 h
  obtain ⟨hp, hchildren⟩ := DDTreeDraftPayload.childMaps_eq_ok hmaps
  cases hret
  exact ⟨hp, _, rfl, isChain_treeWalk hchildren _ 0⟩

end Walk

end OneCatVllm
