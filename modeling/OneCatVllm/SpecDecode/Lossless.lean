import OneCatVllm.SpecDecode.TopTokenSampler

/-!
# Verification is lossless

All walks of a draft tree return the same (`walks_agree`): that of the payload, that of the rebuilt
tree, that of the kernel for one request and that of the version for a batch. When the target token
of a row is what the target model generates greedily after the path of the row, the output is **what
the model generates on its own**, up to the token behind the accepted ones.

The accepted tokens are the longest generated path of the tree **if siblings have distinct tokens**,
which the builder of draft trees sees to. Of siblings with one token only the last one is looked at,
and what hangs below the others is missed (`not_acceptsLongest_doubledSiblings`).
-/

namespace OneCatVllm

open DDTreeDraftPayload Descent List Nat TreeRequest

section

variable (r : TreeRequest) (t : DDTree) (next : List ℕ → ℕ) (result : DDTreeVerificationResult)

/-- The target tokens are what the model generates greedily after the paths of the rows. -/
def TreeRequest.FollowsModel : Prop :=
  ∀ row < t.nodes.length, r.targetTokens[row]? = some (next (t.pathTokenIds row))

instance : Decidable (r.FollowsModel t next) :=
  inferInstanceAs (Decidable (∀ row < t.nodes.length, _))

/-- **The output is what the model generates**, and the accepted tokens are a path of the tree. -/
structure IsDecoded : Prop where
  output : result.outputTokenIds = decode next (result.acceptedTokenIds.length + 1)
  path : ∃ row < t.nodes.length, t.pathTokenIds row = result.acceptedTokenIds

/-- No path of the tree that the model generates is longer than what is accepted. -/
def AcceptsLongest : Prop :=
  ∀ row < t.nodes.length, t.pathTokenIds row = decode next (t.pathTokenIds row).length →
    (t.pathTokenIds row).length ≤ result.acceptedTokenIds.length

instance : Decidable (AcceptsLongest t next result) :=
  inferInstanceAs (Decidable (∀ row < t.nodes.length, _))

/-- **What the walks over one request amount to.** -/
structure TreeRequest.Verifies : Prop where
  payloadWalk : greedyVerify r.payload r.targetTokens = .ok result
  treeWalk : ∀ rootTokenId, ∃ t, r.payload.treeFromPayload rootTokenId = .ok t ∧
    (∀ next, IsOracle t r.targetTokens next → greedyTreeWalk t next =
      ⟨result.acceptedNodeIndices, result.acceptedTokenIds, result.bonusTokenId,
        result.acceptedNodeIndices⟩) ∧
    ∀ next, r.FollowsModel t next →
      IsDecoded t next result ∧ (r.payload.DistinctSiblings → AcceptsLongest t next result)

end

section

variable (r : TreeRequest) {rootTokenId : ℕ} {next : List ℕ → ℕ}

theorem length_nodes_tree (p : DDTreeDraftPayload) (rootTokenId : ℕ) :
    (p.tree rootTokenId).nodes.length = p.numTreeNodes + 1 := by
  simp [tree]

theorem length_acceptedTokenIds_result : r.result.acceptedTokenIds.length = r.path.length := by
  simp [result, resultOf]

variable {r}

section

variable (h : r.FollowsModel (r.payload.tree rootTokenId) next)

include h

/-- The target of a row, if it follows the model. -/
theorem TreeRequest.FollowsModel.target_eq {row : ℕ} (hrow : row ≤ r.payload.numTreeNodes) :
    r.target row = next ((r.payload.tree rootTokenId).pathTokenIds row) := by
  have := h row (by rw [length_nodes_tree]; omega)
  rw [target, getD_eq_getElem?_getD, this]
  rfl

/-- **Losslessness**, by induction along the walk. -/
theorem isDecoded_result : IsDecoded (r.payload.tree rootTokenId) next r.result := by
  have hstep : ∀ {row child}, row ≤ r.payload.numTreeNodes →
      r.payload.childOf row (r.target row) = some child → child ≤ r.payload.numTreeNodes :=
    fun _ hc ↦ (childOf_eq_some hc).2.1
  obtain ⟨hdecode, hlast⟩ := decode_eq_of_walk (n := r.payload.numTreeNodes)
    (fun hc ↦ r.isTree.pathTokenIds_child hc) (fun hrow ↦ h.target_eq hrow) hstep (zero_le _)
    (k := 0) pathTokenIds_zero
  rw [zero_add] at hdecode hlast
  have houtput : r.result.outputTokenIds = decode next (r.path.length + 1) := by
    rw [result, resultOf_outputTokenIds]
    exact (hdecode.trans (nil_append _)).symm
  refine ⟨by rw [length_acceptedTokenIds_result, houtput], (0 :: r.path).getLast
    (cons_ne_nil _ _), ?_, hlast.trans ?_⟩
  · have hmem := getLast_mem (cons_ne_nil 0 r.path)
    rw [length_nodes_tree]
    rcases mem_cons.1 hmem with hzero | hmem
    · omega
    · exact Nat.lt_succ_iff.2 (forall_mem_walk hstep (zero_le _) _ hmem)
  · -- the accepted tokens are the output without the last one
    exact (append_inj_left' houtput rfl).symm

/-- **Without duplicates the longest generated path is accepted.** -/
theorem acceptsLongest_result (hdist : r.payload.DistinctSiblings) :
    AcceptsLongest (r.payload.tree rootTokenId) next r.result := by
  intro row hrow hpath
  rw [length_nodes_tree] at hrow
  rw [length_acceptedTokenIds_result]
  have hfollow := r.isTree.follow_pathTokenIds rootTokenId hdist (Nat.lt_succ_iff.1 hrow)
  exact le_length_walk (fun hc ↦ r.isTree.pathTokenIds_child hc) (fun hrow ↦ h.target_eq hrow)
    (fun _ hc ↦ (childOf_eq_some hc).2.1) (zero_le _) pathTokenIds_zero r.isTree.ranked
    (by rw [zero_add]; exact hpath.symm) hfollow (by simp)

end

variable (r)

/-- The walks over one request. -/
theorem verifies_result : r.Verifies r.result where
  payloadWalk := greedyVerify_eq r.isTree r.length_targetTokens
  treeWalk := fun rootTokenId ↦ ⟨r.payload.tree rootTokenId,
    r.isTree.treeFromPayload_eq rootTokenId, fun _ horacle ↦ greedyTreeWalk_eq r.isTree horacle,
    fun _ hmodel ↦ ⟨isDecoded_result hmodel, acceptsLongest_result hmodel⟩⟩

end

/-- **All walks agree and verification is lossless**, for every batch of well-formed payloads with a
target token for each row, and every matrix of parent rows that covers them: each request has one
result, which its payload walk and its tree walk return and which the sampler on the device
writes. -/
theorem walks_agree (reqs : List TreeRequest) (m : DDTreeParentMetadata)
    (hcover : m.Covers (reqs.map (·.payload))) (tritonSampler : Bool) :
    ∃ results : List DDTreeVerificationResult,
      Forall₂ Verifies reqs results ∧
      greedySampleFromTopTokensGpu tritonSampler (reqs.flatMap (·.topRows))
          (reqs.flatMap (·.inputRows)) m (reqs.map (·.payload.numTreeNodes)) =
        .ok (results.map fun result ↦
          let maxRows := (reqs.map (·.payload.numTreeNodes)).foldl max 0 + 1
          (padResults maxRows (result.outputTokenIds.map fun t : ℕ ↦ (t : ℤ)),
            padResults maxRows (result.acceptedNodeIndices.map fun row : ℕ ↦ (row : ℤ)))) := by
  refine ⟨reqs.map (·.result), ?_, ?_⟩
  · rw [forall₂_map_right_iff, forall₂_same]
    exact fun r _ ↦ verifies_result r
  · rw [greedySampleFromTopTokensGpu_eq hcover, map_map]
    rfl

/-- A root with two children, the first of which has a child. -/
def branching : TreeRequest where
  payload := ⟨[5, 9, 6], [-1, -1, 0], [1, 1, 2], 3, [5, 6]⟩
  rootTokenId := 3
  targetTokens := [5, 6, 2, 7]
  isTree := by decide
  length_targetTokens := rfl

/-- A root with one child. -/
def straight : TreeRequest where
  payload := ⟨[4], [-1], [1], 1, [4]⟩
  rootTokenId := 8
  targetTokens := [1, 1]
  isTree := by decide
  length_targetTokens := rfl

/-- A batch of two requests, with the parent rows that are built for them. -/
theorem walks_agree_branching_straight :
    ∃ m, buildPaddedParentIds [some branching.payload, some straight.payload] (some 5) =
        .ok (some m) ∧
      ∃ results : List DDTreeVerificationResult,
        Forall₂ Verifies [branching, straight] results ∧
        greedySampleFromTopTokensGpu true (branching.topRows ++ (straight.topRows ++ []))
            (branching.inputRows ++ (straight.inputRows ++ [])) m [3, 1] =
          .ok (results.map fun result ↦
            (padResults 4 (result.outputTokenIds.map fun t : ℕ ↦ (t : ℤ)),
              padResults 4 (result.acceptedNodeIndices.map fun row : ℕ ↦ (row : ℤ)))) :=
  ⟨_, rfl, walks_agree [branching, straight] _ (covers_of_build (some 5)
    (fun p hp ↦ by
      rcases mem_cons.1 hp with rfl | hp
      · exact branching.isTree
      · rcases mem_singleton.1 hp with rfl
        exact straight.isTree) rfl) true⟩

/-- A root with two children that have the same token, the first of which has a child. -/
def doubledSiblings : TreeRequest where
  payload := ⟨[5, 6, 5], [-1, 0, -1], [1, 2, 1], 3, [5, 6]⟩
  rootTokenId := 3
  targetTokens := [5, 6, 7, 6]
  isTree := by decide
  length_targetTokens := rfl

/-- A model that generates 5, 6, 7, … -/
def countsFromFive (tokens : List ℕ) : ℕ := tokens.length + 5

/-- The walk enters the last of the two siblings and accepts one token, but the model generates both
tokens of the path below the other one. -/
theorem not_acceptsLongest_doubledSiblings :
    ∃ t result, doubledSiblings.payload.treeFromPayload 3 = .ok t ∧
      greedyVerify doubledSiblings.payload doubledSiblings.targetTokens = .ok result ∧
      doubledSiblings.FollowsModel t countsFromFive ∧ ¬ AcceptsLongest t countsFromFive result :=
  ⟨doubledSiblings.payload.tree 3, ⟨[0, 3], [5], 6⟩, by decide, by decide, by decide, by decide⟩

end OneCatVllm
