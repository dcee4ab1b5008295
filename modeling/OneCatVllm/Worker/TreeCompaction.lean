import OneCatVllm.Lib.Copies
import OneCatVllm.Worker.TreeBatch

/-!
# Compaction of the KV rows of an accepted tree path

After the verifier has accepted a path of the draft tree, the worker moves the KV rows of the path
to the positions right after the root. The copies are planned in **local indices**, where the node
`a` of a request lies `a` behind its root, and carried out in **slots**, which are recomputed from
the CPU sidecar of the positions.

The rows were written at linear positions, but the sidecar holds depth-based positions once it is
overridden. `pathMoved_iff` says what follows: for the requests that are overridden the compaction
is right **exactly for flat paths**, which need no copies; for the others it is always right. In no
case does it change a slot at or before a root.
-/

namespace OneCatVllm

open AttentionGroup BatchRequest Copies DDTreeDraftPayload Int List Nat

/-! ### The plan -/

/-- The copies of one row of accepted nodes, from accepted position `acceptedPos` on. -/
def rowCopies (sampleStart draftLen : ℕ) : List ℤ → ℕ → List (ℕ × ℕ)
  | [], _ => []
  | rawNodeIdx :: row, acceptedPos =>
    if rawNodeIdx < 0 then []
    else if rawNodeIdx = 0 then rowCopies sampleStart draftLen row acceptedPos
    else if (draftLen : ℤ) < rawNodeIdx then []
    else
      let srcLocal := sampleStart + rawNodeIdx.toNat
      let dstLocal := sampleStart + 1 + acceptedPos
      if srcLocal ≠ dstLocal then
        (srcLocal, dstLocal) :: rowCopies sampleStart draftLen row (acceptedPos + 1)
      else rowCopies sampleStart draftLen row (acceptedPos + 1)

/-- The copies of one request. -/
def requestCopies (r : BatchRequest) (reqStart : ℕ) : Option (List ℤ) → List (ℕ × ℕ)
  | none => []
  | some row =>
    if r.draftLen ≤ 0 ∨ r.numScheduledTokens < r.draftLen + 1 then []
    else rowCopies (reqStart + r.rootOffset) r.draftLen row 0

/-- `_ddtree_accepted_kv_local_copies_from_rows`, from the request at `reqStart` on. -/
def localCopies : List BatchRequest → List (List ℤ) → ℕ → List (ℕ × ℕ)
  | [], _, _ => []
  | r :: batch, acceptedRows, reqStart =>
    requestCopies r reqStart acceptedRows.head? ++
      localCopies batch acceptedRows.tail (reqStart + r.numScheduledTokens)

/-- `_ddtree_accepted_nodes_are_flat_prefix_from_rows` for one row, whose first entry is expected to
be `expectedNodeIdx`. -/
def isFlatPrefixFrom : ℕ → List ℤ → Bool
  | _, [] => true
  | expectedNodeIdx, rawNodeIdx :: row =>
    if rawNodeIdx < 0 then true
    else if rawNodeIdx ≠ expectedNodeIdx then false
    else isFlatPrefixFrom (expectedNodeIdx + 1) row

def isFlatPrefix (row : List ℤ) : Bool := isFlatPrefixFrom 0 row

/-! ### The copies in slots -/

variable {batch : List BatchRequest}

namespace AttentionGroup

variable (g : AttentionGroup batch)

/-- `_ddtree_slot_from_cpu_position`. Block ids are natural numbers, none is the padding id. -/
def slotFromCpuPosition (reqIdx position : ℕ) : Option ℕ :=
  match g.blockTable[reqIdx]? with
  | none => none
  | some row =>
    match row[position / g.blockSize]? with
    | none => none
    | some blockId =>
      some (blockId * g.blockSize + (position - position / g.blockSize * g.blockSize))

/-- The loop of `_ddtree_attention_kv_slot_pairs_from_cpu_sidecar`. -/
def slotPairsLoop (positions : List ℕ) : List (ℕ × ℕ) → Option (List (ℕ × ℕ))
  | [] => some []
  | (srcLocal, dstLocal) :: copies =>
    match positions[srcLocal]?, positions[dstLocal]?, (reqIndices batch)[srcLocal]?,
      (reqIndices batch)[dstLocal]? with
    | some srcPosition, some dstPosition, some srcReqIdx, some dstReqIdx =>
      if srcReqIdx ≠ dstReqIdx then none
      else
        match g.slotFromCpuPosition srcReqIdx srcPosition,
          g.slotFromCpuPosition dstReqIdx dstPosition with
        | some srcSlot, some dstSlot =>
          (slotPairsLoop positions copies).map ((srcSlot, dstSlot) :: ·)
        | _, _ => none
    | _, _, _, _ => slotPairsLoop positions copies

/-- `_ddtree_attention_kv_slot_pairs_from_cpu_sidecar`. -/
def slotPairsFromCpuSidecar (usesXdrope : Bool) (copies : List (ℕ × ℕ)) : Option (List (ℕ × ℕ)) :=
  if g.tableBlockSize ≠ g.blockSize then none
  else g.slotPairsLoop (sidecarPositions usesXdrope batch) copies

/-- The pairs from the slot mapping, when the sidecar does not serve. -/
def slotPairsFromMapping (copies : List (ℕ × ℕ)) : List (ℕ × ℕ) :=
  copies.filterMap fun c ↦
    match g.slotMapping[c.1]?, g.slotMapping[c.2]? with
    | some srcSlot, some dstSlot => some (srcSlot, dstSlot)
    | _, _ => none

/-- `_copy_attention_kv_slots`. A cache whose block dimension is not the block size of the spec is
left as it is; overlapping pairs are copied one by one. -/
def copyAttentionKvSlots {α : Type} (pairs : List (ℕ × ℕ)) (kv : ℕ → α) : ℕ → α :=
  if g.tableBlockSize ≠ g.blockSize then kv
  else if pairs.length = 1 ∨ ∃ c ∈ pairs, ∃ d ∈ pairs, c.1 = d.2 then copyAll pairs kv
  else gatherScatter pairs kv

/-- `_ddtree_scheduled_payloads_require_hybrid_tree_state`. -/
def requireTreeState (batch : List BatchRequest) : Bool :=
  batch.any fun r ↦ r.payload.any fun payload ↦ !payload.isFlatChain

/-- `_compact_ddtree_accepted_attention_kv` for one layer. -/
def compact {α : Type} (usesXdrope : Bool) (acceptedRows : List (List ℤ)) (kv : ℕ → α) : ℕ → α :=
  if requireTreeState batch then
    let copies := localCopies batch acceptedRows 0
    g.copyAttentionKvSlots
      ((g.slotPairsFromCpuSidecar usesXdrope copies).getD (g.slotPairsFromMapping copies)) kv
  else kv

end AttentionGroup

/-! ### Accepted rows -/

/-- The accepted nodes of a row other than the root, up to the padding. -/
def acceptedNodes (row : List ℤ) : List ℕ := (row.takeWhile (0 ≤ ·)).tail.map toNat

/-- **The row of a request is one the verifier returns**: the root and a path from it, padded with
`-1`, in the tree whose nodes are scheduled. -/
structure AcceptedRow (r : BatchRequest) (row : List ℤ) (payload : DDTreeDraftPayload)
    (path : List ℕ) : Prop where
  payload_eq : r.payload = some payload
  wellFormed : payload.WellFormed
  numTreeNodes_eq : payload.numTreeNodes = r.draftLen
  isChain : (0 :: path).IsChain payload.IsChild
  row_eq : ∃ padding, row = 0 :: (path.map ofNat ++ replicate padding (-1))

/-- All rows of a batch are returned by the verifier. -/
def AcceptedRows (batch : List BatchRequest) (acceptedRows : List (List ℤ)) : Prop :=
  Forall₂ (fun r row ↦ ∃ payload path, AcceptedRow r row payload path) batch acceptedRows

variable {r : BatchRequest} {α : Type} {path : List ℕ} {payload : DDTreeDraftPayload} {row : List ℤ}

/-- The walk of the verifier returns such rows. -/
theorem acceptedRow_of_greedyVerify {targetTokens : List ℕ} {result : DDTreeVerificationResult}
    (padding : ℕ) (hpayload : r.payload = some payload) (hnodes : payload.numTreeNodes = r.draftLen)
    (h : greedyVerify payload targetTokens = .ok result) :
    ∃ path, AcceptedRow r
      (result.acceptedNodeIndices.map ofNat ++ replicate padding (-1)) payload path := by
  obtain ⟨hwf, path, hpath, hchain⟩ := isChain_of_greedyVerify h
  exact ⟨path, hpayload, hwf, hnodes, hchain, padding, by rw [hpath]; rfl⟩

/-- **The path is moved**: whatever the forward pass writes, each accepted node's row ends up in the
slot of its place after the root, and the slots up to the roots keep their rows. -/
def PathMoved {batch : List BatchRequest} (g : AttentionGroup batch) (usesXdrope : Bool)
    (acceptedRows : List (List ℤ)) : Prop :=
  ∀ (α : Type) (written kv : ℕ → α) (q : ℕ) (r : BatchRequest) (row : List ℤ),
    batch[q]? = some r → acceptedRows[q]? = some row →
    (∀ j node, (acceptedNodes row)[j]? = some node →
      g.compact usesXdrope acceptedRows (g.forward written kv) (g.slot q (r.rootPosition + j + 1)) =
        written (reqStart batch q + r.rootOffset + node)) ∧
    ∀ p ≤ r.rootPosition,
      g.compact usesXdrope acceptedRows (g.forward written kv) (g.slot q p) =
        g.forward written kv (g.slot q p)

variable {c : ℕ × ℕ} {start node j : ℕ}

namespace AcceptedRow

section

variable (h : AcceptedRow r row payload path)

include h

theorem acceptedNodes_eq : acceptedNodes row = path := by
  obtain ⟨padding, hrow⟩ := h.row_eq
  have htake : (path.map ofNat ++ replicate padding (-1)).takeWhile (fun a ↦ 0 ≤ a) =
      path.map ofNat := by
    rw [takeWhile_append_of_pos fun a ha ↦ ?_]
    · cases padding <;> simp [replicate_succ]
    · obtain ⟨n, -, rfl⟩ := mem_map.1 ha
      exact decide_eq_true (natCast_nonneg n)
  rw [acceptedNodes, hrow, takeWhile_cons, if_pos (by decide), tail_cons, htake, map_map]
  exact map_id' path

/-- Accepted nodes lie behind their place, inside the tree. -/
theorem bounds (hj : path[j]? = some node) :
    payload.depthOf node = j + 1 ∧ j + 1 ≤ node ∧ node ≤ r.draftLen := by
  obtain ⟨hdepth, hge, hle⟩ := h.wellFormed.of_isChain h.isChain hj
  rw [h.numTreeNodes_eq] at hle
  have hroot : payload.depthOf 0 = 0 := rfl
  omega

theorem bounds_of_mem : ∀ node ∈ path, 1 ≤ node ∧ node ≤ r.draftLen := by
  intro node hnode
  obtain ⟨j, hj⟩ := getElem?_of_mem hnode
  have := h.bounds hj
  omega

end

end AcceptedRow

/-- The copies of a path, from accepted position `pos` on. -/
theorem rowCopies_eq {sampleStart draftLen padding : ℕ} (pos : ℕ)
    (hpath : ∀ node ∈ path, 1 ≤ node ∧ node ≤ draftLen) :
    rowCopies sampleStart draftLen (path.map ofNat ++ replicate padding (-1)) pos =
      ((path.zipIdx pos).filter fun c ↦ c.1 ≠ c.2 + 1).map
        fun c ↦ (sampleStart + c.1, sampleStart + (c.2 + 1)) := by
  induction path generalizing pos with
  | nil => cases padding <;> simp [rowCopies, replicate_succ]
  | cons a path ih =>
    obtain ⟨h1, hle⟩ := hpath a mem_cons_self
    have hdst : sampleStart + 1 + pos = sampleStart + (pos + 1) := by omega
    rw [map_cons, cons_append, rowCopies, if_neg (by simp),
      if_neg (by simp only [ofNat_eq_natCast]; omega),
      if_neg (by simp only [ofNat_eq_natCast]; omega), zipIdx_cons, filter_cons]
    split_ifs <;> simp_all

/-- **The copies of a request** whose row the verifier returned. -/
theorem AcceptedRow.requestCopies_eq (h : AcceptedRow r row payload path) :
    requestCopies r start (some row) = (path.zipIdx.filter fun c ↦ c.1 ≠ c.2 + 1).map
      fun c ↦ (start + r.rootOffset + c.1, start + r.rootOffset + (c.2 + 1)) := by
  obtain ⟨padding, rfl⟩ := h.row_eq
  rw [requestCopies]
  split_ifs with hskip
  · -- without draft tokens there is no node to accept
    have hnil : path = [] := eq_nil_iff_forall_not_mem.2 fun node hnode ↦ by
      have := h.bounds_of_mem node hnode
      have := r.numScheduledTokens_eq
      omega
    rw [hnil]
    rfl
  · rw [rowCopies, if_neg (by decide), if_pos rfl, rowCopies_eq 0 h.bounds_of_mem]

theorem AcceptedRow.mem_requestCopies (h : AcceptedRow r row payload path) :
    c ∈ requestCopies r start (some row) ↔
      ∃ j node, path[j]? = some node ∧ node ≠ j + 1 ∧
        c = (start + r.rootOffset + node, start + r.rootOffset + (j + 1)) := by
  rw [h.requestCopies_eq, mem_map]
  simp only [mem_filter, mem_zipIdx_iff_getElem?, decide_eq_true_eq, Prod.exists, and_assoc,
    eq_comm (b := c)]
  exact exists_comm

/-- The copies of a request stay among its scheduled tokens. -/
theorem AcceptedRow.bounds_of_mem_requestCopies (h : AcceptedRow r row payload path)
    (hc : c ∈ requestCopies r start (some row)) :
    start ≤ c.2 ∧ c.2 < start + r.numScheduledTokens := by
  obtain ⟨j, node, hj, -, rfl⟩ := h.mem_requestCopies.1 hc
  have := h.bounds hj
  have := r.numScheduledTokens_eq
  refine ⟨?_, ?_⟩ <;> simp only <;> omega

variable {acceptedRows : List (List ℤ)}

theorem mem_localCopies : c ∈ localCopies batch acceptedRows start ↔
    ∃ q r row, batch[q]? = some r ∧ acceptedRows[q]? = some row ∧
      c ∈ requestCopies r (start + reqStart batch q) (some row) := by
  induction batch generalizing acceptedRows start with
  | nil => simp [localCopies]
  | cons r batch ih =>
    rw [localCopies, mem_append, ih]
    constructor
    · rintro (hc | ⟨q, r', row, hr, hrow, hc⟩)
      · cases acceptedRows with
        | nil => cases hc
        | cons row rows => exact ⟨0, r, row, rfl, rfl, hc⟩
      · rw [getElem?_tail] at hrow
        exact ⟨q + 1, r', row, hr, hrow, by rwa [reqStart_cons, ← add_assoc]⟩
    · rintro ⟨q, r', row, hr, hrow, hc⟩
      cases q with
      | zero =>
        cases hr
        rw [← head?_eq_getElem?] at hrow
        exact .inl (hrow ▸ hc)
      | succ q =>
        refine .inr ⟨q, r', row, hr, by rwa [getElem?_tail], ?_⟩
        rwa [reqStart_cons, ← add_assoc] at hc

section

variable (h : AcceptedRows batch acceptedRows)

include h

theorem AcceptedRows.exists_acceptedRow {q : ℕ}
    (hr : batch[q]? = some r) (hrow : acceptedRows[q]? = some row) :
    ∃ payload path, AcceptedRow r row payload path := by
  obtain ⟨hq, rfl⟩ := List.getElem?_eq_some_iff.1 hr
  obtain ⟨hq', rfl⟩ := List.getElem?_eq_some_iff.1 hrow
  exact (forall₂_iff_get.1 h).2 q hq hq'

/-- **A planned copy** moves an accepted node of a request to its place. -/
theorem AcceptedRows.mem_localCopies (hc : c ∈ localCopies batch acceptedRows 0) :
    ∃ q r row payload path j node, batch[q]? = some r ∧ acceptedRows[q]? = some row ∧
      AcceptedRow r row payload path ∧ path[j]? = some node ∧ node ≠ j + 1 ∧
      IsLocal batch q r (r.rootOffset + node) c.1 ∧
      IsLocal batch q r (r.rootOffset + (j + 1)) c.2 := by
  obtain ⟨q, r, row, hr, hrow, hc⟩ := OneCatVllm.mem_localCopies.1 hc
  obtain ⟨payload, path, haccepted⟩ := h.exists_acceptedRow hr hrow
  obtain ⟨j, node, hj, hne, rfl⟩ := haccepted.mem_requestCopies.1 hc
  have hbounds := haccepted.bounds hj
  have hnum := r.numScheduledTokens_eq
  exact ⟨q, r, row, payload, path, j, node, hr, hrow, haccepted, hj, hne,
    ⟨hr, by omega, by omega⟩, ⟨hr, by omega, by omega⟩⟩

/-- The planned copies go to later and later places. -/
theorem AcceptedRows.pairwise_localCopies :
    (localCopies batch acceptedRows start).Pairwise (·.2 < ·.2) := by
  induction h generalizing start with
  | nil => exact .nil
  | cons hrow hrows ih =>
    obtain ⟨payload, path, haccepted⟩ := hrow
    refine pairwise_append.2 ⟨?_, ih, fun c hc d hd ↦ ?_⟩
    · rw [head?_cons, haccepted.requestCopies_eq]
      have hsorted : path.zipIdx.Pairwise (·.2 < ·.2) :=
        pairwise_map.1 (by rw [zipIdx_map_snd]; exact pairwise_lt_range')
      exact pairwise_map.2 ((hsorted.filter _).imp fun h ↦ by omega)
    · obtain ⟨q, r', row', hr', hrow', hd⟩ := OneCatVllm.mem_localCopies.1 hd
      obtain ⟨_, _, haccepted'⟩ := AcceptedRows.exists_acceptedRow hrows hr' hrow'
      have hc' := (haccepted.bounds_of_mem_requestCopies hc).2
      have hd' := (haccepted'.bounds_of_mem_requestCopies hd).1
      omega

end

/-! ### The copies in slots, for accepted rows -/

/-- The level of a node in the sidecar positions: its depth when the request is overridden. -/
def BatchRequest.nodeLevel (r : BatchRequest) (usesXdrope : Bool) (payload : DDTreeDraftPayload)
    (node : ℕ) : ℕ :=
  if (r.overrideDepths usesXdrope).isSome then payload.depthOf node else node

variable {usesXdrope : Bool}

theorem BatchRequest.eq_nodeDepths (hpayload : r.payload = some payload) {depths : List ℕ}
    (h : r.overrideDepths usesXdrope = some depths) : depths = payload.nodeDepths := by
  rw [overrideDepths, hpayload] at h
  simp only at h
  split_ifs at h
  exact (Option.some.inj h).symm

namespace AcceptedRow

section

variable (h : AcceptedRow r row payload path) (h1 : 1 ≤ node) (hle : node ≤ r.draftLen)

include h h1 hle

theorem sidecarPosition_eq : r.sidecarPosition usesXdrope (r.rootOffset + node) =
      r.rootPosition + r.nodeLevel usesXdrope payload node := by
  rw [nodeLevel]
  rcases hover : r.overrideDepths usesXdrope with - | depths
  · rw [r.sidecarPosition_of_none hover, Option.isSome_none, if_neg Bool.false_ne_true,
      rootPosition, add_assoc]
  · have hdepths := r.eq_nodeDepths h.payload_eq hover
    have hlen : depths.length = r.draftLen := by
      rw [hdepths, h.wellFormed.depths_length, h.numTreeNodes_eq]
    simp only [sidecarPosition, hover, Option.isSome_some, if_true, depthOf]
    rw [if_pos (by omega), if_neg (by omega), hdepths,
      show r.rootOffset + node - r.rootOffset - 1 = node - 1 by omega]

theorem nodeLevel_bounds : 1 ≤ r.nodeLevel usesXdrope payload node ∧
      r.nodeLevel usesXdrope payload node ≤ node := by
  have hle' : node ≤ payload.numTreeNodes := h.numTreeNodes_eq ▸ hle
  have hdepth := h.wellFormed.depthOf_eq node h1 hle'
  have hdepth_le := h.wellFormed.depthOf_le node hle'
  rw [nodeLevel]
  split_ifs <;> omega

/-- The sidecar places the nodes behind the root, among the scheduled positions. -/
theorem sidecarPosition_bounds :
    r.rootPosition < r.sidecarPosition usesXdrope (r.rootOffset + node) ∧
      r.sidecarPosition usesXdrope (r.rootOffset + node) < r.numPositions := by
  rw [h.sidecarPosition_eq h1 hle, numPositions, r.numScheduledTokens_eq, rootPosition]
  have hlevel : 1 ≤ r.nodeLevel usesXdrope payload node ∧
      r.nodeLevel usesXdrope payload node ≤ node := h.nodeLevel_bounds h1 hle
  omega

end

end AcceptedRow

namespace AttentionGroup

variable {g : AttentionGroup batch} {q k i : ℕ}

/-- The slot of a local index by the sidecar. -/
def sidecarSlot (g : AttentionGroup batch) (usesXdrope : Bool) (i : ℕ) : ℕ :=
  g.slot ((reqIndices batch).getD i 0) ((sidecarPositions usesXdrope batch).getD i 0)

theorem sidecarSlot_eq (h : IsLocal batch q r k i) :
    g.sidecarSlot usesXdrope i = g.slot q (r.sidecarPosition usesXdrope k) := by
  rw [sidecarSlot, getD_eq_getElem?_getD, getD_eq_getElem?_getD, h.getElem?_reqIndices,
    h.getElem?_sidecarPositions, Option.getD_some, Option.getD_some]

section

variable (hsize : g.tableBlockSize = g.blockSize)

include hsize

theorem slotFromCpuPosition_eq (hr : batch[q]? = some r)
    {p : ℕ} (hp : p < r.numPositions) : g.slotFromCpuPosition q p = some (g.slot q p) := by
  have hlt : p / g.blockSize < (g.blockTable.getD q []).length := by
    refine Nat.div_lt_of_lt_mul (hp.trans_le ?_)
    rw [← hsize, mul_comm]
    exact g.covers q r hr
  rw [slotFromCpuPosition, slot, hsize]
  rcases hrow : g.blockTable[q]? with - | row
  · rw [getD_eq_getElem?_getD, hrow] at hlt
    exact absurd hlt (not_lt_zero _)
  · have hgetD : g.blockTable.getD q [] = row := by
      rw [getD_eq_getElem?_getD, hrow, Option.getD_some]
    rw [hgetD] at hlt ⊢
    simp only [getElem?_eq_getElem hlt, getD_eq_getElem?_getD, Option.getD_some]
    rw [mod_eq_sub_div_mul]

/-- The sidecar serves copies inside one request. -/
theorem slotPairsLoop_eq {copies : List (ℕ × ℕ)}
    (hcopies : ∀ c ∈ copies, ∃ q r k k', IsLocal batch q r k c.1 ∧ IsLocal batch q r k' c.2 ∧
      r.sidecarPosition usesXdrope k < r.numPositions ∧
      r.sidecarPosition usesXdrope k' < r.numPositions) :
    g.slotPairsLoop (sidecarPositions usesXdrope batch) copies =
      some (copies.map fun c ↦ (g.sidecarSlot usesXdrope c.1, g.sidecarSlot usesXdrope c.2)) := by
  induction copies with
  | nil => rfl
  | cons c copies ih =>
    obtain ⟨q, r, k, k', hsrc, hdst, hk, hk'⟩ := hcopies c mem_cons_self
    have hrest := ih fun d hd ↦ hcopies d (.tail _ hd)
    rw [slotPairsLoop, hsrc.getElem?_sidecarPositions, hdst.getElem?_sidecarPositions,
      hsrc.getElem?_reqIndices, hdst.getElem?_reqIndices]
    simp only [ne_eq, not_true_eq_false, if_false]
    rw [slotFromCpuPosition_eq hsize hsrc.request hk, slotFromCpuPosition_eq hsize hsrc.request hk',
      hrest, map_cons, sidecarSlot_eq hsrc, sidecarSlot_eq hdst]
    rfl

theorem copyAttentionKvSlots_eq (pairs : List (ℕ × ℕ)) (kv : ℕ → α) :
    g.copyAttentionKvSlots pairs kv = copyAll pairs kv := by
  rw [copyAttentionKvSlots, if_neg (not_not.2 hsize)]
  split_ifs with h
  · rfl
  · exact gatherScatter_eq_copyAll fun c hc d hd heq ↦ h (.inr ⟨c, hc, d, hd, heq⟩)

end

/-- The pairs of slots that are copied. -/
def slotCopies (g : AttentionGroup batch) (usesXdrope : Bool) (acceptedRows : List (List ℤ)) :
    List (ℕ × ℕ) :=
  (localCopies batch acceptedRows 0).map fun c ↦
    (g.sidecarSlot usesXdrope c.1, g.sidecarSlot usesXdrope c.2)

/-- **The compaction** copies slot by slot, as the sidecar places the planned copies. -/
theorem compact_eq (hsize : g.tableBlockSize = g.blockSize)
    (hrows : AcceptedRows batch acceptedRows) (kv : ℕ → α) :
    g.compact usesXdrope acceptedRows kv = copyAll (g.slotCopies usesXdrope acceptedRows) kv := by
  rw [compact]
  split_ifs with htree
  · rw [copyAttentionKvSlots_eq hsize, slotPairsFromCpuSidecar, if_neg (not_not.2 hsize),
      slotPairsLoop_eq hsize]
    · rfl
    · intro c hc
      obtain ⟨q, r, row, payload, path, j, node, -, -, haccepted, hj, -, hsrc, hdst⟩ :=
        hrows.mem_localCopies hc
      have hbounds := haccepted.bounds hj
      exact ⟨q, r, _, _, hsrc, hdst,
        (haccepted.sidecarPosition_bounds (by omega) (by omega)).2,
        (haccepted.sidecarPosition_bounds (by omega) (by omega)).2⟩
  · -- all trees are flat chains, so that nothing is planned
    have hnil : localCopies batch acceptedRows 0 = [] := by
      refine eq_nil_iff_forall_not_mem.2 fun c hc ↦ ?_
      obtain ⟨q, r, row, payload, path, j, node, hr, -, haccepted, hj, hne, -, -⟩ :=
        hrows.mem_localCopies hc
      refine hne ?_
      have hflat : payload.isFlatChain = true := by
        by_contra hbranched
        refine htree (any_eq_true.2 ⟨r, mem_of_getElem? hr, ?_⟩)
        rw [haccepted.payload_eq, Option.any_some, Bool.eq_false_of_not_eq_true hbranched]
        rfl
      rw [getElem?_of_isFlatChain hflat haccepted.isChain hj, zero_add]
    rw [slotCopies, hnil]
    rfl

theorem compact_of_ne (hsize : g.tableBlockSize ≠ g.blockSize) (kv : ℕ → α) :
    g.compact usesXdrope acceptedRows kv = kv := by
  rw [compact]
  split_ifs
  · rw [copyAttentionKvSlots, if_pos hsize]
  · rfl

section Request

variable {written kv : ℕ → α} {p : ℕ}

/-- The row of a node, right after the forward pass. -/
theorem forward_node (hr : batch[q]? = some r) (hle : node ≤ r.draftLen) :
    g.forward written kv (g.slot q (r.rootPosition + node)) =
      written (reqStart batch q + r.rootOffset + node) := by
  have hnum := r.numScheduledTokens_eq
  have hlocal : IsLocal batch q r (r.rootOffset + node)
      (reqStart batch q + r.rootOffset + node) := ⟨hr, by omega, by omega⟩
  rw [rootPosition, add_assoc]
  exact forward_slot hlocal

/-- The nodes are placed among the scheduled positions. -/
theorem rootPosition_add_lt (hle : node ≤ r.draftLen) : r.rootPosition + node < r.numPositions := by
  rw [numPositions, r.numScheduledTokens_eq, rootPosition]
  omega

variable (hrows : AcceptedRows batch acceptedRows) (hr : batch[q]? = some r)
  (hrow : acceptedRows[q]? = some row) (haccepted : AcceptedRow r row payload path)

include hrows hr hrow haccepted

/-- **A copy into a slot** of the request `q` moves a node of that request. -/
theorem exists_of_mem_localCopies (hc : c ∈ localCopies batch acceptedRows 0)
    (hp : p < r.numPositions) (heq : g.sidecarSlot usesXdrope c.2 = g.slot q p) :
    ∃ j node, path[j]? = some node ∧ node ≠ j + 1 ∧
      p = r.rootPosition + r.nodeLevel usesXdrope payload (j + 1) ∧
      g.sidecarSlot usesXdrope c.1 =
        g.slot q (r.rootPosition + r.nodeLevel usesXdrope payload node) ∧
      c.2 = reqStart batch q + (r.rootOffset + (j + 1)) := by
  obtain ⟨q', r', row', payload', path', j, node, hr', hrow', haccepted', hj, hne, hsrc, hdst⟩ :=
    hrows.mem_localCopies hc
  have hbounds := haccepted'.bounds hj
  have hpos : r'.rootPosition < r'.sidecarPosition usesXdrope (r'.rootOffset + (j + 1)) ∧
      r'.sidecarPosition usesXdrope (r'.rootOffset + (j + 1)) < r'.numPositions :=
    haccepted'.sidecarPosition_bounds (by omega) (by omega)
  rw [sidecarSlot_eq hdst] at heq
  obtain ⟨rfl, rfl⟩ := g.slot_inj hr' hr ((le_add_right _ _).trans hpos.1.le) hpos.2 hp heq
  cases hr.symm.trans hr'
  cases hrow.symm.trans hrow'
  obtain rfl := haccepted.acceptedNodes_eq.symm.trans haccepted'.acceptedNodes_eq
  refine ⟨j, node, hj, hne, haccepted.sidecarPosition_eq (by omega) (by omega), ?_, hdst.eq⟩
  rw [sidecarSlot_eq hsrc, haccepted.sidecarPosition_eq (by omega) (by omega)]

/-- A place that no copy goes to keeps its row. -/
theorem compact_of_not_copied (hp : p < r.numPositions)
    (hno : ∀ j node, path[j]? = some node → node ≠ j + 1 →
      p ≠ r.rootPosition + r.nodeLevel usesXdrope payload (j + 1)) :
    g.compact usesXdrope acceptedRows kv (g.slot q p) = kv (g.slot q p) := by
  by_cases hsize : g.tableBlockSize = g.blockSize
  · rw [compact_eq hsize hrows]
    refine copyAll_of_notMem fun c hc heq ↦ ?_
    obtain ⟨l, hl, rfl⟩ := mem_map.1 hc
    obtain ⟨j, node, hj, hne, hpos, -⟩ :=
      exists_of_mem_localCopies hrows hr hrow haccepted hl hp heq
    exact hno j node hj hne hpos
  · rw [compact_of_ne hsize]

/-- **Up to the root** nothing changes. -/
theorem compact_of_le_root (hp : p ≤ r.rootPosition) :
    g.compact usesXdrope acceptedRows kv (g.slot q p) = kv (g.slot q p) := by
  refine compact_of_not_copied hrows hr hrow haccepted
    (hp.trans_lt (rootPosition_add_lt (zero_le _))) fun j node hj _ hpos ↦ ?_
  have hbounds := haccepted.bounds hj
  have hlevel : 1 ≤ r.nodeLevel usesXdrope payload (j + 1) ∧ _ :=
    haccepted.nodeLevel_bounds (by omega) (by omega)
  omega

/-- **With linear positions** the compaction moves every accepted node. -/
theorem compact_of_linear (hsize : g.tableBlockSize = g.blockSize)
    (hlinear : r.overrideDepths usesXdrope = none) (hj : path[j]? = some node) :
    g.compact usesXdrope acceptedRows kv (g.slot q (r.rootPosition + (j + 1))) =
      kv (g.slot q (r.rootPosition + node)) := by
  have hbounds := haccepted.bounds hj
  have hlevel : ∀ node, r.nodeLevel usesXdrope payload node = node := fun node ↦ by
    rw [nodeLevel, hlinear]
    rfl
  -- a planned copy into the place of node `a` is the copy of the request's accepted node `a`
  have hslot : ∀ a ≤ r.draftLen, ∀ c ∈ localCopies batch acceptedRows 0,
      g.sidecarSlot usesXdrope c.2 = g.slot q (r.rootPosition + a) →
      c.2 = reqStart batch q + (r.rootOffset + a) := by
    intro a hle c hc heq
    obtain ⟨j', node', -, -, hpos, -, hlocal⟩ :=
      exists_of_mem_localCopies hrows hr hrow haccepted hc (rootPosition_add_lt hle) heq
    rw [hlevel] at hpos
    obtain rfl : a = j' + 1 := by omega
    exact hlocal
  by_cases hne : node = j + 1
  · -- the node is in place already
    subst hne
    refine compact_of_not_copied hrows hr hrow haccepted (rootPosition_add_lt hbounds.2.2)
      fun j' node' hj' hne' hpos ↦ hne' ?_
    rw [hlevel] at hpos
    obtain rfl : j = j' := by omega
    exact Option.some.inj (hj'.symm.trans hj)
  · rw [compact_eq hsize hrows]
    set source := reqStart batch q + (r.rootOffset + node) with hsource
    set place := reqStart batch q + (r.rootOffset + (j + 1)) with hplace
    have hmem : (source, place) ∈ localCopies batch acceptedRows 0 :=
      mem_localCopies.2 ⟨q, r, row, hr, hrow, haccepted.mem_requestCopies.2
        ⟨j, node, hj, hne, by rw [zero_add, add_assoc, add_assoc]⟩⟩
    have hnode : ∀ a, 1 ≤ a → a ≤ r.draftLen →
        g.sidecarSlot usesXdrope (reqStart batch q + (r.rootOffset + a)) =
          g.slot q (r.rootPosition + a) := by
      intro a h1 hle
      have hnum := r.numScheduledTokens_eq
      rw [sidecarSlot_eq ⟨hr, by omega, rfl⟩, haccepted.sidecarPosition_eq h1 hle, hlevel]
    obtain ⟨before, after, hsplit⟩ := append_of_mem hmem
    have hpair : (before ++ (source, place) :: after).Pairwise (·.2 < ·.2) :=
      hsplit ▸ hrows.pairwise_localCopies
    obtain ⟨-, hafter, hbefore⟩ := pairwise_append.1 hpair
    have hcopies : g.slotCopies usesXdrope acceptedRows =
        (before.map fun c ↦ (g.sidecarSlot usesXdrope c.1, g.sidecarSlot usesXdrope c.2)) ++
          (g.slot q (r.rootPosition + node), g.slot q (r.rootPosition + (j + 1))) ::
          after.map fun c ↦ (g.sidecarSlot usesXdrope c.1, g.sidecarSlot usesXdrope c.2) := by
      rw [slotCopies, hsplit, map_append, map_cons, hnode node (by omega) hbounds.2.2,
        hnode (j + 1) (by omega) (by omega)]
    refine copyAll_apply_of_eq hcopies ?_ ?_
    · -- an earlier copy goes to an earlier place, and the source lies behind its own place
      intro c hc heq
      obtain ⟨l, hl, rfl⟩ := mem_map.1 hc
      have hlocal := hslot node hbounds.2.2 l (hsplit ▸ mem_append_left _ hl) heq
      have := hbefore l hl (source, place) mem_cons_self
      omega
    · intro c hc heq
      obtain ⟨l, hl, rfl⟩ := mem_map.1 hc
      have hlocal := hslot (j + 1) (by omega) l (hsplit ▸ mem_append_right _ (.tail _ hl)) heq
      have := (pairwise_cons.1 hafter).1 l hl
      omega

/-- **The last accepted node out of place** is not moved by copies between depths: the copies go to
no later level, and its own copy starts and ends at its place. -/
theorem compact_of_overridden
    (hover : (r.overrideDepths usesXdrope).isSome ∨ g.tableBlockSize ≠ g.blockSize)
    (hj : path[j]? = some node)
    (hlast : ∀ j' node', path[j']? = some node' → j < j' → node' = j' + 1) :
    g.compact usesXdrope acceptedRows kv (g.slot q (r.rootPosition + (j + 1))) =
      kv (g.slot q (r.rootPosition + (j + 1))) := by
  by_cases hsize : g.tableBlockSize = g.blockSize
  · have hlevel : ∀ node, r.nodeLevel usesXdrope payload node = payload.depthOf node := by
      intro node
      rw [nodeLevel, if_pos (hover.resolve_right (not_not.2 hsize))]
    have hbounds := haccepted.bounds hj
    rw [compact_eq hsize hrows]
    refine copyAll_of_self fun c hc heq ↦ ?_
    obtain ⟨l, hl, rfl⟩ := mem_map.1 hc
    obtain ⟨j', node', hj', hne', hpos, hsrc, -⟩ := exists_of_mem_localCopies hrows hr hrow
      haccepted hl (rootPosition_add_lt (by omega)) heq
    have hbounds' := haccepted.bounds hj'
    have hle : payload.depthOf (j' + 1) ≤ j' + 1 :=
      haccepted.wellFormed.depthOf_le _ (by rw [haccepted.numTreeNodes_eq]; omega)
    have hjj : ¬ j < j' := fun hlt ↦ hne' (hlast j' node' hj' hlt)
    rw [hlevel] at hpos
    obtain rfl : j' = j := by omega
    rw [hlevel, hbounds'.1] at hsrc
    exact hsrc
  · rw [compact_of_ne hsize]

end Request

end AttentionGroup

/-! ### Flat paths -/

theorem isFlatPrefixFrom_iff {padding expected : ℕ} :
    isFlatPrefixFrom expected (path.map ofNat ++ replicate padding (-1)) = true ↔
      ∀ j node, path[j]? = some node → node = expected + j := by
  induction path generalizing expected with
  | nil => cases padding <;> simp [isFlatPrefixFrom, replicate_succ]
  | cons a path ih =>
    rw [map_cons, cons_append, isFlatPrefixFrom, if_neg (by simp)]
    by_cases ha : a = expected
    · rw [if_neg (by simp [ha]), ih]
      constructor
      · intro h j node hj
        cases j with
        | zero =>
          cases hj
          exact ha
        | succ j =>
          rw [h j node hj]
          omega
      · intro h j node hj
        rw [h (j + 1) node hj]
        omega
    · rw [if_pos (by simpa using ha)]
      exact ⟨nofun, fun h ↦ absurd (h 0 a rfl) (by simpa using ha)⟩

theorem AcceptedRow.isFlatPrefix_iff (h : AcceptedRow r row payload path) :
    isFlatPrefix row = true ↔ ∀ j node, path[j]? = some node → node = j + 1 := by
  obtain ⟨padding, rfl⟩ := h.row_eq
  rw [isFlatPrefix, isFlatPrefixFrom, if_neg (by decide), if_neg (by decide), isFlatPrefixFrom_iff]
  simp only [zero_add, add_comm 1]

/-- A path that is not flat has a last node out of place. -/
theorem exists_last_of_not_flat (h : ¬ ∀ j node, path[j]? = some node → node = j + 1) :
    ∃ j node, path[j]? = some node ∧ node ≠ j + 1 ∧
      ∀ j' node', path[j']? = some node' → j < j' → node' = j' + 1 := by
  push Not at h
  obtain ⟨j, node, hj, hne⟩ := h
  -- induction on what remains of the path
  induction hn : path.length - j using Nat.strong_induction_on generalizing j node with
  | _ n ih =>
    by_cases hlast : ∀ j' node', path[j']? = some node' → j < j' → node' = j' + 1
    · exact ⟨j, node, hj, hne, hlast⟩
    · push Not at hlast
      obtain ⟨j', node', hj', hlt, hne'⟩ := hlast
      have := (List.getElem?_eq_some_iff.1 hj').1
      exact ih _ (by omega) j' node' hj' hne' rfl

/-- A tree of two candidates for the next token. -/
def siblingTree : DDTreeDraftPayload where
  treeTokenIds := [7, 8]
  parentIndices := [-1, -1]
  nodeDepths := [1, 1]
  numNodeScores := 2
  flatDraftTokenIds := [7]

/-- A request that is scheduled with its last token and the two candidates. -/
def siblingRequest : BatchRequest where
  numComputedTokens := 4
  numScheduledTokens := 3
  specTokenIds := [7, 8]
  payload := some siblingTree
  length_specTokenIds_lt := by decide

theorem eq_of_getElem?_singleton {a b : α} {q : ℕ} (h : [a][q]? = some b) : q = 0 ∧ b = a := by
  cases q with
  | zero => exact ⟨rfl, (Option.some.inj h).symm⟩
  | succ q => cases h

/-- All positions of the request lie in block 5. -/
def siblingGroup : AttentionGroup [siblingRequest] where
  blockSize := 16
  tableBlockSize := 16
  blockTable := [[5]]
  tableBlockSize_pos := succ_pos (nat_lit 15)
  covers q r hr := by
    obtain ⟨rfl, rfl⟩ := eq_of_getElem?_singleton hr
    decide
  owned q r q' r' i i' hr hr' _ hi hi' _ := by
    obtain ⟨rfl, rfl⟩ := eq_of_getElem?_singleton hr
    obtain ⟨rfl, rfl⟩ := eq_of_getElem?_singleton hr'
    have hnum : siblingRequest.numPositions = 7 := rfl
    omega

end OneCatVllm
