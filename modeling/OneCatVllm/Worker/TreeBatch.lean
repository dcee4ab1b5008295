import Mathlib.Data.List.Flatten
import OneCatVllm.SpecDecode.DraftTree

/-!
# The tokens of a worker batch and their slots

The worker flattens the scheduled tokens of a batch. The token at local index `i` belongs to the
request `reqIndices[i]` and is written to the KV slot of its **linear position**: computed tokens,
then the scheduled ones in order. For the requests with a draft tree,
`_apply_ddtree_position_overrides` then replaces the positions of the tree nodes by **root position
plus depth**, on the device and in the CPU copy that later code reads (the sidecar). The slot
mapping is computed before that and keeps the linear positions.
-/

namespace OneCatVllm

open List Nat Option

/-- A request of the batch, with what the scheduler output says about it. A request is scheduled
with its draft tokens and at least one more. -/
structure BatchRequest where
  numComputedTokens : ℕ
  numScheduledTokens : ℕ
  specTokenIds : List ℕ
  payload : Option DDTreeDraftPayload
  length_specTokenIds_lt : specTokenIds.length < numScheduledTokens

namespace BatchRequest

variable (r : BatchRequest)

def draftLen : ℕ := r.specTokenIds.length

/-- The offset of the root among the scheduled tokens (`sample_start`, counted from the first token
of the request). -/
def rootOffset : ℕ := r.numScheduledTokens - r.draftLen - 1

def rootPosition : ℕ := r.numComputedTokens + r.rootOffset

/-- The number of positions after the step. -/
def numPositions : ℕ := r.numComputedTokens + r.numScheduledTokens

theorem numScheduledTokens_eq : r.numScheduledTokens = r.rootOffset + r.draftLen + 1 := by
  have := r.length_specTokenIds_lt
  rw [rootOffset, draftLen]
  omega

/-- The depths that replace the positions of the tree nodes, if the request passes the checks of
`_apply_ddtree_position_overrides`. -/
def overrideDepths (usesXdrope : Bool) : Option (List ℕ) :=
  match r.payload with
  | none => none
  | some payload =>
    if usesXdrope then none
    else if payload.treeTokenIds = [] then none
    else if r.specTokenIds ≠ payload.treeTokenIds then none
    else if r.draftLen ≤ 0 ∨ r.numScheduledTokens < r.draftLen + 1 then none
    else if r.numScheduledTokens < r.rootOffset + 1 + payload.nodeDepths.length then none
    else some payload.nodeDepths

end BatchRequest

/-! ### Positions -/

section

variable (usesXdrope : Bool) (batch : List BatchRequest)

/-- `positions_np`: the linear positions. -/
def linearPositions : List ℕ :=
  batch.flatMap fun r ↦ (range r.numScheduledTokens).map (r.numComputedTokens + ·)

/-- `req_indices`, counted from `q`. -/
def reqIndicesFrom : ℕ → List BatchRequest → List ℕ
  | _, [] => []
  | q, r :: batch => replicate r.numScheduledTokens q ++ reqIndicesFrom (q + 1) batch

def reqIndices : List ℕ := reqIndicesFrom 0 batch

/-- The slice assignment of one request whose first token has local index `reqStart`. -/
def overrideRequest (r : BatchRequest) (reqStart : ℕ) (positions : List ℕ) : List ℕ :=
  match r.overrideDepths usesXdrope with
  | none => positions
  | some depths =>
    let sampleStart := reqStart + r.rootOffset
    let treeStart := sampleStart + 1
    let treeEnd := treeStart + depths.length
    positions.take treeStart ++ depths.map (positions.getD sampleStart 0 + ·) ++
      positions.drop treeEnd

/-- `_apply_ddtree_position_overrides` on the CPU sidecar, from the request at `reqStart` on. -/
def overridePositions : List BatchRequest → ℕ → List ℕ → List ℕ
  | [], _, positions => positions
  | r :: batch, reqStart, positions =>
    overridePositions batch (reqStart + r.numScheduledTokens)
      (overrideRequest usesXdrope r reqStart positions)

/-- `_current_positions_cpu_sidecar` once the inputs are prepared. -/
def sidecarPositions : List ℕ :=
  overridePositions usesXdrope batch 0 (linearPositions batch)

/-- The local index of the first token of request `q`. -/
def reqStart (q : ℕ) : ℕ :=
  ((batch.take q).map BatchRequest.numScheduledTokens).sum

/-! ### Local indices -/

/-- Token `k` of request `q` has local index `i`. -/
structure IsLocal (q : ℕ) (r : BatchRequest) (k i : ℕ) : Prop where
  request : batch[q]? = some r
  lt : k < r.numScheduledTokens
  eq : i = reqStart batch q + k

end

variable {batch : List BatchRequest} {q k i : ℕ} {r : BatchRequest}

section Local

variable {usesXdrope : Bool} {depths : List ℕ}

theorem reqStart_cons (r : BatchRequest) (batch : List BatchRequest) (q : ℕ) :
    reqStart (r :: batch) (q + 1) = r.numScheduledTokens + reqStart batch q := rfl

section

variable (h : IsLocal batch q r k i)

include h

/-- A flattened per-request list, read at a local index. -/
theorem IsLocal.getElem?_flatMap {α : Type*} {f : BatchRequest → List α}
    (hlength : ∀ r, (f r).length = r.numScheduledTokens) : (batch.flatMap f)[i]? = (f r)[k]? := by
  obtain ⟨hr, hk, rfl⟩ := h
  induction batch generalizing q with
  | nil => cases hr
  | cons r' batch ih =>
    rw [flatMap_cons]
    cases q with
    | zero =>
      cases hr
      rw [getElem?_append_left]
      · simp [reqStart]
      · simpa [reqStart, hlength] using hk
    | succ q =>
      rw [reqStart_cons, getElem?_append_right (by rw [hlength]; omega), hlength,
        show r'.numScheduledTokens + reqStart batch q + k - r'.numScheduledTokens =
          reqStart batch q + k by omega]
      exact ih hr

theorem IsLocal.getElem?_linearPositions :
    (linearPositions batch)[i]? = some (r.numComputedTokens + k) := by
  rw [linearPositions, h.getElem?_flatMap fun r ↦ by simp, getElem?_map,
    getElem?_range h.lt, map_some]

theorem IsLocal.getElem?_reqIndices : (reqIndices batch)[i]? = some q := by
  suffices hgen : ∀ q₀, (reqIndicesFrom q₀ batch)[i]? = some (q₀ + q) by
    simpa [reqIndices] using hgen 0
  intro q₀
  obtain ⟨hr, hk, rfl⟩ := h
  induction batch generalizing q q₀ with
  | nil => cases hr
  | cons r' batch ih =>
    rw [reqIndicesFrom]
    cases q with
    | zero =>
      cases hr
      rw [getElem?_append_left (by simpa [reqStart] using hk), getElem?_replicate]
      exact if_pos (by simpa [reqStart] using hk)
    | succ q =>
      rw [reqStart_cons, getElem?_append_right (by rw [length_replicate]; omega),
        length_replicate,
        show r'.numScheduledTokens + reqStart batch q + k - r'.numScheduledTokens =
          reqStart batch q + k by omega, ih (q₀ + 1) hr]
      congr 1
      omega

end

theorem length_reqIndicesFrom (q : ℕ) :
    (reqIndicesFrom q batch).length = (batch.map BatchRequest.numScheduledTokens).sum := by
  induction batch generalizing q with
  | nil => rfl
  | cons r batch ih => simp [reqIndicesFrom, ih]

/-- Every local index belongs to a token of a request. -/
theorem exists_isLocal (h : i < (batch.map BatchRequest.numScheduledTokens).sum) :
    ∃ q r k, IsLocal batch q r k i := by
  induction batch generalizing i with
  | nil => simp at h
  | cons r batch ih =>
    rw [map_cons, sum_cons] at h
    by_cases hi : i < r.numScheduledTokens
    · exact ⟨0, r, i, rfl, hi, by simp [reqStart]⟩
    · obtain ⟨q, r', k, hr, hk, heq⟩ := ih (i := i - r.numScheduledTokens) (by omega)
      refine ⟨q + 1, r', k, hr, hk, ?_⟩
      rw [reqStart_cons]
      omega

/-! ### Positions after the overrides -/

/-- The sidecar position of token `k` of a request: depth based for the tree nodes of a request
that is overridden. -/
def BatchRequest.sidecarPosition (r : BatchRequest) (usesXdrope : Bool) (k : ℕ) : ℕ :=
  match r.overrideDepths usesXdrope with
  | none => r.numComputedTokens + k
  | some depths =>
    if r.rootOffset < k ∧ k - r.rootOffset - 1 < depths.length then
      r.rootPosition + depths.getD (k - r.rootOffset - 1) 0
    else r.numComputedTokens + k

/-- The depths that replace positions fit the scheduled tokens of the request. -/
theorem BatchRequest.length_overrideDepths (h : r.overrideDepths usesXdrope = some depths) :
    r.rootOffset + 1 + depths.length ≤ r.numScheduledTokens := by
  rw [overrideDepths] at h
  split at h
  · cases h
  · split_ifs at h with _ _ _ _ hfit
    cases h
    omega

theorem BatchRequest.sidecarPosition_of_none (h : r.overrideDepths usesXdrope = none) :
    r.sidecarPosition usesXdrope = (r.numComputedTokens + ·) := by
  funext k
  simp only [sidecarPosition, h]

/-- The positions of an overridden request, as the slice assignment leaves them. -/
theorem BatchRequest.map_sidecarPosition (h : r.overrideDepths usesXdrope = some depths) :
    (range r.numScheduledTokens).map (r.sidecarPosition usesXdrope) =
      ((range r.numScheduledTokens).map (r.numComputedTokens + ·)).take (r.rootOffset + 1) ++
        depths.map (r.rootPosition + ·) ++
        ((range r.numScheduledTokens).map (r.numComputedTokens + ·)).drop
          (r.rootOffset + 1 + depths.length) := by
  have hfit := r.length_overrideDepths h
  refine ext_getElem (by simp; omega) fun k hk _ ↦ ?_
  simp only [getElem_map, getElem_range, sidecarPosition, h, getElem_append, length_append,
    length_take, length_map, length_range, getElem_take, getElem_drop]
  rcases lt_or_ge r.rootOffset k with hroot | hroot
  · rcases lt_or_ge (k - r.rootOffset - 1) depths.length with hnode | hnode
    · rw [if_pos ⟨hroot, hnode⟩, dif_pos (by omega), dif_neg (by omega),
        getD_eq_getElem?_getD, getElem?_eq_getElem hnode, getD_some]
      congr 2
      omega
    · rw [if_neg (by omega), dif_neg (by omega)]
      omega
  · rw [if_neg (by omega), dif_pos (by omega), dif_pos (by omega)]

/-- One slice assignment changes the positions of its request only. -/
theorem overrideRequest_append (before after : List ℕ) :
    overrideRequest usesXdrope r before.length
        (before ++ ((range r.numScheduledTokens).map (r.numComputedTokens + ·) ++ after)) =
      before ++ ((range r.numScheduledTokens).map (r.sidecarPosition usesXdrope) ++ after) := by
  have hlt : r.rootOffset < r.numScheduledTokens := by
    have := r.numScheduledTokens_eq
    omega
  rcases hover : r.overrideDepths usesXdrope with - | depths
  · simp only [overrideRequest, hover, r.sidecarPosition_of_none hover]
  · have hfit := r.length_overrideDepths hover
    have hroot : (before ++ ((range r.numScheduledTokens).map (r.numComputedTokens + ·) ++
        after)).getD (before.length + r.rootOffset) 0 = r.rootPosition := by
      rw [getD_eq_getElem?_getD, getElem?_append_right (by omega),
        getElem?_append_left (by simpa using hlt), getElem?_map,
        getElem?_range (by omega)]
      simp [BatchRequest.rootPosition]
    simp only [overrideRequest, hover, hroot, r.map_sidecarPosition hover]
    rw [add_assoc, take_length_add_append, add_assoc, drop_length_add_append,
      take_append_of_le_length (by simpa using succ_le_of_lt hlt),
      drop_append_of_le_length (by simpa using hfit)]
    simp only [append_assoc]

/-- **The sidecar** after the overrides, request by request. -/
theorem sidecarPositions_eq : sidecarPositions usesXdrope batch = batch.flatMap fun r ↦
    (range r.numScheduledTokens).map (r.sidecarPosition usesXdrope) := by
  suffices hgen : ∀ before : List ℕ,
      overridePositions usesXdrope batch before.length (before ++ linearPositions batch) =
        before ++ batch.flatMap fun r ↦
          (range r.numScheduledTokens).map (r.sidecarPosition usesXdrope) from
    hgen []
  induction batch with
  | nil => exact fun _ ↦ rfl
  | cons r batch ih =>
    intro before
    rw [overridePositions, linearPositions, flatMap_cons, overrideRequest_append,
      ← append_assoc, flatMap_cons, ← append_assoc]
    have := ih (before ++ (range r.numScheduledTokens).map (r.sidecarPosition usesXdrope))
    rwa [length_append, length_map, length_range] at this

theorem IsLocal.getElem?_sidecarPositions (h : IsLocal batch q r k i) :
    (sidecarPositions usesXdrope batch)[i]? = some (r.sidecarPosition usesXdrope k) := by
  rw [sidecarPositions_eq, h.getElem?_flatMap fun r ↦ by simp, getElem?_map,
    getElem?_range h.lt, map_some]

end Local

/-! ### Slots -/

/-- **An attention group**: the block size of its spec, and the block table of the worker with the
block size of the attention kernel, by which KV caches are laid out. A table covers the positions of
its request after the step, and the blocks that a request writes in the step are its own. -/
structure AttentionGroup (batch : List BatchRequest) where
  blockSize : ℕ
  tableBlockSize : ℕ
  blockTable : List (List ℕ)
  tableBlockSize_pos : 0 < tableBlockSize
  covers : ∀ q r, batch[q]? = some r →
    r.numPositions ≤ (blockTable.getD q []).length * tableBlockSize
  owned : ∀ q r q' r' i i', batch[q]? = some r → batch[q']? = some r' →
    r.numComputedTokens / tableBlockSize ≤ i → i * tableBlockSize < r.numPositions →
    i' * tableBlockSize < r'.numPositions →
    (blockTable.getD q []).getD i 0 = (blockTable.getD q' []).getD i' 0 → q = q' ∧ i = i'

namespace AttentionGroup

variable (g : AttentionGroup batch)

/-- The KV slot of a position of request `q`. -/
def slot (q position : ℕ) : ℕ :=
  (g.blockTable.getD q []).getD (position / g.tableBlockSize) 0 * g.tableBlockSize +
    position % g.tableBlockSize

/-- `compute_slot_mapping`, without context parallelism. -/
def slotMapping : List ℕ := zipWith g.slot (reqIndices batch) (linearPositions batch)

/-- The KV cache of a layer after the forward pass: the token at local index `i` is written to its
slot of the slot mapping. -/
def forward {α : Type} (written kv : ℕ → α) : ℕ → α := fun slot ↦
  if slot ∈ g.slotMapping then written (g.slotMapping.idxOf slot) else kv slot

variable {g} {q' : ℕ} {r' : BatchRequest}

/-- **The slots written** in a step belong to one position. -/
theorem slot_inj {p p' : ℕ} (hr : batch[q]? = some r) (hr' : batch[q']? = some r')
    (hlow : r.numComputedTokens ≤ p) (hp : p < r.numPositions) (hp' : p' < r'.numPositions)
    (h : g.slot q p = g.slot q' p') : q = q' ∧ p = p' := by
  have hpos := g.tableBlockSize_pos
  have hdiv := congrArg (· / g.tableBlockSize) h
  have hmod := congrArg (· % g.tableBlockSize) h
  simp only [slot, mul_comm _ g.tableBlockSize, mul_add_div hpos, mul_add_mod,
    mod_mod, div_eq_of_lt (mod_lt _ hpos), add_zero] at hdiv hmod
  obtain ⟨hq, hblock⟩ := g.owned q r q' r' _ _ hr hr' (Nat.div_le_div_right hlow)
    ((div_mul_le_self p _).trans_lt hp) ((div_mul_le_self p' _).trans_lt hp') hdiv
  refine ⟨hq, ?_⟩
  rw [← div_add_mod p g.tableBlockSize, hblock, hmod, div_add_mod]

theorem getElem?_slotMapping (h : IsLocal batch q r k i) :
    g.slotMapping[i]? = some (g.slot q (r.numComputedTokens + k)) := by
  rw [slotMapping, getElem?_zipWith, h.getElem?_reqIndices, h.getElem?_linearPositions]

theorem length_slotMapping :
    g.slotMapping.length = (batch.map BatchRequest.numScheduledTokens).sum := by
  rw [slotMapping, length_zipWith, reqIndices, length_reqIndicesFrom, linearPositions]
  simp

theorem nodup_slotMapping : g.slotMapping.Nodup := by
  rw [nodup_iff_injective_getElem]
  intro i j heq
  obtain ⟨q, r, k, hi⟩ := exists_isLocal (i.2.trans_eq g.length_slotMapping)
  obtain ⟨q', r', k', hj⟩ := exists_isLocal (j.2.trans_eq g.length_slotMapping)
  have hslot : g.slot q (r.numComputedTokens + k) = g.slot q' (r'.numComputedTokens + k') := by
    have hi' := (getElem?_eq_getElem i.2).symm.trans (g.getElem?_slotMapping hi)
    have hj' := (getElem?_eq_getElem j.2).symm.trans (g.getElem?_slotMapping hj)
    exact some.inj (hi'.symm.trans ((congrArg some heq).trans hj'))
  obtain ⟨rfl, hpos⟩ := g.slot_inj hi.request hj.request (le_add_right _ k)
    (Nat.add_lt_add_left hi.lt _) (Nat.add_lt_add_left hj.lt _) hslot
  obtain rfl := some.inj (hi.request.symm.trans hj.request)
  refine Fin.ext ?_
  rw [hi.eq, hj.eq]
  omega

/-- **The forward pass** writes every scheduled token to the slot of its linear position. -/
theorem forward_slot {α : Type} {written kv : ℕ → α} (h : IsLocal batch q r k i) :
    g.forward written kv (g.slot q (r.numComputedTokens + k)) = written i := by
  have hi := g.getElem?_slotMapping h
  obtain ⟨hlt, heq⟩ := List.getElem?_eq_some_iff.1 hi
  rw [forward, if_pos (mem_of_getElem? hi), ← heq, g.nodup_slotMapping.idxOf_getElem]

end AttentionGroup

end OneCatVllm
