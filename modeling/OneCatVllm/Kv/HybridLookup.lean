import Mathlib.Data.Nat.GCD.Basic
import OneCatVllm.Kv.Lookup
import OneCatVllm.Lib.Fallible

/-!
# The hybrid prefix lookup

`HybridKVCacheCoordinator.find_longest_cache_hit` of `vllm/v1/core/kv_cache_coordinator.py`: the
groups of a hybrid model are batched by spec, and every spec in turn accepts or shortens the
candidate length, until a pass over all specs changes nothing.

A **full-attention** spec is looked up in the first pass only; its list is cut to the final length
at the end. The code cuts the first spec of the list. Any further full-attention spec keeps the list
of its one lookup, so the result is well formed exactly when nothing shortens the length after the
second of them.
-/

namespace OneCatVllm

open Except Fallible List Nat

variable {Q H X E : Type}

/-! ### The groups of the coordinator -/

/-- A KV cache group: its spec, and whether it is one of `eagle_group_ids`. -/
structure KVCacheGroup where
  spec : KVCacheSpec
  isEagle : Bool

/-- `SpecGroup`: the groups that share one spec. -/
structure SpecGroup where
  spec : KVCacheSpec
  groupIds : List ℕ
  useEagle : Bool

/-- `HybridKVCacheCoordinator`, whose constructor asserts the two conditions. -/
structure HybridKVCacheCoordinator (H X E : Type) where
  pool : PoolConfig H X E
  kvCacheGroups : List KVCacheGroup
  groups_ne_nil : kvCacheGroups ≠ []
  hashBlockSize_dvd : ∀ g ∈ kvCacheGroups, pool.hashBlockSize ∣ g.spec.blockSize

namespace HybridKVCacheCoordinator

/-- Add group `i` to the spec group of its spec, or open a new one. -/
def addGroup (g : KVCacheGroup) (i : ℕ) : List SpecGroup → List SpecGroup
  | [] => [⟨g.spec, [i], g.isEagle⟩]
  | s :: gs =>
    if s.spec = g.spec then
      { s with groupIds := s.groupIds ++ [i], useEagle := s.useEagle || g.isEagle } :: gs
    else s :: addGroup g i gs

/-- The groups batched by spec, in the order of their first members. -/
def specGroups (groups : List KVCacheGroup) : List SpecGroup :=
  groups.zipIdx.foldl (fun gs gi ↦ addGroup gi.1 gi.2 gs) []

/-- `attention_groups` of `verify_and_split_kv_cache_groups`: a stable sort puts full attention
first. -/
def attentionGroups (c : HybridKVCacheCoordinator H X E) : List SpecGroup :=
  (specGroups c.kvCacheGroups).filter (·.spec.isFullAttention) ++
    (specGroups c.kvCacheGroups).filter (!·.spec.isFullAttention)

/-- `lcm_block_size`. -/
def lcmBlockSize (c : HybridKVCacheCoordinator H X E) : ℕ :=
  (c.attentionGroups.map (·.spec.blockSize)).foldl Nat.lcm 1

/-! ### The lookup -/

section Lookup

variable (c : HybridKVCacheCoordinator H X E) (p : BlockPool Q H X) (hashes : List H)
  (maxCacheHitLength : ℕ)

/-- `_get_block_hashes(spec)[i]`: the hash of block `i` of a spec. A `BlockHashListWithBlockSize`
joins what there is of the block's hashes. -/
def blockHashAt (blockSize i : ℕ) : Except KvError H :=
  if blockSize = c.pool.hashBlockSize then
    match hashes[i]? with
    | some h => .ok h
    | none => .error .index
  else
    let scaleFactor := blockSize / c.pool.hashBlockSize
    .ok (c.pool.joinHashes ((hashes.drop (i * scaleFactor)).take scaleFactor))

/-- `BlockPool.get_cached_block` for the groups of a spec: every group must have the block. -/
def getCachedBlocks (groupIds : List ℕ) (h : H) : Option HitRow :=
  if groupIds.all fun g ↦ (p.getCachedBlock h g).isSome then
    some (groupIds.map fun g ↦ (p.getCachedBlock h g).getD 0)
  else none

/-- The lookup of one spec group. -/
def lookup (g : SpecGroup) (dropEagleBlock : Bool) (maxLength : ℕ) : Except KvError (List HitRow) :=
  findLongestCacheHit
    (fun i ↦ (c.blockHashAt hashes g.spec.blockSize i).map (getCachedBlocks p g.groupIds))
    (hashes.length / (g.spec.blockSize / c.pool.hashBlockSize)) g.groupIds.length maxLength
    dropEagleBlock c.lcmBlockSize g.spec

/-- The bound of a lookup at a candidate length: EAGLE matches one more block and drops it. -/
def lookupBound (g : SpecGroup) (dropEagleBlock : Bool) (currHitLength : ℕ) : ℕ :=
  if dropEagleBlock then min (currHitLength + g.spec.blockSize) maxCacheHitLength
  else currHitLength

/-- The local variables of the loop. -/
structure HitState where
  hitBlocksByGroup : ℕ → Option (List ℕ)
  eagleVerified : List ℕ
  longestHitLength : ℕ
  currHitLength : ℕ

/-- `hit_blocks_by_group[group_id] = blocks` for the groups of a spec. -/
def storeHit (groupIds : List ℕ) (rows : List HitRow) (m : ℕ → Option (List ℕ)) :
    ℕ → Option (List ℕ) :=
  fun gid ↦
    if gid ∈ groupIds then some (rows.map (·.getD (groupIds.idxOf gid) 0)) else m gid

/-- Whether a full-attention spec has been looked up. -/
def isLookedUp (g : SpecGroup) (s : HitState) : Bool :=
  g.spec.isFullAttention && (g.groupIds.head?.bind s.hitBlocksByGroup).isSome

/-- Whether the next lookup of the spec group with index `idx` drops its eagle block. -/
def dropsEagleBlock (g : SpecGroup) (idx : ℕ) (s : HitState) : Bool :=
  g.useEagle && !s.eagleVerified.contains idx

/-- The state after a lookup. -/
def afterLookup (s : HitState) (g : SpecGroup) (idx : ℕ) (drop : Bool) (rows : List HitRow) :
    HitState :=
  let newHitLength := rows.length * g.spec.blockSize
  { hitBlocksByGroup := storeHit g.groupIds rows s.hitBlocksByGroup
    longestHitLength := max s.longestHitLength newHitLength
    eagleVerified :=
      if drop then idx :: s.eagleVerified
      else if newHitLength < s.currHitLength then [] else s.eagleVerified
    currHitLength := newHitLength }

/-- One spec group in a pass. -/
def checkGroup (s : HitState) (gi : SpecGroup × ℕ) : Except KvError HitState :=
  let g := gi.1
  if isLookedUp g s then
    .ok { s with currHitLength := s.currHitLength / g.spec.blockSize * g.spec.blockSize }
  else
    let drop := dropsEagleBlock g gi.2 s
    (c.lookup p hashes g drop (lookupBound maxCacheHitLength g drop s.currHitLength)).map
      (afterLookup s g gi.2 drop)

/-- One pass over all spec groups, from a candidate length. -/
def checkGroups (hitLength : ℕ) (s : HitState) : Except KvError (ℕ × HitState) :=
  (c.attentionGroups.zipIdx.foldlM (c.checkGroup p hashes maxCacheHitLength)
    { s with currHitLength := hitLength }).map fun s' ↦ (s'.currHitLength, s')

/-- One full-attention spec and one other: one pass suffices. -/
def isSimpleHybrid : Bool :=
  match c.attentionGroups with
  | [g, _] => g.spec.isFullAttention
  | _ => false

/-- The state before the first pass. -/
def HitState.init : HitState where
  hitBlocksByGroup := fun _ ↦ none
  eagleVerified := []
  longestHitLength := 0
  currHitLength := 0

/-- The end of the lookup: the list of the first spec is cut when it is full attention. -/
def truncate (hitLength : ℕ) (m : ℕ → Option (List ℕ)) (gid : ℕ) : List ℕ :=
  match c.attentionGroups.head? with
  | none => (m gid).getD []
  | some g =>
    if g.spec.isFullAttention ∧ gid ∈ g.groupIds then
      ((m gid).getD []).take (hitLength / g.spec.blockSize)
    else (m gid).getD []

/-- What `find_longest_cache_hit` returns, and the `shared_prefix_boundary` it leaves. -/
structure HybridHit where
  blocks : List (List ℕ)
  hitLength : ℕ
  sharedPrefixBoundary : ℕ
  deriving DecidableEq

/-- `HybridKVCacheCoordinator.find_longest_cache_hit`. -/
def findLongestHybridHit : Except KvError HybridHit :=
  (descend (c.checkGroups p hashes maxCacheHitLength) c.isSimpleHybrid maxCacheHitLength
      HitState.init).map fun (hitLength, s) ↦
    { blocks := (range c.kvCacheGroups.length).map (c.truncate hitLength s.hitBlocksByGroup)
      hitLength
      sharedPrefixBoundary := if hitLength < s.longestHitLength then s.longestHitLength else 0 }

end Lookup

/-! ### The spec groups split the groups -/

variable {gs : List SpecGroup}

section Split

variable {groups : List KVCacheGroup} {g : KVCacheGroup} {i : ℕ}

theorem addGroup_perm (g : KVCacheGroup) (i : ℕ) (gs : List SpecGroup) :
    ((addGroup g i gs).flatMap (·.groupIds)).Perm (i :: gs.flatMap (·.groupIds)) := by
  induction gs with
  | nil => exact .refl _
  | cons s gs ih =>
    rw [addGroup]
    split
    · simp only [flatMap_cons, append_assoc, singleton_append]
      exact perm_middle
    · exact (ih.append_left _).trans perm_middle

theorem forall_mem_addGroup {P : ℕ → KVCacheSpec → Prop}
    (h : ∀ s ∈ gs, s.groupIds ≠ [] ∧ ∀ j ∈ s.groupIds, P j s.spec) (hi : P i g.spec) :
    ∀ s ∈ addGroup g i gs, s.groupIds ≠ [] ∧ ∀ j ∈ s.groupIds, P j s.spec := by
  induction gs with
  | nil =>
    intro s hs
    cases mem_singleton.1 hs
    exact ⟨cons_ne_nil _ _, fun j hj ↦ mem_singleton.1 hj ▸ hi⟩
  | cons t gs ih =>
    obtain ⟨ht, hgs⟩ := forall_mem_cons.1 h
    rw [addGroup]
    split
    · rename_i hspec
      refine forall_mem_cons.2 ⟨⟨?_, fun j hj ↦ ?_⟩, hgs⟩
      · exact append_ne_nil_of_right_ne_nil _ (cons_ne_nil _ _)
      · rcases mem_append.1 hj with hj | hj
        · exact ht.2 j hj
        · rw [mem_singleton.1 hj, hspec]
          exact hi
    · exact forall_mem_cons.2 ⟨ht, ih hgs⟩

section

variable (groups : List KVCacheGroup)

theorem specGroups_concat (g : KVCacheGroup) :
    specGroups (groups ++ [g]) = addGroup g groups.length (specGroups groups) := by
  rw [specGroups, zipIdx_append, foldl_append]
  simp only [zipIdx_singleton, foldl_cons, foldl_nil, zero_add]
  rfl

theorem specGroups_perm :
    ((specGroups groups).flatMap (·.groupIds)).Perm (range groups.length) := by
  induction groups using reverseRecOn with
  | nil => exact .refl _
  | append_singleton groups g ih =>
    rw [specGroups_concat, length_append, length_singleton, range_succ]
    refine (addGroup_perm g _ _).trans ((ih.cons _).trans ?_)
    exact perm_append_singleton _ _ |>.symm

/-- Every spec group has members, and they are groups of its spec. -/
theorem forall_mem_specGroups :
    ∀ s ∈ specGroups groups, s.groupIds ≠ [] ∧
      ∀ i ∈ s.groupIds, ∃ g, groups[i]? = some g ∧ g.spec = s.spec := by
  induction groups using reverseRecOn with
  | nil => nofun
  | append_singleton groups g ih =>
    rw [specGroups_concat]
    refine forall_mem_addGroup (P := fun j spec ↦ ∃ g', (groups ++ [g])[j]? = some g' ∧
      g'.spec = spec) (fun s hs ↦ ⟨(ih s hs).1, fun j hj ↦ ?_⟩) ⟨g, ?_, rfl⟩
    · obtain ⟨g', hg', hspec⟩ := (ih s hs).2 j hj
      exact ⟨g', getElem?_append_left (List.getElem?_eq_some_iff.1 hg').1 ▸ hg', hspec⟩
    · rw [getElem?_concat_length]

end

variable (c : HybridKVCacheCoordinator H X E)

theorem attentionGroups_perm : c.attentionGroups.Perm (specGroups c.kvCacheGroups) :=
  filter_append_perm _ _

/-- Distinct spec groups have distinct members. -/
theorem nodup_groupIds : (c.attentionGroups.flatMap (·.groupIds)).Nodup :=
  ((c.attentionGroups_perm.flatMap_right _).trans (specGroups_perm _)).nodup_iff.2 nodup_range

variable {c} {s s' : SpecGroup}

section

variable (hs : s ∈ c.attentionGroups)

include hs

theorem groupIds_ne_nil : s.groupIds ≠ [] :=
  (forall_mem_specGroups _ s (c.attentionGroups_perm.mem_iff.1 hs)).1

theorem exists_group_of_mem (hi : i ∈ s.groupIds) :
    ∃ g, c.kvCacheGroups[i]? = some g ∧ g.spec = s.spec :=
  (forall_mem_specGroups _ s (c.attentionGroups_perm.mem_iff.1 hs)).2 i hi

/-- Members of two spec groups of the coordinator are members of one. -/
theorem eq_of_mem_groupIds (hs' : s' ∈ c.attentionGroups)
    (h : i ∈ s.groupIds) (h' : i ∈ s'.groupIds) : s = s' := by
  by_contra hne
  have hnodup := nodup_flatMap.1 c.nodup_groupIds
  have hsymm : Std.Symm (Function.onFun Disjoint SpecGroup.groupIds) :=
    ⟨fun _ _ h ↦ h.symm⟩
  exact hnodup.2.forall hs hs' hne h h'

end

theorem notMem_groupIds_of_mem_tail (hgroups : c.attentionGroups = s' :: gs) (hs : s ∈ gs)
    (hi : i ∈ s.groupIds) : i ∉ s'.groupIds := by
  have hnodup := c.nodup_groupIds
  rw [hgroups, flatMap_cons, nodup_append] at hnodup
  exact fun h ↦ hnodup.2.2 i h i (mem_flatMap.2 ⟨s, hs, hi⟩) rfl

/-- Every group is a member of a spec group of its spec. -/
theorem exists_specGroup (hg : c.kvCacheGroups[i]? = some g) :
    ∃ s ∈ c.attentionGroups, i ∈ s.groupIds ∧ s.spec = g.spec := by
  have hi : i ∈ c.attentionGroups.flatMap (·.groupIds) :=
    ((c.attentionGroups_perm.flatMap_right _).trans (specGroups_perm _)).mem_iff.2
      (mem_range.2 (List.getElem?_eq_some_iff.1 hg).1)
  obtain ⟨s, hs, his⟩ := mem_flatMap.1 hi
  obtain ⟨g', hg', hspec⟩ := exists_group_of_mem hs his
  cases hg.symm.trans hg'
  exact ⟨s, hs, his, hspec.symm⟩

theorem attentionGroups_ne_nil : c.attentionGroups ≠ [] := by
  intro hnil
  obtain ⟨g, hg⟩ := exists_mem_of_ne_nil _ c.groups_ne_nil
  obtain ⟨i, hi⟩ := mem_iff_getElem?.1 hg
  obtain ⟨s, hs, -⟩ := exists_specGroup hi
  rw [hnil] at hs
  cases hs

theorem blockSize_dvd_lcm (hs : s ∈ c.attentionGroups) : s.spec.blockSize ∣ c.lcmBlockSize := by
  suffices h : ∀ (l : List ℕ) (a b : ℕ), b ∣ a ∨ b ∈ l → b ∣ l.foldl Nat.lcm a from
    h _ 1 _ (.inr (mem_map_of_mem hs))
  intro l
  induction l with
  | nil => exact fun a b h ↦ h.elim id nofun
  | cons n l ih =>
    rintro a b (h | h)
    · exact ih _ b (.inl (h.trans (Nat.dvd_lcm_left a n)))
    · rcases mem_cons.1 h with rfl | h
      · exact ih _ b (.inl (Nat.dvd_lcm_right a b))
      · exact ih _ b (.inr h)

end Split

/-! ### One lookup -/

section

variable (c : HybridKVCacheCoordinator H X E)

/-- `b` is the cached block of group `gid` for block `i` of the request. -/
def CachedAt (p : BlockPool Q H X) (hashes : List H) (blockSize gid i b : ℕ) : Prop :=
  ∃ h, c.blockHashAt hashes blockSize i = .ok h ∧ p.getCachedBlock h gid = some b

/-- The managers accept the specs of all groups. -/
def Supported : Prop :=
  ∀ g ∈ c.attentionGroups, g.spec.Supported g.useEagle c.lcmBlockSize

/-- The row that a lookup finds at an index, none when the request has no such block. -/
def look (p : BlockPool Q H X) (hashes : List H) (g : SpecGroup) (i : ℕ) : Option HitRow :=
  match c.blockHashAt hashes g.spec.blockSize i with
  | .ok h => getCachedBlocks p g.groupIds h
  | .error _ => none

end

variable {c : HybridKVCacheCoordinator H X E} {p : BlockPool Q H X} {hashes : List H}
  {maxHit gid a : ℕ} {g : SpecGroup} {drop : Bool}

section LookupSpec

theorem cachedAt_of_rowCached {i : ℕ} {r : HitRow} (h : RowCached (c.look p hashes g) i r)
    (hgid : gid ∈ g.groupIds) :
    c.CachedAt p hashes g.spec.blockSize gid i (r.getD (g.groupIds.idxOf gid) 0) := by
  rw [RowCached, look] at h
  split at h
  · rename_i hash hhash
    rw [getCachedBlocks] at h
    split at h
    · rename_i hall
      cases h
      obtain ⟨b, hb⟩ := Option.isSome_iff_exists.1 (all_eq_true.1 hall gid hgid)
      refine ⟨hash, hhash, ?_⟩
      rw [getD_eq_getElem?_getD, getElem?_map,
        getElem?_eq_getElem (idxOf_lt_length_of_mem hgid), getElem_idxOf]
      simp only [Option.map_some, Option.getD_some, hb]
    · cases h
  · cases h

/-- **One lookup** returns sound rows within its bound. -/
theorem lookup_spec (hhash : maxHit / c.pool.hashBlockSize ≤ hashes.length)
    {maxLength : ℕ} (hle : maxLength ≤ maxHit) (hsupported : g.spec.Supported drop c.lcmBlockSize) :
    ∃ rows, c.lookup p hashes g drop maxLength = .ok rows ∧
      LookupSpec (c.look p hashes g) g.spec maxLength drop c.lcmBlockSize rows := by
  refine findLongestCacheHit_spec (fun j hj ↦ ?_) hsupported
  suffices h : ∃ h, c.blockHashAt hashes g.spec.blockSize j = .ok h by
    obtain ⟨h, hh⟩ := h
    rw [look, hh]
    rfl
  rw [blockHashAt]
  by_cases hb : g.spec.blockSize = c.pool.hashBlockSize
  · have hj' : j < hashes.length := by
      have := Nat.div_le_div_right (c := c.pool.hashBlockSize) hle
      rw [hb] at hj
      omega
    rw [if_pos hb, getElem?_eq_getElem hj']
    exact ⟨_, rfl⟩
  · rw [if_neg hb]
    exact ⟨_, rfl⟩

theorem supported_of_useEagle {spec : KVCacheSpec} {useEagle : Bool}
    (h : spec.Supported useEagle a) (hdrop : drop = true → useEagle = true) :
    spec.Supported drop a := by
  rw [KVCacheSpec.Supported] at h ⊢
  split at h
  · refine ⟨Bool.eq_false_iff.2 fun hd ↦ ?_, h.2⟩
    have := hdrop hd
    rw [h.1] at this
    cases this
  · exact h
  · trivial

end LookupSpec

/-! ### One pass -/

variable {s s' s₁ : HitState} {n idx : ℕ} {m : ℕ → Option (List ℕ)}

section Pass

variable {gs : List (SpecGroup × ℕ)}

variable (c p hashes) in
/-- The groups of a spec have sound lists that cover `n` tokens. -/
def Stored (m : ℕ → Option (List ℕ)) (g : SpecGroup) (n : ℕ) : Prop :=
  ∀ gid ∈ g.groupIds, ∃ blocks, m gid = some blocks ∧ blocks.length * g.spec.blockSize = n ∧
    g.spec.kind.Sound g.spec.blockSize n (c.CachedAt p hashes g.spec.blockSize gid) blocks

theorem Stored.congr {m' : ℕ → Option (List ℕ)} (h : c.Stored p hashes m g n)
    (hm : ∀ gid ∈ g.groupIds, m' gid = m gid) : c.Stored p hashes m' g n := by
  intro gid hgid
  rw [hm gid hgid]
  exact h gid hgid

theorem isLookedUp_congr
    (h : ∀ gid ∈ g.groupIds, s'.hitBlocksByGroup gid = s.hitBlocksByGroup gid) :
    isLookedUp g s' = isLookedUp g s := by
  rw [isLookedUp, isLookedUp]
  cases hids : g.groupIds with
  | nil => rfl
  | cons gid l => rw [head?_cons, Option.bind_some, Option.bind_some, h gid (hids ▸ mem_cons_self)]

variable (c p hashes maxHit) in
/-- The length at which the lookup of a spec leaves the candidate length `n`. -/
def lookupLength (g : SpecGroup) (drop : Bool) (n : ℕ) : Except KvError ℕ :=
  (c.lookup p hashes g drop (lookupBound maxHit g drop n)).map (·.length * g.spec.blockSize)

variable (c p hashes maxHit) in
/-- What the lookup of a spec in a pass does. -/
structure LookedUp (s : HitState) (g : SpecGroup) (idx : ℕ) (s' : HitState) : Prop where
  length_eq : c.lookupLength p hashes maxHit g (dropsEagleBlock g idx s)
    s.currHitLength = .ok s'.currHitLength
  curr_le : s'.currHitLength ≤ s.currHitLength
  aligned : c.lcmBlockSize ∣ s'.currHitLength
  stored : c.Stored p hashes s'.hitBlocksByGroup g s'.currHitLength
  kept : ∀ gid ∉ g.groupIds, s'.hitBlocksByGroup gid = s.hitBlocksByGroup gid
  verified : s'.eagleVerified = if dropsEagleBlock g idx s then idx :: s.eagleVerified
    else if s'.currHitLength < s.currHitLength then [] else s.eagleVerified

theorem lookupBound_le (h : n ≤ maxHit) : lookupBound maxHit g drop n ≤ maxHit := by
  rw [lookupBound]
  split
  · exact min_le_right _ _
  · exact h

/-- No lookup exceeds the candidate length. -/
theorem length_mul_le {look : ℕ → Option HitRow} {rows : List HitRow}
    (h : LookupSpec look g.spec (lookupBound maxHit g drop n) drop a rows) :
    rows.length * g.spec.blockSize ≤ n := by
  rw [← le_div_iff_mul_le g.spec.blockSize_pos]
  refine h.length_le.trans ?_
  cases drop with
  | false => exact le_rfl
  | true =>
    rw [if_pos rfl, Nat.sub_le_iff_le_add, ← add_div_right _ g.spec.blockSize_pos]
    exact Nat.div_le_div_right (min_le_left _ _)

theorem checkGroup_spec (idx : ℕ) (hhash : maxHit / c.pool.hashBlockSize ≤ hashes.length)
    (hg : g ∈ c.attentionGroups) (hsupported : g.spec.Supported g.useEagle c.lcmBlockSize)
    (hcurr : s.currHitLength ≤ maxHit)
    (hready : isLookedUp g s = true → c.lcmBlockSize ∣ s.currHitLength) :
    ∃ s', c.checkGroup p hashes maxHit s (g, idx) = .ok s' ∧
      (isLookedUp g s = true ∧ s' = s ∨
        isLookedUp g s = false ∧ c.LookedUp p hashes maxHit s g idx s') := by
  rw [checkGroup]
  by_cases hskip : isLookedUp g s = true
  · refine ⟨_, if_pos hskip, .inl ⟨hskip, ?_⟩⟩
    have hdvd := (blockSize_dvd_lcm hg).trans (hready hskip)
    rw [Nat.div_mul_cancel hdvd]
  · set drop := dropsEagleBlock g idx s with hdrop
    have hsup : g.spec.Supported drop c.lcmBlockSize := supported_of_useEagle hsupported fun h ↦ by
      rw [hdrop, dropsEagleBlock, Bool.and_eq_true] at h
      exact h.1
    have hbound : lookupBound maxHit g drop s.currHitLength ≤ maxHit :=
      lookupBound_le hcurr
    obtain ⟨rows, hlookup, hspec⟩ := lookup_spec hhash hbound hsup
    refine ⟨afterLookup s g idx drop rows, ?_, .inr ⟨Bool.eq_false_iff.2 hskip, ?_⟩⟩
    · rw [if_neg hskip]
      show (c.lookup p hashes g drop _).map _ = _
      rw [hlookup]
      rfl
    · refine ⟨?_, length_mul_le hspec, hspec.aligned, fun gid hgid ↦ ?_, fun gid hgid ↦ ?_, ?_⟩
      · rw [lookupLength, hlookup]
        rfl
      · refine ⟨_, if_pos hgid, ?_, ?_⟩
        · rw [length_map]
          rfl
        · exact hspec.sound.map fun i r hr ↦ cachedAt_of_rowCached hr hgid
      · exact if_neg hgid
      · rfl

variable (c p hashes maxHit) in
/-- **What a pass does**: it looks up the specs that have no list or are not full attention, each
between the lengths at the start and at the end of the pass. -/
structure PassSpec (gs : List (SpecGroup × ℕ)) (s s' : HitState) : Prop where
  curr_le : s'.currHitLength ≤ s.currHitLength
  aligned : c.lcmBlockSize ∣ s.currHitLength ∨ gs ≠ [] → c.lcmBlockSize ∣ s'.currHitLength
  stored : ∀ gi ∈ gs, isLookedUp gi.1 s = false →
    ∃ n, c.Stored p hashes s'.hitBlocksByGroup gi.1 n ∧ s'.currHitLength ≤ n ∧ n ≤ s.currHitLength
  last : ∀ gi, gs.getLast? = some gi → isLookedUp gi.1 s = false →
    c.Stored p hashes s'.hitBlocksByGroup gi.1 s'.currHitLength
  kept : ∀ gid, (∀ gi ∈ gs, gid ∈ gi.1.groupIds → isLookedUp gi.1 s = true) →
    s'.hitBlocksByGroup gid = s.hitBlocksByGroup gid
  /-- A pass leaves the length as it is when every lookup in it does. -/
  curr_eq_iff : s'.currHitLength = s.currHitLength ↔ ∀ gi ∈ gs, isLookedUp gi.1 s = false →
    c.lookupLength p hashes maxHit gi.1 (dropsEagleBlock gi.1 gi.2 s)
      s.currHitLength = .ok s.currHitLength
  /-- Then all of its lookups count as verified. -/
  verified : s'.currHitLength = s.currHitLength → ∀ idx, idx ∈ s'.eagleVerified ↔
    idx ∈ s.eagleVerified ∨ ∃ gi ∈ gs, gi.2 = idx ∧ isLookedUp gi.1 s = false ∧ gi.1.useEagle = true

theorem PassSpec.nil : c.PassSpec p hashes maxHit [] s s where
  curr_le := le_rfl
  aligned := fun h ↦ h.resolve_right (absurd rfl)
  stored := nofun
  last := nofun
  kept := fun _ _ ↦ rfl
  curr_eq_iff := iff_of_true rfl nofun
  verified := fun _ idx ↦ by simp

/-- A skipped spec leaves the state as it is. -/
theorem PassSpec.cons_skip (hskip : isLookedUp g s = true)
    (hready : c.lcmBlockSize ∣ s.currHitLength) (h : c.PassSpec p hashes maxHit gs s s') :
    c.PassSpec p hashes maxHit ((g, idx) :: gs) s s' where
  curr_le := h.curr_le
  aligned := fun _ ↦ h.aligned (.inl hready)
  stored := fun gi hgi hlook ↦ by
    rcases mem_cons.1 hgi with rfl | hgi
    · cases hskip.symm.trans hlook
    · exact h.stored gi hgi hlook
  last := fun gi hgi hlook ↦ by
    cases gs with
    | cons gj gs' => exact h.last gi hgi hlook
    | nil =>
      cases hgi
      cases hskip.symm.trans hlook
  kept := fun gid hgid ↦ h.kept gid fun gi hgi ↦ hgid gi (mem_cons_of_mem _ hgi)
  curr_eq_iff := by
    rw [h.curr_eq_iff, forall_mem_cons]
    exact (and_iff_right fun hlook ↦ by cases hskip.symm.trans hlook).symm
  verified := fun hcurr i ↦ by
    rw [h.verified hcurr i]
    refine or_congr_right ⟨fun ⟨gi, hgi, hrest⟩ ↦ ⟨gi, mem_cons_of_mem _ hgi, hrest⟩, ?_⟩
    rintro ⟨gi, hgi, hidx, hlook, heagle⟩
    rcases mem_cons.1 hgi with rfl | hgi
    · cases hskip.symm.trans hlook
    · exact ⟨gi, hgi, hidx, hlook, heagle⟩

theorem dropsEagleBlock_eq_useEagle (h : idx ∉ s.eagleVerified) :
    dropsEagleBlock g idx s = g.useEagle := by
  have hcontains : s.eagleVerified.contains idx = false :=
    Bool.eq_false_iff.2 fun hc ↦ h (contains_iff_mem.1 hc)
  rw [dropsEagleBlock, hcontains, Bool.not_false, Bool.and_true]

theorem LookedUp.mem_eagleVerified (h : c.LookedUp p hashes maxHit s g idx s')
    (hcurr : s'.currHitLength = s.currHitLength) (i : ℕ) :
    i ∈ s'.eagleVerified ↔ i ∈ s.eagleVerified ∨ idx = i ∧ g.useEagle = true := by
  rw [h.verified, hcurr, if_neg (lt_irrefl _)]
  by_cases hmem : idx ∈ s.eagleVerified
  · rw [dropsEagleBlock, contains_iff_mem.2 hmem, Bool.not_true, Bool.and_false]
    exact (or_iff_left_of_imp fun hi ↦ hi.1 ▸ hmem).symm
  · rw [dropsEagleBlock_eq_useEagle hmem]
    split_ifs with heagle
    · rw [mem_cons, or_comm, and_iff_left heagle, eq_comm]
    · exact (or_iff_left fun hi ↦ heagle hi.2).symm

/-- A spec that is looked up shortens the length before the rest of the pass. -/
theorem PassSpec.cons_look (hlook : isLookedUp g s = false)
    (hstep : c.LookedUp p hashes maxHit s g idx s₁) (h : c.PassSpec p hashes maxHit gs s₁ s')
    (hdisjoint : ∀ gi ∈ gs, ∀ gid ∈ gi.1.groupIds, gid ∉ g.groupIds)
    (hidx : ∀ gi ∈ gs, gi.2 ≠ idx) : c.PassSpec p hashes maxHit ((g, idx) :: gs) s s' := by
  have hsame : ∀ gi ∈ gs, isLookedUp gi.1 s₁ = isLookedUp gi.1 s := fun gi hgi ↦
    isLookedUp_congr fun gid hgid ↦ hstep.kept gid (hdisjoint gi hgi gid hgid)
  -- the whole pass keeps the length when both parts do
  have hcurr : s'.currHitLength = s.currHitLength ↔
      s₁.currHitLength = s.currHitLength ∧ s'.currHitLength = s₁.currHitLength := by
    have := hstep.curr_le
    have := h.curr_le
    omega
  have hkept : ∀ gid ∈ g.groupIds, s'.hitBlocksByGroup gid = s₁.hitBlocksByGroup gid :=
    fun gid hgid ↦ h.kept gid fun gi hgi hmem ↦ (hdisjoint gi hgi gid hmem hgid).elim
  refine ⟨h.curr_le.trans hstep.curr_le, fun _ ↦ h.aligned (.inl hstep.aligned),
    fun gi hgi hl ↦ ?_, fun gi hgi hl ↦ ?_, fun gid hgid ↦ ?_, ?_, fun heq i ↦ ?_⟩
  · rcases mem_cons.1 hgi with rfl | hgi
    · exact ⟨s₁.currHitLength, hstep.stored.congr hkept, h.curr_le, hstep.curr_le⟩
    · obtain ⟨n, hstored, hle, hn⟩ := h.stored gi hgi (hsame gi hgi ▸ hl)
      exact ⟨n, hstored, hle, hn.trans hstep.curr_le⟩
  · cases gs with
    | cons gj gs' => exact h.last gi hgi (hsame gi (mem_of_getLast? hgi) ▸ hl)
    | nil =>
      cases hgi
      exact h.curr_eq_iff.2 nofun ▸ hstep.stored.congr hkept
  · have hgid' : gid ∉ g.groupIds := fun hmem ↦ by
      cases hlook.symm.trans (hgid (g, idx) mem_cons_self hmem)
    rw [h.kept gid fun gi hgi hmem ↦ hsame gi hgi ▸ hgid gi (mem_cons_of_mem _ hgi) hmem]
    exact hstep.kept gid hgid'
  · rw [hcurr, forall_mem_cons, h.curr_eq_iff]
    have hhead : s₁.currHitLength = s.currHitLength ↔ (isLookedUp g s = false →
        c.lookupLength p hashes maxHit g (dropsEagleBlock g idx s) s.currHitLength =
          .ok s.currHitLength) := by
      rw [hstep.length_eq]
      exact ⟨fun h _ ↦ congrArg ok h, fun h ↦ ok.inj (h hlook)⟩
    rw [hhead]
    refine and_congr_right fun haccept ↦ forall₂_congr fun gi hgi ↦ ?_
    have heq := hhead.2 haccept
    have hdrop : dropsEagleBlock gi.1 gi.2 s₁ = dropsEagleBlock gi.1 gi.2 s := by
      rw [dropsEagleBlock]
      congr 2
      rw [Bool.eq_iff_iff, contains_iff_mem, contains_iff_mem, hstep.mem_eagleVerified heq]
      exact or_iff_left fun hi ↦ hidx gi hgi hi.1.symm
    rw [hsame gi hgi, hdrop, heq]
  · obtain ⟨heq₁, heq₂⟩ := hcurr.1 heq
    rw [h.verified heq₂, hstep.mem_eagleVerified heq₁, or_assoc]
    refine or_congr_right ⟨?_, ?_⟩
    · rintro (⟨rfl, heagle⟩ | ⟨gi, hgi, hi, hl, heagle⟩)
      · exact ⟨_, mem_cons_self, rfl, hlook, heagle⟩
      · exact ⟨gi, mem_cons_of_mem _ hgi, hi, hsame gi hgi ▸ hl, heagle⟩
    · rintro ⟨gi, hgi, hi, hl, heagle⟩
      rcases mem_cons.1 hgi with rfl | hgi
      · exact .inl ⟨hi, heagle⟩
      · exact .inr ⟨gi, hgi, hi, (hsame gi hgi).symm ▸ hl, heagle⟩

theorem nodup_zipIdx {gs : List SpecGroup} (k : ℕ) (h : (gs.flatMap (·.groupIds)).Nodup) :
    ((gs.zipIdx k).flatMap (·.1.groupIds)).Nodup ∧ ((gs.zipIdx k).map (·.2)).Nodup := by
  rw [← zipIdx_map_fst k gs, flatMap_map] at h
  rw [zipIdx_map_snd]
  exact ⟨h, nodup_range'⟩

section

variable (hhash : maxHit / c.pool.hashBlockSize ≤ hashes.length) (hsupported : c.Supported)

include hhash hsupported

/-- **A pass**, by induction on the spec groups still to come. -/
theorem exists_pass (hmem : ∀ gi ∈ gs, gi.1 ∈ c.attentionGroups)
    (hnodup : (gs.flatMap (·.1.groupIds)).Nodup) (hidx : (gs.map (·.2)).Nodup)
    (hcurr : s.currHitLength ≤ maxHit)
    (hready : ∀ gi ∈ gs, isLookedUp gi.1 s = true → c.lcmBlockSize ∣ s.currHitLength) :
    ∃ s', gs.foldlM (c.checkGroup p hashes maxHit) s = .ok s' ∧
      c.PassSpec p hashes maxHit gs s s' := by
  induction gs generalizing s with
  | nil => exact ⟨s, rfl, .nil⟩
  | cons gi gs ih =>
    obtain ⟨g, idx⟩ := gi
    obtain ⟨hg, hmem⟩ := forall_mem_cons.1 hmem
    obtain ⟨hskip, hready⟩ := forall_mem_cons.1 hready
    rw [flatMap_cons, nodup_append] at hnodup
    rw [map_cons, nodup_cons] at hidx
    obtain ⟨s₁, hs₁, ⟨hlook, rfl⟩ | ⟨hlook, hstep⟩⟩ :=
      checkGroup_spec idx hhash hg (hsupported g hg) hcurr hskip
    · obtain ⟨s', hs', hpass⟩ := ih hmem hnodup.2.1 hidx.2 hcurr hready
      exact ⟨s', foldlM_cons_eq_ok.2 ⟨_, hs₁, hs'⟩, .cons_skip hlook (hskip hlook) hpass⟩
    · obtain ⟨s', hs', hpass⟩ := ih hmem hnodup.2.1 hidx.2 (hstep.curr_le.trans hcurr)
        fun _ _ _ ↦ hstep.aligned
      refine ⟨s', foldlM_cons_eq_ok.2 ⟨_, hs₁, hs'⟩, .cons_look hlook hstep hpass ?_ ?_⟩
      · intro gi hgi gid hgid hmem
        exact hnodup.2.2 gid hmem gid (mem_flatMap.2 ⟨gi, hgi, hgid⟩) rfl
      · rintro gi hgi rfl
        exact hidx.1 (mem_map.2 ⟨gi, hgi, rfl⟩)

theorem exists_checkGroups (hn : n ≤ maxHit)
    (hready : ∀ g ∈ c.attentionGroups, isLookedUp g s = true → c.lcmBlockSize ∣ n) :
    ∃ s', c.checkGroups p hashes maxHit n s = .ok (s'.currHitLength, s') ∧
      c.PassSpec p hashes maxHit c.attentionGroups.zipIdx { s with currHitLength := n } s' := by
  have hmem : ∀ gi ∈ c.attentionGroups.zipIdx, gi.1 ∈ c.attentionGroups :=
    fun gi hgi ↦ fst_mem_of_mem_zipIdx hgi
  obtain ⟨s', hs', hpass⟩ := exists_pass hhash hsupported hmem
    (nodup_zipIdx 0 c.nodup_groupIds).1 (nodup_zipIdx 0 c.nodup_groupIds).2
    (s := { s with currHitLength := n }) hn fun gi hgi ↦ hready gi.1 (hmem gi hgi)
  refine ⟨s', ?_, hpass⟩
  rw [checkGroups, hs']
  rfl

end

end Pass

/-! ### The whole lookup -/

section Whole

theorem exists_zipIdx (k : ℕ) (hg : g ∈ gs) : ∃ idx, (g, idx) ∈ gs.zipIdx k := by
  rw [← zipIdx_map_fst k gs] at hg
  obtain ⟨gi, hgi, rfl⟩ := mem_map.1 hg
  exact ⟨gi.2, hgi⟩

theorem isLookedUp_of_stored (hfull : g.spec.isFullAttention = true) (hids : g.groupIds ≠ [])
    (h : c.Stored p hashes s.hitBlocksByGroup g n) : isLookedUp g s = true := by
  rw [isLookedUp, hfull]
  cases hgs : g.groupIds with
  | nil => exact absurd hgs hids
  | cons gid l =>
    obtain ⟨blocks, hblocks, -⟩ := h gid (hgs ▸ mem_cons_self)
    rw [head?_cons, Option.bind_some, hblocks]
    rfl

theorem isLookedUp_init : isLookedUp g { HitState.init with currHitLength := n } = false := by
  rw [isLookedUp]
  cases g.groupIds with
  | nil => exact Bool.and_false _
  | cons gid l => exact Bool.and_false _

variable (c) in
/-- The state before a later pass: the full-attention specs have the lists of the first pass. -/
structure Later (s₁ : HitState) (n : ℕ) (s : HitState) : Prop where
  le : n ≤ s₁.currHitLength
  aligned : c.lcmBlockSize ∣ n
  kept : ∀ g ∈ c.attentionGroups, g.spec.isFullAttention = true → ∀ gid ∈ g.groupIds,
    s.hitBlocksByGroup gid = s₁.hitBlocksByGroup gid

variable (c p hashes) in
/-- **The end of the loop**, with respect to the state `s₁` after the first pass: all other specs
have lists of the final length, and the full-attention specs have the lists of the first pass. -/
structure Settled (s₁ : HitState) (n : ℕ) (s : HitState) : Prop extends c.Later s₁ n s where
  stored : ∀ g ∈ c.attentionGroups, g.spec.isFullAttention = false →
    c.Stored p hashes s.hitBlocksByGroup g n

variable (c p hashes maxHit) in
/-- The state after the first pass. -/
abbrev FirstPass (s₁ : HitState) : Prop :=
  c.PassSpec p hashes maxHit c.attentionGroups.zipIdx
    { HitState.init with currHitLength := maxHit } s₁

namespace FirstPass

variable (hfirst : c.FirstPass p hashes maxHit s₁)
include hfirst

theorem stored (hg : g ∈ c.attentionGroups) :
    ∃ n, c.Stored p hashes s₁.hitBlocksByGroup g n ∧ s₁.currHitLength ≤ n ∧ n ≤ maxHit := by
  obtain ⟨idx, hidx⟩ := exists_zipIdx 0 hg
  exact PassSpec.stored hfirst _ hidx isLookedUp_init

theorem aligned : c.lcmBlockSize ∣ s₁.currHitLength :=
  PassSpec.aligned hfirst (.inr (mt zipIdx_eq_nil_iff.1 attentionGroups_ne_nil))

theorem later : c.Later s₁ s₁.currHitLength s₁ :=
  ⟨le_rfl, aligned hfirst, fun _ _ _ _ _ ↦ rfl⟩

variable (hhash : maxHit / c.pool.hashBlockSize ≤ hashes.length)
  (hsupported : c.Supported) (h : c.Later s₁ n s)
include hhash hsupported h

/-- **A later pass**: full attention is skipped, everything else looked up again. -/
theorem laterPass :
    ∃ s', c.checkGroups p hashes maxHit n s = .ok (s'.currHitLength, s') ∧
      c.PassSpec p hashes maxHit c.attentionGroups.zipIdx { s with currHitLength := n } s' ∧
      (∀ g ∈ c.attentionGroups, isLookedUp g s = g.spec.isFullAttention) ∧
      c.Later s₁ s'.currHitLength s' := by
  have hlook : ∀ g ∈ c.attentionGroups, isLookedUp g s = g.spec.isFullAttention := by
    intro g hg
    cases hfull : g.spec.isFullAttention with
    | false => rw [isLookedUp, hfull, Bool.false_and]
    | true =>
      obtain ⟨m, hm, -⟩ := stored hfirst hg
      exact isLookedUp_of_stored hfull (groupIds_ne_nil hg) (hm.congr (h.kept g hg hfull))
  have hn : n ≤ maxHit := h.le.trans (PassSpec.curr_le hfirst)
  obtain ⟨s', hs', hpass⟩ := exists_checkGroups hhash hsupported hn
    fun _ _ _ ↦ h.aligned
  refine ⟨s', hs', hpass, hlook, hpass.curr_le.trans h.le, hpass.aligned (.inl h.aligned),
    fun g hg hfull gid hgid ↦ ?_⟩
  rw [← h.kept g hg hfull gid hgid]
  refine hpass.kept gid fun gi hgi hmem ↦ ?_
  -- the only spec group of `gid` is `g`
  obtain rfl := eq_of_mem_groupIds hg (fst_mem_of_mem_zipIdx hgi) hgid hmem
  exact (hlook _ hg).trans hfull

/-- The loop after the first pass. -/
theorem descend :
    ∃ m s', descend (c.checkGroups p hashes maxHit) false n s =
        .ok (m, s') ∧ m ≤ n ∧ c.Settled p hashes s₁ m s' := by
  refine descend_invariant h ?_
  intro n s h
  obtain ⟨s', hs', hpass, hlook, hlater⟩ := laterPass hfirst hhash hsupported h
  refine ⟨_, s', hs', fun hle ↦ ⟨⟨h.le, h.aligned, hlater.kept⟩, fun g hg hfull ↦ ?_⟩,
    fun _ ↦ hlater⟩
  obtain ⟨idx, hidx⟩ := exists_zipIdx 0 hg
  obtain ⟨m, hm, hlow, hhigh⟩ := hpass.stored _ hidx ((hlook g hg).trans hfull)
  rwa [le_antisymm hhigh (hle.trans hlow)] at hm

end FirstPass

variable (c p hashes maxHit) in
/-- How the loop ends after the first pass: nothing was shortened, one pass suffices, or more passes
follow. -/
inductive Ends (s₁ : HitState) : ℕ → HitState → Prop
  | unchanged (h : maxHit ≤ s₁.currHitLength) : Ends s₁ s₁.currHitLength s₁
  | once (h : c.isSimpleHybrid = true) : Ends s₁ s₁.currHitLength s₁
  | more {n : ℕ} {s : HitState} (h : c.isSimpleHybrid = false)
      (hlt : s₁.currHitLength < maxHit)
      (hloop : descend (c.checkGroups p hashes maxHit) false
        s₁.currHitLength s₁ = .ok (n, s)) : Ends s₁ n s

theorem exists_settled (hhash : maxHit / c.pool.hashBlockSize ≤ hashes.length)
    (hsupported : c.Supported) :
    ∃ s₁ n s, c.checkGroups p hashes maxHit maxHit HitState.init =
        .ok (s₁.currHitLength, s₁) ∧
      c.FirstPass p hashes maxHit s₁ ∧
      descend (c.checkGroups p hashes maxHit) c.isSimpleHybrid maxHit HitState.init = .ok (n, s) ∧
      c.Settled p hashes s₁ n s ∧ c.Ends p hashes maxHit s₁ n s := by
  have hinit : ∀ g ∈ c.attentionGroups, isLookedUp g HitState.init = true →
      c.lcmBlockSize ∣ maxHit := fun g _ h ↦
    Bool.noConfusion (h.symm.trans isLookedUp_init)
  obtain ⟨s₁, hs₁, hpass⟩ := exists_checkGroups hhash hsupported le_rfl hinit
  have hfirst : c.FirstPass p hashes maxHit s₁ := hpass
  by_cases hle : maxHit ≤ s₁.currHitLength
  · have heq : s₁.currHitLength = maxHit := le_antisymm hpass.curr_le hle
    refine ⟨s₁, _, s₁, hs₁, hfirst, ?_, { hfirst.later with stored := fun g hg _ ↦ ?_ },
      .unchanged hle⟩
    · rw [heq]
      exact descend_of_le hs₁ hle
    · obtain ⟨n, hn, hlow, hhigh⟩ := hfirst.stored hg
      rwa [le_antisymm (hhigh.trans hle) hlow] at hn
  · have hlt := Nat.lt_of_not_le hle
    cases hsimple : c.isSimpleHybrid with
    | false =>
      obtain ⟨n, s, hloop, -, hsettled⟩ := hfirst.descend hhash hsupported hfirst.later
      refine ⟨s₁, n, s, hs₁, hfirst, ?_, hsettled, .more hsimple hlt hloop⟩
      rw [descend_of_lt hs₁ hlt]
      exact hloop
    | true =>
      refine ⟨s₁, _, s₁, hs₁, hfirst, descend_once hs₁ hlt,
        { hfirst.later with stored := fun g hg hfull ↦ ?_ }, .once hsimple⟩
      -- the spec that is not full attention was looked up last
      rw [isSimpleHybrid] at hsimple
      split at hsimple
      · rename_i f g' hgroups
        rw [hgroups] at hg
        rcases mem_cons.1 hg with rfl | hg
        · cases hfull.symm.trans hsimple
        · cases mem_singleton.1 hg
          refine hpass.last (g, 1) ?_ isLookedUp_init
          rw [hgroups]
          rfl
      · cases hsimple

/-! ### Well-formed results -/

variable (c p hashes maxHit) in
/-- **A well-formed result**: the hit is within its bound and aligned to all block sizes, and every
group has a sound list that covers it exactly. -/
structure WellFormedHit (r : HybridHit) : Prop where
  hitLength_le : r.hitLength ≤ maxHit
  lcm_dvd : c.lcmBlockSize ∣ r.hitLength
  covers : ∀ (gid : ℕ) (g : KVCacheGroup), c.kvCacheGroups[gid]? = some g →
    ∃ blocks, r.blocks[gid]? = some blocks ∧
      blocks.length * g.spec.blockSize = r.hitLength ∧
      g.spec.kind.Sound g.spec.blockSize r.hitLength
        (c.CachedAt p hashes g.spec.blockSize gid) blocks

/-- Only the lists of a first full-attention spec are cut. -/
theorem truncate_of_notMem {f : SpecGroup}
    (hgroups : c.attentionGroups = f :: gs) (h : f.spec.isFullAttention = true → gid ∉ f.groupIds) :
    c.truncate n m gid = (m gid).getD [] := by
  rw [truncate, hgroups]
  exact if_neg fun hcut ↦ h hcut.1 hcut.2

section

variable (h : c.Settled p hashes s₁ n s) (hfirst : c.FirstPass p hashes maxHit s₁)

include h hfirst

/-- The list of a first full-attention spec is cut to the hit. -/
theorem Settled.truncate_first
    (hgroups : c.attentionGroups = g :: gs) (hfull : g.spec.isFullAttention = true)
    (hgid : gid ∈ g.groupIds) :
    (c.truncate n s.hitBlocksByGroup gid).length * g.spec.blockSize = n ∧
      g.spec.kind.Sound g.spec.blockSize n (c.CachedAt p hashes g.spec.blockSize gid)
        (c.truncate n s.hitBlocksByGroup gid) := by
  have hg : g ∈ c.attentionGroups := hgroups ▸ mem_cons_self
  obtain ⟨m, hm, hle, -⟩ := hfirst.stored hg
  obtain ⟨blocks, hblocks, hlen, hsound⟩ := hm gid hgid
  have hcut : c.truncate n s.hitBlocksByGroup gid = blocks.take (n / g.spec.blockSize) := by
    rw [truncate, hgroups]
    show (if _ then _ else _) = _
    rw [if_pos ⟨hfull, hgid⟩, h.kept g hg hfull gid hgid, hblocks]
    rfl
  have hdvd : g.spec.blockSize ∣ n := (blockSize_dvd_lcm hg).trans h.aligned
  have hkind : g.spec.kind = .fullAttention := of_decide_eq_true hfull
  rw [hcut]
  refine ⟨?_, ?_⟩
  · have hfits : n / g.spec.blockSize ≤ blocks.length :=
      Nat.div_le_of_le_mul (by rw [mul_comm, hlen]; exact h.le.trans hle)
    rw [length_take, min_eq_left hfits, Nat.div_mul_cancel hdvd]
  · rw [hkind] at hsound ⊢
    exact hsound.take _

/-- **The result is well formed** when the lists of the further full-attention specs, found in the
first pass, happen to have the final length. -/
theorem Settled.wellFormedHit_iff {b : ℕ} :
    c.WellFormedHit p hashes maxHit
        ⟨(range c.kvCacheGroups.length).map (c.truncate n s.hitBlocksByGroup), n, b⟩ ↔
      ∀ g ∈ c.attentionGroups.tail, g.spec.isFullAttention = true →
        c.Stored p hashes s₁.hitBlocksByGroup g n := by
  obtain ⟨f, gs, hgroups⟩ := exists_cons_of_ne_nil (attentionGroups_ne_nil)
  have hblocks : ∀ gid k, c.kvCacheGroups[gid]? = some k →
      ((range c.kvCacheGroups.length).map (c.truncate n s.hitBlocksByGroup))[gid]? =
        some (c.truncate n s.hitBlocksByGroup gid) := by
    intro gid k hk
    rw [getElem?_map, getElem?_range (List.getElem?_eq_some_iff.1 hk).1]
    rfl
  rw [hgroups]
  constructor
  · intro hwf g hg hfull gid hgid
    have hg' : g ∈ c.attentionGroups := hgroups ▸ mem_cons_of_mem f hg
    obtain ⟨k, hk, hspec⟩ := exists_group_of_mem hg' hgid
    obtain ⟨blocks, hget, hlen, hsound⟩ := hwf.covers gid k hk
    rw [hspec] at hlen hsound
    obtain ⟨m, hm, -⟩ := hfirst.stored hg'
    obtain ⟨blocks', hblocks', -⟩ := hm gid hgid
    have heq : blocks = blocks' := by
      have htrunc := truncate_of_notMem (n := n) (m := s.hitBlocksByGroup) hgroups
        fun _ ↦ notMem_groupIds_of_mem_tail hgroups hg hgid
      rw [hblocks gid k hk, htrunc, h.kept g hg' hfull gid hgid, hblocks'] at hget
      exact (Option.some.inj hget).symm
    exact ⟨blocks, heq ▸ hblocks', hlen, hsound⟩
  · intro htail
    refine ⟨h.le.trans (PassSpec.curr_le hfirst), h.aligned, fun gid k hk ↦ ?_⟩
    obtain ⟨g, hg, hgid, hspec⟩ := exists_specGroup hk
    refine ⟨_, hblocks gid k hk, ?_⟩
    rw [← hspec]
    cases hfull : g.spec.isFullAttention with
    | false =>
      obtain ⟨blocks, hs, hlen, hsound⟩ := h.stored g hg hfull gid hgid
      rw [truncate_of_notMem hgroups, hs]
      · exact ⟨hlen, hsound⟩
      · intro hf hmem
        rw [eq_of_mem_groupIds hg (hgroups ▸ mem_cons_self) hgid hmem, hf] at hfull
        cases hfull
    | true =>
      rcases mem_cons.1 (hgroups ▸ hg) with rfl | hgs
      · exact h.truncate_first hfirst hgroups hfull hgid
      · obtain ⟨blocks, hs, hlen, hsound⟩ := htail g hgs hfull gid hgid
        rw [truncate_of_notMem hgroups fun _ ↦ notMem_groupIds_of_mem_tail hgroups hgs hgid,
          h.kept g hg hfull gid hgid, hs]
        exact ⟨hlen, hsound⟩

end

theorem Stored.unique {n' : ℕ} (hg : g ∈ c.attentionGroups)
    (h : c.Stored p hashes m g n) (h' : c.Stored p hashes m g n') : n = n' := by
  obtain ⟨gid, hgid⟩ := exists_mem_of_ne_nil _ (groupIds_ne_nil hg)
  obtain ⟨blocks, hblocks, hlen, -⟩ := h gid hgid
  obtain ⟨blocks', hblocks', hlen', -⟩ := h' gid hgid
  cases hblocks.symm.trans hblocks'
  exact hlen.symm.trans hlen'

/-! ### The second full-attention spec -/

variable {f₁ f₂ : SpecGroup} {rest : List SpecGroup} {b : HitState}

variable (c p hashes maxHit) in
/-- **The first pass after its first two specs**, when the state is `b`. -/
structure TwoSpecs (f₁ f₂ : SpecGroup) (rest : List SpecGroup) (b s₁ : HitState) : Prop where
  groups : c.attentionGroups = f₁ :: f₂ :: rest
  length_eq : (c.lookupLength p hashes maxHit f₁ f₁.useEagle maxHit).bind
    (c.lookupLength p hashes maxHit f₂ f₂.useEagle) = .ok b.currHitLength
  le : b.currHitLength ≤ maxHit
  stored : c.Stored p hashes s₁.hitBlocksByGroup f₂ b.currHitLength
  pass : c.PassSpec p hashes maxHit (rest.zipIdx 2) b s₁
  fresh : ∀ g ∈ rest, isLookedUp g b = false
  verified : ∀ idx ∈ b.eagleVerified, idx < 2

theorem LookedUp.verified_lt {k : ℕ} (h : c.LookedUp p hashes maxHit s g idx s₁) (hidx : idx < k)
    (hlt : ∀ i ∈ s.eagleVerified, i < k) : ∀ i ∈ s₁.eagleVerified, i < k := by
  rw [h.verified]
  split
  · exact forall_mem_cons.2 ⟨hidx, hlt⟩
  · split
    · nofun
    · exact hlt

theorem exists_twoSpecs (hhash : maxHit / c.pool.hashBlockSize ≤ hashes.length)
    (hsupported : c.Supported) (hgroups : c.attentionGroups = f₁ :: f₂ :: rest)
    (hs₁ : c.checkGroups p hashes maxHit maxHit HitState.init = .ok (s₁.currHitLength, s₁)) :
    ∃ b, c.TwoSpecs p hashes maxHit f₁ f₂ rest b s₁ := by
  have hmem : ∀ g ∈ f₁ :: f₂ :: rest, g ∈ c.attentionGroups := fun g hg ↦ hgroups ▸ hg
  obtain ⟨hf₁, hf₂, hrest⟩ := forall_mem_cons.1 hmem |>.imp_right forall_mem_cons.1
  have hnodup := c.nodup_groupIds
  rw [hgroups, flatMap_cons, flatMap_cons, nodup_append, nodup_append] at hnodup
  obtain ⟨-, ⟨-, hnodup, hdisj₂⟩, hdisj₁⟩ := hnodup
  -- the three parts of the pass
  set s₀ : HitState := { HitState.init with currHitLength := maxHit } with hs₀
  obtain ⟨a, ha, ⟨hlook, -⟩ | ⟨-, hstep₁⟩⟩ := checkGroup_spec (p := p) 0
    hhash hf₁ (hsupported f₁ hf₁) le_rfl
    fun h ↦ Bool.noConfusion (h.symm.trans isLookedUp_init)
  · exact Bool.noConfusion (hlook.symm.trans (isLookedUp_init))
  have hcurr₁ : a.currHitLength ≤ maxHit := hstep₁.curr_le
  have hfresh₂ : isLookedUp f₂ a = false := by
    rw [isLookedUp_congr fun gid hgid ↦ hstep₁.kept gid fun h ↦
      hdisj₁ gid h gid (mem_append_left _ hgid) rfl]
    exact isLookedUp_init
  obtain ⟨b, hb, ⟨hlook, -⟩ | ⟨-, hstep₂⟩⟩ := checkGroup_spec (p := p) 1
    hhash hf₂ (hsupported f₂ hf₂) hcurr₁ fun _ ↦ hstep₁.aligned
  · exact Bool.noConfusion (hlook.symm.trans hfresh₂)
  have hcurr₂ : b.currHitLength ≤ maxHit := hstep₂.curr_le.trans hcurr₁
  have hmemRest : ∀ gi ∈ rest.zipIdx 2, gi.1 ∈ c.attentionGroups := fun gi hgi ↦
    hrest gi.1 (fst_mem_of_mem_zipIdx hgi)
  obtain ⟨s', hs', hpass⟩ := exists_pass hhash hsupported hmemRest
    (nodup_zipIdx 2 hnodup).1 (nodup_zipIdx 2 hnodup).2 hcurr₂ fun _ _ _ ↦ hstep₂.aligned
  have hfold : c.checkGroups p hashes maxHit maxHit HitState.init = .ok (s'.currHitLength, s') := by
    rw [checkGroups, hgroups]
    show Except.map _ (((f₁, 0) :: (f₂, 1) :: rest.zipIdx 2).foldlM _ s₀) = _
    rw [foldlM_cons_eq_ok.2 ⟨a, ha, foldlM_cons_eq_ok.2 ⟨b, hb, hs'⟩⟩]
    rfl
  rw [hs₁] at hfold
  obtain rfl : s₁ = s' := (Prod.mk.inj (ok.inj hfold)).2
  have hverified₁ : ∀ i ∈ a.eagleVerified, i < 1 := hstep₁.verified_lt zero_lt_one nofun
  refine ⟨b, hgroups, ?_, hcurr₂, hstep₂.stored.congr fun gid hgid ↦ ?_, hpass, fun g hg ↦ ?_,
    hstep₂.verified_lt Nat.one_lt_two fun i hi ↦ (hverified₁ i hi).trans Nat.one_lt_two⟩
  · have hlen₁ := hstep₁.length_eq
    have hlen₂ := hstep₂.length_eq
    rw [dropsEagleBlock_eq_useEagle not_mem_nil] at hlen₁
    rw [dropsEagleBlock_eq_useEagle fun h ↦ lt_irrefl _ (hverified₁ 1 h)] at hlen₂
    rw [show c.lookupLength p hashes maxHit f₁ f₁.useEagle maxHit = .ok a.currHitLength from hlen₁]
    exact hlen₂
  · refine hpass.kept gid fun gi hgi hmem ↦ ?_
    exact (hdisj₂ gid hgid gid (mem_flatMap.2 ⟨gi.1, fst_mem_of_mem_zipIdx hgi, hmem⟩) rfl).elim
  · have hkept : ∀ gid ∈ g.groupIds, b.hitBlocksByGroup gid = s₀.hitBlocksByGroup gid := by
      intro gid hgid
      have hin : gid ∈ rest.flatMap (·.groupIds) := mem_flatMap.2 ⟨g, hg, hgid⟩
      rw [hstep₂.kept gid fun h ↦ hdisj₂ gid h gid hin rfl]
      exact hstep₁.kept gid fun h ↦ hdisj₁ gid h gid (mem_append_right _ hin) rfl
    rw [isLookedUp_congr hkept]
    exact isLookedUp_init

namespace TwoSpecs

variable (h : c.TwoSpecs p hashes maxHit f₁ f₂ rest b s₁)
include h

theorem mem_groups : ∀ g ∈ f₂ :: rest, g ∈ c.attentionGroups := by
  rw [h.groups]
  exact fun g ↦ mem_cons_of_mem f₁

theorem mem_rest {gi : SpecGroup × ℕ} (hgi : gi ∈ rest.zipIdx 2) :
    gi.1 ∈ rest ∧ 2 ≤ gi.2 ∧ gi ∈ c.attentionGroups.zipIdx := by
  refine ⟨fst_mem_of_mem_zipIdx hgi, le_snd_of_mem_zipIdx hgi, ?_⟩
  rw [h.groups]
  exact mem_cons_of_mem _ (mem_cons_of_mem _ hgi)

/-- The other lists of the first pass have the length of the second spec when the whole lookup does
not go below it. -/
theorem stored_iff (hfull : f₂.spec.isFullAttention = true) (hn : n ≤ s₁.currHitLength) :
    (∀ g ∈ c.attentionGroups.tail, g.spec.isFullAttention = true →
      c.Stored p hashes s₁.hitBlocksByGroup g n) ↔ b.currHitLength = n := by
  have hf₂ := h.mem_groups f₂ mem_cons_self
  rw [h.groups]
  constructor
  · intro hall
    exact h.stored.unique hf₂ (hall f₂ mem_cons_self hfull)
  · rintro rfl g hg -
    rcases mem_cons.1 hg with rfl | hg
    · exact h.stored
    · obtain ⟨idx, hidx⟩ := exists_zipIdx 2 hg
      obtain ⟨m, hm, hlow, hhigh⟩ := h.pass.stored _ hidx (h.fresh _ hg)
      rwa [le_antisymm hhigh (hn.trans hlow)] at hm

/-- The first pass ends at the length of the second spec when the first lookup of every further
spec accepts it. -/
theorem curr_eq_iff : s₁.currHitLength = b.currHitLength ↔ ∀ g ∈ rest,
    c.lookupLength p hashes maxHit g g.useEagle b.currHitLength = .ok b.currHitLength := by
  rw [h.pass.curr_eq_iff]
  have hdrop : ∀ gi ∈ rest.zipIdx 2, dropsEagleBlock gi.1 gi.2 b = gi.1.useEagle := fun gi hgi ↦
    dropsEagleBlock_eq_useEagle fun hmem ↦
      absurd (h.verified _ hmem) (not_lt.2 (h.mem_rest hgi).2.1)
  constructor
  · intro hall g hg
    obtain ⟨idx, hidx⟩ := exists_zipIdx 2 hg
    exact hdrop _ hidx ▸ hall _ hidx (h.fresh _ hg)
  · intro hall gi hgi _
    rw [hdrop gi hgi]
    exact hall _ (h.mem_rest hgi).1

/-- The second pass starts with every eagle lookup verified, so it keeps the length when the plain
lookup of every further spec accepts it. -/
theorem secondPass_iff (hfull : f₂.spec.isFullAttention = true)
    (hfull₁ : f₁.spec.isFullAttention = true) (hcurr : s₁.currHitLength = b.currHitLength)
    (hlook : ∀ g ∈ c.attentionGroups, isLookedUp g s₁ = g.spec.isFullAttention)
    (hpass : c.PassSpec p hashes maxHit c.attentionGroups.zipIdx s₁ s') :
    s'.currHitLength = s₁.currHitLength ↔ ∀ g ∈ rest, g.spec.isFullAttention = false →
      c.lookupLength p hashes maxHit g false b.currHitLength = .ok b.currHitLength := by
  have hdrop : ∀ gi ∈ rest.zipIdx 2, dropsEagleBlock gi.1 gi.2 s₁ = false := by
    intro gi hgi
    rw [dropsEagleBlock]
    cases heagle : gi.1.useEagle with
    | false => rfl
    | true =>
      have hmem : gi.2 ∈ s₁.eagleVerified := (h.pass.verified hcurr gi.2).2
        (.inr ⟨gi, hgi, rfl, h.fresh _ (h.mem_rest hgi).1, heagle⟩)
      rw [contains_iff_mem.2 hmem]
      rfl
  rw [hpass.curr_eq_iff]
  constructor
  · intro hall g hg hg_full
    obtain ⟨idx, hidx⟩ := exists_zipIdx 2 hg
    obtain ⟨-, -, hmem⟩ := h.mem_rest hidx
    have hnot : isLookedUp g s₁ = false :=
      (hlook g (fst_mem_of_mem_zipIdx hmem)).trans hg_full
    have haccept := hall _ hmem hnot
    rwa [hdrop _ hidx, hcurr] at haccept
  · intro hall gi hgi hnot
    have hmem := fst_mem_of_mem_zipIdx hgi
    have hother : gi.1.spec.isFullAttention = false := (hlook gi.1 hmem).symm.trans hnot
    rw [h.groups] at hgi
    -- the first two specs are full attention
    rcases mem_cons.1 hgi with rfl | hgi
    · exact Bool.noConfusion (hfull₁.symm.trans hother)
    rcases mem_cons.1 hgi with rfl | hgi
    · exact Bool.noConfusion (hfull.symm.trans hother)
    rw [hdrop gi hgi, hcurr]
    exact hall gi.1 (fst_mem_of_mem_zipIdx hgi) hother

end TwoSpecs

/-- At the maximal length a first lookup that accepts is also a plain one: a dropped block leaves
less than the maximum. -/
theorem plain_of_first {m : ℕ} (hhash : maxHit / c.pool.hashBlockSize ≤ hashes.length)
    (hsupported : g.spec.Supported g.useEagle c.lcmBlockSize) (hm : m = maxHit)
    (h : c.lookupLength p hashes maxHit g g.useEagle m = .ok m) :
    c.lookupLength p hashes maxHit g false m = .ok m := by
  subst hm
  cases heagle : g.useEagle with
  | false => rwa [heagle] at h
  | true =>
    have hbound {drop : Bool} : lookupBound m g drop m ≤ m := lookupBound_le le_rfl
    have hdrop : g.spec.Supported true c.lcmBlockSize := heagle ▸ hsupported
    have hkeep : g.spec.Supported false c.lcmBlockSize := supported_of_useEagle hsupported nofun
    obtain ⟨rows, hrows, hspec⟩ := lookup_spec hhash hbound hdrop
    obtain ⟨rows', hrows', hspec'⟩ := lookup_spec hhash hbound hkeep
    rw [heagle, lookupLength, hrows] at h
    have hlen : rows.length * g.spec.blockSize = m := ok.inj h
    have hle := hspec.length_le
    rw [if_pos rfl] at hle
    have hdiv : lookupBound m g true m / g.spec.blockSize ≤ m / g.spec.blockSize :=
      Nat.div_le_div_right hbound
    -- the dropped block would fit otherwise
    have hrows0 : rows.length = 0 := by
      have hm : m / g.spec.blockSize = rows.length := by
        rw [← hlen]
        exact Nat.mul_div_cancel _ g.spec.blockSize_pos
      omega
    rw [hrows0, zero_mul] at hlen
    subst hlen
    have hle' := length_mul_le hspec'
    rw [lookupLength, hrows']
    exact congrArg ok (le_zero.1 hle')

variable (c p hashes maxHit) in
/-- **Nothing shortens the hit after the second full-attention spec**: the first two lookups give a
length that the first lookup of every further spec accepts, and so does the plain one of every spec
that later passes look up again. -/
def LaterSpecsAccept : Prop :=
  match c.attentionGroups with
  | f₁ :: f₂ :: rest => f₂.spec.isFullAttention = true → ∀ n,
      (c.lookupLength p hashes maxHit f₁ f₁.useEagle maxHit).bind
          (c.lookupLength p hashes maxHit f₂ f₂.useEagle) = .ok n →
        ∀ g ∈ rest, c.lookupLength p hashes maxHit g g.useEagle n = .ok n ∧
          (g.spec.isFullAttention = false → c.lookupLength p hashes maxHit g false n = .ok n)
  | _ => True

theorem TwoSpecs.laterSpecsAccept_iff (h : c.TwoSpecs p hashes maxHit f₁ f₂ rest b s₁)
    (hfull : f₂.spec.isFullAttention = true) :
    c.LaterSpecsAccept p hashes maxHit ↔ ∀ g ∈ rest,
      c.lookupLength p hashes maxHit g g.useEagle b.currHitLength =
          .ok b.currHitLength ∧
        (g.spec.isFullAttention = false →
          c.lookupLength p hashes maxHit g false b.currHitLength = .ok b.currHitLength) := by
  rw [LaterSpecsAccept, h.groups]
  constructor
  · intro hall
    exact hall hfull _ h.length_eq
  · intro hall _ n hn
    rw [h.length_eq] at hn
    cases hn
    exact hall

/-- Full attention comes first. -/
theorem attentionGroups_pairwise : c.attentionGroups.Pairwise fun g g' ↦
    g'.spec.isFullAttention = true → g.spec.isFullAttention = true := by
  rw [attentionGroups, pairwise_append]
  refine ⟨?_, ?_, ?_⟩
  · exact pairwise_of_forall_mem_list fun g hg _ _ _ ↦ (mem_filter.1 hg).2
  · refine pairwise_of_forall_mem_list fun _ _ g' hg' hfull ↦ ?_
    have := (mem_filter.1 hg').2
    rw [hfull] at this
    cases this
  · exact fun g hg _ _ _ ↦ (mem_filter.1 hg).2

/-- The lookup ends at the length of the second full-attention spec exactly when the further specs
accept that length. -/
theorem TwoSpecs.eq_iff (h : c.TwoSpecs p hashes maxHit f₁ f₂ rest b s₁)
    (hhash : maxHit / c.pool.hashBlockSize ≤ hashes.length)
    (hsupported : c.Supported) (hfull : f₂.spec.isFullAttention = true)
    (hfirst : c.FirstPass p hashes maxHit s₁) (hends : c.Ends p hashes maxHit s₁ n s) :
    b.currHitLength = n ↔ c.LaterSpecsAccept p hashes maxHit := by
  rw [h.laterSpecsAccept_iff hfull, forall₂_and, ← h.curr_eq_iff, eq_comm]
  cases hends with
  | unchanged hle =>
    -- no second pass: plain lookups at the maximum accept as well
    refine ⟨fun heq ↦ ⟨heq, fun g hg _ ↦ ?_⟩, And.left⟩
    have hmem := h.mem_groups g (mem_cons_of_mem _ hg)
    have hmax : b.currHitLength = maxHit := le_antisymm h.le (hle.trans_eq heq)
    exact plain_of_first hhash (hsupported g hmem) hmax (h.curr_eq_iff.1 heq g hg)
  | once hsimple =>
    -- there is no further spec
    refine ⟨fun heq ↦ ⟨heq, fun g hg ↦ ?_⟩, And.left⟩
    rw [isSimpleHybrid, h.groups] at hsimple
    cases rest with
    | nil => cases hg
    | cons _ _ => cases hsimple
  | more hsimple hlt hloop =>
    have hpairs := attentionGroups_pairwise (c := c)
    rw [h.groups, pairwise_cons] at hpairs
    have hfull₁ := hpairs.1 f₂ mem_cons_self hfull
    obtain ⟨s', hs', hpass, hlook, hlater⟩ := hfirst.laterPass hhash hsupported hfirst.later
    have hsecond := fun hcurr ↦ h.secondPass_iff hfull hfull₁ hcurr hlook hpass
    have hle := h.pass.curr_le
    rcases lt_or_ge s'.currHitLength s₁.currHitLength with hdown | hstay
    · -- the second pass shortens the hit, and the rest of the loop keeps it below
      rw [descend_of_lt hs' hdown] at hloop
      obtain ⟨m, t, hm, hmle, -⟩ := hfirst.descend hhash hsupported hlater
      rw [hloop] at hm
      obtain rfl : n = m := (Prod.mk.inj (ok.inj hm)).1
      refine iff_of_false (by omega) fun hboth ↦ ?_
      have := (hsecond hboth.1).2 hboth.2
      omega
    · rw [descend_of_le hs' hstay] at hloop
      obtain rfl : s₁.currHitLength = n := (Prod.mk.inj (ok.inj hloop)).1
      refine ⟨fun heq ↦ ⟨heq, (hsecond heq).1 ?_⟩, And.left⟩
      exact le_antisymm hpass.curr_le hstay

/-- All full-attention specs end with lists of the final length exactly when nothing shortens the
hit after the second of them. -/
theorem Settled.stored_iff (h : c.Settled p hashes s₁ n s)
    (hhash : maxHit / c.pool.hashBlockSize ≤ hashes.length) (hsupported : c.Supported)
    (hs₁ : c.checkGroups p hashes maxHit maxHit HitState.init = .ok (s₁.currHitLength, s₁))
    (hfirst : c.FirstPass p hashes maxHit s₁) (hends : c.Ends p hashes maxHit s₁ n s) :
    (∀ g ∈ c.attentionGroups.tail, g.spec.isFullAttention = true →
      c.Stored p hashes s₁.hitBlocksByGroup g n) ↔ c.LaterSpecsAccept p hashes maxHit := by
  cases hgroups : c.attentionGroups with
  | nil => exact absurd hgroups attentionGroups_ne_nil
  | cons f₁ gs =>
    cases gs with
    | nil =>
      rw [LaterSpecsAccept, hgroups]
      exact iff_of_true nofun trivial
    | cons f₂ rest =>
      have hpairs := attentionGroups_pairwise (c := c)
      rw [hgroups, pairwise_cons, pairwise_cons] at hpairs
      cases hfull : f₂.spec.isFullAttention with
      | false =>
        refine iff_of_true (fun g hg hg_full ↦ ?_) ?_
        · rcases mem_cons.1 hg with rfl | hg
          · exact Bool.noConfusion (hfull.symm.trans hg_full)
          · exact Bool.noConfusion (hfull.symm.trans (hpairs.2.1 g hg hg_full))
        · rw [LaterSpecsAccept, hgroups]
          exact fun h ↦ Bool.noConfusion (hfull.symm.trans h)
      | true =>
        obtain ⟨b, htwo⟩ := exists_twoSpecs hhash hsupported hgroups hs₁
        rw [← hgroups, htwo.stored_iff hfull h.le]
        exact htwo.eq_iff hhash hsupported hfull hfirst hends

/-- A first pass that returns has looked up every spec, with its eagle block dropped. -/
theorem supported_of_pass {gs : List (SpecGroup × ℕ)} {s : HitState}
    (h : gs.foldlM (c.checkGroup p hashes maxHit) s = .ok s')
    (hnodup : (gs.flatMap (·.1.groupIds)).Nodup) (hidx : (gs.map (·.2)).Nodup)
    (hfresh : ∀ gi ∈ gs, isLookedUp gi.1 s = false ∧ gi.2 ∉ s.eagleVerified) :
    ∀ gi ∈ gs, gi.1.spec.Supported gi.1.useEagle c.lcmBlockSize := by
  induction gs generalizing s with
  | nil => nofun
  | cons gi gs ih =>
    obtain ⟨g, idx⟩ := gi
    obtain ⟨⟨hlook, hver⟩, hfresh⟩ := forall_mem_cons.1 hfresh
    rw [flatMap_cons, nodup_append] at hnodup
    rw [map_cons, nodup_cons] at hidx
    obtain ⟨t, ht, hrest⟩ := foldlM_cons_eq_ok.1 h
    rw [checkGroup, if_neg (Bool.eq_false_iff.1 hlook)] at ht
    have hdrop : dropsEagleBlock g idx s = g.useEagle := dropsEagleBlock_eq_useEagle hver
    obtain ⟨rows, hrows, rfl⟩ := map_eq_ok.1 ht
    refine forall_mem_cons.2 ⟨?_, ih hrest hnodup.2.1 hidx.2 fun gi hgi ↦ ?_⟩
    · exact hdrop ▸ supported_of_findLongestCacheHit_eq_ok hrows
    · refine ⟨?_, fun hmem ↦ ?_⟩
      · rw [isLookedUp_congr fun gid hgid ↦ if_neg fun hin ↦
          hnodup.2.2 gid hin gid (mem_flatMap.2 ⟨gi, hgi, hgid⟩) rfl]
        exact (hfresh gi hgi).1
      · have hor : gi.2 = idx ∨ gi.2 ∈ s.eagleVerified := by
          revert hmem
          show gi.2 ∈ (if _ then _ else _) → _
          split
          · exact mem_cons.1
          · split
            · nofun
            · exact .inr
        rcases hor with rfl | hin
        · exact hidx.1 (mem_map.2 ⟨gi, hgi, rfl⟩)
        · exact (hfresh gi hgi).2 hin

/-- A lookup that returns has made its first pass. -/
theorem supported_of_find_eq_ok {r : HybridHit}
    (h : c.findLongestHybridHit p hashes maxHit = .ok r) : c.Supported := by
  rw [findLongestHybridHit, descend] at h
  cases hpass : c.checkGroups p hashes maxHit maxHit HitState.init with
  | error e =>
    rw [hpass] at h
    cases h
  | ok =>
    intro g hg
    obtain ⟨s', hs', -⟩ := map_eq_ok.1 hpass
    obtain ⟨idx, hidx⟩ := exists_zipIdx 0 hg
    obtain ⟨hids, hnums⟩ := nodup_zipIdx 0 c.nodup_groupIds
    exact supported_of_pass hs' hids hnums (fun gi _ ↦ ⟨isLookedUp_init, not_mem_nil⟩) _ hidx

end Whole

/-- **The hybrid lookup**, for a request with hashes up to the maximal hit length: it returns a
well-formed result exactly when the managers support the specs and nothing shortens the hit after
the second full-attention spec. -/
theorem hybrid_hit_wellFormed_iff (c : HybridKVCacheCoordinator H X E) (p : BlockPool Q H X)
    (hashes : List H) (maxCacheHitLength : ℕ)
    (hhash : maxCacheHitLength / c.pool.hashBlockSize ≤ hashes.length) :
    (∃ r, c.findLongestHybridHit p hashes maxCacheHitLength = .ok r ∧
      c.WellFormedHit p hashes maxCacheHitLength r) ↔
        c.Supported ∧ c.LaterSpecsAccept p hashes maxCacheHitLength := by
  suffices h : c.Supported → ∃ r, c.findLongestHybridHit p hashes maxCacheHitLength = .ok r ∧
      (c.WellFormedHit p hashes maxCacheHitLength r ↔
        c.LaterSpecsAccept p hashes maxCacheHitLength) by
    constructor
    · rintro ⟨r, hr, hwf⟩
      have hsupported := supported_of_find_eq_ok hr
      obtain ⟨r', hr', hiff⟩ := h hsupported
      cases hr.symm.trans hr'
      exact ⟨hsupported, hiff.1 hwf⟩
    · rintro ⟨hsupported, haccept⟩
      obtain ⟨r, hr, hiff⟩ := h hsupported
      exact ⟨r, hr, hiff.2 haccept⟩
  intro hsupported
  obtain ⟨s₁, n, s, hs₁, hfirst, hloop, hsettled, hends⟩ :=
    exists_settled hhash hsupported
  have hfind : c.findLongestHybridHit p hashes maxCacheHitLength = .ok
      ⟨(range c.kvCacheGroups.length).map (c.truncate n s.hitBlocksByGroup), n,
        if n < s.longestHitLength then s.longestHitLength else 0⟩ := by
    rw [findLongestHybridHit, hloop]
    rfl
  exact ⟨_, hfind, (hsettled.wellFormedHit_iff hfirst).trans
    (hsettled.stored_iff hhash hsupported hs₁ hfirst hends)⟩

/-! ### A model with two full-attention specs -/

/-- A plain pool of 16 blocks with hashes over 16 tokens. -/
def sixteenBlocks : PoolConfig ℕ ℕ ℕ where
  numGpuBlocks := 16
  numGpuBlocks_pos := succ_pos _
  enableCaching := true
  hashBlockSize := 16
  hashBlockSize_pos := succ_pos _
  enableKvCacheEvents := false
  stateRange := none
  stateRange_bounds := nofun
  maybeConvertBlockHash := id
  joinHashes := sum
  sha256 := sum

/-- Full attention, the cache of extracted hidden states (a `HiddenStateCacheSpec`, which is a
full-attention spec of its own), and a sliding window of 17 tokens. -/
def hiddenStates : HybridKVCacheCoordinator ℕ ℕ ℕ where
  pool := sixteenBlocks
  kvCacheGroups := [
    ⟨⟨.fullAttention, 16, succ_pos _, 0⟩, false⟩,
    ⟨⟨.fullAttention, 16, succ_pos _, 1⟩, false⟩,
    ⟨⟨.slidingWindow 17, 16, succ_pos _, 0⟩, false⟩]
  groups_ne_nil := cons_ne_nil _ _
  hashBlockSize_dvd := by decide

/-- A pool in which the first two groups have four blocks of a request cached, and the sliding
window the first `windowBlocks` ones. -/
def cachedPool (windowBlocks : ℕ) : BlockPool Unit ℕ ℕ :=
  { BlockPool.init () with
    cachedBlockHashToBlock := fun (h, g) ↦
      if g < 2 ∨ h < windowBlocks then some (.one (1 + h + 4 * g)) else none }

theorem hybrid_hit_wellFormed_hiddenStates :
    64 / hiddenStates.pool.hashBlockSize ≤ [0, 1, 2, 3].length ∧
      ∃ r, hiddenStates.findLongestHybridHit (cachedPool 4) [0, 1, 2, 3] 64 = .ok r ∧
        hiddenStates.WellFormedHit (cachedPool 4) [0, 1, 2, 3] 64 r := by
  refine ⟨by decide, (hybrid_hit_wellFormed_iff hiddenStates (cachedPool 4) [0, 1, 2, 3] 64
    (by decide)).2 ⟨?_, ?_⟩⟩
  · show ∀ g ∈ ([_, _, _] : List SpecGroup), _
    simp only [forall_mem_cons]
    exact ⟨trivial, trivial, trivial, nofun⟩
  · rintro - n hn g hg
    cases hn
    cases mem_singleton.1 hg
    exact ⟨rfl, fun _ ↦ rfl⟩

/-- When the last two blocks of the window have been evicted, the hit is shortened to 32 tokens, but
the hidden-state group keeps its four blocks. -/
theorem hybrid_hit_overlong_hiddenStates :
    ¬ ∃ r, hiddenStates.findLongestHybridHit (cachedPool 2) [0, 1, 2, 3] 64 = .ok r ∧
      hiddenStates.WellFormedHit (cachedPool 2) [0, 1, 2, 3] 64 r := by
  rintro ⟨r, hr, hwf⟩
  have hfind : hiddenStates.findLongestHybridHit (cachedPool 2) [0, 1, 2, 3] 64 =
      .ok ⟨[[1, 2], [5, 6, 7, 8], [0, 10]], 32, 64⟩ := by decide +kernel
  cases hfind.symm.trans hr
  obtain ⟨blocks, hblocks, hlen, -⟩ := hwf.covers 1 _ rfl
  cases hblocks
  exact absurd hlen (by decide)

end HybridKVCacheCoordinator

end OneCatVllm
