import Mathlib.Algebra.GroupWithZero.Nat
import Mathlib.Data.List.Dedup
import Mathlib.Data.List.Pairwise
import Mathlib.Data.List.Perm.Subperm
import OneCatVllm.Lib.Dict
import OneCatVllm.Lib.Grid

/-!
# Forming the KV cache groups of a hybrid model

`_get_kv_cache_groups_uniform_page_size` buckets the layers by spec, chooses one group size for all
buckets, and deals each bucket with a stride over as many groups as it needs. The general case of
`get_kv_cache_config_from_groups` lets the layers at one position of the groups share a tensor.

Only that the group size is positive matters about the heuristics that choose it.
-/

namespace OneCatVllm.KvGroups

open Dict Grid List Nat

variable {L S : Type} (isSlidingWindow : S → Bool)

/-- The map from layer names to specs, as its items. -/
structure KVCacheSpecs (L S : Type) where
  items : List (L × S)
  nodup : (Dict.keys items).Nodup

/-! ### The group size -/

/-- The divisors of `common` above `low`, the largest first. -/
def candidates (common low : ℕ) : List ℕ :=
  (range' (low + 1) (common - low)).reverse.filter (common % · = 0)

/-- `_select_hybrid_kv_cache_group_size`; `min` raises when there are no counts. -/
def selectHybridKvCacheGroupSize (layerCounts : List ℕ) : Option ℕ := do
  let minNumLayers ← layerCounts.min?
  let maxNumLayers ← layerCounts.max?
  let repeated := layerCounts.filter (1 < ·)
  let padded := fun candidate ↦ candidate * (layerCounts.map (cdiv · candidate)).sum
  if 2 * maxNumLayers < 3 * minNumLayers then
    return maxNumLayers
  else if minNumLayers = 1 ∧ repeated ≠ [] then
    return ((candidates (repeated.foldl Nat.gcd 0) 1).find? fun candidate ↦
      (padded candidate - layerCounts.sum) * 5 ≤ layerCounts.sum).getD 1
  else
    return minNumLayers

/-- `_prefer_padding_sliding_window_layers`. -/
def preferPaddingSlidingWindowLayers (types : List (S × List L)) (groupSize : ℕ) : ℕ :=
  let slidingWindow := (types.filter (isSlidingWindow ·.1)).map (·.2.length)
  let other := (types.filter (!isSlidingWindow ·.1)).map (·.2.length)
  if groupSize ≤ 1 ∨ slidingWindow = [] ∨ other = [] ∨ slidingWindow.min? ≠ some groupSize then
    groupSize
  else
    ((candidates (other.foldl Nat.gcd 0) groupSize).find? fun candidate ↦ slidingWindow.all
      fun count ↦ (candidate - count % candidate) % candidate ≤ count).getD groupSize

theorem le_find_candidates (common low : ℕ) (fits : ℕ → Bool) :
    low ≤ ((candidates common low).find? fits).getD low := by
  rcases h : (candidates common low).find? fits with - | candidate
  · exact le_rfl
  · have hmem := mem_of_find?_eq_some h
    simp only [candidates, mem_filter, mem_reverse, mem_range'_1] at hmem
    exact le_of_succ_le hmem.1.1

/-- The group size. -/
def groupSize (types : List (S × List L)) : Option ℕ :=
  (selectHybridKvCacheGroupSize (types.map (·.2.length))).map
    (preferPaddingSlidingWindowLayers isSlidingWindow types)

/-- A group size is chosen as soon as there is a layer, and it is positive. -/
theorem exists_groupSize {types : List (S × List L)} (hne : types ≠ [])
    (hpos : ∀ type ∈ types, type.2 ≠ []) :
    ∃ size, groupSize isSlidingWindow types = some size ∧ 0 < size := by
  have hcounts : types.map (·.2.length) ≠ [] := by simpa using hne
  have hpos : ∀ count ∈ types.map (·.2.length), 0 < count :=
    forall_mem_map.2 fun type htype ↦ length_pos_iff.2 (hpos type htype)
  obtain ⟨low, hlow⟩ := Option.isSome_iff_exists.1 (isSome_min?_of_ne_nil hcounts)
  obtain ⟨high, hhigh⟩ := Option.isSome_iff_exists.1 (isSome_max?_of_ne_nil hcounts)
  have hselect : ∃ size, selectHybridKvCacheGroupSize (types.map (·.2.length)) = some size ∧
      0 < size := by
    simp only [selectHybridKvCacheGroupSize, hlow, hhigh, Option.bind_eq_bind, Option.bind_some]
    split_ifs
    · exact ⟨_, rfl, hpos high (max?_mem hhigh)⟩
    · exact ⟨_, rfl, le_find_candidates ..⟩
    · exact ⟨_, rfl, hpos low (min?_mem hlow)⟩
  obtain ⟨size, hsize, hsize_pos⟩ := hselect
  refine ⟨_, congrArg (Option.map _) hsize, hsize_pos.trans_le ?_⟩
  dsimp only [preferPaddingSlidingWindowLayers]
  split_ifs
  · exact le_rfl
  · exact le_find_candidates ..

/-! ### The groups and the tensors -/

variable [DecidableEq S]

/-- `same_type_layers`: the layers by spec, in the order in which the specs appear. -/
def sameTypeLayers (items : List (L × S)) : List (S × List L) :=
  (items.map (·.2)).reverse.dedup.reverse.map fun s ↦ (s, (items.filter (·.2 = s)).map (·.1))

/-- `layers[i::num_groups]`, for `i < num_groups`. -/
def stride (layers : List L) (numGroups i : ℕ) : List L :=
  (layers.zipIdx.filter (·.2 % numGroups = i)).map (·.1)

/-- The groups of the layers of one spec. -/
def deal (groupSize : ℕ) (layers : List L) : List (List L) :=
  let numGroups := cdiv layers.length groupSize
  (range numGroups).map (stride layers numGroups)

/-- The layers of the groups that `_get_kv_cache_groups_uniform_page_size` forms. -/
def groupedLayers (spec : KVCacheSpecs L S) : Option (List (List L)) :=
  let types := sameTypeLayers spec.items
  (groupSize isSlidingWindow types).map fun size ↦ types.flatMap fun type ↦ deal size type.2

/-- `shared_by`: the layers that share tensor `i`. -/
def sharedBy (groups : List (List L)) (i : ℕ) : List L := groups.filterMap (·[i]?)

/-- Splitting a list by a key keeps every item. -/
theorem flatMap_filter_perm {α κ : Type} [DecidableEq κ] (key : α → κ) {keys : List κ}
    (hnodup : keys.Nodup) (l : List α) :
    (keys.flatMap fun k ↦ l.filter (key · = k)).Perm (l.filter (key · ∈ keys)) := by
  induction keys with
  | nil => simp
  | cons k keys ih =>
    obtain ⟨hk, hnodup⟩ := nodup_cons.1 hnodup
    refine ((ih hnodup).append_left _).trans ?_
    have h := filter_append_perm (key · = k) (l.filter (key · ∈ k :: keys))
    simp only [filter_filter] at h
    convert h using 2
    · exact filter_congr fun a _ ↦ by grind
    · exact filter_congr fun a _ ↦ by grind

section

variable {size : ℕ} {layers : List L}

theorem flatten_deal_perm (h : 0 < size) (hne : layers ≠ []) :
    (deal size layers).flatten.Perm layers := by
  have hpos := cdiv_pos h (length_pos_iff.2 hne)
  have hperm := (flatMap_filter_perm (·.2 % cdiv layers.length size)
    (nodup_range (n := cdiv layers.length size)) layers.zipIdx).map Prod.fst
  rwa [filter_eq_self.2 fun p _ ↦ by simpa using mod_lt p.2 hpos, map_flatMap,
    zipIdx_map_fst] at hperm

theorem length_stride_le {n : ℕ} (h : layers.length ≤ n * size) (i : ℕ) :
    (stride layers n i).length ≤ size := by
  have hlength : (stride layers n i).length
      = ((range layers.length).filter (· % n = i)).length := by
    rw [range_eq_range', ← zipIdx_map_snd, filter_map, stride, length_map, length_map]
    rfl
  -- the quotients of the dealt positions are different numbers below the group size
  have hnodup : (((range layers.length).filter (· % n = i)).map (· / n)).Nodup := by
    refine (nodup_range.filter _).map_on fun j hj k hk hjk ↦ ?_
    rw [← div_add_mod j n, ← div_add_mod k n]
    grind
  have hsub : ((range layers.length).filter (· % n = i)).map (· / n) ⊆ range size := by
    intro q hq
    obtain ⟨j, hj, rfl⟩ := mem_map.1 hq
    have hlt := mem_range.1 (mem_filter.1 hj).1
    exact mem_range.2 (Nat.div_lt_of_lt_mul (hlt.trans_le h))
  simpa [hlength] using (hnodup.subperm hsub).length_le

end

theorem sameTypeLayers_perm (items : List (L × S)) :
    ((sameTypeLayers items).flatMap (·.2)).Perm (Dict.keys items) := by
  have hperm := (flatMap_filter_perm (·.2)
    (nodup_reverse.2 (nodup_dedup (items.map (·.2)).reverse)) items).map Prod.fst
  rw [filter_eq_self.2 fun p hp ↦ by simpa using ⟨p.1, hp⟩, map_flatMap] at hperm
  rwa [sameTypeLayers, flatMap_map]

theorem ne_nil_of_mem_sameTypeLayers {items : List (L × S)} {type : S × List L}
    (h : type ∈ sameTypeLayers items) : type.2 ≠ [] ∧ ∀ l ∈ type.2, (l, type.1) ∈ items := by
  obtain ⟨s, hs, rfl⟩ := mem_map.1 h
  simp only [mem_reverse, mem_dedup, mem_map] at hs
  obtain ⟨p, hp, rfl⟩ := hs
  exact ⟨ne_nil_of_mem (mem_map_of_mem (a := p) (by simpa using hp)),
    fun l hl ↦ by simpa using hl⟩

/-- The layers of a group in tensor `i`: only the one at position `i`. -/
theorem getElem?_of_mem_sharedBy {groups : List (List L)} (h : groups.flatten.Nodup)
    {g : List L} (hg : g ∈ groups) {i : ℕ} {l : L} (hl : l ∈ g) (hs : l ∈ sharedBy groups i) :
    g[i]? = some l := by
  obtain ⟨g', hg', hi⟩ := mem_filterMap.1 hs
  by_cases heq : g' = g
  · exact heq ▸ hi
  · have hsymm : Std.Symm (Disjoint (α := L)) := ⟨fun _ _ h ↦ h.symm⟩
    have hdisjoint := (nodup_flatten.1 h).2.forall hg' hg heq
    exact (hdisjoint (mem_of_getElem? hi) hl).elim

/-- **Group formation.** A map with layers has a group size and groups such that every layer is in
exactly one group, the layers of a group have one spec, no group is larger than the group size, and
a tensor has at most one layer of each group: the one at its position. -/
theorem groupedLayers_spec (spec : KVCacheSpecs L S) :
    spec.items = [] ∧ groupedLayers isSlidingWindow spec = none ∨
      ∃ size groups, groupSize isSlidingWindow (sameTypeLayers spec.items) = some size ∧
        groupedLayers isSlidingWindow spec = some groups ∧
        groups.flatten.Perm (Dict.keys spec.items) ∧
        (∀ g ∈ groups, (∃ s, ∀ l ∈ g, (l, s) ∈ spec.items) ∧ g.length ≤ size) ∧
        ∀ i, ∀ g ∈ groups, ∀ l ∈ g, l ∈ sharedBy groups i → g[i]? = some l := by
  rcases hitems : spec.items with - | ⟨item, items⟩
  · exact .inl ⟨rfl, by rw [groupedLayers, hitems]; rfl⟩
  rw [← hitems]
  have hbucket := fun type (h : type ∈ sameTypeLayers spec.items) ↦ ne_nil_of_mem_sameTypeLayers h
  have hne : sameTypeLayers spec.items ≠ [] := by
    rw [hitems]
    simp [sameTypeLayers, dedup_eq_nil]
  obtain ⟨size, hsize, hpos⟩ := exists_groupSize isSlidingWindow hne fun t ht ↦ (hbucket t ht).1
  have hperm : ((sameTypeLayers spec.items).flatMap fun type ↦ deal size type.2).flatten.Perm
      (Dict.keys spec.items) := by
    rw [flatMap_def, flatten_flatten, map_map]
    exact (Perm.flatMap_left _ fun t ht ↦ flatten_deal_perm hpos (hbucket t ht).1).trans
      (sameTypeLayers_perm spec.items)
  refine .inr ⟨size, _, hsize, by rw [groupedLayers, hsize]; rfl, hperm, fun g hg ↦ ?_,
    fun i g hg l hl ↦ getElem?_of_mem_sharedBy (hperm.nodup_iff.2 spec.nodup) hg hl⟩
  obtain ⟨type, htype, hg⟩ := mem_flatMap.1 hg
  obtain ⟨i, -, rfl⟩ := mem_map.1 hg
  refine ⟨⟨type.1, fun l hl ↦ (hbucket type htype).2 l ?_⟩,
    length_stride_le ((cdiv_le_iff hpos).1 le_rfl) i⟩
  obtain ⟨p, hp, rfl⟩ := mem_map.1 hl
  exact fst_mem_of_mem_zipIdx (mem_filter.1 hp).1

end OneCatVllm.KvGroups
