import Mathlib.Data.List.Dedup
import Mathlib.Data.List.Perm.Subperm
import Mathlib.Algebra.Order.BigOperators.Group.List
import OneCatVllm.Multimodal.Cache

/-!
# The receiver's cache mirrors the sender's

The sender's cache is the receiver's cache with the items replaced by their sizes, as long as both
caches perform the same operations. `getAndUpdate_map` says that the operations look at nothing but
hashes and sizes, `getAndUpdate_leaveOut` that a cached item's data is not looked at, so that it can
be left out.

Three things make the operations differ: a request that is **rejected after the merge** is never
seen by the receiver; a merge that raises has changed the sender's cache already; and items whose
order in the prompt is not the order of the modalities are visited in **two different orders**,
which leaves the caches with different oldest items. A request is `Aligned` when none of this
happens.
-/

namespace OneCatVllm.Multimodal

open List Lru Transition

variable {H V : Type*} [DecidableEq H] {cfg : MmConfig H V}

/-! ### The same operations on items and on sizes -/

section Operations

variable {α β : Type*} {f : α → β} {size : α → ℕ} {size' : β → ℕ} {capacity : ℕ} {c c' : Lru H α}
  {items : List (H × Option α)} {cached : List (Option α)}

theorem touchAll_map (hs : List H) : touchAll (c.map f) hs = (touchAll c hs).map f := by
  induction hs generalizing c with
  | nil => rfl
  | cons h hs ih => rw [touchAll, foldl_cons, touch_map, ← touchAll, ih]; rfl

theorem getAndUpdateItem_map (hsize : ∀ v, size' (f v) = size v) (item : Option α) (h : H) :
    getAndUpdateItem size' capacity (c.map f) (item.map f) h =
      ((getAndUpdateItem size capacity c item h).1.map f,
        (getAndUpdateItem size capacity c item h).2.map (Option.map f)) := by
  unfold getAndUpdateItem
  rw [get?_map]
  rcases c.get? h with - | v
  · rcases item with - | v
    · rfl
    · dsimp only [Option.map_none, Option.map_some]
      rw [put_map hsize]
      dsimp only
      split <;> rfl
  · rw [touch_map]
    rfl

/-- **The caches look at hashes and sizes only.** -/
theorem getAndUpdate_map (hsize : ∀ v, size' (f v) = size v) (items : List (H × Option α)) :
    getAndUpdate size' capacity (c.map f) (items.map fun p ↦ (p.1, p.2.map f)) =
      ((getAndUpdate size capacity c items).1.map f,
        (getAndUpdate size capacity c items).2.map (List.map (Option.map f))) := by
  induction items generalizing c with
  | nil => rfl
  | cons p items ih =>
    rw [map_cons, getAndUpdate, getAndUpdate, getAndUpdateItem_map hsize]
    rcases getAndUpdateItem size capacity c p.2 p.1 with ⟨c₁, e | v⟩
    · rfl
    · dsimp only [Except.map]
      rw [ih]
      rcases getAndUpdate size capacity c₁ items with ⟨c₂, e | vs⟩ <;> rfl

theorem getAndUpdate_cons_eq_ok {p : H × Option α} :
    getAndUpdate size capacity c (p :: items) = (c', .ok cached) ↔
      ∃ c₁ v vs, getAndUpdateItem size capacity c p.2 p.1 = (c₁, .ok v) ∧
        getAndUpdate size capacity c₁ items = (c', .ok vs) ∧ cached = v :: vs := by
  rw [getAndUpdate]
  rcases getAndUpdateItem size capacity c p.2 p.1 with ⟨c₁, e | v⟩
  · simp
  · dsimp only
    rcases hrest : getAndUpdate size capacity c₁ items with ⟨c₂, e | vs⟩
    · simp [hrest]
    · constructor
      · intro h
        obtain ⟨rfl, hcached⟩ := Prod.mk.inj h
        exact ⟨c₁, v, vs, rfl, hrest, (Except.ok.inj hcached).symm⟩
      · rintro ⟨c₁', v', vs', hitem, hvs, rfl⟩
        cases hitem
        obtain ⟨rfl, hvs'⟩ := Prod.mk.inj (hrest.symm.trans hvs)
        cases hvs'
        rfl

/-- The item that is given for a cached one is not looked at. -/
theorem getAndUpdateItem_cached {h : H} {item item' : Option α} {v : α}
    (hitem : getAndUpdateItem size capacity c item h = (c', .ok (some v))) :
    getAndUpdateItem size capacity c item' h = (c', .ok (some v)) := by
  unfold getAndUpdateItem at hitem ⊢
  rcases hget : c.get? h with - | w
  · rw [hget] at hitem
    rcases item with - | w
    · cases (Prod.mk.inj hitem).2
    · dsimp only at hitem
      split at hitem <;> cases (Prod.mk.inj hitem).2
  · rwa [hget] at hitem

/-- **The data of a cached item can be left out.** -/
theorem getAndUpdate_leaveOut (h : getAndUpdate size capacity c items = (c', .ok cached)) :
    getAndUpdate size capacity c
      ((items.zip cached).map fun p ↦ (p.1.1, if p.2.isSome then none else p.1.2)) =
      (c', .ok cached) := by
  induction items generalizing c cached with
  | nil =>
    cases h
    rfl
  | cons p items ih =>
    obtain ⟨c₁, v, vs, hitem, hrest, rfl⟩ := getAndUpdate_cons_eq_ok.1 h
    refine getAndUpdate_cons_eq_ok.2 ⟨c₁, v, vs, ?_, ih hrest, rfl⟩
    rcases v with - | v
    · exact hitem
    · exact getAndUpdateItem_cached hitem

end Operations

/-! ### Caches that hold what the processor made -/

/-- A cache of processed items: nothing is pinned, and a key's value is what the processor makes of
the item with that hash. -/
structure Genuine (cfg : MmConfig H V) (c : Lru H V) : Prop where
  pinned : c.pinned = []
  nodup : c.keys.Nodup
  processed : ∀ p ∈ c.items, p.2 = cfg.process p.1

/-- The size of the item with a hash. -/
def MmConfig.sizeOf (cfg : MmConfig H V) (h : H) : ℕ := cfg.getItemSize (cfg.process h)

variable {c : Lru H V} {hs : List H} {h : H}

omit [DecidableEq H] in
theorem genuine_empty : Genuine cfg empty :=
  ⟨rfl, nodup_nil, fun _ hp ↦ absurd hp not_mem_nil⟩

theorem Genuine.get?_eq (hc : Genuine cfg c) (h : H) :
    c.get? h = if h ∈ c.keys then some (cfg.process h) else none := by
  split_ifs with hmem
  · obtain ⟨v, hv⟩ := mem_keys_iff.1 hmem
    have hp : (h, v) ∈ c.items :=
      (Dict.perm_cons_pop hc.nodup hv).mem_iff.2 mem_cons_self
    rw [hv]
    exact congrArg some (hc.processed _ hp)
  · exact get?_eq_none_iff.2 hmem

theorem Genuine.touch (hc : Genuine cfg c) : Genuine cfg (c.touch h) := by
  refine ⟨pinned_touch.trans hc.pinned, nodup_keys_touch hc.nodup, ?_⟩
  rcases hget : c.get? h with - | v
  · rw [touch_of_notMem (get?_eq_none_iff.1 hget)]
    exact hc.processed
  · have hmem := mem_keys_of_get? hget
    rw [hc.get?_eq, if_pos hmem] at hget
    cases hget
    intro p hp
    rw [touch_of_get? (by rw [hc.get?_eq, if_pos hmem]), mem_append] at hp
    rcases hp with hp | hp
    · exact hc.processed p (mem_of_mem_filter hp)
    · rw [mem_singleton.1 hp]

theorem Genuine.touchAll (hc : Genuine cfg c) : Genuine cfg (touchAll c hs) := by
  induction hs generalizing c with
  | nil => exact hc
  | cons h hs ih => exact ih hc.touch

theorem mem_keys_touchAll {k : H} : k ∈ (touchAll c hs).keys ↔ k ∈ c.keys := by
  induction hs generalizing c with
  | nil => rfl
  | cons h hs ih => exact ih.trans mem_keys_touch

/-- The touched items are the recent ones. -/
theorem recent_touchAll : Recent hs (touchAll c hs) := by
  have hgen : ∀ (hs done : List H) (c : Lru H V), Recent done c →
      Recent (hs.reverse ++ done) (touchAll c hs) := by
    intro hs
    induction hs with
    | nil => exact fun done c h ↦ h
    | cons h hs ih =>
      intro done c hc
      have := ih (h :: done) (c.touch h) hc.touch
      rwa [reverse_cons, append_assoc]
  refine (hgen hs [] c recent_nil).of_mem_iff fun a ↦ ?_
  rw [append_nil, mem_reverse]

/-- The cached items of a list weigh at most as much as the list without repetitions, also together
with an item of the list that is not cached. -/
theorem Genuine.share_add_le (hc : Genuine cfg c) (hmem : h ∈ hs) (hnew : h ∉ c.keys) :
    c.share cfg.getItemSize hs + cfg.sizeOf h ≤ (hs.dedup.map cfg.sizeOf).sum := by
  have hshare : c.share cfg.getItemSize hs =
      ((c.keys.filter fun k ↦ k ∈ hs).map cfg.sizeOf).sum := by
    rw [Lru.keys, Dict.keys, filter_map, map_map]
    refine congrArg sum (map_congr_left fun p hp ↦ ?_)
    rw [hc.processed p (mem_of_mem_filter hp)]
    rfl
  have hnodup : ((c.keys.filter fun k ↦ k ∈ hs) ++ [h]).Nodup := by
    rw [← concat_eq_append]
    exact (hc.nodup.filter _).concat fun hmem ↦ hnew (mem_of_mem_filter hmem)
  have hsubset : ((c.keys.filter fun k ↦ k ∈ hs) ++ [h]) ⊆ hs.dedup := by
    intro a ha
    rw [mem_dedup]
    rcases mem_append.1 ha with ha | ha
    · exact of_decide_eq_true (mem_filter.1 ha).2
    · exact mem_singleton.1 ha ▸ hmem
  obtain ⟨l, hperm, hsub⟩ := subperm_of_subset hnodup hsubset
  calc c.share cfg.getItemSize hs + cfg.sizeOf h
      = (((c.keys.filter fun k ↦ k ∈ hs) ++ [h]).map cfg.sizeOf).sum := by
        rw [hshare, map_append, sum_append, map_singleton, sum_singleton]
    _ = (l.map cfg.sizeOf).sum := ((hperm.map cfg.sizeOf).sum_eq).symm
    _ ≤ (hs.dedup.map cfg.sizeOf).sum :=
        (hsub.map cfg.sizeOf).sum_le_sum fun a _ ↦ Nat.zero_le a

/-! ### Items that fit into the cache -/

/-- What a cache answers for an item: the cached data, or nothing, and then the data was given. -/
def Answered (cfg : MmConfig H V) (item : H × Option V) (answer : Option V) : Prop :=
  answer = some (cfg.process item.1) ∨ answer = none ∧ item.2 = some (cfg.process item.1)

section

variable (hc : Genuine cfg c) (hrecent : Recent hs c)
  (hfit : (hs.dedup.map cfg.sizeOf).sum ≤ cfg.capacity)

include hc hrecent hfit

/-- **One item.** An item of a request whose items fit into the cache is found or stored, and no
other item of the request is evicted for it. -/
theorem Genuine.getAndUpdateItem {item : Option V} (hmem : h ∈ hs)
    (hgiven : item = some (cfg.process h) ∨ h ∈ c.keys) :
    ∃ c' answer, getAndUpdateItem cfg.getItemSize cfg.capacity c item h = (c', .ok answer) ∧
      Genuine cfg c' ∧ Recent hs c' ∧ (∀ k ∈ hs, k ∈ c.keys → k ∈ c'.keys) ∧
      Answered cfg (h, item) answer := by
  unfold Multimodal.getAndUpdateItem
  rw [hc.get?_eq]
  by_cases hcached : h ∈ c.keys
  · rw [if_pos hcached]
    refine ⟨c.touch h, _, rfl, hc.touch, hrecent.touch.of_mem_iff fun a ↦ ?_,
      fun k _ hk ↦ mem_keys_touch.2 hk, .inl rfl⟩
    rw [mem_cons]
    exact ⟨fun ha ↦ ha.elim (· ▸ hmem) id, .inr⟩
  · obtain rfl := hgiven.resolve_right hcached
    rw [if_neg hcached]
    have hroom : c.share cfg.getItemSize hs + cfg.getItemSize (cfg.process h) ≤ cfg.capacity :=
      (hc.share_add_le hmem hcached).trans hfit
    obtain ⟨gone, kept, removed, hitems, hgone, hput⟩ :=
      put_recent hc.pinned hc.nodup hrecent hroom
    have hkeys : c.keys = Dict.keys gone ++ Dict.keys kept := by
      rw [Lru.keys, hitems, Dict.keys, map_append]
      rfl
    have hkeys' : (⟨kept ++ [(h, cfg.process h)], []⟩ : Lru H V).keys = Dict.keys kept ++ [h] := by
      rw [Lru.keys, Dict.keys, map_append]
      rfl
    have hkept : Dict.keys kept <:+ c.keys := ⟨_, hkeys.symm⟩
    dsimp only
    rw [hput]
    refine ⟨_, _, rfl, ⟨rfl, ?_, ?_⟩, ?_, ?_, .inr ⟨rfl, rfl⟩⟩
    · rw [hkeys', ← concat_eq_append]
      exact (hc.nodup.sublist hkept.sublist).concat fun hmem ↦ hcached (hkept.subset hmem)
    · intro p hp
      rcases mem_append.1 hp with hp | hp
      · exact hc.processed p (hitems ▸ mem_append_right gone hp)
      · rw [mem_singleton.1 hp]
    · rw [Recent, hkeys']
      refine pairwise_append.2 ⟨hrecent.sublist hkept.sublist, pairwise_singleton _ _, ?_⟩
      intro a _ b hb _
      exact mem_singleton.1 hb ▸ hmem
    · intro k hk hkc
      rw [hkeys']
      rw [hkeys] at hkc
      rcases mem_append.1 hkc with hkc | hkc
      · obtain ⟨p, hp, rfl⟩ := mem_map.1 hkc
        exact absurd hk (hgone p hp)
      · exact mem_append_left _ hkc

/-- **All items** of a request that fit into the cache are found or stored. -/
theorem Genuine.getAndUpdate {items : List (H × Option V)}
    (hitems : ∀ p ∈ items, p.1 ∈ hs ∧ (p.2 = some (cfg.process p.1) ∨ p.1 ∈ c.keys)) :
    ∃ c' answers, getAndUpdate cfg.getItemSize cfg.capacity c items = (c', .ok answers) ∧
      Genuine cfg c' ∧ Forall₂ (Answered cfg) items answers := by
  induction items generalizing c with
  | nil => exact ⟨c, [], rfl, hc, .nil⟩
  | cons p items ih =>
    obtain ⟨hmem, hgiven⟩ := hitems p mem_cons_self
    obtain ⟨c₁, answer, hp, hc₁, hrecent₁, hkeys, hanswer⟩ :=
      hc.getAndUpdateItem hrecent hfit hmem hgiven
    obtain ⟨c', answers, hrest, hc', hanswers⟩ := ih hc₁ hrecent₁ fun q hq ↦ by
      obtain ⟨hq, hgiven⟩ := hitems q (mem_cons_of_mem p hq)
      exact ⟨hq, hgiven.imp id (hkeys q.1 hq)⟩
    exact ⟨c', answer :: answers, getAndUpdate_cons_eq_ok.2 ⟨c₁, answer, answers, hp, hrest, rfl⟩,
      hc', .cons hanswer hanswers⟩

end

/-! ### One request -/

variable {s s' : MmCaches H V} {r : MmRequest H} {items : List (MmItem H)}

section

variable (cfg : MmConfig H V) (s : MmCaches H V)

/-- The sender holds the sizes of what the receiver holds, in the same order of use. -/
structure Mirrored : Prop where
  genuine : Genuine cfg s.receiver
  sender_eq : s.sender = s.receiver.map cfg.getItemSize

/-- A request that both caches see in the same way, or neither: it has no items; or an item without
data is not cached, and it is rejected before the merge; or it passes the length checks, its items
stand in the prompt in the order of the modalities, and they fit into the cache together. -/
def Aligned (r : MmRequest H) : Prop :=
  r.items = [] ∨ r.passthrough = false ∧
    (cacheMiss s.sender r.items = true ∨
      validateModelInput cfg r = .ok () ∧
      r.items.Pairwise (fun i j ↦ i.offset ≤ j.offset) ∧
      ((r.items.map MmItem.mmHash).dedup.map cfg.sizeOf).sum ≤ cfg.capacity)

/-- The engine core finds the data of every item of a request that it receives: the lookup raises
nothing, and every feature gets what the processor made of the item with its hash. -/
def Served (r : MmRequest H) : Prop :=
  match (handle cfg s r).2 with
  | .rejected => True
  | .received features data =>
    data = .ok (features.map fun p ↦ some (cfg.process p.1.mmHash))

end

/-- The data to send: left out for the items that were found. -/
def sentData (cfg : MmConfig H V) {α : Type*} (items : List (MmItem H)) (found : List (Option α)) :
    List (Option V) :=
  (items.zip found).map fun p ↦ if p.2.isSome then none else some (cfg.process p.1.mmHash)

omit [DecidableEq H] in
theorem sentData_map {α β : Type*} {f : α → β} {found : List (Option α)} :
    sentData cfg items (found.map (Option.map f)) = sentData cfg items found := by
  rw [sentData, zip_map_right, map_map]
  exact map_congr_left fun p _ ↦ by simp

omit [DecidableEq H] in
/-- What is sent is what was given, without what was found; and together with what is found it is
the data of every item. -/
theorem sentData_spec {given : MmItem H → Option V} {answers : List (Option V)}
    (hanswers : Forall₂ (fun i a ↦ Answered cfg (i.mmHash, given i) a) items answers) :
    (items.zip (sentData cfg items answers)).map (fun p ↦ (p.1.mmHash, p.2)) =
        ((items.map fun i ↦ (i.mmHash, given i)).zip answers).map
          (fun p ↦ (p.1.1, if p.2.isSome then none else p.1.2)) ∧
      ((items.zip (sentData cfg items answers)).zip answers).map (fun p ↦ p.2.or p.1.2) =
        items.map (fun i ↦ some (cfg.process i.mmHash)) ∧
      (sentData cfg items answers).length = items.length := by
  induction hanswers with
  | nil => exact ⟨rfl, rfl, rfl⟩
  | cons hanswer _ ih =>
    obtain ⟨hsent, hfilled, hlength⟩ := ih
    rw [sentData, zip_cons_cons, map_cons, ← sentData]
    refine ⟨?_, ?_, congrArg (· + 1) hlength⟩
    · rw [zip_cons_cons, map_cons, hsent]
      rcases hanswer with rfl | ⟨rfl, hgiven⟩
      · rfl
      · exact congrArg (fun d ↦ (_, d) :: _) hgiven.symm
    · rw [zip_cons_cons, zip_cons_cons, map_cons, hfilled]
      rcases hanswer with rfl | ⟨rfl, -⟩ <;> rfl

/-- **The merge and the lookup** of the same items in the same order: the merge raises nothing, the
lookup fills in what the merge left out, and both leave caches that mirror each other. -/
theorem Mirrored.merge (hs : Mirrored cfg s)
    (hfit : ((items.map MmItem.mmHash).dedup.map cfg.sizeOf).sum ≤ cfg.capacity) :
    ∃ c data, mergeMmKwargs cfg s.sender items = (c.map cfg.getItemSize, .ok data) ∧
      Genuine cfg c ∧ data.length = items.length ∧
      getAndUpdateFeatures cfg s.receiver (items.zip data) =
        (c, .ok (items.map fun i ↦ some (cfg.process i.mmHash))) := by
  -- the items as the sender gives them, with the data instead of its size
  let given : MmItem H → Option V := fun i ↦
    if i.mmHash ∈ s.sender.keys then none else some (cfg.process i.mmHash)
  have hkeys : s.sender.keys = s.receiver.keys := by rw [hs.sender_eq, keys_map]
  have hall : ∀ p ∈ items.map (fun i ↦ (i.mmHash, given i)), p.1 ∈ items.map MmItem.mmHash ∧
      (p.2 = some (cfg.process p.1) ∨
        p.1 ∈ (touchAll s.receiver (items.map MmItem.mmHash)).keys) := by
    intro p hp
    obtain ⟨i, hi, rfl⟩ := mem_map.1 hp
    refine ⟨mem_map_of_mem hi, ?_⟩
    by_cases hcached : i.mmHash ∈ s.sender.keys
    · exact .inr (mem_keys_touchAll.2 (hkeys ▸ hcached))
    · exact .inl (if_neg hcached)
  obtain ⟨c, answers, hget, hc, hanswers⟩ :=
    hs.genuine.touchAll.getAndUpdate recent_touchAll hfit hall
  obtain ⟨hsent, hfilled, hlength⟩ := sentData_spec (forall₂_map_left_iff.1 hanswers)
  refine ⟨c, sentData cfg items answers, ?_, hc, hlength, ?_⟩
  · have hitems : senderItems cfg s.sender items =
        (items.map fun i ↦ (i.mmHash, given i)).map fun p ↦ (p.1, p.2.map cfg.getItemSize) := by
      rw [map_map]
      refine map_congr_left fun i _ ↦ ?_
      by_cases hcached : i.mmHash ∈ s.sender.keys <;> simp [given, hcached]
    have htouch : touchAll s.sender (items.map MmItem.mmHash) =
        (touchAll s.receiver (items.map MmItem.mmHash)).map cfg.getItemSize := by
      rw [hs.sender_eq, touchAll_map]
    have hsize : ∀ v, id (cfg.getItemSize v) = cfg.getItemSize v := fun v ↦ rfl
    rw [mergeMmKwargs, hitems, htouch, getAndUpdate_map hsize, hget]
    dsimp only [Except.map]
    rw [← sentData, sentData_map]
  · have htouch : (items.zip (sentData cfg items answers)).map (fun p ↦ p.1.mmHash) =
        items.map MmItem.mmHash := by
      show (items.zip _).map (MmItem.mmHash ∘ Prod.fst) = _
      rw [← map_map, map_fst_zip hlength.ge]
    rw [getAndUpdateFeatures, htouch, hsent, getAndUpdate_leaveOut hget]
    dsimp only [Except.map]
    rw [hfilled]

/-- A request without items changes nothing. -/
theorem handle_of_items_eq_nil (hr : r.items = []) : (handle cfg s r).1 = s ∧ Served cfg s r := by
  have hmerge : mergeMmKwargs cfg s.sender r.items = (s.sender, .ok []) := by rw [hr]; rfl
  have hreceive : ∀ data : List (Option V),
      receive cfg s r.items data = (s, .received [] (.ok [])) := by
    intro data
    rw [hr]
    rfl
  rw [Served, handle, hmerge]
  split
  · split
    · exact ⟨rfl, trivial⟩
    · split
      · exact ⟨rfl, trivial⟩
      · rw [hreceive]
        exact ⟨rfl, rfl⟩
  · split
    · exact ⟨rfl, trivial⟩
    · dsimp only
      split
      · exact ⟨rfl, trivial⟩
      · rw [hreceive]
        exact ⟨rfl, rfl⟩

/-- **One aligned request** is served, and leaves the caches mirrored. -/
theorem Mirrored.handle (hs : Mirrored cfg s) (hr : Aligned cfg s r) :
    Mirrored cfg (handle cfg s r).1 ∧ Served cfg s r := by
  rcases hr with hr | ⟨hpass, hr⟩
  · obtain ⟨hstate, hserved⟩ := handle_of_items_eq_nil hr
    exact ⟨hstate.symm ▸ hs, hserved⟩
  rw [Served, Multimodal.handle, hpass, if_neg Bool.false_ne_true]
  split
  · exact ⟨hs, trivial⟩
  · rename_i hmiss
    obtain ⟨hvalid, hsorted, hfit⟩ := hr.resolve_left hmiss
    obtain ⟨c, data, hmerge, hc, hlength, hlookup⟩ := hs.merge hfit
    rw [hmerge]
    rw [hvalid]
    have hfst : (r.items.zip data).map Prod.fst = r.items := map_fst_zip hlength.ge
    have hfeatures : mmFeatures r.items data = r.items.zip data := by
      rw [← hfst] at hsorted
      exact (pairwise_map.1 hsorted).insertionSort_eq
    dsimp only [receive]
    rw [hfeatures, hlookup]
    refine ⟨⟨hc, rfl⟩, congrArg Except.ok ?_⟩
    calc r.items.map (fun i ↦ some (cfg.process i.mmHash))
        = ((r.items.zip data).map Prod.fst).map (fun i ↦ some (cfg.process i.mmHash)) := by
          rw [hfst]
      _ = (r.items.zip data).map (fun p ↦ some (cfg.process p.1.mmHash)) := map_map

/-! ### Whole runs -/

/-- The caches mirror each other in every run of aligned requests. -/
theorem mirrored_of_run (h : Run (mmStep cfg) (Aligned cfg) .init s) : Mirrored cfg s := by
  refine h.invariant ⟨genuine_empty, rfl⟩ fun {s s' r} hs hr hstep ↦ ?_
  cases hstep
  exact (hs.handle hr).1

/-- **The caches of both processes agree**: after any run of aligned requests, the engine core finds
the data of every item of a further aligned request that it receives. -/
theorem features_served_of_run (h : Run (mmStep cfg) (Aligned cfg) .init s)
    (hr : Aligned cfg s r) : Served cfg s r :=
  ((mirrored_of_run h).handle hr).2

/-- A small server: items of size one, room for two of them, prompts of fewer than ten tokens. -/
def pairConfig : MmConfig ℕ ℕ where
  process h := h
  getItemSize _ := 1
  capacity := 2
  maxModelLen := 10
  generates := true
  mmEncoderCacheSize := 4
  skipPromptLengthCheck := false

/-- A request with one item in the front of its prompt. -/
def singleItemRequest (h promptLen : ℕ) : MmRequest ℕ :=
  { mmItems := [[⟨h, true, 0, 1⟩]], promptLen, passthrough := false }

/-- The second request with the same item is served from the caches. -/
theorem features_served_of_run_twice :
    Aligned pairConfig .init (singleItemRequest 7 4) ∧
      Served pairConfig (handle pairConfig .init (singleItemRequest 7 4)).1
        (singleItemRequest 7 5) := by
  have hfirst : Aligned pairConfig .init (singleItemRequest 7 4) :=
    .inr ⟨rfl, .inr ⟨rfl, by simp [singleItemRequest, MmRequest.items], by decide⟩⟩
  refine ⟨hfirst, features_served_of_run (.next .start hfirst rfl) ?_⟩
  exact .inr ⟨rfl, .inr ⟨rfl, by simp [singleItemRequest, MmRequest.items], by decide⟩⟩

/-- **A rejected request.** A prompt with an image is one token too long and is rejected after the
merge; the same image with a shorter prompt is then sent without its data, and the engine core does
not have it. -/
theorem rejected_request_leaves_item_behind :
    (handle pairConfig .init (singleItemRequest 7 11)).2 = .rejected ∧
      (handle pairConfig (handle pairConfig .init (singleItemRequest 7 11)).1
        (singleItemRequest 7 5)).2 =
        .received [(⟨7, true, 0, 1⟩, none)] (.error (.expectedCachedItem 7)) ∧
      ¬ Served pairConfig (handle pairConfig .init (singleItemRequest 7 11)).1
        (singleItemRequest 7 5) := by
  refine ⟨rfl, rfl, ?_⟩
  intro h
  cases h

end OneCatVllm.Multimodal
