import OneCatVllm.Offload.Lookup

/-!
# What a hit of the offload lookup guarantees

The manager is observed through a log of its answers (`logged`). At the end of `_lookup` every group
is **confirmed** at the end of the hit: its blocks up to there, or those of its last window, counted
in blocks of the group, were answered present. This holds for all groups and all managers. What it
says about positions depends on where the hit ends: at a block boundary of some group, or, without
Mamba states, before the last token (`Settled`). The loop itself ends, whatever the manager answers
(`lookup_loop_ends`).
-/

namespace OneCatVllm.Offload

open Grid List Nat OffloadRequest Prod SchedulerOffloadConfig

variable {cfg : SchedulerOffloadConfig} {H M Key : Type} {g : GroupOffloadConfig} {i : ℕ}
  {keys : List Key}

/-! ### Observed managers -/

/-- The manager with a log of its answers. -/
def logged (lookup : M → Key → Answer × M) (s : M × List (Key × Answer)) (key : Key) :
    Answer × (M × List (Key × Answer)) :=
  ((lookup s.1 key).1, ((lookup s.1 key).2, (key, (lookup s.1 key).1) :: s.2))

/-- The key at a place of the list was answered present. -/
def Hit (log : List (Key × Answer)) (keys : List Key) (i : ℕ) : Prop :=
  ∃ key, keys[i]? = some key ∧ (key, Answer.present) ∈ log

theorem Hit.mono {log log' : List (Key × Answer)} (h : Hit log keys i) (hlog : log ⊆ log') :
    Hit log' keys i :=
  h.imp fun _ hkey ↦ ⟨hkey.1, hlog hkey.2⟩

theorem Hit.lt {log : List (Key × Answer)} (h : Hit log keys i) : i < keys.length := by
  obtain ⟨key, hkey, -⟩ := h
  exact (List.getElem?_eq_some_iff.1 hkey).1

variable {lookup : M → Key → Answer × M} {I : M → Prop} {m : M}

section State

section

variable (hI : ∀ m key, I m → I (lookup m key).2) {deferLookup : Bool} {hits : Option ℕ} {m' : M}

include hI

/-- The loop of a prefix keeps what every lookup keeps, and has no result after a deferred
answer. -/
theorem maximalPrefixLoop_frame {hitCount : ℕ} (hm : I m)
    (h : maximalPrefixLoop lookup keys hitCount deferLookup m = (hits, m')) :
    I m' ∧ (deferLookup = true → hits = none) := by
  induction keys generalizing hitCount deferLookup m with
  | nil =>
    cases h
    exact ⟨hm, fun h ↦ if_pos h⟩
  | cons key keys ih =>
    have hnext := hI m key hm
    rw [maximalPrefixLoop] at h
    rcases hl : lookup m key with ⟨a, m₁⟩
    rw [hl] at h hnext
    cases a with
    | present => exact ih hnext h
    | absent =>
      cases h
      exact ⟨hnext, fun h ↦ if_pos h⟩
    | deferred => exact (ih hnext h).imp_right fun h _ ↦ h rfl

theorem slidingWindowLoop_frame {size consecutiveHits : ℕ} (hm : I m)
    (h : slidingWindowLoop lookup size keys consecutiveHits deferLookup m = (hits, m')) :
    I m' ∧ (deferLookup = true → hits = none) := by
  induction keys generalizing consecutiveHits deferLookup m with
  | nil =>
    cases h
    exact ⟨hm, fun h ↦ if_pos h⟩
  | cons key keys ih =>
    have hnext := hI m key hm
    rw [slidingWindowLoop] at h
    rcases hl : lookup m key with ⟨a, m₁⟩
    rw [hl] at h hnext
    cases a with
    | present =>
      dsimp only at h
      by_cases hfull : consecutiveHits + 1 = size
      · rw [if_pos hfull] at h
        cases h
        exact ⟨hnext, fun h ↦ if_pos h⟩
      · rw [if_neg hfull] at h
        exact ih hnext h
    | absent => exact ih hnext h
    | deferred => exact (ih hnext h).imp_right fun h _ ↦ h rfl

theorem groupLookup_state (g : GroupOffloadConfig)
    (keys : List Key) (hm : I m) : I (groupLookup lookup g keys m).2 := by
  rw [groupLookup]
  rcases g.slidingWindowSizeInBlocks with - | size
  · exact (maximalPrefixLoop_frame hI hm rfl).1
  · exact (slidingWindowLoop_frame hI hm rfl).1

end

variable {lookup : M → OffloadKey H → Answer × M} (req : OffloadRequest cfg H) (computed : ℕ)
  (hI : ∀ m key, I m → I (lookup m key).2)

include hI

theorem lookupGroup_state (g : GroupOffloadConfig) (st : LookupState) (hm : I m) :
    I (lookupGroup lookup req computed g st m).2 := by
  have hgroup := groupLookup_state hI g (req.lookupKeys computed g
    (st.startGroup g (req.offloadKeys g).length).maxHitSizeTokens) hm
  rw [lookupGroup]
  dsimp only
  split_ifs
  · exact hm
  all_goals exact hgroup

theorem lookupPass_state (gs : List GroupOffloadConfig) (st : LookupState) (hm : I m) :
    I (lookupPass lookup req computed gs st m).2 := by
  induction gs generalizing st m with
  | nil => exact hm
  | cons g gs ih =>
    have hgroup := lookupGroup_state req computed hI g st hm
    rw [lookupPass]
    rcases hg : lookupGroup lookup req computed g st m with ⟨- | st₁, m₁⟩ <;>
      rw [hg] at hgroup
    · exact hgroup
    · exact ih st₁ hgroup

theorem lookupPasses_state (passes : ℕ) (gs : List GroupOffloadConfig) (st : LookupState)
    (hm : I m) : I (lookupPasses lookup req computed passes gs st m).2 := by
  induction passes generalizing gs st m with
  | zero => cases gs <;> exact hm
  | succ passes ih =>
    rcases gs with - | ⟨g, gs⟩
    · exact hm
    · have hpass := lookupPass_state req computed hI (g :: gs) st.startPass hm
      rw [lookupPasses]
      rcases hg : lookupPass lookup req computed (g :: gs) st.startPass m with ⟨- | st₁, m₁⟩ <;>
        rw [hg] at hpass
      · exact hpass
      · exact ih _ st₁ hpass

/-- **What every lookup of the manager keeps is kept by `_lookup`.** -/
theorem lookupTokens_state [DecidableEq H] (useEagle : Bool)
    (blocksBeingLoaded : List (OffloadKey H)) (hm : I m) :
    I (lookupTokens lookup req computed useEagle blocksBeingLoaded m).2 := by
  have hpasses := lookupPasses_state req computed hI (req.numTokens + 1) cfg.lookupGroups
    (req.initialState useEagle) hm
  rw [lookupTokens]
  rcases hg : lookupPasses lookup req computed (req.numTokens + 1) cfg.lookupGroups
    (req.initialState useEagle) m with ⟨- | st₁, m₁⟩ <;> rw [hg] at hpasses
  · exact hpasses
  · dsimp only
    split_ifs <;> exact hpasses

end State

/-! ### One group -/

section Group

variable {s s' : M × List (Key × Answer)} {n : ℕ}

theorem log_subset_logged (log : List (Key × Answer)) (s : M × List (Key × Answer)) (key : Key)
    (h : log ⊆ s.2) : log ⊆ (logged lookup s key).2.2 :=
  fun _ hmem ↦ mem_cons_of_mem _ (h hmem)

/-- The hits of a prefix lookup, from the count it starts with. -/
theorem maximalPrefixLoop_hit {hitCount : ℕ}
    (h : maximalPrefixLoop (logged lookup) keys hitCount false s = (some n, s'))
    (hi : hitCount + i < n) : Hit s'.2 keys i := by
  induction keys generalizing hitCount s i with
  | nil =>
    cases h
    omega
  | cons key keys ih =>
    rw [maximalPrefixLoop, logged] at h
    rcases ha : (lookup s.1 key).1 with - | - | - <;> rw [ha] at h
    · cases i with
      | zero =>
        -- what was answered stays in the log
        have hlog := (maximalPrefixLoop_frame (log_subset_logged _) (Subset.refl _) h).1
        exact ⟨key, rfl, hlog mem_cons_self⟩
      | succ i => exact ih h (by omega)
    · cases h
      omega
    · cases (maximalPrefixLoop_frame (log_subset_logged []) (nil_subset _) h).2 rfl

/-- The hits of a window lookup: `done` are the keys behind those that are left, and start with the
consecutive hits so far. -/
theorem slidingWindowLoop_hit {size consecutiveHits : ℕ} {done : List Key}
    (hdone : ∀ i < consecutiveHits, Hit s.2 done i)
    (h : slidingWindowLoop (logged lookup) size keys consecutiveHits false s = (some n, s'))
    (hi : i < n) (hsize : n ≤ i + size) : Hit s'.2 (keys.reverse ++ done) i := by
  induction keys generalizing consecutiveHits s done with
  | nil =>
    cases h
    exact hdone i hi
  | cons key keys ih =>
    rw [reverse_cons, append_assoc]
    rw [slidingWindowLoop, logged] at h
    rcases ha : (lookup s.1 key).1 with - | - | - <;> rw [ha] at h
    · have hdone' : ∀ i < consecutiveHits + 1,
          Hit ((key, Answer.present) :: s.2) (key :: done) i := by
        intro i hi
        cases i with
        | zero => exact ⟨key, rfl, mem_cons_self⟩
        | succ i =>
          obtain ⟨key', hkey', hmem'⟩ := hdone i (by omega)
          exact ⟨key', hkey', mem_cons_of_mem _ hmem'⟩
      dsimp only at h
      by_cases hfull : consecutiveHits + 1 = size
      · rw [if_pos hfull] at h
        cases h
        obtain ⟨key', hkey', hmem'⟩ := hdone' (i - keys.length) (by omega)
        refine ⟨key', ?_, hmem'⟩
        rw [getElem?_append_right (by rw [length_reverse]; omega), length_reverse]
        exact hkey'
      · rw [if_neg hfull] at h
        exact ih hdone' h
    · exact ih (fun i hi ↦ absurd hi (not_lt_zero i)) h
    · cases (slidingWindowLoop_frame (log_subset_logged []) (nil_subset _) h).2 rfl

/-- **The hits of a group**: all blocks before the end, or those of the last window. -/
theorem groupLookup_hit (h : groupLookup (logged lookup) g keys s = (some n, s')) (hi : i < n)
    (hsize : ∀ size, g.slidingWindowSizeInBlocks = some size → n ≤ i + size) : Hit s'.2 keys i := by
  rw [groupLookup] at h
  rcases hg : g.slidingWindowSizeInBlocks with - | size <;> rw [hg] at h
  · exact maximalPrefixLoop_hit h (by omega)
  · have hdone : ∀ i < 0, Hit s.2 ([] : List Key) i := fun i hi ↦ absurd hi (not_lt_zero i)
    have hhit := slidingWindowLoop_hit hdone h hi (hsize size hg)
    rwa [reverse_reverse, append_nil] at hhit

end Group

/-! ### The keys of a request -/

theorem SchedulerOffloadConfig.factor_mul (hg : g ∈ cfg.kvGroupConfigs) :
    g.offloadedBlockSize / cfg.hashBlockSize * cfg.hashBlockSize = g.offloadedBlockSize :=
  Nat.div_mul_cancel (cfg.dvd g hg)

theorem SchedulerOffloadConfig.factor_pos (hg : g ∈ cfg.kvGroupConfigs) :
    0 < g.offloadedBlockSize / cfg.hashBlockSize :=
  div_pos (le_of_dvd (cfg.pos g hg) (cfg.dvd g hg)) cfg.hashBlockSize_pos

/-- A list built over a range, none of whose entries is missing. -/
theorem getElem?_filterMap_range {α : Type} {f : ℕ → Option α} {k : ℕ}
    (hf : ∀ i < k, (f i).isSome = true) :
    ((range k).filterMap f).length = k ∧ ∀ i < k, ((range k).filterMap f)[i]? = f i := by
  have hmap : ((range k).filterMap f).map some = (range k).map f := by
    rw [map_filterMap_some_eq_filter_map_isSome]
    simpa using hf
  refine ⟨by simpa using congrArg length hmap, fun i hi ↦ ?_⟩
  have hget := congrArg (·[i]?) hmap
  simp only [getElem?_map, getElem?_range hi, Option.map_some] at hget
  obtain ⟨a, ha, hfa⟩ := Option.map_eq_some_iff.1 hget
  rw [ha, hfa]

/-- **One key for every full offloaded block**, as `_lookup` asserts. -/
theorem OffloadRequest.offloadKeys_spec (req : OffloadRequest cfg H) (hg : g ∈ cfg.kvGroupConfigs) :
    (req.offloadKeys g).length = req.numTokens / g.offloadedBlockSize ∧
      ∀ i < req.numTokens / g.offloadedBlockSize, (req.offloadKeys g)[i]? =
        req.blockHashes[g.offloadedBlockSize / cfg.hashBlockSize * (i + 1) - 1]?.map
          (·, g.groupIdx) := by
  set factor := g.offloadedBlockSize / cfg.hashBlockSize with hfactor
  have hpos : 0 < factor := cfg.factor_pos hg
  have hcount : req.blockHashes.length / factor = req.numTokens / g.offloadedBlockSize := by
    rw [req.length_blockHashes, Nat.div_div_eq_div_mul, mul_comm, cfg.factor_mul hg]
  have hsome : ∀ i < req.blockHashes.length / factor,
      (req.blockHashes[factor * i + factor - 1]?.map
        fun hash ↦ ((hash, g.groupIdx) : OffloadKey H)).isSome = true := by
    intro i hi
    have hle : factor * (i + 1) ≤ req.blockHashes.length :=
      (mul_le_mul_left factor hi).trans (mul_div_le _ _)
    rw [mul_succ] at hle
    rw [getElem?_eq_getElem (by omega)]
    rfl
  obtain ⟨hlen, hget⟩ := getElem?_filterMap_range hsome
  rw [hcount] at hlen hget
  refine ⟨?_, fun i hi ↦ ?_⟩
  · rw [offloadKeys, hcount]
    exact hlen
  · rw [offloadKeys, hcount]
    exact hget i hi

variable {req : OffloadRequest cfg H} {computed maxHit : ℕ} {log : List (OffloadKey H × Answer)}

/-- The keys that are looked up are a segment of all keys. -/
theorem OffloadRequest.hit_of_lookupKeys {i : ℕ}
    (h : Hit log (req.lookupKeys computed g maxHit) i) :
    Hit log (req.offloadKeys g) (computed / g.offloadedBlockSize + i) ∧
      computed / g.offloadedBlockSize + i < cdiv maxHit g.offloadedBlockSize := by
  obtain ⟨key, hkey, hmem⟩ := h
  rw [lookupKeys, getElem?_drop] at hkey
  obtain ⟨hlt, -⟩ := List.getElem?_eq_some_iff.1 hkey
  rw [length_take] at hlt
  rw [getElem?_take_of_lt (by omega)] at hkey
  exact ⟨⟨key, hkey, hmem⟩, by omega⟩

/-! ### One group of a pass -/

section Step

variable {lookup : M → OffloadKey H → Answer × M} {maxHit' size : ℕ} {st st' : LookupState}
  {log' : List (OffloadKey H × Answer)} {s s' : M × List (OffloadKey H × Answer)}
  {gs : List GroupOffloadConfig}

/-- **A group is confirmed at an end of the hit**: its blocks up to there, or those of its last
window, were answered present, from the locally computed tokens on. -/
def Confirmed (req : OffloadRequest cfg H) (computed : ℕ) (g : GroupOffloadConfig)
    (maxHit : ℕ) (log : List (OffloadKey H × Answer)) : Prop :=
  ∀ i, computed / g.offloadedBlockSize ≤ i → i < cdiv maxHit g.offloadedBlockSize →
    (∀ size, g.slidingWindowSizeInBlocks = some size →
      cdiv maxHit g.offloadedBlockSize ≤ i + size) →
    Hit log (req.offloadKeys g) i

theorem Confirmed.log_mono (h : Confirmed req computed g maxHit log) (hlog : log ⊆ log') :
    Confirmed req computed g maxHit log' :=
  fun i hi hlt hsize ↦ (h i hi hlt hsize).mono hlog

/-- A full-attention group stays confirmed when the hit becomes shorter. -/
theorem Confirmed.shorten (h : Confirmed req computed g maxHit log)
    (hg : g.slidingWindowSizeInBlocks = none) (hpos : 0 < g.offloadedBlockSize)
    (hle : maxHit' ≤ maxHit) : Confirmed req computed g maxHit' log := by
  intro i hi hlt _
  refine h i hi (hlt.trans_le (cdiv_mono hpos hle)) fun size hsize ↦ ?_
  cases hg.symm.trans hsize

/-- Windows are not empty. -/
theorem SchedulerOffloadConfig.slidingWindowSize_pos (hg : g ∈ cfg.kvGroupConfigs)
    (hsize : g.slidingWindowSizeInBlocks = some size) : 0 < size := by
  rw [GroupOffloadConfig.slidingWindowSizeInBlocks] at hsize
  rcases hkind : g.kind with - | window | - <;> rw [hkind] at hsize <;> cases hsize
  · exact cdiv_pos (cfg.pos g hg) (cfg.window_pos g hg window hkind)
  · exact one_pos

/-- **Where a hit can end**: at a block boundary of a group, before the last token, or, without
windows, anywhere. -/
def Settled (req : OffloadRequest cfg H) (maxHit : ℕ) : Prop :=
  (∃ g ∈ cfg.kvGroupConfigs, g.offloadedBlockSize ∣ maxHit) ∨
  (cfg.mambaAlignSize = none ∧ maxHit = req.numTokens - 1) ∨ cfg.slidingWindowGroups = []

theorem Settled.min (hg : g ∈ cfg.kvGroupConfigs) (h : Settled req maxHit) (k : ℕ) :
    Settled req (min maxHit (g.offloadedBlockSize * k)) := by
  rcases le_total maxHit (g.offloadedBlockSize * k) with hle | hle
  · rwa [min_eq_left hle]
  · rw [min_eq_right hle]
    exact .inl ⟨g, hg, Nat.dvd_mul_right _ _⟩

/-- What `_lookup` knows about the end of the hit. -/
structure LookupState.Placed (req : OffloadRequest cfg H) (st : LookupState) : Prop where
  settled : Settled req st.maxHitSizeTokens
  shift : ∀ shift, st.eagleStateShift = some shift →
    ∃ g ∈ cfg.kvGroupConfigs, g.offloadedBlockSize = shift

/-- What one group of a pass can do. -/
structure GroupStep (req : OffloadRequest cfg H) (computed : ℕ) (g : GroupOffloadConfig)
    (st st' : LookupState) (log' : List (OffloadKey H × Answer)) : Prop where
  max_le : st'.maxHitSizeTokens ≤ st.maxHitSizeTokens
  size_le : g.offloadedBlockSize ≤ st'.maxHitSizeTokens - computed
  numHit : st'.numHitTokens = st'.maxHitSizeTokens - computed
  confirmed : st'.lookupGroups = .all ∨ st'.deferLookup = true ∨
    Confirmed req computed g st'.maxHitSizeTokens log'
  keeps_all : st.lookupGroups = .all → st'.lookupGroups = .all
  keeps_rerun : st.lookupGroups ≠ .done → st'.lookupGroups ≠ .done
  keeps_defer : st.deferLookup = true → st'.deferLookup = true ∨ st'.lookupGroups = .all
  shortened : st.lookedUpSlidingWindow = true → st'.numHitTokens < st.numHitTokens →
    st'.lookupGroups ≠ .done
  looked : st'.lookedUpSlidingWindow =
    (st.lookedUpSlidingWindow || g.slidingWindowSizeInBlocks.isSome)
  rerun : st'.lookupGroups ≠ .done → st.lookupGroups ≠ .done ∨ st'.numHitTokens < st.numHitTokens
  placed : st.Placed req → st'.Placed req

/-- The start of a group lowers the end of the hit at most, and changes no flag. -/
theorem startGroup_spec (hg : g ∈ cfg.kvGroupConfigs) (numKeys : ℕ) (st : LookupState) :
    ∃ maxHit shift, st.startGroup g numKeys =
        { st with maxHitSizeTokens := maxHit, eagleStateShift := shift } ∧
      maxHit ≤ st.maxHitSizeTokens ∧ maxHit ≤ numKeys * g.offloadedBlockSize ∧
      ∀ req : OffloadRequest cfg H, st.Placed req → LookupState.Placed req
        { st with maxHitSizeTokens := maxHit, eagleStateShift := shift } := by
  -- the end of the hit that is cut off behind the keys
  obtain ⟨maxHit, shift, hstart, hle, hplaced⟩ : ∃ maxHit shift, st.startGroup g numKeys =
        { st with
          maxHitSizeTokens := min maxHit (numKeys * g.offloadedBlockSize)
          eagleStateShift := shift } ∧
      maxHit ≤ st.maxHitSizeTokens ∧ ∀ req : OffloadRequest cfg H, st.Placed req →
        LookupState.Placed req
          { st with maxHitSizeTokens := maxHit, eagleStateShift := shift } := by
    unfold LookupState.startGroup
    split
    next shift _ hshift _ =>
      refine ⟨_, _, rfl, (sub_le _ _).trans (div_mul_le_self _ _), fun req h ↦ ⟨?_, nofun⟩⟩
      obtain ⟨g', hg', rfl⟩ := h.shift shift hshift
      exact .inl ⟨g', hg', dvd_sub (Nat.dvd_mul_left _ _) (Nat.dvd_refl _)⟩
    next => exact ⟨_, _, rfl, le_rfl, fun req h ↦ h⟩
  refine ⟨_, shift, hstart, (min_le_left _ _).trans hle, min_le_right _ _, fun req h ↦ ?_⟩
  rw [mul_comm]
  exact { hplaced req h with settled := (hplaced req h).settled.min hg numKeys }

/-- The flags after a group. -/
theorem reschedule_spec (n : ℕ) (st : LookupState) :
    ∃ defer groups, st.reschedule n = { st with deferLookup := defer, lookupGroups := groups } ∧
      (st.lookupGroups = .all → groups = .all) ∧ (st.lookupGroups ≠ .done → groups ≠ .done) ∧
      (st.deferLookup = true → defer = true ∨ groups = .all) ∧
      (st.lookedUpSlidingWindow = true → n < st.numHitTokens → groups ≠ .done) ∧
      (groups ≠ .done → st.lookupGroups ≠ .done ∨ n < st.numHitTokens) ∧
      (st.deferLookup = false → defer = false) := by
  rw [LookupState.reschedule]
  split_ifs with hlt hdefer hlooked
  · exact ⟨_, _, rfl, fun _ ↦ rfl, fun _ ↦ nofun, fun _ ↦ .inr rfl, fun _ _ ↦ nofun,
      fun _ ↦ .inr hlt, fun _ ↦ rfl⟩
  · refine ⟨_, _, rfl, fun hall ↦ ?_, fun _ ↦ nofun, fun h ↦ absurd h hdefer, fun _ _ ↦ nofun,
      fun _ ↦ .inr hlt, id⟩
    cases hall.symm.trans hlooked.2
  · exact ⟨_, _, rfl, id, id, fun h ↦ absurd h hdefer, fun h _ hdone ↦ hlooked ⟨h, hdone⟩,
      fun _ ↦ .inr hlt, id⟩
  · exact ⟨_, _, rfl, id, id, .inl, fun _ h ↦ absurd h hlt, .inl, id⟩

/-- The answer to a group shortens the hit at most; unless it is deferred, the group is confirmed
at the new end. -/
theorem confirm_spec (hg : g ∈ cfg.kvGroupConfigs) (st : LookupState) {hit : Option ℕ}
    (h : groupLookup (logged lookup) g (req.lookupKeys computed g st.maxHitSizeTokens) s =
      (hit, s')) (hzero : hit ≠ some 0) :
    ∃ maxHit defer tokens, st.confirm g (computed / g.offloadedBlockSize) hit =
        { st with
          maxHitSizeTokens := maxHit
          deferLookup := defer
          externalFullAttentionHitTokens := tokens } ∧
      maxHit ≤ st.maxHitSizeTokens ∧ (st.deferLookup = true → defer = true) ∧
      (Settled req st.maxHitSizeTokens → Settled req maxHit) ∧
      (defer = true ∨ Confirmed req computed g maxHit s'.2) := by
  have hpos := cfg.pos g hg
  rcases hit with - | n
  · exact ⟨_, _, _, rfl, le_rfl, fun _ ↦ rfl, id, .inl rfl⟩
  refine ⟨_, _, _, rfl, min_le_left _ _, id, (·.min hg _), .inr fun i hi hlt hsize ↦ ?_⟩
  have hn : 0 < n := pos_of_ne_zero fun h0 ↦ hzero (congrArg some h0)
  have hlast := (hit_of_lookupKeys (groupLookup_hit h (i := n - 1) (by omega) fun size hs ↦ by
    have := cfg.slidingWindowSize_pos hg hs
    omega)).2
  rw [mul_comm, Monotone.map_min (f := (cdiv · g.offloadedBlockSize)) fun _ _ ↦ cdiv_mono hpos,
    cdiv_mul hpos, min_eq_right (by omega)] at hlt hsize
  obtain ⟨j, rfl⟩ := Nat.exists_eq_add_of_le hi
  refine (hit_of_lookupKeys (groupLookup_hit h (by omega) fun size hs ↦ ?_)).1
  have hwindow := hsize size hs
  omega

/-- **The lookup of one group.** -/
theorem lookupGroup_spec (hg : g ∈ cfg.kvGroupConfigs)
    (h : lookupGroup (logged lookup) req computed g st s = (some st', s')) :
    GroupStep req computed g st st' s'.2 := by
  obtain ⟨maxHit, shift, hstart, hle, -, hplaced⟩ :=
    startGroup_spec (H := H) hg (req.offloadKeys g).length st
  rw [lookupGroup, hstart] at h
  rcases hlookup : groupLookup (logged lookup) g (req.lookupKeys computed g maxHit) s with
    ⟨hit, s₁⟩
  dsimp only at h
  rw [hlookup] at h
  split_ifs at h with hroom hzero hroom' <;> cases h
  obtain ⟨maxHit', defer, tokens, hconfirm, hle', hkeep, hsettled, hconf⟩ :=
    confirm_spec hg { st with maxHitSizeTokens := maxHit, eagleStateShift := shift } hlookup hzero
  rw [hconfirm] at hroom' ⊢
  obtain ⟨defer', groups, hres, hall, hrerun, hdefer, hshort, hback, -⟩ :=
    reschedule_spec (maxHit' - computed) { st with
      maxHitSizeTokens := maxHit'
      eagleStateShift := shift
      deferLookup := defer
      externalFullAttentionHitTokens := tokens }
  rw [LookupState.finishGroup, hres]
  exact
    { max_le := hle'.trans hle
      size_le := Nat.le_of_not_lt hroom'
      numHit := rfl
      confirmed := hconf.elim (fun hd ↦ (hdefer hd).symm.imp_right .inl) fun hc ↦ .inr (.inr hc)
      keeps_all := hall
      keeps_rerun := hrerun
      keeps_defer := fun hd ↦ hdefer (hkeep hd)
      shortened := hshort
      looked := rfl
      rerun := hback
      placed := fun hp ↦ ⟨hsettled (hplaced req hp).settled, (hplaced req hp).shift⟩ }

/-! ### Passes -/

theorem mem_slidingWindowGroups : g ∈ cfg.slidingWindowGroups ↔
    g ∈ cfg.kvGroupConfigs ∧ g.slidingWindowSizeInBlocks.isSome = true := by
  rw [slidingWindowGroups, mem_insertionSort, mem_filter]

theorem mem_fullAttentionGroups : g ∈ cfg.fullAttentionGroups ↔
    g ∈ cfg.kvGroupConfigs ∧ g.slidingWindowSizeInBlocks = none := by
  rw [fullAttentionGroups, mem_filter, Option.isNone_iff_eq_none]

theorem mem_lookupGroups : g ∈ cfg.lookupGroups ↔ g ∈ cfg.kvGroupConfigs := by
  rw [lookupGroups, mem_append, mem_fullAttentionGroups,
    mem_slidingWindowGroups, ← and_or_left, and_iff_left]
  rcases g.slidingWindowSizeInBlocks with - | size
  · exact .inl rfl
  · exact .inr rfl

theorem Rerun.mem_groups {rerun : Rerun} (h : g ∈ rerun.groups cfg) : g ∈ cfg.kvGroupConfigs := by
  cases rerun with
  | done => cases h
  | slidingWindow => exact (mem_slidingWindowGroups.1 h).1
  | all => exact mem_lookupGroups.1 h

/-- **What a pass maintains**, with the groups that are left to it: full-attention groups are
confirmed unless all groups are looked up again or an answer was deferred, and window groups unless
they are looked up again or an answer was deferred. -/
structure PassInv (req : OffloadRequest cfg H) (computed : ℕ)
    (rest : List GroupOffloadConfig) (st : LookupState) (log : List (OffloadKey H × Answer)) :
    Prop where
  full : ∀ g ∈ cfg.fullAttentionGroups, g ∈ rest ∨ st.lookupGroups = .all ∨
    st.deferLookup = true ∨ Confirmed req computed g st.maxHitSizeTokens log
  window : ∀ g ∈ cfg.slidingWindowGroups, g ∈ rest ∨ st.lookupGroups ≠ .done ∨
    st.deferLookup = true ∨ Confirmed req computed g st.maxHitSizeTokens log
  looked : ∀ g ∈ cfg.slidingWindowGroups, g ∈ rest ∨ st.lookedUpSlidingWindow = true
  numHit : st.numHitTokens = 0 ∧ (∀ g ∈ cfg.kvGroupConfigs, g ∈ rest) ∨
    st.numHitTokens = st.maxHitSizeTokens - computed
  placed : st.Placed req

/-- One group of a pass. -/
theorem PassInv.step {rest : List GroupOffloadConfig} (hg : g ∈ cfg.kvGroupConfigs)
    (h : PassInv req computed (g :: rest) st log) (hlog : log ⊆ log')
    (hstep : GroupStep req computed g st st' log') : PassInv req computed rest st' log' := by
  have hcases (w : GroupOffloadConfig) : w ∈ rest ∨ w = g ∨ w ∉ g :: rest := by
    rw [mem_cons, ← or_assoc, or_comm (a := w ∈ rest)]
    exact em _
  refine ⟨fun f hf ↦ ?_, fun w hw ↦ ?_, fun w hw ↦ ?_, .inr hstep.numHit, hstep.placed h.placed⟩
  · obtain ⟨hfmem, hfnone⟩ := mem_fullAttentionGroups.1 hf
    rcases h.full f hf with hrest | hall | hdefer | hconf
    · rcases mem_cons.1 hrest with rfl | hrest
      · exact .inr hstep.confirmed
      · exact .inl hrest
    · exact .inr (.inl (hstep.keeps_all hall))
    · rcases hstep.keeps_defer hdefer with hd | hall
      · exact .inr (.inr (.inl hd))
      · exact .inr (.inl hall)
    · exact .inr (.inr (.inr ((hconf.shorten hfnone (cfg.pos f hfmem) hstep.max_le).log_mono hlog)))
  · have hconfirmed : ∀ w, (st'.lookupGroups = .all ∨ st'.deferLookup = true ∨
        Confirmed req computed w st'.maxHitSizeTokens log') →
        st'.lookupGroups ≠ .done ∨ st'.deferLookup = true ∨
        Confirmed req computed w st'.maxHitSizeTokens log' := by
      rintro w (hall | hrest)
      · exact .inl (by rw [hall]; exact nofun)
      · exact .inr hrest
    rcases hcases w with hrest | rfl | hnot
    · exact .inl hrest
    · exact .inr (hconfirmed w hstep.confirmed)
    rcases h.window w hw with hin | hrerun | hdefer | hconf
    · exact absurd hin hnot
    · exact .inr (.inl (hstep.keeps_rerun hrerun))
    · exact .inr (hconfirmed w ((hstep.keeps_defer hdefer).symm.imp_right .inl))
    · rcases lt_or_ge st'.maxHitSizeTokens st.maxHitSizeTokens with hlt | hge
      · -- the hit has become shorter behind this window
        refine .inr (.inl (hstep.shortened ((h.looked w hw).resolve_left hnot) ?_))
        have hsize := (cfg.pos g hg).trans_le hstep.size_le
        rcases h.numHit with ⟨-, hall⟩ | hnum
        · exact absurd (hall w (mem_slidingWindowGroups.1 hw).1) hnot
        · rw [hstep.numHit]
          omega
      · have heq := le_antisymm hstep.max_le hge
        rw [heq]
        exact .inr (.inr (.inr (hconf.log_mono hlog)))
  · rw [hstep.looked]
    rcases hcases w with hrest | rfl | hnot
    · exact .inl hrest
    · rw [(mem_slidingWindowGroups.1 hw).2, Bool.or_true]
      exact .inr rfl
    · rw [(h.looked w hw).resolve_left hnot]
      exact .inr rfl

/-- **Invariants of a pass**, with the groups that are left to it. -/
theorem lookupPass_invariant
    {P : List GroupOffloadConfig → LookupState → List (OffloadKey H × Answer) → Prop}
    (hstep : ∀ {g gs st st' log log'}, g ∈ cfg.kvGroupConfigs → P (g :: gs) st log → log ⊆ log' →
      GroupStep req computed g st st' log' → P gs st' log')
    (hgs : ∀ g ∈ gs, g ∈ cfg.kvGroupConfigs) (h : P gs st s.2)
    (hpass : lookupPass (logged lookup) req computed gs st s = (some st', s')) : P [] st' s'.2 := by
  induction gs generalizing st s with
  | nil =>
    cases hpass
    exact h
  | cons g gs ih =>
    rw [lookupPass] at hpass
    have hlog : s.2 ⊆ (lookupGroup (logged lookup) req computed g st s).2.2 :=
      lookupGroup_state req computed (log_subset_logged _) g st (Subset.refl _)
    rcases hgroup : lookupGroup (logged lookup) req computed g st s with ⟨- | st₁, s₁⟩
    · rw [hgroup] at hpass
      cases hpass
    · rw [hgroup] at hpass hlog
      have hg := hgs g mem_cons_self
      exact ih (fun g hg ↦ hgs g (mem_cons_of_mem _ hg))
        (hstep hg h hlog (lookupGroup_spec hg hgroup)) hpass

/-- **What holds between passes**, with the groups of the next one. -/
structure RunInv (req : OffloadRequest cfg H) (computed : ℕ)
    (gs : List GroupOffloadConfig) (st : LookupState) (log : List (OffloadKey H × Answer)) :
    Prop where
  confirmed : ∀ g ∈ cfg.kvGroupConfigs, g ∈ gs ∨ st.deferLookup = true ∨
    Confirmed req computed g st.maxHitSizeTokens log
  windows : gs ≠ [] → ∀ g ∈ cfg.slidingWindowGroups, g ∈ gs
  numHit : st.numHitTokens = 0 ∧ (∀ g ∈ cfg.kvGroupConfigs, g ∈ gs) ∨
    st.numHitTokens = st.maxHitSizeTokens - computed
  placed : st.Placed req

theorem RunInv.passInv (h : RunInv req computed gs st log) (hgs : gs ≠ []) :
    PassInv req computed gs st.startPass log where
  full g hg := (h.confirmed g (mem_fullAttentionGroups.1 hg).1).imp_right .inr
  window g hg := .inl (h.windows hgs g hg)
  looked g hg := .inl (h.windows hgs g hg)
  numHit := h.numHit
  placed := ⟨h.placed.settled, h.placed.shift⟩

theorem PassInv.runInv (h : PassInv req computed [] st log) :
    RunInv req computed (st.lookupGroups.groups cfg) st log := by
  have hnumHit : st.numHitTokens = 0 ∧
      (∀ g ∈ cfg.kvGroupConfigs, g ∈ st.lookupGroups.groups cfg) ∨
      st.numHitTokens = st.maxHitSizeTokens - computed :=
    h.numHit.imp_left fun ⟨hzero, hall⟩ ↦
      ⟨hzero, fun g hg ↦ absurd (hall g hg) not_mem_nil⟩
  refine ⟨fun g hg ↦ ?_, fun hgs g hg ↦ ?_, hnumHit, h.placed⟩
  · rcases mem_append.1 (mem_lookupGroups.2 hg) with hfull | hwindow
    · rcases h.full g hfull with hnil | hall | hrest
      · cases hnil
      · rw [hall]
        exact .inl (mem_lookupGroups.2 hg)
      · exact .inr hrest
    · rcases h.window g hwindow with hnil | hrerun | hrest
      · cases hnil
      · rcases hgroups : st.lookupGroups with - | - | -
        · exact absurd hgroups hrerun
        · exact .inl hwindow
        · exact .inl (mem_lookupGroups.2 hg)
      · exact .inr hrest
  · rcases hgroups : st.lookupGroups with - | - | -
    · rw [hgroups] at hgs
      exact absurd rfl hgs
    · exact hg
    · exact mem_lookupGroups.2 (mem_slidingWindowGroups.1 hg).1

section

variable (hgs : ∀ g ∈ gs, g ∈ cfg.kvGroupConfigs) {passes : ℕ}

include hgs

/-- **All passes.** -/
theorem lookupPasses_spec (h : RunInv req computed gs st s.2)
    (hpasses : lookupPasses (logged lookup) req computed passes gs st s = (some st', s')) :
    RunInv req computed [] st' s'.2 := by
  induction passes generalizing gs st s with
  | zero =>
    rcases gs with - | ⟨g, gs⟩
    · cases hpasses
      exact h
    · cases hpasses
  | succ passes ih =>
    rcases gs with - | ⟨g, gs⟩
    · cases hpasses
      exact h
    · rw [lookupPasses] at hpasses
      rcases hpass : lookupPass (logged lookup) req computed (g :: gs) st.startPass s with
        ⟨- | st₁, s₁⟩
      · rw [hpass] at hpasses
        cases hpasses
      · rw [hpass] at hpasses
        exact ih (fun _ hg ↦ Rerun.mem_groups hg)
          (lookupPass_invariant PassInv.step hgs (h.passInv (cons_ne_nil g gs)) hpass).runInv
          hpasses

section

variable (hnum : st.numHitTokens = 0 ∨ st.numHitTokens = st.maxHitSizeTokens - computed)

include hnum

/-- A pass that asks for another one has shortened the hit. -/
theorem lookupPass_shortens {bound : ℕ} (hle : st.maxHitSizeTokens ≤ bound)
    (hlt : st.lookupGroups ≠ .done → st.maxHitSizeTokens < bound)
    (hpass : lookupPass (logged lookup) req computed gs st s = (some st', s')) :
    (st'.numHitTokens = 0 ∨ st'.numHitTokens = st'.maxHitSizeTokens - computed) ∧
      st'.maxHitSizeTokens ≤ bound ∧ (st'.lookupGroups ≠ .done → st'.maxHitSizeTokens < bound) := by
  refine lookupPass_invariant (P := fun _ st _ ↦ (st.numHitTokens = 0 ∨ st.numHitTokens =
    st.maxHitSizeTokens - computed) ∧ st.maxHitSizeTokens ≤ bound ∧ (st.lookupGroups ≠ .done →
      st.maxHitSizeTokens < bound)) ?_ hgs ⟨hnum, hle, hlt⟩ hpass
  rintro g gs st st' log log' hg ⟨hnum, hle, hlt⟩ - hstep
  refine ⟨.inr hstep.numHit, hstep.max_le.trans hle, fun hrerun ↦ ?_⟩
  rcases hstep.rerun hrerun with hrerun | hless
  · exact hstep.max_le.trans_lt (hlt hrerun)
  · have hnew := hstep.numHit
    rcases hnum with hnum | hnum <;> omega

/-- **The passes end**: with more passes than tokens in the hit, the bound is not reached. -/
theorem loopEnds_lookupPasses (hlt : st.maxHitSizeTokens < passes) :
    LoopEnds (logged lookup) req computed gs st s
      (lookupPasses (logged lookup) req computed passes gs st s) := by
  induction passes generalizing gs st s with
  | zero => exact absurd hlt (not_lt_zero _)
  | succ passes ih =>
    rcases gs with - | ⟨g, gs⟩
    · exact .done ..
    · rw [lookupPasses]
      rcases hpass : lookupPass (logged lookup) req computed (g :: gs) st.startPass s with
        ⟨- | st', s'⟩
      · exact .zero hpass
      · refine .again hpass ?_
        have hnum : st.startPass.numHitTokens = 0 ∨ _ := hnum
        have hle : st.startPass.maxHitSizeTokens ≤ st.maxHitSizeTokens := le_rfl
        obtain ⟨hnum', -, hshorter⟩ :=
          lookupPass_shortens hgs hnum hle (fun h ↦ absurd rfl h) hpass
        show LoopEnds _ _ _ _ st' s'
          (lookupPasses _ _ _ passes (st'.lookupGroups.groups cfg) st' s')
        by_cases hdone : st'.lookupGroups = .done
        · rw [hdone, Rerun.groups, lookupPasses]
          exact .done ..
        · have := hshorter hdone
          exact ih (fun _ hg ↦ Rerun.mem_groups hg) hnum' (by omega)

end

end

/-! ### The hit -/

theorem mambaAlignSize_eq_some (h : cfg.mambaAlignSize = some size) :
    ∃ g ∈ cfg.kvGroupConfigs, g.offloadedBlockSize = size := by
  rw [mambaAlignSize] at h
  split_ifs at h
  obtain ⟨g, hg, rfl⟩ := Option.map_eq_some_iff.1 h
  exact ⟨g, mem_of_find?_eq_some hg, rfl⟩

/-- The start of `_lookup`. -/
theorem runInv_start (req : OffloadRequest cfg H) (computed : ℕ) (useEagle : Bool)
    (log : List (OffloadKey H × Answer)) :
    RunInv req computed cfg.lookupGroups (req.initialState useEagle) log := by
  refine ⟨fun g hg ↦ .inl (mem_lookupGroups.2 hg),
    fun _ g hg ↦ mem_lookupGroups.2 (mem_slidingWindowGroups.1 hg).1,
    .inl ⟨rfl, fun g hg ↦ mem_lookupGroups.2 hg⟩, ⟨?_, fun shift hshift ↦ ?_⟩⟩
  · show Settled req req.initialHitSize
    rw [initialHitSize]
    split_ifs with hnil
    · exact .inr (.inr hnil)
    · rcases halign : cfg.mambaAlignSize with - | size
      · exact .inr (.inl ⟨halign, rfl⟩)
      · obtain ⟨g, hg, rfl⟩ := mambaAlignSize_eq_some halign
        exact .inl ⟨g, hg, Nat.dvd_mul_left _ _⟩
  · have hshift' : cfg.eagleStateShift useEagle = some shift := hshift
    rw [eagleStateShift] at hshift'
    split_ifs at hshift'
    exact mambaAlignSize_eq_some hshift'

/-- **`_lookup` ends**, whatever the manager answers and however often it changes its mind: the
passes that `lookupTokens` allows are all that the loop makes. -/
theorem lookup_loop_ends (req : OffloadRequest cfg H) (computed : ℕ) (useEagle : Bool)
    (s : M × List (OffloadKey H × Answer)) :
    LoopEnds (logged lookup) req computed cfg.lookupGroups (req.initialState useEagle) s
      (lookupPasses (logged lookup) req computed (req.numTokens + 1) cfg.lookupGroups
        (req.initialState useEagle) s) := by
  refine loopEnds_lookupPasses (fun g hg ↦ mem_lookupGroups.1 hg) (.inl rfl) ?_
  show req.initialHitSize < req.numTokens + 1
  rw [initialHitSize]
  split_ifs
  · exact lt_succ_self _
  · split
    · omega
    · exact ((Nat.div_mul_le_self ..).trans (Nat.sub_le ..)).trans_lt (lt_succ_self _)

/-- **Every group is confirmed at the end of a hit.** -/
theorem lookupTokens_confirmed [DecidableEq H] {useEagle : Bool}
    {blocksBeingLoaded : List (OffloadKey H)} {h : ℕ}
    (hlookup : lookupTokens (logged lookup) req computed useEagle blocksBeingLoaded s =
      (some h, s')) (hpos : 0 < h) :
    Settled req (computed + h) ∧ ∀ g ∈ cfg.kvGroupConfigs,
      Confirmed req computed g (computed + h) s'.2 := by
  rw [lookupTokens] at hlookup
  rcases hpasses : lookupPasses (logged lookup) req computed (req.numTokens + 1)
    cfg.lookupGroups (req.initialState useEagle) s with ⟨- | st, s₁⟩
  · rw [hpasses] at hlookup
    obtain ⟨hzero, -⟩ := mk.inj hlookup
    cases Option.some.inj hzero
    cases hpos
  · rw [hpasses] at hlookup
    dsimp only at hlookup
    have hinv := lookupPasses_spec (fun g hg ↦ mem_lookupGroups.1 hg)
      (runInv_start req computed useEagle s.2) hpasses
    split_ifs at hlookup with hdefer hloading
    · cases (mk.inj hlookup).1
    · cases (mk.inj hlookup).1
    · cases hlookup
      have hend : computed + st.numHitTokens = st.maxHitSizeTokens := by
        rcases hinv.numHit with ⟨hzero, -⟩ | hnum <;> omega
      rw [hend]
      refine ⟨hinv.placed.settled, fun g hg ↦ ?_⟩
      rcases hinv.confirmed g hg with hnil | hd | hconf
      · cases hnil
      · exact absurd hd hdefer
      · exact hconf

end Step

end OneCatVllm.Offload
