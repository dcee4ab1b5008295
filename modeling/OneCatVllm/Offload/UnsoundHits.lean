import Mathlib.Algebra.BigOperators.Group.List.Lemmas
import Mathlib.Algebra.Order.BigOperators.GroupWithZero.List
import Mathlib.Algebra.Order.Ring.Nat
import OneCatVllm.Offload.LookupExact

/-!
# Managers that make a hit end inside a block

The converse: for groups that are not compatible there is a request and a manager, whose answers
depend on the key only, with an unsound hit. Such a manager answers present but for one group, which
it ends early, and one key. The passes of `_lookup` are evaluated for it (`Ending`): **the hit ends
where the one group ends**, whatever the other groups are.
-/

namespace OneCatVllm.Offload

open Grid GroupOffloadConfig List Nat OffloadRequest Option

variable {cfg : SchedulerOffloadConfig} {H M Key : Type}

/-! ### Managers without deferred answers -/

variable {g : GroupOffloadConfig} {size : ℕ}

section Static

variable {lookup : M → Key → Answer × M} {ans : Key → Answer} {keys : List Key} {r : ℕ}

/-- A prefix ends at the first absent key. -/
theorem maximalPrefixLoop_static (hans : ∀ m key, (lookup m key).1 = ans key)
    (hr : r ≤ keys.length) (hpresent : ∀ i key, i < r → keys[i]? = some key → ans key = .present)
    (habsent : ∀ i key, r ≤ i → keys[i]? = some key → ans key = .absent) (hitCount : ℕ) (m : M) :
    (maximalPrefixLoop lookup keys hitCount false m).1 = some (hitCount + r) := by
  induction keys generalizing r hitCount m with
  | nil =>
    obtain rfl := le_zero.1 hr
    rfl
  | cons key keys ih =>
    have ha := hans m key
    rw [maximalPrefixLoop]
    rcases hl : lookup m key with ⟨a, m'⟩
    rw [hl] at ha
    cases r with
    | zero =>
      obtain rfl : a = .absent := ha.trans (habsent 0 key le_rfl rfl)
      rfl
    | succ r =>
      obtain rfl : a = .present := ha.trans (hpresent 0 key (succ_pos r) rfl)
      rw [add_comm r 1, ← add_assoc]
      exact ih (le_of_succ_le_succ hr)
        (fun i key hi hkey ↦ hpresent (i + 1) key (succ_lt_succ hi) hkey)
        (fun i key hi hkey ↦ habsent (i + 1) key (succ_le_succ hi) hkey) (hitCount + 1) m'

/-- A window ends behind the last present key; the keys are left in reverse. -/
theorem slidingWindowLoop_static (hsize : 0 < size)
    (hans : ∀ m key, (lookup m key).1 = ans key) (hr : r < keys.length + size)
    (hpresent : ∀ i key, i < r → r ≤ i + size → keys.reverse[i]? = some key → ans key = .present)
    (habsent : ∀ i key, r ≤ i → keys.reverse[i]? = some key → ans key = .absent) (m : M) :
    (slidingWindowLoop lookup size keys (r - keys.length) false m).1 = some r := by
  induction keys generalizing m with
  | nil => rfl
  | cons key keys ih =>
    have ha := hans m key
    have hkey : (key :: keys).reverse[keys.length]? = some key := by
      rw [reverse_cons, getElem?_append_right (by rw [length_reverse]),
        length_reverse, Nat.sub_self]
      rfl
    have hrest : ∀ (i : ℕ) key', keys.reverse[i]? = some key' →
        (key :: keys).reverse[i]? = some key' := by
      intro i key' h
      rw [reverse_cons, getElem?_append_left (List.getElem?_eq_some_iff.1 h).1, h]
    replace ih (hlt : r < keys.length + size) := ih hlt
      (fun i key' hi hs h ↦ hpresent i key' hi hs (hrest i key' h))
      fun i key' hi h ↦ habsent i key' hi (hrest i key' h)
    rw [length_cons] at hr
    rw [slidingWindowLoop, length_cons]
    rcases hl : lookup m key with ⟨a, m'⟩
    rw [hl] at ha
    rcases lt_or_ge keys.length r with hlt | hge
    · obtain rfl : a = .present := ha.trans (hpresent _ key hlt (by omega) hkey)
      dsimp only
      by_cases hfull : r - (keys.length + 1) + 1 = size
      · rw [if_pos hfull]
        show some _ = _
        congr 1
        omega
      · rw [if_neg hfull]
        have hcount : r - (keys.length + 1) + 1 = r - keys.length := by omega
        rw [hcount]
        exact ih (by omega) m'
    · obtain rfl : a = .absent := ha.trans (habsent _ key hge hkey)
      have hcount : 0 = r - keys.length := by omega
      rw [hcount]
      exact ih (by omega) m'

/-- **The end of a group**: the keys of its last window are present, and none behind them. -/
theorem groupLookup_static (hans : ∀ m key, (lookup m key).1 = ans key)
    (hsize : ∀ size, g.slidingWindowSizeInBlocks = some size → 0 < size) (hr : r ≤ keys.length)
    (hpresent : ∀ i key, i < r → (∀ size, g.slidingWindowSizeInBlocks = some size → r ≤ i + size) →
      keys[i]? = some key → ans key = .present)
    (habsent : ∀ i key, r ≤ i → keys[i]? = some key → ans key = .absent) (m : M) :
    (groupLookup lookup g keys m).1 = some r := by
  rw [groupLookup]
  rcases hg : g.slidingWindowSizeInBlocks with - | size
  · have hpfx := maximalPrefixLoop_static hans hr (fun i key hi hkey ↦
      hpresent i key hi (fun size hs ↦ by cases hg.symm.trans hs) hkey) habsent 0 m
    rwa [zero_add] at hpfx
  · have hpos := hsize size hg
    have hlength : r < keys.reverse.length + size := by
      rw [length_reverse]
      omega
    have hwindow := slidingWindowLoop_static hpos hans hlength
      (fun i key hi hs hkey ↦ hpresent i key hi
        (fun size' hs' ↦ by obtain rfl := some.inj (hg.symm.trans hs'); exact hs)
        (by rwa [reverse_reverse] at hkey))
      (fun i key hi hkey ↦ habsent i key hi (by rwa [reverse_reverse] at hkey)) m
    rw [length_reverse, Nat.sub_eq_zero_of_le hr] at hwindow
    exact hwindow

end Static

/-! ### The end of the hit -/

variable {ends : GroupOffloadConfig → Prop}

section Ending

variable {lookup : M → OffloadKey H → Answer × M} {req : OffloadRequest cfg H} {e : ℕ}
  {st : LookupState}

/-- **A manager that ends hits at `e`**: no group ends before, and those that satisfy `ends` end
there. -/
structure Ending (lookup : M → OffloadKey H → Answer × M) (req : OffloadRequest cfg H) (e : ℕ)
    (ends : GroupOffloadConfig → Prop) : Prop where
  size_le : ∀ g ∈ cfg.kvGroupConfigs, g.offloadedBlockSize ≤ e
  keys : ∀ g ∈ cfg.kvGroupConfigs,
    req.initialHitSize ≤ (req.offloadKeys g).length * g.offloadedBlockSize
  answers : ∀ g ∈ cfg.kvGroupConfigs, ∀ maxHit, e ≤ maxHit → maxHit ≤ req.initialHitSize → ∀ m,
    ∃ r, (groupLookup lookup g (req.lookupKeys 0 g maxHit) m).1 = some r ∧
      e ≤ g.offloadedBlockSize * r ∧ (ends g → g.offloadedBlockSize * r = e)

/-- The states of such a lookup. -/
structure Toward (req : OffloadRequest cfg H) (e : ℕ) (st : LookupState) : Prop where
  le : e ≤ st.maxHitSizeTokens
  max_le : st.maxHitSizeTokens ≤ req.initialHitSize
  defer : st.deferLookup = false
  shift : st.eagleStateShift = none

section

variable (h : Ending lookup req e ends)

include h

theorem Ending.group (hg : g ∈ cfg.kvGroupConfigs) (hst : Toward req e st) (m : M) :
    ∃ st' m', lookupGroup lookup req 0 g st m = (some st', m') ∧ Toward req e st' ∧
      st'.numHitTokens = st'.maxHitSizeTokens ∧
      (ends g ∨ st.maxHitSizeTokens = e → st'.maxHitSizeTokens = e) ∧
      (st.maxHitSizeTokens = e → st.numHitTokens ≤ e → st'.lookupGroups = st.lookupGroups) := by
  have hpos := cfg.pos g hg
  have hsize := h.size_le g hg
  obtain ⟨r, hr, hle, hend⟩ := h.answers g hg st.maxHitSizeTokens hst.le hst.max_le m
  have hstart : st.startGroup g (req.offloadKeys g).length = st := by
    rw [LookupState.startGroup, hst.shift]
    rw [min_eq_left (hst.max_le.trans (h.keys g hg))]
  have hroom : ¬ st.maxHitSizeTokens - 0 < g.offloadedBlockSize := by
    have := hst.le
    omega
  have hzero : ¬ r = 0 := by
    rintro rfl
    omega
  set st₁ := st.confirm g (0 / g.offloadedBlockSize) (some r) with hst₁
  have hmax : st₁.maxHitSizeTokens = min st.maxHitSizeTokens (g.offloadedBlockSize * r) := by
    show min _ (g.offloadedBlockSize * (0 / g.offloadedBlockSize + r)) = _
    rw [Nat.zero_div, zero_add]
  have hle₁ : e ≤ st₁.maxHitSizeTokens := by
    rw [hmax]
    exact le_min hst.le hle
  have hroom₁ : ¬ st₁.maxHitSizeTokens - 0 < g.offloadedBlockSize := by omega
  obtain ⟨defer, groups, hres, -, -, -, -, -, hdefer⟩ :=
    reschedule_spec (st₁.maxHitSizeTokens - 0) st₁
  have hgroup : lookupGroup lookup req 0 g st m =
      (some (st₁.finishGroup g (st₁.maxHitSizeTokens - 0)),
        (groupLookup lookup g (req.lookupKeys 0 g st.maxHitSizeTokens) m).2) := by
    rw [lookupGroup, hstart]
    dsimp only
    rw [if_neg hroom, hr, if_neg (fun hsome ↦ hzero (some.inj hsome)), if_neg hroom₁]
  rw [LookupState.finishGroup, hres] at hgroup
  refine ⟨_, _, hgroup, ⟨hle₁, (min_le_left _ _).trans hst.max_le, hdefer hst.defer, hst.shift⟩,
    rfl, fun hor ↦ le_antisymm ?_ hle₁, fun heq hnum ↦ ?_⟩
  · rw [hmax]
    rcases hor with hends | heq
    · exact (min_le_right _ _).trans (hend hends).le
    · exact (min_le_left _ _).trans heq.le
  · have hnot : ¬ st₁.maxHitSizeTokens - 0 < st₁.numHitTokens :=
      fun (hlt : _ < st.numHitTokens) ↦ by omega
    rw [LookupState.reschedule, if_neg hnot] at hres
    exact (congrArg LookupState.lookupGroups hres).symm

/-- A pass of such a lookup. -/
theorem Ending.pass {gs : List GroupOffloadConfig}
    (hgs : ∀ g ∈ gs, g ∈ cfg.kvGroupConfigs) (hst : Toward req e st) (m : M) :
    ∃ st' m', lookupPass lookup req 0 gs st m = (some st', m') ∧ Toward req e st' ∧
      (gs ≠ [] → st'.numHitTokens = st'.maxHitSizeTokens) ∧
      ((∃ g ∈ gs, ends g) ∨ st.maxHitSizeTokens = e → st'.maxHitSizeTokens = e) ∧
      (st.maxHitSizeTokens = e → st.numHitTokens ≤ e → st'.lookupGroups = st.lookupGroups) := by
  induction gs generalizing st m with
  | nil =>
    refine ⟨st, m, rfl, hst, fun hnil ↦ absurd rfl hnil, ?_, fun _ _ ↦ rfl⟩
    rintro (⟨g, hg, -⟩ | heq)
    · cases hg
    · exact heq
  | cons g gs ih =>
    obtain ⟨st₁, m₁, hgroup, hst₁, hnum₁, hend₁, hkeep₁⟩ :=
      h.group (hgs g mem_cons_self) hst m
    obtain ⟨st', m', hpass, hst', hnum', hend', hkeep'⟩ :=
      ih (fun g hg ↦ hgs g (mem_cons_of_mem _ hg)) hst₁ m₁
    refine ⟨st', m', ?_, hst', fun _ ↦ ?_, fun hor ↦ ?_, fun heq hnum ↦ ?_⟩
    · rw [lookupPass, hgroup]
      exact hpass
    · rcases gs with - | ⟨g', gs⟩
      · cases hpass
        exact hnum₁
      · exact hnum' (cons_ne_nil g' gs)
    · rcases hor with ⟨g', hg', hends⟩ | heq
      · rcases mem_cons.1 hg' with rfl | hg'
        · exact hend' (.inr (hend₁ (.inl hends)))
        · exact hend' (.inl ⟨g', hg', hends⟩)
      · exact hend' (.inr (hend₁ (.inr heq)))
    · have hmax := hend₁ (.inr heq)
      rw [hkeep' hmax (by rw [hnum₁, hmax]), hkeep₁ heq hnum]

/-- **The hit ends at `e`.** -/
theorem Ending.tokens [DecidableEq H] (hne : cfg.kvGroupConfigs ≠ []) (hle : e ≤ req.initialHitSize)
    (hends : (∃ g ∈ cfg.kvGroupConfigs, ends g) ∨ req.initialHitSize = e)
    (htokens : 0 < req.numTokens) (m : M) :
    ∃ m', lookupTokens lookup req 0 false [] m = (some e, m') := by
  have hgroups : cfg.lookupGroups ≠ [] := by
    obtain ⟨g, hg⟩ := exists_mem_of_ne_nil _ hne
    exact ne_nil_of_mem (mem_lookupGroups.2 hg)
  have htoward : Toward req e (req.initialState false).startPass := ⟨hle, le_rfl, rfl, rfl⟩
  obtain ⟨st₁, m₁, hpass₁, hst₁, hnum₁, hend₁, -⟩ :=
    h.pass (fun g hg ↦ mem_lookupGroups.1 hg) htoward m
  have hmax₁ : st₁.maxHitSizeTokens = e := by
    refine hend₁ (hends.imp_left ?_)
    rintro ⟨g, hg, hg'⟩
    exact ⟨g, mem_lookupGroups.2 hg, hg'⟩
  have hnum₁ := (hnum₁ hgroups).trans hmax₁
  -- another pass changes nothing any more
  have hpasses : ∀ passes, 0 < passes → ∀ gs, (∀ g ∈ gs, g ∈ cfg.kvGroupConfigs) → ∃ st' m',
      lookupPasses lookup req 0 passes gs st₁ m₁ = (some st', m') ∧
        st'.numHitTokens = e ∧ st'.deferLookup = false := by
    intro passes hpos gs hgs
    obtain ⟨passes, rfl⟩ := exists_eq_succ_of_ne_zero hpos.ne'
    rcases gs with - | ⟨g, gs⟩
    · exact ⟨st₁, m₁, rfl, hnum₁, hst₁.defer⟩
    · have hagain : Toward req e st₁.startPass := { hst₁ with }
      obtain ⟨st₂, m₂, hpass₂, hst₂, hnum₂, hend₂, hkeep₂⟩ := h.pass hgs hagain m₁
      have hdone : st₂.lookupGroups = .done := hkeep₂ hmax₁ hnum₁.le
      refine ⟨st₂, m₂, ?_, ?_, hst₂.defer⟩
      · rw [lookupPasses, hpass₂]
        show lookupPasses lookup req 0 passes (st₂.lookupGroups.groups cfg) st₂ m₂ = _
        rw [hdone, Rerun.groups, lookupPasses]
      · exact (hnum₂ (cons_ne_nil g gs)).trans (hend₂ (.inr hmax₁))
  obtain ⟨st', m', hrest, hnum', hdefer'⟩ := hpasses req.numTokens htokens
    (st₁.lookupGroups.groups cfg) fun g hg ↦ Rerun.mem_groups hg
  have hall : lookupPasses lookup req 0 (req.numTokens + 1) cfg.lookupGroups
      (req.initialState false) m = (some st', m') := by
    obtain ⟨g, gs, hcons⟩ := exists_cons_of_ne_nil hgroups
    rw [hcons] at hpass₁ ⊢
    rw [lookupPasses, hpass₁]
    exact hrest
  refine ⟨m', ?_⟩
  rw [lookupTokens, hall]
  simp [hdefer', hnum']

end

end Ending

/-! ### Requests and managers -/

/-- A manager whose answers depend on the key only. -/
def static (ans : Key → Answer) (_ : Unit) (key : Key) : Answer × Unit := (ans key, ())

theorem logged_static (ans : Key → Answer) (s : Unit × List (Key × Answer)) (key : Key) :
    (logged (static ans) s key).1 = ans key := rfl

/-- A request whose hashes are the numbers of its hash blocks. -/
def numberedRequest (cfg : SchedulerOffloadConfig) (numTokens : ℕ) : OffloadRequest cfg ℕ where
  numTokens := numTokens
  blockHashes := range (numTokens / cfg.hashBlockSize)
  length_blockHashes := length_range

/-- The key of a block of such a request. -/
def numberedKey (cfg : SchedulerOffloadConfig) (g : GroupOffloadConfig) (i : ℕ) : OffloadKey ℕ :=
  (g.offloadedBlockSize / cfg.hashBlockSize * (i + 1) - 1, g.groupIdx)

section Numbered

variable {numTokens maxHit e k i : ℕ} {g' : GroupOffloadConfig} {ans : OffloadKey ℕ → Answer}
  {hole : OffloadKey ℕ → Bool}

section

variable (hg : g ∈ cfg.kvGroupConfigs)

include hg

theorem length_offloadKeys_numbered :
    ((numberedRequest cfg numTokens).offloadKeys g).length = numTokens / g.offloadedBlockSize :=
  ((numberedRequest cfg numTokens).offloadKeys_spec hg).1

theorem offloadKeys_numbered (hi : i < numTokens / g.offloadedBlockSize) :
    ((numberedRequest cfg numTokens).offloadKeys g)[i]? = some (numberedKey cfg g i) := by
  have hfactor := cfg.factor_mul hg
  have hpos := cfg.factor_pos hg
  have hlt : g.offloadedBlockSize / cfg.hashBlockSize * (i + 1) - 1 <
      numTokens / cfg.hashBlockSize := by
    have hle : g.offloadedBlockSize / cfg.hashBlockSize * (i + 1) ≤
        numTokens / cfg.hashBlockSize := by
      rw [le_div_iff_mul_le cfg.hashBlockSize_pos, mul_right_comm, hfactor, mul_comm]
      exact (le_div_iff_mul_le (cfg.pos g hg)).1 hi
    have : 0 < g.offloadedBlockSize / cfg.hashBlockSize * (i + 1) :=
      mul_pos hpos (succ_pos i)
    omega
  rw [((numberedRequest cfg numTokens).offloadKeys_spec hg).2 i hi]
  show (range (numTokens / cfg.hashBlockSize))[_]?.map _ = _
  rw [getElem?_range hlt]
  rfl

/-- Different blocks have different keys. -/
theorem numberedKey_inj (hg' : g' ∈ cfg.kvGroupConfigs) {i i' : ℕ}
    (h : numberedKey cfg g i = numberedKey cfg g' i') : g = g' ∧ i = i' := by
  obtain ⟨hhash, hidx⟩ := Prod.mk.inj h
  obtain rfl := inj_on_of_nodup_map cfg.nodup hg hg' hidx
  have hpos := cfg.factor_pos hg
  refine ⟨rfl, ?_⟩
  have h1 : 0 < g.offloadedBlockSize / cfg.hashBlockSize * (i + 1) :=
    mul_pos hpos (succ_pos i)
  have h2 : 0 < g.offloadedBlockSize / cfg.hashBlockSize * (i' + 1) :=
    mul_pos hpos (succ_pos i')
  have := Nat.eq_of_mul_eq_mul_left hpos (show _ * (i + 1) = _ * (i' + 1) by omega)
  omega

/-- The keys that are looked up from the start. -/
theorem lookupKeys_numbered
    (hmax : cdiv maxHit g.offloadedBlockSize ≤ numTokens / g.offloadedBlockSize) :
    ((numberedRequest cfg numTokens).lookupKeys 0 g maxHit).length =
        cdiv maxHit g.offloadedBlockSize ∧
      ∀ i key, ((numberedRequest cfg numTokens).lookupKeys 0 g maxHit)[i]? = some key →
        key = numberedKey cfg g i := by
  rw [lookupKeys, length_offloadKeys_numbered hg, Nat.zero_div, min_eq_left hmax, drop_zero]
  refine ⟨?_, fun i key hkey ↦ ?_⟩
  · rw [length_take, length_offloadKeys_numbered hg, min_eq_left hmax]
  obtain ⟨hlt, -⟩ := List.getElem?_eq_some_iff.1 hkey
  rw [length_take] at hlt
  rw [getElem?_take_of_lt (by omega), offloadKeys_numbered hg (by omega)] at hkey
  exact (some.inj hkey).symm

/-- An absent key is not logged as present. -/
theorem not_hit_of_absent {log : List (OffloadKey ℕ × Answer)} (hlog : ∀ p ∈ log, p.2 = ans p.1)
    (habsent : ans (numberedKey cfg g i) = .absent) :
    ¬ Hit log ((numberedRequest cfg numTokens).offloadKeys g) i := by
  intro hhit
  have hlt := hhit.lt
  rw [length_offloadKeys_numbered hg] at hlt
  obtain ⟨key, hkey, hmem⟩ := hhit
  rw [offloadKeys_numbered hg hlt] at hkey
  cases hkey
  cases (hlog _ hmem).trans habsent

end

/-- **Sound lookups are sound for such a manager**, whose log is true. -/
theorem LookupSound.static (h : LookupSound cfg)
    (hending : Ending (logged (static ans)) (numberedRequest cfg numTokens) e ends)
    (hne : cfg.kvGroupConfigs ≠ []) (hle : e ≤ (numberedRequest cfg numTokens).initialHitSize)
    (hends : (∃ g ∈ cfg.kvGroupConfigs, ends g) ∨
      (numberedRequest cfg numTokens).initialHitSize = e) (htokens : 0 < numTokens) (he : 0 < e):
    ∃ log, (∀ p ∈ log, p.2 = ans p.1) ∧ HitSound (numberedRequest cfg numTokens) 0 e log := by
  obtain ⟨s', hs'⟩ := hending.tokens hne hle hends htokens ((), [])
  have hkeep : ∀ (s : Unit × List (OffloadKey ℕ × Answer)) key, (∀ p ∈ s.2, p.2 = ans p.1) →
      ∀ p ∈ (logged (Offload.static ans) s key).2.2, p.2 = ans p.1 := by
    intro s key hs p hp
    rcases mem_cons.1 hp with rfl | hp
    · rfl
    · exact hs p hp
  have hlog := lookupTokens_state (numberedRequest cfg numTokens) 0 hkeep false []
    (m := ((), [])) nofun
  rw [hs'] at hlog
  have hsound := h ℕ Unit (Offload.static ans) () (numberedRequest cfg numTokens) 0 false [] e s'
    hs' he
  rw [zero_add] at hsound
  exact ⟨s'.2, hlog, hsound⟩

/-! ### Groups that are not compatible -/

/-- A common multiple of all block sizes. -/
def SchedulerOffloadConfig.period (cfg : SchedulerOffloadConfig) : ℕ :=
  (cfg.kvGroupConfigs.map offloadedBlockSize).prod

theorem dvd_period (hg : g ∈ cfg.kvGroupConfigs) : g.offloadedBlockSize ∣ cfg.period :=
  dvd_prod (mem_map.2 ⟨g, hg, rfl⟩)

theorem period_pos (cfg : SchedulerOffloadConfig) : 0 < cfg.period := by
  refine prod_pos fun b hb ↦ ?_
  obtain ⟨g, hg, rfl⟩ := mem_map.1 hb
  exact cfg.pos g hg

theorem le_period (hg : g ∈ cfg.kvGroupConfigs) : g.offloadedBlockSize ≤ cfg.period :=
  le_of_dvd (period_pos cfg) (dvd_period hg)

/-- The keys of a request of whole periods reach to its end. -/
theorem keys_numbered (hg : g ∈ cfg.kvGroupConfigs) (hdvd : cfg.period ∣ numTokens) :
    numTokens / g.offloadedBlockSize * g.offloadedBlockSize = numTokens :=
  Nat.div_mul_cancel ((dvd_period hg).trans hdvd)

theorem initialHitSize_le (numTokens : ℕ) :
    (numberedRequest cfg numTokens).initialHitSize ≤ numTokens := by
  rw [initialHitSize]
  split_ifs
  · exact le_rfl
  · rcases cfg.mambaAlignSize with - | size
    · exact sub_le _ _
    · exact (div_mul_le_self _ _).trans (sub_le _ _)

/-- A hit can start at most a period before the end of a request. -/
theorem le_initialHitSize (hpos : 0 < numTokens) :
    numTokens ≤ (numberedRequest cfg numTokens).initialHitSize + cfg.period := by
  have hperiod := period_pos cfg
  rw [initialHitSize]
  split_ifs
  · exact le_add_right _ _
  · rcases halign : cfg.mambaAlignSize with - | size
    · show numTokens ≤ numTokens - 1 + cfg.period
      omega
    · obtain ⟨g, hg, rfl⟩ := mambaAlignSize_eq_some halign
      have hle := le_period hg
      have hlt : numTokens - 1 < ((numTokens - 1) / g.offloadedBlockSize + 1) *
          g.offloadedBlockSize := by
        rw [mul_comm]
        exact lt_mul_div_succ _ (cfg.pos g hg)
      rw [add_mul] at hlt
      show numTokens ≤ (numTokens - 1) / g.offloadedBlockSize * g.offloadedBlockSize + cfg.period
      omega

section

variable (hg : g ∈ cfg.kvGroupConfigs) (hdvd : cfg.period ∣ numTokens)

include hg hdvd

theorem initialHitSize_le_keys : (numberedRequest cfg numTokens).initialHitSize ≤
    ((numberedRequest cfg numTokens).offloadKeys g).length * g.offloadedBlockSize := by
  rw [length_offloadKeys_numbered hg, keys_numbered hg hdvd]
  exact initialHitSize_le numTokens

theorem cdiv_le_of_le_initialHitSize
    (hmax : maxHit ≤ (numberedRequest cfg numTokens).initialHitSize) :
    cdiv maxHit g.offloadedBlockSize ≤ numTokens / g.offloadedBlockSize := by
  rw [cdiv_le_iff (cfg.pos g hg), keys_numbered hg hdvd]
  exact hmax.trans (initialHitSize_le numTokens)

/-- A group whose last window is present does not shorten the hit. -/
theorem exists_answer_of_present {ends : Prop} (hends : ¬ ends) (hle : e ≤ maxHit)
    (hmax : maxHit ≤ (numberedRequest cfg numTokens).initialHitSize)
    (hpresent : ∀ i < cdiv maxHit g.offloadedBlockSize, (∀ size,
      g.slidingWindowSizeInBlocks = some size → cdiv maxHit g.offloadedBlockSize ≤ i + size) →
      ans (numberedKey cfg g i) = .present) (s : Unit × List (OffloadKey ℕ × Answer)) :
    ∃ r, (groupLookup (logged (static ans)) g
        ((numberedRequest cfg numTokens).lookupKeys 0 g maxHit) s).1 = some r ∧
      e ≤ g.offloadedBlockSize * r ∧ (ends → g.offloadedBlockSize * r = e) := by
  obtain ⟨hlength, hkeys⟩ := lookupKeys_numbered hg (cdiv_le_of_le_initialHitSize hg hdvd hmax)
  refine ⟨cdiv maxHit g.offloadedBlockSize, groupLookup_static (logged_static _)
    (fun size hs ↦ cfg.slidingWindowSize_pos hg hs) hlength.ge (fun i key hi hwindow hkey ↦ ?_)
    (fun i key hi hkey ↦ ?_) s, hle.trans ?_, fun h ↦ absurd h hends⟩
  · obtain rfl := hkeys i key hkey
    exact hpresent i hi hwindow
  · obtain ⟨hlt, -⟩ := List.getElem?_eq_some_iff.1 hkey
    omega
  · rw [mul_comm]
    exact (cdiv_le_iff (cfg.pos g hg)).1 le_rfl

end

/-- The manager that ends the group `g'` after `k` blocks, with holes. -/
def endingAnswer (cfg : SchedulerOffloadConfig) (g' : GroupOffloadConfig) (k : ℕ)
    (hole : OffloadKey ℕ → Bool) (key : OffloadKey ℕ) : Answer :=
  if key.2 = g'.groupIdx ∧ g'.offloadedBlockSize / cfg.hashBlockSize * k < key.1 + 1 then .absent
  else if hole key then .absent
  else .present

theorem endingAnswer_of_ne (hg : g ∈ cfg.kvGroupConfigs) (hg' : g' ∈ cfg.kvGroupConfigs)
    (hne : g ≠ g') :
    endingAnswer cfg g' k hole (numberedKey cfg g i) =
      if hole (numberedKey cfg g i) then .absent else .present := by
  rw [endingAnswer, if_neg]
  rintro ⟨hidx, -⟩
  exact hne (inj_on_of_nodup_map cfg.nodup hg hg' hidx)

theorem endingAnswer_self (hg' : g' ∈ cfg.kvGroupConfigs) :
    endingAnswer cfg g' k hole (numberedKey cfg g' i) =
      if k ≤ i then .absent
      else if hole (numberedKey cfg g' i) then .absent else .present := by
  have hpos := cfg.factor_pos hg'
  have hsucc : g'.offloadedBlockSize / cfg.hashBlockSize * (i + 1) - 1 + 1 =
      g'.offloadedBlockSize / cfg.hashBlockSize * (i + 1) :=
    Nat.sub_add_cancel (mul_pos hpos (succ_pos i))
  have hiff : (numberedKey cfg g' i).2 = g'.groupIdx ∧
      g'.offloadedBlockSize / cfg.hashBlockSize * k < (numberedKey cfg g' i).1 + 1 ↔ k ≤ i := by
    rw [numberedKey, hsucc, and_iff_right rfl, Nat.mul_lt_mul_left hpos, Nat.lt_succ_iff]
  rw [endingAnswer]
  simp only [hiff]

section

variable (hole) (hg' : g' ∈ cfg.kvGroupConfigs)
  (hsize : ∀ g ∈ cfg.kvGroupConfigs, g.offloadedBlockSize ≤ k * g'.offloadedBlockSize)
  (hhole : ∀ g ∈ cfg.kvGroupConfigs, ∀ i, hole (numberedKey cfg g i) = true →
    ∃ size, g.slidingWindowSizeInBlocks = some size ∧
      i + size < cdiv (k * g'.offloadedBlockSize) g.offloadedBlockSize)

include hg' hsize hhole

/-- **The hit ends with the group that ends early**, when the holes lie before all windows. -/
theorem ending_of_limit (hdvd : cfg.period ∣ numTokens) :
    Ending (logged (static (endingAnswer cfg g' k hole))) (numberedRequest cfg numTokens)
      (k * g'.offloadedBlockSize) (· = g') := by
  refine ⟨hsize, fun g hg ↦ initialHitSize_le_keys hg hdvd, fun g hg maxHit hle hmax m ↦ ?_⟩
  · have hpos := cfg.pos g hg
    have hmono : cdiv (k * g'.offloadedBlockSize) g.offloadedBlockSize ≤
        cdiv maxHit g.offloadedBlockSize := cdiv_mono hpos hle
    by_cases hgg : g = g'
    · subst hgg
      obtain ⟨hlength, hkeys⟩ := lookupKeys_numbered hg (cdiv_le_of_le_initialHitSize hg hdvd hmax)
      rw [cdiv_mul hpos] at hmono
      refine ⟨k, groupLookup_static (logged_static _)
        (fun size hs ↦ cfg.slidingWindowSize_pos hg hs) (by rwa [hlength])
        (fun i key hi hwindow hkey ↦ ?_) (fun i key hi hkey ↦ ?_) m, by rw [mul_comm],
        fun _ ↦ mul_comm _ _⟩
      · obtain rfl := hkeys i key hkey
        rw [endingAnswer_self hg, if_neg (Nat.not_le_of_lt hi), if_neg]
        intro hh
        obtain ⟨size, hs, hlt⟩ := hhole g hg i hh
        rw [cdiv_mul hpos] at hlt
        exact absurd (hwindow size hs) (Nat.not_le_of_lt hlt)
      · obtain rfl := hkeys i key hkey
        rw [endingAnswer_self hg, if_pos hi]
    · refine exists_answer_of_present hg hdvd hgg hle hmax (fun i hi hwindow ↦ ?_) m
      rw [endingAnswer_of_ne hg hg' hgg, if_neg]
      intro hh
      obtain ⟨size, hs, hlt⟩ := hhole g hg i hh
      have := hwindow size hs
      omega

/-- A hit that ends at a boundary of any group, with holes before the windows. -/
theorem LookupSound.limit (h : LookupSound cfg) :
    ∃ numTokens log, (∀ p ∈ log, p.2 = endingAnswer cfg g' k hole p.1) ∧
      HitSound (numberedRequest cfg numTokens) 0 (k * g'.offloadedBlockSize) log := by
  have hperiod := period_pos cfg
  set e := k * g'.offloadedBlockSize with he
  have hpos : 0 < e := (cfg.pos g' hg').trans_le (hsize g' hg')
  have hlarge : e ≤ cfg.period * e := Nat.le_mul_of_pos_left e hperiod
  have hsplit : cfg.period * (e + 1) = cfg.period * e + cfg.period := mul_succ _ _
  have htokens : 0 < cfg.period * (e + 1) := mul_pos hperiod (succ_pos e)
  have hle : e ≤ (numberedRequest cfg (cfg.period * (e + 1))).initialHitSize := by
    have hstart : cfg.period * (e + 1) ≤
        (numberedRequest cfg (cfg.period * (e + 1))).initialHitSize + cfg.period :=
      le_initialHitSize htokens
    omega
  obtain ⟨log, hlog, hsound⟩ := h.static
    (ending_of_limit hole hg' hsize hhole (dvd_mul_right _ _))
    (ne_nil_of_mem hg') hle (.inl ⟨g', hg', rfl⟩) htokens hpos
  exact ⟨_, log, hlog, hsound⟩

end

section

variable (h : LookupSound cfg) (hg : g ∈ cfg.kvGroupConfigs) (hkind : g.kind = .mamba)

include h hg hkind

/-- Mamba states outside the mode `align`: the hit ends before the last token. -/
theorem LookupSound.mamba_align : cfg.mambaAlign = true ∨ g.offloadedBlockSize = 1 := by
  by_contra hnot
  obtain ⟨halign, hone⟩ := not_or.1 hnot
  have hperiod := period_pos cfg
  have hwindows : cfg.slidingWindowGroups ≠ [] :=
    ne_nil_of_mem (mem_slidingWindowGroups_of_kind hg (by rw [hkind]; exact nofun))
  have hinitial : (numberedRequest cfg (cfg.period * 2)).initialHitSize = cfg.period * 2 - 1 := by
    rw [initialHitSize, if_neg hwindows, SchedulerOffloadConfig.mambaAlignSize, if_neg halign]
    rfl
  have hending : Ending (logged (Offload.static fun _ ↦ .present))
      (numberedRequest cfg (cfg.period * 2)) (cfg.period * 2 - 1) fun _ ↦ False := by
    refine ⟨fun g hg ↦ ?_, fun g hg ↦ initialHitSize_le_keys hg (dvd_mul_right _ _),
      fun g hg maxHit hle hmax m ↦ ?_⟩
    · have := le_period hg
      omega
    · exact exists_answer_of_present hg (dvd_mul_right _ _) not_false hle hmax (fun _ _ _ ↦ rfl) m
  obtain ⟨log, -, hsound⟩ := h.static hending (ne_nil_of_mem hg) hinitial.ge
    (.inr hinitial) (by omega) (by omega)
  have hstate := hsound g hg
  rw [hkind] at hstate
  have hdvd : g.offloadedBlockSize ∣ cfg.period * 2 := (dvd_period hg).trans (dvd_mul_right _ _)
  refine hone (dvd_one.1 ((dvd_sub hdvd hstate.1).trans ?_))
  rw [Nat.sub_sub_self (by omega)]

/-- Mamba states and the block boundaries of other groups. -/
theorem LookupSound.mamba_dvd (hg' : g' ∈ cfg.kvGroupConfigs) :
    g.offloadedBlockSize ∣ g'.offloadedBlockSize := by
  have hsize : ∀ g₁ ∈ cfg.kvGroupConfigs, g₁.offloadedBlockSize ≤
      (1 + g.offloadedBlockSize * cfg.period) * g'.offloadedBlockSize := by
    intro g₁ hg₁
    have hle := le_period hg₁
    have hlarge : cfg.period ≤ g.offloadedBlockSize * cfg.period :=
      Nat.le_mul_of_pos_left _ (cfg.pos g hg)
    have hlarge' : 1 + g.offloadedBlockSize * cfg.period ≤
        (1 + g.offloadedBlockSize * cfg.period) * g'.offloadedBlockSize :=
      Nat.le_mul_of_pos_right _ (cfg.pos g' hg')
    omega
  obtain ⟨numTokens, log, -, hsound⟩ := h.limit (fun _ ↦ false) hg' hsize nofun
  have hstate := hsound g hg
  rw [hkind] at hstate
  have hdvd := hstate.1
  rw [add_mul, one_mul] at hdvd
  exact (Nat.dvd_add_left (Dvd.dvd.mul_right (dvd_mul_right _ _) _)).1 hdvd

end

/-- The last position of the block before a window of blocks is still one of the window, when the
window ends little inside a block. -/
theorem exists_position_before_window {b window q d : ℕ} (hb : 0 < b) (hsize : 0 < size)
    (hq : size ≤ q) (hlong : d + 1 + size * b < b + window) :
    ((q - size + 1) * b - 1) / b = q - size ∧ (q - size + 1) * b - 1 < q * b + d ∧
      q * b + d < (q - size + 1) * b - 1 + window := by
  obtain ⟨t, rfl⟩ := Nat.exists_eq_add_of_le hq
  have hone : b ≤ size * b := Nat.le_mul_of_pos_left b hsize
  rw [Nat.add_sub_cancel_left, add_mul, add_mul, one_mul]
  refine ⟨?_, by omega, by omega⟩
  rw [Nat.add_sub_assoc hb, add_comm, add_mul_div_right _ _ hb,
    div_eq_of_lt (by omega), zero_add]

/-- A window inside a block: the key before its blocks is a hole. -/
theorem LookupSound.window (h : LookupSound cfg) (hg : g ∈ cfg.kvGroupConfigs) {window : ℕ}
    (hkind : g.kind = .slidingWindow window) (hg' : g' ∈ cfg.kvGroupConfigs) :
    g.offloadedBlockSize ∣ g'.offloadedBlockSize ∨
      g.offloadedBlockSize + window ≤ Nat.gcd g.offloadedBlockSize g'.offloadedBlockSize + 1 +
        cdiv window g.offloadedBlockSize * g.offloadedBlockSize := by
  by_contra hnot
  obtain ⟨hndvd, hlong⟩ := not_or.1 hnot
  have hpos := cfg.pos g hg
  have hpos' := cfg.pos g' hg'
  set b := g.offloadedBlockSize with hb
  set b' := g'.offloadedBlockSize with hb'
  set size := cdiv window b with hsize
  have hwindowSize : g.slidingWindowSizeInBlocks = some size := by
    rw [slidingWindowSizeInBlocks, hkind]
  have hgcd_pos : 0 < Nat.gcd b' b := gcd_pos_of_pos_right _ hpos
  have hgcd_lt : Nat.gcd b' b < b := by
    refine lt_of_le_of_ne (le_of_dvd hpos (Nat.gcd_dvd_right _ _)) fun heq ↦ hndvd ?_
    rw [← heq]
    exact Nat.gcd_dvd_left _ _
  obtain ⟨k₀, -, hk₀⟩ := exists_mul_mod_eq_gcd hgcd_lt
  -- a boundary of `g'` that lies as little as possible inside a block of `g`
  set k := k₀ + b * (cfg.period + size) with hk
  set e := k * b' with he
  have hrem : e % b = Nat.gcd b' b := by
    rw [he, add_mul, mul_assoc b, add_mul_mod_self_left, mul_comm, hk₀]
  have hlarge : b * (cfg.period + size) ≤ e := by
    refine le_trans ?_ (Nat.le_mul_of_pos_right k hpos')
    omega
  have hperiod : cfg.period ≤ b * cfg.period := Nat.le_mul_of_pos_left _ hpos
  rw [mul_add] at hlarge
  have hdiv := div_add_mod' e b
  have hblocks : size ≤ e / b := by
    rw [le_div_iff_mul_le hpos, mul_comm]
    omega
  have hndvd_e : ¬ b ∣ e := by
    intro hdvd
    omega
  have hcdiv : cdiv e b = e / b + 1 := by
    have hnext := next_eq_cdiv_mul hpos hndvd_e
    exact (eq_of_mul_eq_mul_right hpos hnext).symm
  have hsizes : ∀ g₁ ∈ cfg.kvGroupConfigs, g₁.offloadedBlockSize ≤ e := by
    intro g₁ hg₁
    have := le_period hg₁
    omega
  obtain ⟨numTokens, log, hlog, hsound⟩ := h.limit
    (fun key ↦ decide (key = numberedKey cfg g (e / b - size))) hg' hsizes
    fun g₁ hg₁ i hi ↦ by
      obtain ⟨rfl, rfl⟩ := numberedKey_inj hg₁ hg (of_decide_eq_true hi)
      refine ⟨size, hwindowSize, ?_⟩
      show _ < cdiv e b
      omega
  have hposition := hsound g hg
  rw [hkind] at hposition
  have hlong' : Nat.gcd b' b + 1 + size * b < b + window := by
    rw [gcd_comm]
    exact Nat.lt_of_not_le hlong
  obtain ⟨hp, hlt, hreach⟩ := exists_position_before_window hpos
    (cfg.slidingWindowSize_pos hg hwindowSize) hblocks hlong'
  rw [hrem] at hdiv
  rw [hdiv] at hlt hreach
  have hhit := hposition ((e / b - size + 1) * b - 1) (zero_le _) hlt hreach
  rw [hp] at hhit
  refine not_hit_of_absent hg hlog ?_ hhit
  rw [endingAnswer_of_ne hg hg' (fun heq ↦ hndvd (by rw [hb, heq])), if_pos]
  exact decide_eq_true rfl

/-- **Exactly compatible groups have sound lookups.** -/
theorem lookupSound_iff_coherent (cfg : SchedulerOffloadConfig) :
    LookupSound cfg ↔ cfg.Coherent := by
  refine ⟨fun h g hg g' hg' ↦ ?_, lookupSound_of_coherent⟩
  rw [Compatible]
  rcases hkind : g.kind with - | window | -
  · trivial
  · exact h.window hg hkind hg'
  · exact ⟨h.mamba_align hg hkind, h.mamba_dvd hg hkind hg'⟩

end Numbered

/-- A full-attention group and a Mamba group in the mode `all`, with blocks of 16 tokens. -/
def mambaAllConfig : SchedulerOffloadConfig where
  kvGroupConfigs := [⟨0, 16, .fullAttention⟩, ⟨1, 16, .mamba⟩]
  hashBlockSize := 16
  mambaAlign := false
  hashBlockSize_pos := by decide
  dvd := by decide
  pos := by decide
  window_pos g hg window hkind := by
    simp only [mem_cons, not_mem_nil, or_false] at hg
    rcases hg with rfl | rfl <;> cases hkind
  nodup := by decide
  aligned := nofun

/-- **The state behind the last token**: with all blocks offloaded, a prompt of 32 tokens gets a hit
of 31 tokens, at which there is no state; the state after 32 tokens would be restored. -/
theorem mambaAll_hit_not_sound :
    (lookupTokens (logged (static fun _ ↦ .present)) (numberedRequest mambaAllConfig 32) 0 false []
      ((), [])).1 = some 31 ∧
    ∀ log, ¬ HitSound (numberedRequest mambaAllConfig 32) 0 (0 + 31) log := by
  refine ⟨by decide, fun log hsound ↦ ?_⟩
  have hstate := hsound ⟨1, 16, .mamba⟩ (by decide)
  exact absurd hstate.1 (by decide)

end OneCatVllm.Offload
