import OneCatVllm.Sched.StepOutcome

/-!
# The loop over the running requests

The first loop of `schedule` walks along `running` by an index while preemptions shorten the list
behind it, or, under the `PRIORITY` policy, anywhere. `RunningInv` is kept by every preemption
(`RunningInv.preempt`) and by every request scheduled (`RunningInv.scheduleRunning`), hence by the
loop (`runningLoop_inv`).
-/

namespace OneCatVllm

open Dict List Nat Option Scheduler StepState

variable {H E : Type} {v x n : ℕ}

/-! ### Lists under erasure -/

variable {l : List ℕ}

/-- A list without its last element, when the elements differ. -/
theorem dropLast_eq_erase (hl : l.Nodup) (hv : l.getLast? = some v) : l.dropLast = l.erase v := by
  obtain ⟨ys, rfl⟩ := getLast?_eq_some_iff.1 hv
  have hnot : v ∉ ys := fun h ↦ (nodup_append.1 hl).2.2 v h v (mem_singleton_self v) rfl
  rw [dropLast_concat, erase_append_right _ hnot, erase_cons_head, append_nil]

/-- The last element of a list is not among those before an index of the list. -/
theorem getLast?_notMem_take (hl : l.Nodup) (hv : l.getLast? = some v) (hn : n < l.length) :
    v ∉ l.take n := by
  obtain ⟨ys, rfl⟩ := getLast?_eq_some_iff.1 hv
  rw [length_append, length_singleton] at hn
  rw [take_append_of_le_length (by omega)]
  exact fun h ↦ (nodup_append.1 hl).2.2 v (mem_of_mem_take h) v (mem_singleton_self v) rfl

/-- Erasing an element keeps the others among the first, as many as are left of these. -/
theorem mem_take_erase {m : ℕ} (hx : x ∈ l.take n) (hne : x ≠ v)
    (hm : ((l.take n).erase v).length ≤ m) : x ∈ (l.erase v).take m := by
  have hstart := take_prefix n l
  have hfirst := prefix_iff_eq_take.1 (hstart.erase v)
  have hmem := (mem_erase_of_ne hne).2 hx
  rw [hfirst] at hmem
  exact take_subset_take_left _ hm hmem

/-! ### Preemption -/

/-- Take a request out of `running` and out of what is scheduled. -/
def StepState.unschedule (a : StepState H E) (v : ℕ) : StepState H E :=
  { a with
    sched := { a.sched with running := a.sched.running.erase v }
    scheduledRunningReqs := a.scheduledRunningReqs.erase v
    tokenBudget := a.tokenBudget + (get? a.numScheduledTokens v).getD 0
    numScheduledTokens := pop a.numScheduledTokens v
    scheduledSpecDecodeTokens := pop a.scheduledSpecDecodeTokens v }

/-- A victim's preemption as a whole. -/
def StepState.preempted (a : StepState H E) (v : ℕ) (r : Request H E) : StepState H E :=
  let b := a.unschedule v
  { b with
    sched := { b.sched.setRequest v r.preempt with waiting := v :: b.sched.waiting }
    preemptedReqs := b.preemptedReqs ++ [v] }

variable {cfg : SchedulerConfig H E} {env : ScheduleEnv} {s₀ : Scheduler H E} {a : StepState H E}
  {idx : ℕ} {r : Request H E}

namespace RunningInv

section

variable (h : RunningInv cfg env s₀ a idx)

include h

/-- **Removing a victim** amounts to the same under both policies, as long as the one that never
picks a scheduled request does not. -/
theorem removeVictim_eq (hv : preemptionVictim cfg a.sched = some v)
    (hfcfs : cfg.policy = .fcfs → v ∉ a.scheduledRunningReqs) :
    a.removeVictim cfg idx v =
      (a.unschedule v, if v ∈ a.scheduledRunningReqs then idx - 1 else idx) := by
  -- popping a request that is not scheduled changes nothing
  have hpop (hnot : v ∉ a.scheduledRunningReqs) : a.unschedule v =
      { a with sched := { a.sched with running := a.sched.running.erase v } } := by
    rw [h.scheduledRunningReqs] at hnot
    have hnone := get?_eq_none_iff.2 hnot
    have hspec := get?_eq_none_iff.1 (h.unscheduled v hnone).1
    simp only [unschedule, pop_eq_self hnot, pop_eq_self hspec, hnone,
      getD_none, add_zero, h.scheduledRunningReqs, erase_of_not_mem hnot]
  rcases hp : cfg.policy with - | -
  · have hnot := hfcfs hp
    have hlast : a.sched.running.getLast? = some v := by rwa [preemptionVictim, hp] at hv
    rw [hpop hnot, if_neg hnot, removeVictim, hp, dropLast_eq_erase h.placed.running_nodup hlast]
  · rw [removeVictim, hp]
    show (if v ∈ a.scheduledRunningReqs then _ else _) = _
    split_ifs with hmem
    · rfl
    · rw [hpop hmem]

/-- A running request was running when the step started. -/
theorem start_running (hs₀ : AllPlaced s₀ [])
    (hv : v ∈ a.sched.running) : ∃ r₀ r t, s₀.requests v = some r₀ ∧ r₀.status = .running ∧
      a.sched.requests v = some r ∧ r.status = .running ∧ a.scheduled v = t ∧
      StepOutcome cfg env v r₀ r t := by
  obtain ⟨r₀, hr₀, hrun₀⟩ := hs₀.of_mem_running (h.subset hv)
  obtain ⟨r, hr, hrun⟩ := h.placed.of_mem_running hv
  have hout := h.outcome v
  rw [hr₀, hr] at hout
  cases hout with
  | live hout => exact ⟨r₀, r, _, hr₀, hrun₀, hr, hrun, rfl, hout⟩

/-- **Preempting a victim** keeps the invariant; the index moves back if the victim had been
scheduled. -/
theorem preempt (hs₀ : AllPlaced s₀ [])
    (hv : v ∈ a.sched.running) (hr : a.sched.requests v = some r) :
    RunningInv cfg env s₀ (a.preempted v r)
      (if v ∈ a.scheduledRunningReqs then idx - 1 else idx) := by
  obtain ⟨r₀, r', t, hr₀, hrun₀, hr', hrun, -, hout⟩ := h.start_running hs₀ hv
  cases hr.symm.trans hr'
  have hkeys : (Dict.keys a.numScheduledTokens).Nodup := h.nodup
  have herase : a.scheduledRunningReqs.erase v = Dict.keys (pop a.numScheduledTokens v) := by
    rw [keys_pop, h.scheduledRunningReqs, hkeys.erase_eq_filter]
    exact filter_congr fun _ _ ↦ by rw [Bool.eq_iff_iff]; simp
  have hother : ∀ j ≠ v, a.SameAt (a.preempted v r) j := fun j hj ↦
    { requests := setRequest_requests_of_ne hj
      numScheduledTokens := by
        simp [preempted, unschedule, get?_pop, hj.symm]
      specTokens := by simp [preempted, unschedule, get?_pop, hj.symm]
      new_eq := rfl }
  have hreq : (a.preempted v r).sched.requests v = some r.preempt :=
    setRequest_requests_self
  have hnone : (a.preempted v r).scheduled v = none := by
    rw [scheduled_eq_none_iff]
    simp [preempted, unschedule, get?_pop]
  refine
    { h with
      outcome := h.outcome_of_sameAt hother ?_
      placed := ?_
      nodup := nodup_keys_pop h.nodup
      unscheduled := h.unscheduled_of_sameAt hother fun _ ↦ by
        simp [preempted, unschedule, get?_pop, h.scheduledNewReqs]
      scheduledRunningReqs := herase
      mem_take := ?_
      subset := fun _ hj ↦ h.subset (mem_of_mem_erase hj)
      untouched := fun j hj ↦ ?_
      queues := fun hnil ↦ absurd hnil (by simp [preempted]) }
  · rw [hr₀, hreq, hnone]
    exact .live (hout.preempt hrun₀ hrun)
  · refine h.placed.move v (fun j hj ↦ ⟨(hother j hj).requests, ?_, ?_⟩) ?_
    · exact count_erase_of_ne hj
    · simp [preempted, waitingCount, unschedule, hj.symm]
    · have hid := h.placed v
      rw [hr, placeOf, hrun] at hid
      obtain ⟨hcount, hwait⟩ := hid
      rw [hreq]
      refine ⟨?_, ?_⟩
      · show (a.sched.running.erase v).count v = 0
        rw [count_erase_self, hcount]
      · simp only [preempted, waitingCount, unschedule,
          setRequest_skippedWaiting, count_cons_self] at hwait ⊢
        omega
  · intro j hj
    have hne : j ≠ v := fun hjv ↦ by
      have := (h.scheduledRunningReqs ▸ hkeys : a.scheduledRunningReqs.Nodup)
      exact this.not_mem_erase (hjv ▸ hj)
    have hmem := h.mem_take j (mem_of_mem_erase hj)
    split_ifs with hsched
    · refine mem_take_erase hmem hne ?_
      rw [length_erase_of_mem (h.mem_take v hsched)]
      exact Nat.sub_le_sub_right (length_take_le ..) 1
    · exact mem_take_erase hmem hne (length_erase_le.trans (length_take_le ..))
  · have hne : j ≠ v := fun hjv ↦ hj (hjv ▸ h.subset hv)
    rw [(hother j hne).requests, (hother j hne).scheduled_eq]
    exact h.untouched j hj

end

end RunningInv

/-- Request `id` is the next one to schedule: it is among the first `idx + 1` running requests and
nothing is scheduled for it. Under `FCFS` it stands at the index itself. -/
structure NextRunning (cfg : SchedulerConfig H E) (a : StepState H E) (idx id : ℕ)
    (r : Request H E) : Prop where
  requests : a.sched.requests id = some r
  not_scheduled : id ∉ a.scheduledRunningReqs
  mem_take : id ∈ a.sched.running.take (idx + 1)
  getElem : cfg.policy = .fcfs → a.sched.running[idx]? = some id

/-- The victim is a running request. -/
theorem preemptionVictim_mem {s : Scheduler H E} (h : preemptionVictim cfg s = some v) :
    v ∈ s.running := by
  unfold preemptionVictim at h
  rcases hp : cfg.policy with - | - <;> simp only [hp] at h
  · exact mem_of_getLast? h
  · -- the fold only ever keeps an element of the list
    refine foldlRecOn (motive := fun o ↦ ∀ x, o = some x → x ∈ s.running) s.running _ ?_ ?_ v h
    · rintro - ⟨⟩
    · intro o ho y hy x hx
      rcases o with - | b
      · exact some.inj hx ▸ hy
      · dsimp only at hx
        split_ifs at hx
        · exact some.inj hx ▸ hy
        · exact ho x hx

section

variable {a' : StepState H E} {id fuel : ℕ}

/-- The invariant says nothing about the number of calls to the cache manager. -/
theorem RunningInv.allocateCalls (h : RunningInv cfg env s₀ a idx) (n : ℕ) :
    RunningInv cfg env s₀ { a with allocateCalls := n } idx :=
  { outcome := h.outcome, placed := h.placed, nodup := h.nodup, unscheduled := h.unscheduled
    currentStep := h.currentStep, stepSkippedWaiting := h.stepSkippedWaiting
    scheduledNewReqs := h.scheduledNewReqs, scheduledRunningReqs := h.scheduledRunningReqs
    mem_take := h.mem_take, subset := h.subset, untouched := h.untouched, queues := h.queues }

/-- Preempting another request leaves the next one to schedule where it is, up to the shift of the
index. -/
theorem NextRunning.preempt {r' : Request H E} (hnext : NextRunning cfg a idx id r)
    (h : RunningInv cfg env s₀ a idx) (hvic : preemptionVictim cfg a.sched = some v)
    (hne : v ≠ id) :
    NextRunning cfg (a.preempted v r') (if v ∈ a.scheduledRunningReqs then idx - 1 else idx)
      id r := by
  refine ⟨?_, fun hmem ↦ hnext.not_scheduled (mem_of_mem_erase hmem), ?_, fun hp ↦ ?_⟩
  · exact (setRequest_requests_of_ne hne.symm).trans hnext.requests
  · split_ifs with hsched
    · have hv := h.mem_take v hsched
      rcases idx with - | n
      · simp at hv
      · refine mem_take_erase hnext.mem_take hne.symm ?_
        rw [length_erase_of_mem (take_subset_take_left _ (le_succ _) hv)]
        exact Nat.sub_le_sub_right (length_take_le ..) 1
    · exact mem_take_erase hnext.mem_take hne.symm (length_erase_le.trans (length_take_le ..))
  · -- under `FCFS` the victim is the last running request, behind the index
    have hlast : a.sched.running.getLast? = some v := by rwa [preemptionVictim, hp] at hvic
    have hget := hnext.getElem hp
    obtain ⟨hlt, hidx⟩ := List.getElem?_eq_some_iff.1 hget
    have hnot : v ∉ a.scheduledRunningReqs := fun hv ↦
      getLast?_notMem_take h.placed.running_nodup hlast hlt (h.mem_take v hv)
    rw [if_neg hnot]
    show (a.sched.running.erase v)[idx]? = some id
    rw [← dropLast_eq_erase h.placed.running_nodup hlast]
    have hidx' : idx ≠ a.sched.running.length - 1 := by
      rintro rfl
      rw [getLast?_eq_getElem?, hget] at hlast
      exact hne (some.inj hlast).symm
    rw [getElem?_dropLast, if_pos (by omega)]
    exact hget

/-- **The inner loop.** If there is room in the end, the request is still the next to schedule. -/
theorem allocateOrPreempt_inv (hs₀ : AllPlaced s₀ []) {idx' : ℕ} {ok : Bool}
    (h : RunningInv cfg env s₀ a idx) (hnext : NextRunning cfg a idx id r)
    (hloop : allocateOrPreempt cfg env id fuel a idx = some (a', idx', ok)) :
    RunningInv cfg env s₀ a' idx' ∧ (ok = true → NextRunning cfg a' idx' id r) := by
  induction fuel generalizing a idx with
  | zero => cases hloop
  | succ fuel ih =>
    unfold allocateOrPreempt at hloop
    have h' := h.allocateCalls (a.allocateCalls + 1)
    split_ifs at hloop with halloc
    · obtain ⟨rfl, rfl, rfl⟩ := by simpa using hloop
      exact ⟨h', fun _ ↦ { hnext with }⟩
    set b : StepState H E := { a with allocateCalls := a.allocateCalls + 1 } with hb
    rcases hvic : preemptionVictim cfg b.sched with - | v
    · simp [hvic] at hloop
    have hvmem : v ∈ b.sched.running := preemptionVictim_mem hvic
    have hfcfs : cfg.policy = .fcfs → v ∉ b.scheduledRunningReqs := by
      intro hp hv
      have hlast : b.sched.running.getLast? = some v := by rwa [preemptionVictim, hp] at hvic
      have hlt : idx < b.sched.running.length :=
        (List.getElem?_eq_some_iff.1 (hnext.getElem hp)).1
      exact getLast?_notMem_take h'.placed.running_nodup hlast hlt (h'.mem_take v hv)
    simp only [hvic, h'.removeVictim_eq hvic hfcfs] at hloop
    rcases hpre : (b.unschedule v).sched.preemptRequest v with - | s
    · simp [hpre] at hloop
    simp only [hpre] at hloop
    obtain ⟨r', hr', -, rfl⟩ := preemptRequest_eq_some.1 hpre
    have hstep := h'.preempt hs₀ hvmem hr'
    by_cases hid : v = id
    · rw [if_pos hid] at hloop
      obtain ⟨rfl, rfl, rfl⟩ := by simpa using hloop
      exact ⟨hstep, fun h ↦ nomatch h⟩
    · rw [if_neg hid] at hloop
      have hnext' : NextRunning cfg b idx id r := { hnext with }
      exact ih hstep (hnext'.preempt h' hvic hid) hloop

section

variable (h : RunningInv cfg env s₀ a idx)

include h

/-- **Scheduling the next running request.** -/
theorem RunningInv.scheduleRunning (hs₀ : AllPlaced s₀ [])
    (hnext : NextRunning cfg a idx id r) {n threshold budget : ℤ} (hbudget : 0 < budget)
    (hn : n = numNewTokensRunning cfg env threshold budget id r) (hn0 : n ≠ 0) :
    RunningInv cfg env s₀ (a.scheduleRunning id r n) (idx + 1) := by
  have hmem : id ∈ a.sched.running := mem_of_mem_take hnext.mem_take
  obtain ⟨r₀, r', t, hr₀, hrun₀, hr', hrun, ht, hout⟩ := h.start_running hs₀ hmem
  obtain rfl : r = r' := some.inj (hnext.requests.symm.trans hr')
  have hkey : id ∉ Dict.keys a.numScheduledTokens := h.scheduledRunningReqs ▸ hnext.not_scheduled
  have hget := get?_eq_none_iff.2 hkey
  -- nothing was scheduled for the request, so it is as the step found it
  obtain rfl : t = none := by rw [← ht, StepState.scheduled_eq_none_iff, hget]
  obtain rfl := hout.eq_of_running hrun
  have hother : ∀ j ≠ id, a.SameAt (a.scheduleRunning id r n) j := by
    intro j hj
    refine ⟨setRequest_requests_of_ne hj, ?_, ?_, rfl⟩
    · simp [StepState.scheduleRunning, get?_set, hj.symm]
    · simp only [StepState.scheduleRunning]
      split_ifs
      · rfl
      · rw [get?_set, if_neg hj.symm]
  have hsched : (a.scheduleRunning id r n).scheduled id = some ⟨n, draftsScheduled r n, none⟩ := by
    have hspec : (a.scheduleRunning id r n).specOf id = draftsScheduled r n := by
      simp only [StepState.specOf, StepState.scheduleRunning]
      split_ifs with hd
      · rw [(h.unscheduled id hget).1, hd, getD_none]
      · rw [get?_set, if_pos rfl, getD_some]
    rw [StepState.scheduled, hspec]
    simp [StepState.scheduleRunning, get?_set, h.scheduledNewReqs]
  have hkeys : (a.scheduleRunning id r n).scheduledRunningReqs =
      Dict.keys (a.scheduleRunning id r n).numScheduledTokens := by
    simp only [StepState.scheduleRunning, keys_set, if_neg hkey, h.scheduledRunningReqs]
  refine
    { h with
      outcome := h.outcome_of_sameAt hother ?_
      placed := h.placed.setRequest hnext.requests rfl
      nodup := nodup_keys_set h.nodup
      unscheduled := h.unscheduled_of_sameAt hother fun hnone ↦ ?_
      scheduledRunningReqs := hkeys
      mem_take := fun j hj ↦ ?_
      untouched := fun j hj ↦ ?_ }
  · rw [hsched, hr₀, StepState.scheduleRunning, setRequest_requests_self]
    exact .live (.runs hrun hbudget hn hn0)
  · simp [StepState.scheduleRunning, get?_set] at hnone
  · rcases mem_append.1 hj with hj | hj
    · exact take_subset_take_left _ (le_succ idx) (h.mem_take j hj)
    · exact mem_singleton.1 hj ▸ hnext.mem_take
  · have hne : j ≠ id := fun hjv ↦ hj (hjv ▸ h.subset hmem)
    rw [(hother j hne).requests, (hother j hne).scheduled_eq]
    exact h.untouched j hj

/-- Moving on without scheduling. -/
theorem RunningInv.skip : RunningInv cfg env s₀ a (idx + 1) :=
  { h with mem_take := fun j hj ↦ take_subset_take_left _ (le_succ idx) (h.mem_take j hj) }

/-- **The loop over the running requests.** -/
theorem runningLoop_inv (hs₀ : AllPlaced s₀ []) {threshold : ℤ}
    (hloop : runningLoop cfg env threshold fuel a idx = some a') :
    ∃ idx', RunningInv cfg env s₀ a' idx' := by
  induction fuel generalizing a idx with
  | zero => exact ⟨idx, some.inj hloop ▸ h⟩
  | succ fuel ih =>
    unfold runningLoop at hloop
    split_ifs at hloop with hbudget
    · exact ⟨idx, some.inj hloop ▸ h⟩
    rcases hidx : a.sched.running[idx]? with - | id
    · rw [hidx] at hloop
      exact ⟨idx, some.inj hloop ▸ h⟩
    rcases hr : a.sched.requests id with - | r
    · simp [hidx, hr] at hloop
    simp only [hidx, hr] at hloop
    split_ifs at hloop with hskip
    · exact ih h.skip hloop
    rw [not_or] at hskip
    have hnext : NextRunning cfg a idx id r := by
      obtain ⟨hlt, hget⟩ := List.getElem?_eq_some_iff.1 hidx
      refine ⟨hr, fun hmem ↦ ?_, ?_, fun _ ↦ hidx⟩
      · obtain ⟨i, hi, hi'⟩ := mem_take_iff_getElem.1 (h.mem_take id hmem)
        have := (h.placed.running_nodup.getElem_inj_iff).1 (hi'.trans hget.symm)
        omega
      · rw [take_succ_eq_append_getElem hlt, hget]
        exact mem_append_right _ (mem_singleton_self id)
    rcases halloc : allocateOrPreempt cfg env id (a.sched.running.length + 1) a idx with
      - | ⟨b, idx', ok⟩
    · simp [halloc] at hloop
    obtain ⟨hb, hnext'⟩ := allocateOrPreempt_inv hs₀ h hnext halloc
    simp only [halloc] at hloop
    rcases ok with - | -
    · exact ⟨idx', some.inj hloop ▸ hb⟩
    · exact ih (hb.scheduleRunning hs₀ (hnext' rfl) (not_le.1 hbudget) rfl hskip.2) hloop

end

end

end OneCatVllm
