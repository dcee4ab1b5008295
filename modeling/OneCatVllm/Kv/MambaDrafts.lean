import Mathlib.Algebra.GroupWithZero.Nat
import OneCatVllm.Kv.MambaExact

/-!
# Recurrent states and rejected draft tokens

The blocks of a recurrent group are reserved for everything a step schedules, its draft tokens
included. When the drafts are rejected the request's computed tokens fall back
(`update_from_output`), while the block table keeps its length. A later step that ends in an
**earlier block** than the last scheduled one then needs fewer blocks than the table has:
`get_num_blocks_to_allocate` is negative and `allocate_new_blocks` fails its assertion.

The model follows one request from its admission with a prefix hit through any steps: the scheduler
reserves slots (`allocate_slots`), possibly while earlier steps are still in flight, and the output
of the oldest step in flight is processed. `checksPass_iff_endsNoEarlier` says that the two checks
of the manager hold in a run **exactly when** no step of it ends in an earlier block than the step
scheduled before it.
-/

namespace OneCatVllm

open Bool Grid List MambaConfig Nat Option Transition

/-- `MambaManager.get_num_blocks_to_allocate` in mode "align", with the number of the blocks that
the prefix hit adds and of those among them that are free. `cachedThisStep`: the last of them was
entered into the index in the present step. -/
def MambaConfig.getNumBlocksToAllocate (cfg : MambaConfig) (numGpuBlocks numTokens : ℕ)
    (numNewComputedBlocks numEvictable : ℕ) (cachedThisStep : Bool) (st : MambaState) : ℤ :=
  if 0 < numNewComputedBlocks ∧ cachedThisStep then numGpuBlocks + 1
  else
    let numRequiredBlocks : ℤ := cdiv numTokens cfg.blockSize + cfg.numSpeculativeBlocks
    let numNewBlocks := numRequiredBlocks - numNewComputedBlocks - st.reqToBlocks.length
    (if 0 < numNewBlocks then if st.allocated then 1 else 1 + (cfg.numSpeculativeBlocks : ℤ)
      else numNewBlocks) + numEvictable

/-! ### One request between scheduler and worker -/

/-- The manager's data about a request, with its steps in flight (scheduled tokens and draft tokens,
oldest first). Before its admission the table holds the blocks of the prefix hit. `lastEnd` is not
in the source: the position at which the last scheduled step ends. -/
structure DraftState where
  mamba : MambaState
  admitted : Bool := false
  inFlight : List (ℕ × ℕ) := []
  lastEnd : ℕ
  deriving DecidableEq

/-- What a step asks of `allocate_slots`, and what it finds. -/
structure SlotRequest where
  numNewTokens : ℕ
  numDrafts : ℕ := 0
  /-- The request's tokens, where the whole sequence must fit (`full_sequence_must_fit`). -/
  fullNumTokens : Option ℕ := none
  numFreeBlocks : ℕ
  /-- The blocks of the prefix hit that are free, and whether the last one is of this step. -/
  numEvictable : ℕ := 0
  cachedThisStep : Bool := false

inductive DraftEvent
  /-- A prefill chunk or a decode step. -/
  | schedule (q : SlotRequest)
  /-- The output of the oldest step in flight, with the number of tokens it generated. -/
  | update (numGenerated : ℕ)

namespace DraftState

variable (cfg : MambaConfig) (numGpuBlocks : ℕ)

/-- A request that enters with `hit` computed tokens. -/
def ofHit (hit : ℕ) : DraftState where
  mamba := cfg.ofHit hit
  lastEnd := hit

section

variable (s : DraftState) (q : SlotRequest)

/-- The end of a step. -/
def stop : ℕ := s.mamba.numComputedTokens + q.numNewTokens

/-- `max(0, total_computed_tokens - request.num_in_flight_tokens)`. -/
def processed : ℕ :=
  s.mamba.numComputedTokens - (s.inFlight.map Prod.fst).sum

/-- The number `allocate_slots` asks for. At admission the request has no table, and the blocks of
the hit come as new computed blocks. -/
def numBlocksToAllocate (numTokens : ℕ) : ℤ :=
  if s.admitted then cfg.getNumBlocksToAllocate numGpuBlocks numTokens 0 0 false s.mamba
  else
    cfg.getNumBlocksToAllocate numGpuBlocks numTokens s.mamba.reqToBlocks.length q.numEvictable
      q.cachedThisStep { s.mamba with reqToBlocks := [] }

/-- The request when its step has been given its blocks. -/
def scheduled (st : MambaState) : DraftState where
  mamba := { st with numComputedTokens := s.stop q }
  admitted := true
  inFlight := s.inFlight ++ [(q.numNewTokens, q.numDrafts)]
  lastEnd := s.stop q

/-- The request when its superseded blocks have been freed. -/
def freed : DraftState :=
  if s.admitted then { s with mamba := cfg.removeSkippedBlocks s.processed s.mamba } else s

/-- `KVCacheManager.allocate_slots` for the recurrent group; `none` where an assertion fails. -/
def allocateSlots : Option DraftState :=
  if ∃ n ∈ q.fullNumTokens, (q.numFreeBlocks : ℤ) < s.numBlocksToAllocate cfg numGpuBlocks q n then
    some s
  else if (q.numFreeBlocks : ℤ) <
      (s.freed cfg).numBlocksToAllocate cfg numGpuBlocks q (s.stop q) then
    some (s.freed cfg)
  else (cfg.allocateNewBlocks (s.stop q) (s.freed cfg).mamba).map (s.scheduled q)

/-- The rejected drafts leave the computed tokens (`update_from_output`). -/
def updateFromOutput (numGenerated : ℕ) : DraftState :=
  match s.inFlight with
  | [] => s
  | (_, numDrafts) :: inFlight =>
    if 0 < numDrafts ∧ 0 < numGenerated then
      let numRejected := numDrafts - (numGenerated - 1)
      { s with
        inFlight
        mamba :=
          { s.mamba with numComputedTokens := s.mamba.numComputedTokens - numRejected } }
    else { s with inFlight }

def step : DraftEvent → Option DraftState
  | .schedule q => s.allocateSlots cfg numGpuBlocks q
  | .update numGenerated => some (s.updateFromOutput numGenerated)

/-- What the scheduler asks for: at least one token, no more drafts than configured, and the check
of the whole sequence only when the request is admitted. -/
def Possible : DraftEvent → Prop
  | .schedule q => 0 < q.numNewTokens ∧ q.numDrafts ≤ q.numNewTokens ∧
      q.numDrafts ≤ cfg.numSpeculativeBlocks ∧
      ∀ n ∈ q.fullNumTokens, s.admitted = false ∧ s.stop q ≤ n
  | .update numGenerated => numGenerated ≤ cfg.numSpeculativeBlocks + 1

/-- **The manager's checks**: no number of blocks is negative, and no assertion fails. -/
def ChecksPass : DraftEvent → Prop
  | .schedule q =>
    (∀ n ∈ q.fullNumTokens, 0 ≤ s.numBlocksToAllocate cfg numGpuBlocks q n) ∧
      0 ≤ (s.freed cfg).numBlocksToAllocate cfg numGpuBlocks q (s.stop q) ∧
      (s.allocateSlots cfg numGpuBlocks q).isSome
  | .update _ => True

/-- The step ends in the block in which the last scheduled step ended, or in a later one. -/
def EndsNoEarlier : DraftEvent → Prop
  | .schedule q => cdiv s.lastEnd cfg.blockSize ≤ cdiv (s.stop q) cfg.blockSize
  | .update _ => True

instance : ∀ e, Decidable (s.Possible cfg e)
  | .schedule _ => inferInstanceAs (Decidable (_ ∧ _))
  | .update _ => inferInstanceAs (Decidable (_ ≤ _))

instance : ∀ e, Decidable (s.ChecksPass cfg numGpuBlocks e)
  | .schedule _ => inferInstanceAs (Decidable (_ ∧ _))
  | .update _ => inferInstanceAs (Decidable True)

instance : ∀ e, Decidable (s.EndsNoEarlier cfg e)
  | .schedule _ => inferInstanceAs (Decidable (_ ≤ _))
  | .update _ => inferInstanceAs (Decidable True)

/-! ### The length of the table -/

/-- **The invariant of a run.** The table has the shape of the last scheduled step, wherever the
computed tokens have fallen back to. They have not where no block was taken from the pool: with
speculative blocks the first step takes some, and without there are no drafts. -/
structure Reserved : Prop where
  shaped : s.mamba.Shaped cfg s.lastEnd
  computed_le : s.mamba.numComputedTokens ≤ s.lastEnd
  unallocated : s.mamba.allocated = false →
    s.mamba.numComputedTokens = s.lastEnd ∧ ∀ p ∈ s.inFlight, p.2 = 0
  admission : s.admitted = false → s.mamba.allocated = false

end

variable {cfg} {numGpuBlocks} {s s' : DraftState} {q : SlotRequest} {numTokens : ℕ}

theorem reserved_ofHit (hit : ℕ) : (ofHit cfg hit).Reserved cfg where
  shaped := MambaState.shaped_ofHit cfg hit
  computed_le := le_rfl
  unallocated _ := ⟨rfl, nofun⟩
  admission _ := rfl

theorem Reserved.freed (h : s.Reserved cfg) : (s.freed cfg).Reserved cfg := by
  rw [DraftState.freed]
  split_ifs with hadmitted
  · exact { h with
      shaped := h.shaped.freed rfl
        (cfg.removeSkippedBlocks_freed ((sub_le _ _).trans h.computed_le) s.mamba) }
  · exact h

theorem freed_frame (st : MambaState) : (s.freed cfg).stop q = s.stop q ∧
    (s.freed cfg).lastEnd = s.lastEnd ∧ (s.freed cfg).scheduled q st = s.scheduled q st := by
  rw [DraftState.freed]
  split_ifs <;> exact ⟨rfl, rfl, rfl⟩

theorem Reserved.updateFromOutput (h : s.Reserved cfg) (numGenerated : ℕ) :
    (s.updateFromOutput numGenerated).Reserved cfg := by
  rcases hflight : s.inFlight with - | ⟨⟨n, numDrafts⟩, inFlight⟩
  · rw [DraftState.updateFromOutput, hflight]
    exact h
  have hrest (hfalse : s.mamba.allocated = false) : numDrafts = 0 ∧ ∀ p ∈ inFlight, p.2 = 0 := by
    have hall := (h.unallocated hfalse).2
    rw [hflight] at hall
    exact forall_mem_cons.1 hall
  rw [DraftState.updateFromOutput, hflight]
  dsimp only
  split_ifs with hdrafts
  · refine ⟨⟨h.shaped.length, h.shaped.live⟩, (sub_le _ _).trans h.computed_le,
      fun hfalse ↦ ?_, h.admission⟩
    exact absurd (hrest hfalse).1 hdrafts.1.ne'
  · exact ⟨h.shaped, h.computed_le,
      fun hfalse ↦ ⟨(h.unallocated hfalse).1, (hrest hfalse).2⟩, h.admission⟩

/-- Nothing is missing for a step that ends in no earlier block. -/
theorem Reserved.numBlocksToAllocate_nonneg (h : s.Reserved cfg)
    (hle : cdiv s.lastEnd cfg.blockSize ≤ cdiv numTokens cfg.blockSize) :
    0 ≤ s.numBlocksToAllocate cfg numGpuBlocks q numTokens := by
  have hlen := h.shaped.length
  have hspec : (if s.mamba.allocated then cfg.numSpeculativeBlocks else 0) ≤
      cfg.numSpeculativeBlocks := by
    split_ifs <;> omega
  rw [numBlocksToAllocate]
  split_ifs <;> simp only [getNumBlocksToAllocate, length_nil] <;>
    split_ifs <;> omega

section

variable (h : s.Reserved cfg) (hlt : cdiv (s.stop q) cfg.blockSize < cdiv s.lastEnd cfg.blockSize)

include h hlt

/-- A step that ends in an earlier block than the last scheduled one follows an allocation. -/
theorem Reserved.allocated_of_lt : s.mamba.allocated = true := by
  rw [← not_eq_false]
  intro hfalse
  refine absurd (cdiv_mono cfg.blockSize_pos ?_) (not_le.2 hlt)
  rw [← (h.unallocated hfalse).1]
  exact le_add_right _ _

/-- A step that ends in an earlier block needs fewer blocks than the table has. -/
theorem Reserved.numBlocksToAllocate_neg :
    s.numBlocksToAllocate cfg numGpuBlocks q (s.stop q) < 0 := by
  have hallocated := h.allocated_of_lt hlt
  have hadmitted : s.admitted = true := by
    rw [← not_eq_false]
    exact fun hfalse ↦ absurd (hallocated.symm.trans (h.admission hfalse)) nofun
  have hlen := h.shaped.length
  rw [hallocated, if_pos rfl] at hlen
  rw [numBlocksToAllocate, getNumBlocksToAllocate]
  dsimp only
  split_ifs <;> omega

/-- **A failing assertion**: the table is longer than required. -/
theorem Reserved.allocateNewBlocks_eq_none : cfg.allocateNewBlocks (s.stop q) s.mamba = none := by
  have hlen := h.shaped.length
  rw [h.allocated_of_lt hlt, if_pos rfl] at hlen
  rw [allocateNewBlocks]
  rw [if_neg (by omega), if_neg (by omega)]

end

/-- What `allocate_new_blocks` returns: a request that has taken blocks, or the same table when it
has the required length already. -/
theorem allocated_of_allocateNewBlocks {st st' : MambaState}
    (h : cfg.allocateNewBlocks numTokens st = some st') :
    st'.allocated = true ∨ st' = st ∧
      cdiv numTokens cfg.blockSize + cfg.numSpeculativeBlocks = st.reqToBlocks.length := by
  simp only [allocateNewBlocks] at h
  split_ifs at h with hlen
  · exact .inr ⟨(some.inj h).symm, hlen⟩
  all_goals exact .inl (some.inj h ▸ rfl)

/-- **Allocation** succeeds for a step that ends in no earlier block. -/
theorem Reserved.allocateNewBlocks (h : s.Reserved cfg) (hnew : 0 < q.numNewTokens)
    (hdrafts : q.numDrafts ≤ cfg.numSpeculativeBlocks)
    (hle : cdiv s.lastEnd cfg.blockSize ≤ cdiv (s.stop q) cfg.blockSize) :
    ∃ st, cfg.allocateNewBlocks (s.stop q) s.mamba = some st ∧ (s.scheduled q st).Reserved cfg := by
  have hlen := h.shaped.length
  rcases lt_or_ge s.lastEnd (s.stop q) with hlt | hge
  · obtain ⟨st, hst, halloc⟩ := cfg.allocateNewBlocks_spec h.shaped hlt
    refine ⟨st, hst, ⟨halloc.shaped.length, halloc.shaped.live⟩, le_rfl, fun hfalse ↦ ⟨rfl, ?_⟩,
      nofun⟩
    -- No block was taken: there are no speculative blocks, hence no drafts.
    rcases allocated_of_allocateNewBlocks hst with htrue | ⟨rfl, hreq⟩
    · exact absurd (htrue.symm.trans hfalse) nofun
    · change s.mamba.allocated = false at hfalse
      rw [hfalse, if_neg Bool.false_ne_true] at hlen
      intro p hp
      rcases mem_append.1 hp with hp | hp
      · exact (h.unallocated hfalse).2 p hp
      · rw [mem_singleton.1 hp]
        omega
  · -- The step ends in the running block, which the last one reserved.
    have hceil : cdiv (s.stop q) cfg.blockSize = cdiv s.lastEnd cfg.blockSize :=
      le_antisymm (cdiv_mono cfg.blockSize_pos hge) hle
    have hallocated : s.mamba.allocated = true := by
      rw [← not_eq_false]
      intro hfalse
      have hcomputed := (h.unallocated hfalse).1
      rw [stop] at hge
      omega
    rw [hallocated, ← hceil] at hlen
    refine ⟨s.mamba, ?_, ⟨?_, ?_⟩, le_rfl, fun hfalse ↦ ?_, nofun⟩
    · exact if_pos hlen.symm
    · show _ = cdiv (s.stop q) cfg.blockSize + if s.mamba.allocated then _ else 0
      rw [hallocated]
      exact hlen
    · show ∀ i, cdiv (s.stop q) cfg.blockSize ≤ i + 1 → _
      rw [hceil]
      exact h.shaped.live
    · exact absurd (hallocated.symm.trans hfalse) nofun

/-! ### Steps and runs -/

/-- **One step**: a step that ends in no earlier block passes the checks and keeps the invariant,
any other fails the assertion. -/
theorem Reserved.step_outcome (h : s.Reserved cfg) {e : DraftEvent} (he : s.Possible cfg e) :
    (s.EndsNoEarlier cfg e ∧ s.ChecksPass cfg numGpuBlocks e ∧
        ∃ s', s.step cfg numGpuBlocks e = some s' ∧ s'.Reserved cfg) ∨
      (¬ s.EndsNoEarlier cfg e ∧ ¬ s.ChecksPass cfg numGpuBlocks e ∧
        s.step cfg numGpuBlocks e = none) := by
  rcases e with q | numGenerated
  swap
  · exact .inl ⟨trivial, trivial, _, rfl, h.updateFromOutput numGenerated⟩
  have hfreed := h.freed
  obtain ⟨hstop, hlast, -⟩ : (s.freed cfg).stop q = s.stop q ∧ _ := freed_frame s.mamba
  have hfull : ∀ n ∈ q.fullNumTokens, 0 ≤ s.numBlocksToAllocate cfg numGpuBlocks q n := by
    intro n hn
    obtain ⟨hadmission, hstop⟩ := he.2.2.2 n hn
    refine h.numBlocksToAllocate_nonneg (cdiv_mono cfg.blockSize_pos (le_trans ?_ hstop))
    rw [← (h.unallocated (h.admission hadmission)).1]
    exact le_add_right _ _
  rcases le_or_gt (cdiv s.lastEnd cfg.blockSize) (cdiv (s.stop q) cfg.blockSize) with hle | hlt
  · obtain ⟨s', hs', hreserved⟩ : ∃ s', s.allocateSlots cfg numGpuBlocks q = some s' ∧
        s'.Reserved cfg := by
      rw [allocateSlots]
      split_ifs
      · exact ⟨s, rfl, h⟩
      · exact ⟨_, rfl, hfreed⟩
      · obtain ⟨st, hst, hreserved⟩ := hfreed.allocateNewBlocks he.1 he.2.2.1
          (by rw [hlast, hstop]; exact hle)
        rw [hstop] at hst
        rw [(freed_frame st).2.2] at hreserved
        exact ⟨_, by rw [hst]; rfl, hreserved⟩
    refine .inl ⟨hle, ⟨hfull, hfreed.numBlocksToAllocate_nonneg ?_, ?_⟩, s', hs', hreserved⟩
    · rw [hlast]
      exact hle
    · rw [hs']
      rfl
  · have hneg : (s.freed cfg).numBlocksToAllocate cfg numGpuBlocks q (s.stop q) < 0 := by
      rw [← hstop]
      refine hfreed.numBlocksToAllocate_neg ?_
      rw [hlast, hstop]
      exact hlt
    have hnone : cfg.allocateNewBlocks (s.stop q) (s.freed cfg).mamba = none := by
      rw [← hstop]
      refine hfreed.allocateNewBlocks_eq_none ?_
      rw [hlast, hstop]
      exact hlt
    refine .inr ⟨not_le.2 hlt, fun hchecks ↦ absurd hchecks.2.1 (not_le.2 hneg), ?_⟩
    show s.allocateSlots cfg numGpuBlocks q = none
    rw [allocateSlots, if_neg, if_neg (by omega), hnone]
    · rfl
    · -- The whole sequence is only checked at admission.
      rintro ⟨n, hn, -⟩
      exact absurd ((h.allocated_of_lt hlt).symm.trans (h.admission (he.2.2.2 n hn).1)) nofun

theorem Reserved.checksPass_iff {events : List DraftEvent} (h : s.Reserved cfg)
    (hpossible : Allowed (step cfg numGpuBlocks) (Possible cfg) events s) :
    Allowed (step cfg numGpuBlocks) (ChecksPass cfg numGpuBlocks) events s ↔
      Allowed (step cfg numGpuBlocks) (EndsNoEarlier cfg) events s := by
  induction events generalizing s with
  | nil => exact Iff.rfl
  | cons e events ih =>
    rcases h.step_outcome hpossible.1 with
      ⟨hends, hchecks, s', hs', hreserved⟩ | ⟨hends, hchecks, -⟩
    · have hrest := ih hreserved (hpossible.2 s' hs')
      have hstep {P : DraftState → DraftEvent → Prop} (hP : P s e) :
          Allowed (DraftState.step cfg numGpuBlocks) P (e :: events) s ↔
            Allowed (DraftState.step cfg numGpuBlocks) P events s' :=
        ⟨fun hall ↦ hall.2 s' hs', fun hall ↦ ⟨hP, fun t ht ↦
          some.inj (hs'.symm.trans ht) ▸ hall⟩⟩
      rw [hstep hchecks, hstep hends, hrest]
    · exact iff_of_false (fun hall ↦ hchecks hall.1) fun hall ↦ hends hall.1

/-- **The checks of the manager** hold in a run exactly when every step of it ends in the block in
which the step before it ended, or in a later one. -/
theorem checksPass_iff_endsNoEarlier (cfg : MambaConfig) (numGpuBlocks hit : ℕ)
    (events : List DraftEvent)
    (hpossible : Allowed (step cfg numGpuBlocks) (Possible cfg) events (ofHit cfg hit)) :
    Allowed (step cfg numGpuBlocks) (ChecksPass cfg numGpuBlocks) events (ofHit cfg hit) ↔
      Allowed (step cfg numGpuBlocks) (EndsNoEarlier cfg) events (ofHit cfg hit) :=
  (reserved_ofHit hit).checksPass_iff hpossible

/-- Blocks of four tokens and at most three draft tokens. -/
def threeDrafts : MambaConfig where
  blockSize := 4
  blockSize_pos := noTailCheckpoint.blockSize_pos
  lcmBlockSize := 4
  blockSize_dvd := noTailCheckpoint.blockSize_dvd
  retentionInterval := none
  lcm_dvd_interval := nofun
  maxNumScheduledTokens := 16
  numSpeculativeBlocks := 3

/-- A prompt of ten tokens and a decode step with three drafts, of which `numGenerated - 1` are
accepted, and then a step without drafts. -/
def draftedThenPlain (numGenerated : ℕ) : List DraftEvent :=
  [.schedule { numNewTokens := 10, fullNumTokens := some 10, numFreeBlocks := 20 }, .update 1,
    .schedule { numNewTokens := 4, numDrafts := 3, numFreeBlocks := 20 }, .update numGenerated,
    .schedule { numNewTokens := 1, numFreeBlocks := 20 }]

/-- **All three drafts rejected.** The decode step ends at token 14, in the fourth block; the next
one ends at token 12, in the third, and fails the checks. -/
theorem rejected_drafts_fail_checks :
    Allowed (step threeDrafts 30) (Possible threeDrafts) (draftedThenPlain 1)
        (ofHit threeDrafts 0) ∧
      ¬ Allowed (step threeDrafts 30) (ChecksPass threeDrafts 30) (draftedThenPlain 1)
        (ofHit threeDrafts 0) := by
  decide

/-- Two drafts accepted: the last step ends at token 14. -/
theorem checksPass_two_accepted :
    Allowed (step threeDrafts 30) (ChecksPass threeDrafts 30) (draftedThenPlain 3)
      (ofHit threeDrafts 0) :=
  (checksPass_iff_endsNoEarlier threeDrafts 30 0 (draftedThenPlain 3) (by decide)).2 (by decide)

end DraftState

end OneCatVllm
