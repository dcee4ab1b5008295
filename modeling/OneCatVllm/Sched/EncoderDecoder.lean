import Mathlib.Data.List.Perm.Subperm
import OneCatVllm.Lib.Intervals
import OneCatVllm.Lib.Transition

/-!
# The encoder cache of encoder-decoder models

`EncoderDecoderCacheManager` only counts slots: an encoder input takes its slots when the scheduler
schedules it and gives them back in `free_encoder_input`. The manager does not record which inputs
are allocated, so that giving back is right only for an input that holds its slots. The scheduler
calls it after **every** step of a request that has computed a token, and again when the request is
preempted, finishes or is not admitted.

The state is the manager with a record of the inputs held, which the source does not keep.
-/

namespace OneCatVllm.EncoderDecoder

open Int Intervals List Transition

/-- An encoder input, with the fields that are read. -/
structure MmFeature where
  identifier : ℕ
  offset : ℕ
  length : ℕ
  numEmbeds : ℕ
  deriving DecidableEq

/-- A request and its encoder inputs. -/
structure Request where
  requestId : ℕ
  mmFeatures : List MmFeature

/-- `EncoderDecoderCacheManager`. -/
structure EncoderDecoderCacheManager where
  cacheSize : ℕ
  numFreeSlots : ℤ
  allocated : List ℕ
  toFree : List ℕ

namespace EncoderDecoderCacheManager

/-- `__init__`. -/
def init (cacheSize : ℕ) : EncoderDecoderCacheManager := ⟨cacheSize, cacheSize, [], []⟩

/-- `can_allocate`. -/
def canAllocate (m : EncoderDecoderCacheManager) (f : MmFeature)
    (encoderComputeBudget numEmbedsToSchedule : ℤ) : Bool :=
  f.numEmbeds ≤ encoderComputeBudget ∧ f.numEmbeds + numEmbedsToSchedule ≤ m.numFreeSlots

/-- The inputs of a scheduling decision pass `can_allocate` in turn, each with the budget left. -/
def canAllocateAll (m : EncoderDecoderCacheManager) : ℤ → List (MmFeature × ℤ) → Bool
  | _, [] => true
  | toSchedule, (f, budget) :: inputs =>
    m.canAllocate f budget toSchedule && m.canAllocateAll (toSchedule + f.numEmbeds) inputs

/-- `allocate`. -/
def allocate (m : EncoderDecoderCacheManager) (f : MmFeature) : EncoderDecoderCacheManager :=
  { m with
    numFreeSlots := m.numFreeSlots - f.numEmbeds
    allocated := m.allocated ++ [f.identifier] }

/-- `free_encoder_input`. -/
def freeEncoderInput (m : EncoderDecoderCacheManager) (f : MmFeature) :
    EncoderDecoderCacheManager :=
  { m with numFreeSlots := m.numFreeSlots + f.numEmbeds }

end EncoderDecoderCacheManager

/-- The inputs that `_free_encoder_inputs` gives back; `get_cached_input_ids` has them all. -/
def Request.processed (r : Request) (numComputedTokens : ℕ) : List MmFeature :=
  r.mmFeatures.filter fun f ↦ 0 < numComputedTokens ∨ f.offset + f.length ≤ numComputedTokens

/-- What the scheduler does with the manager. -/
inductive Call
  /-- Inputs that passed `can_allocate` are allocated. -/
  | schedule (r : Request) (inputs : List (MmFeature × ℤ))
  /-- The end of a scheduling step: `get_freed_mm_hashes`. -/
  | getFreedMmHashes
  /-- The output of a step arrives: `_free_encoder_inputs`. -/
  | updateFromOutput (r : Request) (numComputedTokens : ℕ)
  /-- The request finishes, is preempted or is not admitted: `free`. -/
  | free (r : Request)
  | reset

/-- The manager and the inputs held, with the requests that hold them. -/
structure State where
  manager : EncoderDecoderCacheManager
  held : List (ℕ × MmFeature)

/-- The inputs that a call gives back. -/
def Call.givenBack : Call → List (ℕ × MmFeature)
  | updateFromOutput r n => (r.processed n).map (r.requestId, ·)
  | free r => r.mmFeatures.map (r.requestId, ·)
  | _ => []

/-- A call. -/
def State.step (s : State) : Call → Option State
  | .schedule r inputs =>
    if s.manager.canAllocateAll 0 inputs then
      some ⟨inputs.foldl (fun m p ↦ m.allocate p.1) s.manager,
        s.held ++ inputs.map (r.requestId, ·.1)⟩
    else none
  | .getFreedMmHashes =>
    some { s with manager := { s.manager with toFree := s.manager.allocated, allocated := [] } }
  | .reset => some ⟨.init s.manager.cacheSize, []⟩
  | call => some ⟨call.givenBack.foldl (fun m p ↦ m.freeEncoderInput p.2) s.manager,
      s.held.diff call.givenBack⟩

/-- The slots of an input. -/
def slots (p : ℕ × MmFeature) : ℤ := p.2.numEmbeds

/-- **The accounts**: the free slots are those that no input holds. -/
structure Accounted (cacheSize : ℕ) (s : State) : Prop where
  cacheSize_eq : s.manager.cacheSize = cacheSize
  free_eq : s.manager.numFreeSlots = cacheSize - total slots s.held
  nonneg : 0 ≤ s.manager.numFreeSlots

/-- The inputs given back are held. -/
def GivesBackHeld (s : State) (call : Call) : Prop := call.givenBack.Subperm s.held

instance (s : State) (call : Call) : Decidable (GivesBackHeld s call) :=
  inferInstanceAs (Decidable (call.givenBack.Subperm s.held))

theorem foldl_allocate (id : ℕ) (inputs : List (MmFeature × ℤ)) (m : EncoderDecoderCacheManager) :
    (inputs.foldl (fun m p ↦ m.allocate p.1) m).cacheSize = m.cacheSize ∧
      (inputs.foldl (fun m p ↦ m.allocate p.1) m).numFreeSlots =
        m.numFreeSlots - total slots (inputs.map (id, ·.1)) := by
  induction inputs generalizing m with
  | nil => exact ⟨rfl, (sub_zero _).symm⟩
  | cons p inputs ih =>
    obtain ⟨hsize, hfree⟩ := ih (m.allocate p.1)
    refine ⟨hsize, hfree.trans ?_⟩
    exact sub_sub ..

theorem foldl_freeEncoderInput (inputs : List (ℕ × MmFeature)) (m : EncoderDecoderCacheManager) :
    inputs.foldl (fun m p ↦ m.freeEncoderInput p.2) m =
      { m with numFreeSlots := m.numFreeSlots + total slots inputs } := by
  induction inputs generalizing m with
  | nil => simp
  | cons p inputs ih =>
    rw [foldl_cons, ih, total_cons, ← add_assoc]
    rfl

/-- What passes `can_allocate` fits. -/
theorem total_le_of_canAllocateAll (id : ℕ) {m : EncoderDecoderCacheManager} {toSchedule : ℤ}
    {inputs : List (MmFeature × ℤ)} (hle : toSchedule ≤ m.numFreeSlots)
    (h : m.canAllocateAll toSchedule inputs = true) :
    toSchedule + total slots (inputs.map (id, ·.1)) ≤ m.numFreeSlots := by
  induction inputs generalizing toSchedule with
  | nil => simpa using hle
  | cons p inputs ih =>
    simp only [EncoderDecoderCacheManager.canAllocateAll, EncoderDecoderCacheManager.canAllocate,
      Bool.and_eq_true, decide_eq_true_eq] at h
    rw [map_cons, total_cons, ← add_assoc]
    exact ih ((add_comm _ _).trans_le h.1.2) h.2

variable {cacheSize : ℕ}

/-- Inputs that are held are given back. -/
theorem Accounted.giveBack {s : State} (h : Accounted cacheSize s)
    {inputs : List (ℕ × MmFeature)} (hheld : inputs.Subperm s.held) :
    Accounted cacheSize ⟨inputs.foldl (fun m p ↦ m.freeEncoderInput p.2) s.manager,
      s.held.diff inputs⟩ := by
  have hperm : (inputs ++ s.held.diff inputs).Perm s.held :=
    subperm_append_diff_self_of_count_le (subperm_ext_iff.1 hheld)
  have hslots : total slots inputs + total slots (s.held.diff inputs) = total slots s.held := by
    rw [← total_append]
    exact (hperm.map slots).sum_eq
  have hpos : 0 ≤ total slots inputs := total_nonneg fun p _ ↦ natCast_nonneg _
  have hfree := h.free_eq
  rw [foldl_freeEncoderInput]
  refine ⟨h.cacheSize_eq, ?_, add_nonneg h.nonneg hpos⟩
  show s.manager.numFreeSlots + total slots inputs = cacheSize - total slots (s.held.diff inputs)
  omega

theorem Accounted.init (cacheSize : ℕ) : Accounted cacheSize ⟨.init cacheSize, []⟩ :=
  ⟨rfl, (sub_zero _).symm, natCast_nonneg cacheSize⟩

theorem Accounted.step {s s' : State} {call : Call} (h : Accounted cacheSize s)
    (hheld : GivesBackHeld s call) (hs : s.step call = some s') : Accounted cacheSize s' := by
  cases call with
  | schedule r inputs =>
    rw [State.step] at hs
    split_ifs at hs with hcan
    cases hs
    obtain ⟨hsize, hfree⟩ := foldl_allocate r.requestId inputs s.manager
    have hle := total_le_of_canAllocateAll r.requestId h.nonneg hcan
    have hold := h.free_eq
    refine ⟨hsize.trans h.cacheSize_eq, ?_, ?_⟩ <;> rw [hfree]
    · rw [total_append]
      omega
    · omega
  | getFreedMmHashes =>
    cases hs
    exact ⟨h.cacheSize_eq, h.free_eq, h.nonneg⟩
  | updateFromOutput r n => exact Option.some.inj hs ▸ h.giveBack hheld
  | free r => exact Option.some.inj hs ▸ h.giveBack hheld
  | reset =>
    cases hs
    exact h.cacheSize_eq ▸ .init _

/-- **Slots are conserved** in every run in which only inputs that are held are given back. -/
theorem accounts_of_givesBackHeld {cacheSize : ℕ} {s : State}
    (h : Run State.step GivesBackHeld ⟨.init cacheSize, []⟩ s) :
    s.manager.numFreeSlots = cacheSize - total slots s.held ∧ 0 ≤ s.manager.numFreeSlots ∧
      s.manager.numFreeSlots ≤ cacheSize := by
  have hs : Accounted cacheSize s := h.invariant (.init cacheSize) Accounted.step
  have hpos : 0 ≤ total slots s.held := total_nonneg fun p _ ↦ natCast_nonneg _
  have hfree := hs.free_eq
  exact ⟨hfree, hs.nonneg, by omega⟩

/-- A request with one encoder input of five embeddings. -/
def oneInput : Request := ⟨0, [⟨0, 0, 5, 5⟩]⟩

/-- The request is scheduled, and its output arrives. -/
theorem accounts_one_output : ∃ s : State,
    Run State.step GivesBackHeld ⟨.init 10, []⟩ s ∧
      s.manager.numFreeSlots = 10 - total slots s.held := by
  have h : Run State.step GivesBackHeld ⟨.init 10, []⟩ _ :=
    .next (.next .start (by decide) (l := .schedule oneInput [(⟨0, 0, 5, 5⟩, 8)]) rfl) (by decide)
      (l := .updateFromOutput oneInput 1) rfl
  exact ⟨_, h, (accounts_of_givesBackHeld h).1⟩

/-- **Slots from nowhere**: the second output of the request gives its input back once more. -/
theorem second_output_exceeds_cacheSize :
    ((exec State.step [.schedule oneInput [(⟨0, 0, 5, 5⟩, 8)], .getFreedMmHashes,
      .updateFromOutput oneInput 1, .getFreedMmHashes, .updateFromOutput oneInput 2]
        ⟨.init 10, []⟩).map fun s ↦ (s.manager.numFreeSlots, s.held)) = some (15, []) := by
  decide

end OneCatVllm.EncoderDecoder
