import Mathlib
import OneCatVllm.Lib.Transition
import OneCatVllm.Lora.Manager

/-!
# Every slot holds its adapter

Whatever calls are made, and whether they return or raise, every slot that belongs to an adapter is
filled with the weights of the adapter registered under that id, and no adapter has two slots
(`Sound`). So index tensors that are converted from the **present** table direct every row to its
own adapter.

The conversion is skipped when the mapping is the last one. Between two batches with equal mappings
adapters may have moved to other slots, and then the skipped conversion leaves rows with the slots
of other adapters. `Settled` is the condition under which the skipping is harmless: the conversion
would give the tensors that are there, and the batch asks for adapters that have their slots.
-/

namespace OneCatVllm.Lora

open Dict List Lru Option Std.Do Transition

set_option mvcgen.warning false

variable {W : Type} {cfg : LoraConfig} {s s' : LoraManager W} {id id' : ℕ}

/-- A slot belongs to an adapter and was last filled with its weights. -/
def LoraManager.Holds (s : LoraManager W) (slot id : ℕ) : Prop :=
  s.loraIndexToId[slot]? = some (some id) ∧
    ∃ w, s.registeredAdapters.get? id = some w ∧ s.slotWeights[slot]? = some (some w)

/-- The slots of an adapter are its only ones. -/
def LoraManager.OneSlot (s : LoraManager W) (id : ℕ) : Prop :=
  ∀ {slot slot' : ℕ}, s.loraIndexToId[slot]? = some (some id) →
    s.loraIndexToId[slot']? = some (some id) → slot = slot'

/-- Every slot with an adapter holds it, the adapter is active, and it has no other slot. -/
structure Sound (cfg : LoraConfig) (s : LoraManager W) : Prop where
  length_table : s.loraIndexToId.length = cfg.maxLoras
  length_weights : s.slotWeights.length = cfg.maxLoras
  holds {slot id : ℕ} : s.loraIndexToId[slot]? = some (some id) → s.Holds slot id
  active {slot id : ℕ} : s.loraIndexToId[slot]? = some (some id) → id ∈ s.activeAdapters.keys
  unique (id : ℕ) : s.OneSlot id

theorem sound_init : Sound cfg (LoraManager.init cfg : LoraManager W) := by
  have hnone : ∀ {slot id : ℕ}, (LoraManager.init cfg : LoraManager W).loraIndexToId[slot]? ≠
      some (some id) := by
    intro slot id h
    have := eq_of_mem_replicate (mem_of_getElem? h)
    cases this
  exact ⟨length_replicate, length_replicate, fun h ↦ absurd h hnone,
    fun h ↦ absurd h hnone, fun _ _ _ h ↦ absurd h hnone⟩

/-- **Slots are only freed**: the adapters that keep their slots stay active and registered. -/
theorem Sound.shrink (hs : Sound cfg s) (hlength : s'.loraIndexToId.length = s.loraIndexToId.length)
    (hweights : s'.slotWeights = s.slotWeights)
    (hkeep : ∀ {slot id : ℕ}, s'.loraIndexToId[slot]? = some (some id) →
      s.loraIndexToId[slot]? = some (some id) ∧ id ∈ s'.activeAdapters.keys ∧
        s'.registeredAdapters.get? id = s.registeredAdapters.get? id) : Sound cfg s' where
  length_table := hlength.trans hs.length_table
  length_weights := hweights ▸ hs.length_weights
  holds h := by
    obtain ⟨hslot, -, hget⟩ := hkeep h
    obtain ⟨-, w, hw, hfilled⟩ := hs.holds hslot
    exact ⟨h, w, hget.trans hw, hweights ▸ hfilled⟩
  active h := (hkeep h).2.1
  unique id _ _ h h' := hs.unique id (hkeep h).1 (hkeep h').1

/-! ### Removing -/

/-- What is left in the table when the only slot of an adapter is freed. -/
theorem getElem?_freeSlot (hunique : s.OneSlot id) {slot : ℕ}
    (h : (s.freeSlot id).loraIndexToId[slot]? = some (some id')) :
    s.loraIndexToId[slot]? = some (some id') ∧ id' ≠ id := by
  replace h : (s.loraIndexToId.set _ none)[slot]? = _ := h
  rw [getElem?_set] at h
  split at h
  · split at h <;> cases h
  · rename_i hne
    refine ⟨h, ?_⟩
    rintro rfl
    have hlt := idxOf_lt_length_of_mem (mem_of_getElem? h)
    refine hne (hunique ?_ h)
    rw [getElem?_eq_getElem hlt, getElem_idxOf hlt]

/-- One adapter was removed from some of its places, at least from its slot. -/
structure Removed (id : ℕ) (s s' : LoraManager W) : Prop where
  length_table : s'.loraIndexToId.length = s.loraIndexToId.length
  slotWeights : s'.slotWeights = s.slotWeights
  lastMapping : s'.lastMapping = s.lastMapping
  table {slot id' : ℕ} : s'.loraIndexToId[slot]? = some (some id') →
    s.loraIndexToId[slot]? = some (some id') ∧ id' ≠ id
  active {id' : ℕ} : id' ≠ id → id' ∈ s.activeAdapters.keys → id' ∈ s'.activeAdapters.keys
  registered {id' : ℕ} : id' ≠ id → s'.registeredAdapters.get? id' = s.registeredAdapters.get? id'
  vacant {slot : ℕ} : s.loraIndexToId[slot]? = some none → s'.loraIndexToId[slot]? = some none

theorem Sound.removed (hs : Sound cfg s) (h : Removed id s s') : Sound cfg s' := by
  refine hs.shrink h.length_table h.slotWeights fun {slot id'} hslot ↦ ?_
  obtain ⟨hslot', hne⟩ := h.table hslot
  exact ⟨hslot', h.active hne (hs.active hslot'), h.registered hne⟩

theorem removed_freeSlot (h : s.OneSlot id) : Removed id s (s.freeSlot id) where
  length_table := length_set
  slotWeights := rfl
  lastMapping := rfl
  table := getElem?_freeSlot h
  active _ hmem := hmem
  registered _ := rfl
  vacant {slot} hslot := by
    show (s.loraIndexToId.set _ none)[slot]? = _
    have hlt := (List.getElem?_eq_some_iff.1 hslot).1
    rw [getElem?_set]
    split
    · rename_i hfreed
      rw [if_pos (hfreed ▸ hlt)]
    · exact hslot

theorem Removed.trans {s'' : LoraManager W} (h : Removed id s s') (h' : Removed id s' s'') :
    Removed id s s'' where
  length_table := h'.length_table.trans h.length_table
  slotWeights := h'.slotWeights.trans h.slotWeights
  lastMapping := h'.lastMapping.trans h.lastMapping
  table hslot := h.table (h'.table hslot).1
  active hne hmem := h'.active hne (h.active hne hmem)
  registered hne := (h'.registered hne).trans (h.registered hne)
  vacant hslot := h'.vacant (h.vacant hslot)

theorem Removed.oneSlot (h : Removed id s s') (hs : s.OneSlot id) : s'.OneSlot id :=
  fun hslot hslot' ↦ hs (h.table hslot).1 (h.table hslot').1

theorem removed_deleteActive (h : s.OneSlot id) : Removed id s (s.deleteActive id) := by
  have hfree := removed_freeSlot (s := { s with activeAdapters := s.activeAdapters.delete id }) h
  refine { hfree with active := fun {id'} hne hmem ↦ ?_ }
  refine hfree.active hne ?_
  rw [keys_delete, mem_filter]
  exact ⟨hmem, decide_eq_true hne⟩

theorem removed_deactivateAdapter (h : s.OneSlot id)
    (hactive : ∀ {slot : ℕ}, s.loraIndexToId[slot]? = some (some id) →
      id ∈ s.activeAdapters.keys) : Removed id s (s.deactivateAdapter id) := by
  unfold LoraManager.deactivateAdapter
  split
  · have hfree := removed_freeSlot h
    exact hfree.trans (removed_deleteActive (hfree.oneSlot h))
  · rename_i hnot
    refine ⟨rfl, rfl, rfl, fun {slot id'} hslot ↦ ⟨hslot, ?_⟩, fun _ hmem ↦ hmem, fun _ ↦ rfl,
      fun hslot ↦ hslot⟩
    rintro rfl
    exact hnot (hactive hslot)

theorem Sound.removed_deleteRegistered (hs : Sound cfg s) :
    Removed id s (s.deleteRegistered id) := by
  have h : Removed id { s with registeredAdapters := s.registeredAdapters.delete id }
      (s.deleteRegistered id) := removed_deactivateAdapter (hs.unique id) hs.active
  refine { h with registered := fun {id'} hne ↦ ?_ }
  refine (h.registered hne).trans ?_
  show get? (pop s.registeredAdapters.items id) id' = _
  rw [get?_pop, if_neg (Ne.symm hne)]
  rfl

theorem Sound.removed_removeAdapter (hs : Sound cfg s) : Removed id s (s.removeAdapter id) := by
  have h : Removed id s (s.deactivateAdapter id) :=
    removed_deactivateAdapter (hs.unique id) hs.active
  unfold LoraManager.removeAdapter
  dsimp only
  split
  · exact h.trans (hs.removed h).removed_deleteRegistered
  · exact h

/-! ### Calls keep the slots sound -/

/-- The state is sound and the last mapping is a given one. -/
def SoundAt (cfg : LoraConfig) (last : Option LoraMapping) (s : LoraManager W) : Prop :=
  Sound cfg s ∧ s.lastMapping = last

/-- The state is sound, a slot is free and an adapter has none. -/
def Ready (cfg : LoraConfig) (last : Option LoraMapping) (index id : ℕ) (s : LoraManager W) :
    Prop :=
  SoundAt cfg last s ∧ s.loraIndexToId[index]? = some none ∧
    ∀ slot : ℕ, s.loraIndexToId[slot]? ≠ some (some id)

variable {last : Option LoraMapping} {requests : List (LoraRequest W)} {r : LoraRequest W}
  {index : ℕ} {mapping : LoraMapping} {w : W}

theorem SoundAt.removed (hs : SoundAt cfg last s) (h : Removed id s s') : SoundAt cfg last s' :=
  ⟨hs.1.removed h, h.lastMapping.trans hs.2⟩

theorem Ready.removed (hs : Ready cfg last index id' s) (h : Removed id s s') :
    Ready cfg last index id' s' :=
  ⟨hs.1.removed h, h.vacant hs.2.1, fun slot hslot ↦ hs.2.2 slot (h.table hslot).1⟩

/-- A call keeps a property of the state, also when it raises. -/
abbrev Keeps {α : Type} (P : LoraManager W → Prop) (call : LoraM W α) : Prop :=
  ⦃fun s => ⌜P s⌝⦄ call ⦃post⟨fun _ s => ⌜P s⌝, fun _ s => ⌜P s⌝⟩⦄

variable {P : LoraManager W → Prop}

section Keeps

/-- Evictions keep what the deletions keep. -/
theorem popActive_keeps (hP : ∀ s id, P s → P (s.deleteActive id)) : Keeps P popActive := by
  mvcgen [popActive]
  exact hP _ _ ‹P _›

theorem popRegistered_keeps (hP : ∀ s id, P s → P (s.deleteRegistered id)) :
    Keeps P popRegistered := by
  mvcgen [popRegistered]
  exact hP _ _ ‹P _›

theorem evictActive_keeps (cfg : LoraConfig) (hP : ∀ s id, P s → P (s.deleteActive id))
    (n : ℕ) : Keeps P (evictActive cfg n) := by
  induction n with
  | zero => mvcgen [evictActive]
  | succ n ih =>
    have hpop := popActive_keeps hP
    mvcgen [evictActive, hpop, ih]

theorem evictRegistered_keeps (cfg : LoraConfig)
    (hP : ∀ s id, P s → P (s.deleteRegistered id)) (n : ℕ) : Keeps P (evictRegistered cfg n) := by
  induction n with
  | zero => mvcgen [evictRegistered]
  | succ n ih =>
    have hpop := popRegistered_keeps hP
    mvcgen [evictRegistered, hpop, ih]

end Keeps

theorem SoundAt.deleteActive (s : LoraManager W) (id : ℕ) (hs : SoundAt cfg last s) :
    SoundAt cfg last (s.deleteActive id) :=
  hs.removed (removed_deleteActive (hs.1.unique id))

theorem SoundAt.deleteRegistered (s : LoraManager W) (id : ℕ) (hs : SoundAt cfg last s) :
    SoundAt cfg last (s.deleteRegistered id) :=
  hs.removed hs.1.removed_deleteRegistered

theorem Ready.deleteActive (s : LoraManager W) (id' : ℕ) (hs : Ready cfg last index id s) :
    Ready cfg last index id (s.deleteActive id') :=
  hs.removed (removed_deleteActive (hs.1.1.unique id'))

/-- Nothing but the order of use, the pins and new items change. -/
theorem SoundAt.grow (hs : SoundAt cfg last s) (htable : s'.loraIndexToId = s.loraIndexToId)
    (hweights : s'.slotWeights = s.slotWeights) (hlast : s'.lastMapping = s.lastMapping)
    (hactive : ∀ id ∈ s.activeAdapters.keys, id ∈ s'.activeAdapters.keys)
    (hregistered : ∀ id ∈ s.registeredAdapters.keys,
      s'.registeredAdapters.get? id = s.registeredAdapters.get? id) : SoundAt cfg last s' := by
  refine ⟨hs.1.shrink (congrArg length htable) hweights fun {slot id} h ↦ ?_, hlast.trans hs.2⟩
  have h' : s.loraIndexToId[slot]? = some (some id) := htable ▸ h
  obtain ⟨-, w, hw, -⟩ := hs.1.holds h'
  exact ⟨h', hactive id (hs.1.active h'), hregistered id (mem_keys_of_get? hw)⟩

theorem setActive_spec :
    ⦃fun s : LoraManager W => ⌜Ready cfg last index id s⌝⦄ setActive cfg id
    ⦃post⟨fun _ s => ⌜Ready cfg last index id s ∧ id ∈ s.activeAdapters.keys⌝,
      fun _ s => ⌜Ready cfg last index id s⌝⟩⦄ := by
  have hevict := evictActive_keeps (P := Ready (W := W) cfg last index id) cfg Ready.deleteActive
  mvcgen [setActive, hevict]
  case vc3.isFalse.post.success =>
    rename_i s hs t
    have hkeys : t.2.activeAdapters.keys = s.activeAdapters.keys ++ [id] := map_append
    have hactive : ∀ id' ∈ s.activeAdapters.keys, id' ∈ t.2.activeAdapters.keys := by
      intro id' hmem
      rw [hkeys]
      exact mem_append_left _ hmem
    refine ⟨⟨hs.1.grow rfl rfl rfl hactive fun _ _ ↦ rfl, hs.2⟩, ?_⟩
    rw [hkeys]
    exact mem_append_right _ (mem_singleton_self id)

/-- A free slot is filled with the weights of a registered adapter that is active and has none. -/
theorem Ready.fillSlot (hs : Ready cfg last index id s) (hactive : id ∈ s.activeAdapters.keys)
    (hw : s.registeredAdapters.get? id = some w) : SoundAt cfg last (s.fillSlot index id w) := by
  obtain ⟨⟨hsound, hlast⟩, hvacant, hnone⟩ := hs
  have hindex : index < s.loraIndexToId.length := (List.getElem?_eq_some_iff.1 hvacant).1
  have htable : ∀ {slot id' : ℕ}, (s.fillSlot index id w).loraIndexToId[slot]? = some (some id') →
      slot = index ∧ id' = id ∨ slot ≠ index ∧ s.loraIndexToId[slot]? = some (some id') := by
    intro slot id' h
    have h' : (s.loraIndexToId.set index (some id))[slot]? = some (some id') := h
    by_cases hslot : slot = index
    · rw [hslot, getElem?_set_self hindex] at h'
      exact .inl ⟨hslot, (some.inj (some.inj h')).symm⟩
    · rw [getElem?_set_ne (Ne.symm hslot)] at h'
      exact .inr ⟨hslot, h'⟩
  refine ⟨⟨?_, ?_, ?_, ?_, ?_⟩, hlast⟩
  · exact length_set.trans hsound.length_table
  · exact length_set.trans hsound.length_weights
  · intro slot id' h
    rcases htable h with ⟨rfl, rfl⟩ | ⟨hne, h'⟩
    · refine ⟨h, w, get?_touch.trans hw, ?_⟩
      show (s.slotWeights.set slot (some w))[slot]? = _
      rw [hsound.length_table, ← hsound.length_weights] at hindex
      rw [getElem?_set_self hindex]
    · obtain ⟨-, w', hw', hfilled⟩ := hsound.holds h'
      refine ⟨h, w', get?_touch.trans hw', ?_⟩
      show (s.slotWeights.set index (some w))[slot]? = _
      rw [getElem?_set_ne (Ne.symm hne)]
      exact hfilled
  · intro slot id' h
    rcases htable h with ⟨-, rfl⟩ | ⟨-, h'⟩
    · exact hactive
    · exact hsound.active h'
  · intro id' slot slot' h h'
    rcases htable h with ⟨rfl, rfl⟩ | ⟨-, hold⟩
    · rcases htable h' with ⟨rfl, -⟩ | ⟨-, hold'⟩
      · rfl
      · exact absurd hold' (hnone slot')
    · rcases htable h' with ⟨rfl, rfl⟩ | ⟨-, hold'⟩
      · exact absurd hold (hnone slot)
      · exact hsound.unique id' hold hold'

/-- The first free slot, for an adapter that is not active. -/
theorem SoundAt.ready (hs : SoundAt cfg last s) (hid : id ∉ s.activeAdapters.keys)
    (hindex : s.loraIndexToId.findIdx? isNone = some index) : Ready cfg last index id s := by
  refine ⟨hs, ?_, fun slot hslot ↦ hid (hs.1.active hslot)⟩
  obtain ⟨hlt, hnone, -⟩ := findIdx?_eq_some_iff_getElem.1 hindex
  rw [getElem?_eq_getElem hlt, isNone_iff_eq_none.1 hnone]

theorem activateInSlot_spec : Keeps (SoundAt (W := W) cfg last) (activateInSlot cfg id) := by
  mvcgen [activateInSlot, setActive_spec]
  case vc5.isFalse.h_2.pre =>
    rename_i hs hnot _ hfree
    exact hs.ready hnot hfree
  case vc6.isFalse.h_2.post.success.h_1 =>
    rename_i hs _
    exact hs.1.1
  case vc7.isFalse.h_2.post.success.h_2 =>
    rename_i hs _ hw _
    exact hs.1.fillSlot hs.2 hw
  case vc8.isFalse.h_2.post.except.handle =>
    exact fun hs ↦ hs.1

theorem SoundAt.touchActive (hs : SoundAt cfg last s) :
    SoundAt cfg last { s with activeAdapters := s.activeAdapters.touch id } :=
  hs.grow rfl rfl rfl (fun _ hmem ↦ mem_keys_touch.2 hmem) fun _ _ ↦ rfl

theorem SoundAt.touchRegistered (hs : SoundAt cfg last s) :
    SoundAt cfg last { s with registeredAdapters := s.registeredAdapters.touch id } :=
  hs.grow rfl rfl rfl (fun _ hmem ↦ hmem) fun _ _ ↦ get?_touch

theorem SoundAt.appendRegistered (hs : SoundAt cfg last s) :
    SoundAt cfg last { s with registeredAdapters :=
      { s.registeredAdapters with items := s.registeredAdapters.items ++ [(id, w)] } } := by
  refine hs.grow rfl rfl rfl (fun _ hmem ↦ hmem) fun id' hmem ↦ ?_
  obtain ⟨v, hv⟩ := Lru.mem_keys_iff.1 hmem
  show get? (s.registeredAdapters.items ++ [(id, w)]) id' = _
  rw [get?_append, ← Lru.get?, hv, some_or]

theorem activateAdapter_spec : Keeps (SoundAt (W := W) cfg last) (activateAdapter cfg id) := by
  have hpop := popActive_keeps (P := SoundAt (W := W) cfg last) SoundAt.deleteActive
  mvcgen [activateAdapter, hpop, activateInSlot_spec]
  all_goals
    rename_i hs _
    exact hs.touchActive

theorem registerAdapter_spec : Keeps (SoundAt cfg last) (registerAdapter cfg id w) := by
  have hevict := evictRegistered_keeps (P := SoundAt (W := W) cfg last) cfg SoundAt.deleteRegistered
  mvcgen [registerAdapter, setRegistered, hevict]
  case vc1.isTrue =>
    rename_i hs _ _
    exact hs.touchRegistered
  case vc4.isFalse.isFalse.post.success =>
    rename_i hs _
    exact hs.appendRegistered

theorem SoundAt.removeAdapter (hs : SoundAt cfg last s) : SoundAt cfg last (s.removeAdapter id) :=
  hs.removed hs.1.removed_removeAdapter

theorem loadAdapter_spec : Keeps (SoundAt cfg last) (loadAdapter cfg r) := by
  have hpop := popRegistered_keeps (P := SoundAt (W := W) cfg last) SoundAt.deleteRegistered
  mvcgen [loadAdapter, removeOldestAdapter, hpop, registerAdapter_spec]
  all_goals exact SoundAt.removeAdapter ‹_›

theorem addAdapter_spec : Keeps (SoundAt (W := W) cfg last) (addAdapter cfg r) := by
  mvcgen [addAdapter, loadAdapter_spec, activateAdapter_spec]
  rename_i hs _ _
  exact hs.touchRegistered

theorem addAdapters_spec (rs : List (LoraRequest W)) :
    Keeps (SoundAt cfg last) (addAdapters cfg rs) := by
  induction rs with
  | nil => mvcgen [addAdapters]
  | cons r rs ih => mvcgen [addAdapters, addAdapter_spec, ih]

theorem applyAdapters_spec : Keeps (SoundAt cfg last) (applyAdapters cfg requests) := by
  mvcgen [applyAdapters, addAdapters_spec]

theorem removeAdapter_spec : Keeps (SoundAt (W := W) cfg last) (removeAdapter id) := by
  mvcgen [removeAdapter]
  exact SoundAt.removeAdapter ‹_›

theorem pinActive_spec : Keeps (SoundAt (W := W) cfg last) (pinActive id) := by
  mvcgen [pinActive]
  rename_i hs _ _
  exact hs.grow rfl rfl rfl (fun _ hmem ↦ hmem) fun _ _ ↦ rfl

theorem pinLoraInCpuCache_spec : Keeps (SoundAt (W := W) cfg last) (pinLoraInCpuCache id) := by
  mvcgen [pinLoraInCpuCache]
  rename_i hs _ _
  exact hs.grow rfl rfl rfl (fun _ hmem ↦ hmem) fun _ _ ↦ rfl

theorem pinAdapter_spec : Keeps (SoundAt (W := W) cfg last) (pinAdapter cfg id) := by
  mvcgen [pinAdapter, pinLoraInGpuCache, pinLoraInCpuCache_spec, pinActive_spec,
    activateAdapter_spec]

/-! ### The index tensors -/

/-- Every row of a batch with an adapter is directed to a slot that holds the adapter. -/
structure Directed (cfg : LoraConfig) (mapping : LoraMapping) (s : LoraManager W)
    (tensors : IndexTensors) : Prop where
  token {i id : ℕ} : mapping.indexMapping[i]? = some id → 0 < id → ∃ slot : ℕ,
    tensors.baseIndices[i]? = some (slot : ℤ) ∧
      tensors.embeddingsIndices.2[i]? = some (slot * cfg.vocabSize : ℤ) ∧ s.Holds slot id
  prompt {i id : ℕ} : mapping.promptMapping[i]? = some id → 0 < id → ∃ slot : ℕ,
    tensors.samplerIndices[i]? = some (slot : ℤ) ∧
      tensors.samplerIndicesPadded[i]? = some (i + slot * mapping.promptMapping.length : ℤ) ∧
      s.Holds slot id

/-- **A conversion directs every row to its own adapter**, as long as the table it was made from is
the present one. -/
theorem Sound.directed (hs : Sound cfg s) {tensors : IndexTensors}
    (h : convertMapping cfg mapping s.loraIndexToId = .ok tensors) :
    Directed cfg mapping s tensors := by
  unfold convertMapping at h
  split at h
  case isFalse => cases h
  rename_i hfound
  cases h
  have hslot : ∀ id ∈ mapping.promptMapping ++ mapping.indexMapping, 0 < id →
      slotOf s.loraIndexToId id = (s.loraIndexToId.idxOf (some id) : ℕ) ∧
        s.Holds (s.loraIndexToId.idxOf (some id)) id := by
    intro id hmem hpos
    refine ⟨if_pos hpos, hs.holds ?_⟩
    have hlt := idxOf_lt_length_of_mem (hfound id hmem hpos)
    rw [getElem?_eq_getElem hlt, getElem_idxOf hlt]
  refine ⟨fun {i id} hi hpos ↦ ?_, fun {i id} hi hpos ↦ ?_⟩
  · obtain ⟨heq, hholds⟩ :=
      hslot id (mem_append_right _ (mem_of_getElem? hi)) hpos
    refine ⟨_, ?_, ?_, hholds⟩
    · rw [getElem?_map, hi, map_some, heq]
    · rw [getElem?_map, hi, map_some, if_pos hpos, heq]
  · obtain ⟨heq, hholds⟩ := hslot id (mem_append_left _ (mem_of_getElem? hi)) hpos
    have hsampler : (mapping.promptMapping.map (slotOf s.loraIndexToId))[i]? =
        some ((s.loraIndexToId.idxOf (some id) : ℕ) : ℤ) := by
      rw [getElem?_map, hi, map_some, heq]
    refine ⟨_, hsampler, ?_, hholds⟩
    rw [getElem?_mapIdx, hsampler, map_some, length_map, if_neg (by omega)]

/-! ### Whole runs -/

/-- What a computation keeps holds after it, whether it returned or raised. -/
theorem keeps_stateAfter {α : Type} {x : LoraM W α} (h : Keeps P x) (hs : P s) :
    P (stateAfter (x s)) := by
  have hx := Triple.iff.1 h s hs
  show P (stateAfter (EStateM.run x s))
  simp only [wp, PredTrans.apply] at hx
  generalize EStateM.run x s = result at hx ⊢
  cases result <;> exact hx

/-- What `set_adapter_mapping` does: nothing, or a conversion of the present table. -/
theorem setAdapterMapping_run (mapping : LoraMapping) (s : LoraManager W) :
    setAdapterMapping cfg mapping s =
      if s.lastMapping = some mapping then .ok () s
      else
        match convertMapping cfg mapping s.loraIndexToId with
        | .error e => .error e s
        | .ok tensors =>
          .ok () { s with metadata := some tensors, lastMapping := some mapping } := by
  show EStateM.run (setAdapterMapping cfg mapping) s = _
  unfold setAdapterMapping
  by_cases hlast : s.lastMapping = some mapping
  · simp [hlast]
  · rcases hconvert : convertMapping cfg mapping s.loraIndexToId with e | tensors <;>
      simp [hlast, hconvert]

/-- `set_active_adapters` with a mapping returns when both its parts do. -/
theorem setActiveAdapters_eq_ok :
    setActiveAdapters cfg requests (some mapping) s = .ok () s' ↔
      ∃ t, applyAdapters cfg requests s = .ok () t ∧
        setAdapterMapping cfg mapping t = .ok () s' := by
  show EStateM.bind (applyAdapters cfg requests) _ s = _ ↔ _
  unfold EStateM.bind
  rcases applyAdapters cfg requests s with ⟨-, t⟩ | ⟨e, t⟩
  · refine ⟨fun h ↦ ⟨t, rfl, h⟩, ?_⟩
    rintro ⟨t', ht, h⟩
    cases ht
    exact h
  · refine ⟨fun h ↦ ?_, ?_⟩
    · cases h
    · rintro ⟨t', ht, -⟩
      cases ht

theorem Sound.setMapping {tensors : Option IndexTensors} (hs : Sound cfg s) :
    Sound cfg { s with metadata := tensors, lastMapping := last } :=
  { hs with }

theorem Sound.setAdapterMapping (hs : Sound cfg s) :
    Sound cfg (stateAfter (setAdapterMapping cfg mapping s)) := by
  rw [setAdapterMapping_run]
  split
  · exact hs
  · split
    · exact hs
    · exact hs.setMapping

theorem Sound.setActiveAdapters {mapping : Option LoraMapping} (hs : Sound cfg s) :
    Sound cfg (stateAfter (setActiveAdapters cfg requests mapping s)) := by
  have happly : SoundAt cfg s.lastMapping (stateAfter (applyAdapters cfg requests s)) :=
    keeps_stateAfter applyAdapters_spec ⟨hs, rfl⟩
  show Sound cfg (stateAfter (EStateM.bind (applyAdapters cfg requests) _ s))
  unfold EStateM.bind
  rcases hres : applyAdapters cfg requests s with ⟨_, t⟩ | ⟨e, t⟩
  · rw [hres] at happly
    rcases mapping with - | mapping
    · exact happly.1
    · exact happly.1.setAdapterMapping
  · rw [hres] at happly
    exact happly.1

theorem perform_addAdapter_spec {request : LoraRequest W} :
    Keeps (SoundAt cfg last) ((LoraCall.addAdapter request).perform cfg) := by
  mvcgen [LoraCall.perform, addAdapter_spec]

theorem perform_removeAdapter_spec :
    Keeps (SoundAt (W := W) cfg last) ((LoraCall.removeAdapter id).perform cfg) := by
  mvcgen [LoraCall.perform, removeAdapter_spec]

/-- **Every call keeps the slots sound.** -/
theorem Sound.step {call : LoraCall W} (hs : Sound cfg s) (h : loraStep cfg s call = some s') :
    Sound cfg s' := by
  cases h
  have hat : SoundAt cfg s.lastMapping s := ⟨hs, rfl⟩
  cases call with
  | setActiveAdapters requests mapping => exact hs.setActiveAdapters
  | addAdapter request => exact (keeps_stateAfter perform_addAdapter_spec hat).1
  | removeAdapter id => exact (keeps_stateAfter perform_removeAdapter_spec hat).1
  | pinAdapter id => exact (keeps_stateAfter pinAdapter_spec hat).1

/-- The slots are sound after any calls. -/
theorem sound_of_run (h : Run (loraStep cfg) (fun _ _ ↦ True) (.init cfg) s) : Sound cfg s :=
  h.invariant sound_init fun hs _ hstep ↦ hs.step hstep

/-! ### The skipped conversion -/

/-- The state differs in the order of use only. -/
structure Reordered (s s' : LoraManager W) : Prop where
  table : s'.loraIndexToId = s.loraIndexToId
  slotWeights : s'.slotWeights = s.slotWeights
  lastMapping : s'.lastMapping = s.lastMapping
  metadata : s'.metadata = s.metadata
  active {id : ℕ} : id ∈ s.activeAdapters.keys → id ∈ s'.activeAdapters.keys
  registered {id : ℕ} : s'.registeredAdapters.get? id = s.registeredAdapters.get? id

theorem Sound.reordered (hs : Sound cfg s) (h : Reordered s s') : Sound cfg s' :=
  (SoundAt.grow ⟨hs, rfl⟩ h.table h.slotWeights h.lastMapping (fun _ ↦ h.active)
    fun _ _ ↦ h.registered).1

/-- An adapter that has its slot and is not loaded again only becomes the most recently used. -/
theorem Sound.addAdapter_run (hs : Sound cfg s) (hslot : some r.loraIntId ∈ s.loraIndexToId)
    (hinplace : r.loadInplace = false) :
    ∃ s', addAdapter cfg r s = .ok true s' ∧ Reordered s s' := by
  obtain ⟨slot, hslot⟩ := mem_iff_getElem?.1 hslot
  have hactive := hs.active hslot
  obtain ⟨-, w, hw, -⟩ := hs.holds hslot
  have hregistered := mem_keys_of_get? hw
  refine ⟨{ s with
    registeredAdapters := s.registeredAdapters.touch r.loraIntId
    activeAdapters := s.activeAdapters.touch r.loraIntId }, ?_,
    ⟨rfl, rfl, rfl, rfl, mem_keys_touch.2, get?_touch⟩⟩
  show EStateM.run (addAdapter cfg r) s = _
  simp [addAdapter, activateAdapter, activateInSlot, hregistered, hinplace, hactive]

theorem Sound.addAdapters_run {rs : List (LoraRequest W)} (hs : Sound cfg s)
    (hrs : ∀ r ∈ rs, some r.loraIntId ∈ s.loraIndexToId ∧ r.loadInplace = false) :
    ∃ s', addAdapters cfg rs s = .ok () s' ∧ Reordered s s' := by
  induction rs generalizing s with
  | nil => exact ⟨s, rfl, ⟨rfl, rfl, rfl, rfl, id, rfl⟩⟩
  | cons r rs ih =>
    obtain ⟨hslot, hinplace⟩ := hrs r mem_cons_self
    obtain ⟨t, hadd, ht⟩ := hs.addAdapter_run hslot hinplace
    obtain ⟨s', hrest, hs'⟩ := ih (hs.reordered ht) fun r' hr' ↦
      ht.table ▸ hrs r' (mem_cons_of_mem r hr')
    refine ⟨s', ?_, ⟨hs'.table.trans ht.table, hs'.slotWeights.trans ht.slotWeights,
      hs'.lastMapping.trans ht.lastMapping, hs'.metadata.trans ht.metadata,
      fun h ↦ hs'.active (ht.active h), hs'.registered.trans ht.registered⟩⟩
    show EStateM.bind (addAdapter cfg r) _ s = _
    rw [EStateM.bind, hadd]
    exact hrest

theorem mem_of_mem_lorasMap (h : r ∈ lorasMap requests) : r ∈ requests := by
  have hfold : ∀ (l : List (LoraRequest W)) (d : List (ℕ × LoraRequest W)),
      ∀ p ∈ l.foldl (fun d r ↦ Dict.set d r.loraIntId r) d, p ∈ d ∨ p.2 ∈ l := by
    intro l
    induction l with
    | nil => exact fun d p hp ↦ .inl hp
    | cons r l ih =>
      intro d p hp
      rcases ih _ p hp with hp | hp
      · rcases mem_set hp with rfl | hp
        · exact .inr mem_cons_self
        · exact .inl hp
      · exact .inr (mem_cons_of_mem r hp)
  obtain ⟨p, hp, rfl⟩ := mem_map.1 h
  exact (hfold requests [] p hp).resolve_left not_mem_nil

/-- The conversion of the mapping may be skipped: the mapping is not the last one, or every adapter
that is asked for has its slot and is not loaded again, and a conversion of the present table would
give the index tensors that are there. -/
def Settled (cfg : LoraConfig) (s : LoraManager W) (requests : List (LoraRequest W))
    (mapping : LoraMapping) : Prop :=
  s.lastMapping = some mapping →
    (∀ r ∈ requests, some r.loraIntId ∈ s.loraIndexToId ∧ r.loadInplace = false) ∧
      ∃ tensors, s.metadata = some tensors ∧
        convertMapping cfg mapping s.loraIndexToId = .ok tensors

/-- **Every row is computed with its own adapter**: after any calls, a `set_active_adapters` that
returns, and that converts the mapping unless it may be skipped, directs every row with an adapter
to a slot that was last filled with that adapter's weights. -/
theorem rows_directed_of_run {requests : List (LoraRequest W)} {mapping : LoraMapping}
    (h : Run (loraStep cfg) (fun _ _ ↦ True) (.init cfg) s) (hcall : Settled cfg s requests mapping)
    (hreturn : setActiveAdapters cfg requests (some mapping) s = .ok () s') :
    ∃ tensors, s'.metadata = some tensors ∧ Directed cfg mapping s' tensors := by
  have hs := sound_of_run h
  obtain ⟨t, happly, hset⟩ := setActiveAdapters_eq_ok.1 hreturn
  have hat : SoundAt cfg s.lastMapping (stateAfter (applyAdapters cfg requests s)) :=
    keeps_stateAfter applyAdapters_spec ⟨hs, rfl⟩
  rw [happly] at hat
  obtain ⟨ht, hlast⟩ : SoundAt cfg s.lastMapping t := hat
  rw [setAdapterMapping_run] at hset
  split at hset
  · -- skipped: the table is the one before the call
    rename_i hskip
    obtain ⟨-, rfl⟩ := EStateM.Result.ok.inj hset
    obtain ⟨hrequests, tensors, hmetadata, hconvert⟩ := hcall (hlast.symm.trans hskip)
    obtain ⟨t', hrun, hreordered⟩ := hs.addAdapters_run fun r hr ↦
      hrequests r (mem_of_mem_lorasMap hr)
    have htt : t' = t := by
      unfold applyAdapters at happly
      split at happly
      · cases happly
      · cases hrun.symm.trans happly
        rfl
    subst htt
    refine ⟨tensors, hreordered.metadata.trans hmetadata, ht.directed ?_⟩
    rw [hreordered.table, hconvert]
  · split at hset
    · cases hset
    · rename_i tensors hconvert
      obtain ⟨-, rfl⟩ := EStateM.Result.ok.inj hset
      exact ⟨tensors, rfl, ht.setMapping.directed hconvert⟩

/-- Two slots, two places in CPU memory. -/
def twoSlots : LoraConfig := ⟨2, 2, 100⟩

/-- A batch with one row for one adapter. -/
def oneRow (id : ℕ) : LoraMapping := ⟨[id], [id], true, .language⟩

/-- One batch after the other for three adapters; the third evicts the first. -/
def threeBatches : List (LoraCall ℕ) :=
  [.setActiveAdapters [⟨1, false, 11⟩] (some (oneRow 1)),
    .setActiveAdapters [⟨2, false, 22⟩] (some (oneRow 2)),
    .setActiveAdapters [⟨3, false, 33⟩] (some (oneRow 3))]

/-- The third batch once more: its mapping is not converted again, and directs the row to the slot
that the first adapter had. -/
theorem rows_directed_of_run_evicted : ∃ s s' : LoraManager ℕ,
    exec (loraStep twoSlots) threeBatches (.init twoSlots) = some s ∧
    s.lastMapping = some (oneRow 3) ∧
    setActiveAdapters twoSlots [⟨3, false, 33⟩] (some (oneRow 3)) s = .ok () s' ∧
    s'.loraIndexToId = [some 3, some 2] ∧
    ∃ tensors, s'.metadata = some tensors ∧ Directed twoSlots (oneRow 3) s' tensors := by
  obtain ⟨s, hrun, hlast, hsettled, s', hreturn, htable⟩ : ∃ s : LoraManager ℕ,
      exec (loraStep twoSlots) threeBatches (.init twoSlots) = some s ∧
      s.lastMapping = some (oneRow 3) ∧ Settled twoSlots s [⟨3, false, 33⟩] (oneRow 3) ∧
      ∃ s', setActiveAdapters twoSlots [⟨3, false, 33⟩] (some (oneRow 3)) s = .ok () s' ∧
        s'.loraIndexToId = [some 3, some 2] :=
    ⟨_, rfl, rfl, fun _ ↦ ⟨by decide, _, rfl, rfl⟩, _, rfl, rfl⟩
  have hallowed : Allowed (loraStep twoSlots) (fun _ _ ↦ True) threeBatches (.init twoSlots) :=
    ⟨trivial, fun _ _ ↦ ⟨trivial, fun _ _ ↦ ⟨trivial, fun _ _ ↦ trivial⟩⟩⟩
  exact ⟨s, s', hrun, hlast, hreturn, htable,
    rows_directed_of_run (.of_exec .start hallowed hrun) hsettled hreturn⟩

/-- **An adapter that moved.** A batch for adapter 1 is followed by the removal of adapter 1 and the
loading of adapter 2, which gets its slot. The next batch for adapter 1 has the same mapping: the
adapter gets the second slot, the conversion is skipped, and the row is still directed to the first
one. -/
theorem equal_mapping_misdirects : ∃ s s' : LoraManager ℕ,
    exec (loraStep twoSlots)
      [.setActiveAdapters [⟨1, false, 11⟩] (some (oneRow 1)), .removeAdapter 1,
        .addAdapter ⟨2, false, 22⟩] (.init twoSlots) = some s ∧
    setActiveAdapters twoSlots [⟨1, false, 11⟩] (some (oneRow 1)) s = .ok () s' ∧
    s'.loraIndexToId = [some 2, some 1] ∧
    (s'.metadata.map IndexTensors.baseIndices) = some [0] ∧
    ¬ ∃ tensors, s'.metadata = some tensors ∧ Directed twoSlots (oneRow 1) s' tensors := by
  refine ⟨_, _, rfl, rfl, rfl, rfl, ?_⟩
  rintro ⟨tensors, hmetadata, hdirected⟩
  cases hmetadata
  obtain ⟨slot, hbase, -, htable, -⟩ := hdirected.token (i := 0) rfl one_pos
  have hslot : (0 : ℤ) = slot := some.inj hbase
  obtain rfl : slot = 0 := by omega
  cases htable

end OneCatVllm.Lora
