import OneCatVllm.Lib.Lru

/-!
# Adapter slots

`LRUCacheLoRAModelManager` keeps adapters in two places, each of them a least-recently-used cache:
the registered ones (in CPU memory, up to `capacity`) and the active ones, which have one of the
`lora_slots` in the buffers that the kernels read. `lora_index_to_id` says which adapter a slot
belongs to. Removing an adapter from the active ones frees its slot, and removing it from the
registered ones removes it from the active ones first.

`set_active_adapters` loads and activates the adapters of a batch and then converts the batch's
mapping from rows to adapters into **index tensors**, from rows to slots; the conversion is skipped
when the mapping is the one that was converted last.

The calls may raise in the middle, with part of their work done: a call is a computation in
`EStateM`, whose state survives an exception. The item assignment of the two caches is inherited
from `cachetools` and assumed to do what `Lru.put` says; it is spelled out (`setRegistered`,
`setActive`) because callbacks change the manager while room is made. An adapter is its id and its
weights; the modules of the model, which all receive the weights of their part, are one buffer here.
Which of several metadata objects (language model, tower, connector) an update goes to is left out.
-/

namespace OneCatVllm.Lora

/-- The numbers of places. -/
structure LoraConfig where
  maxLoras : ℕ
  maxCpuLoras : ℕ
  vocabSize : ℕ

/-- A request for an adapter. `weights` is what loading it gives. -/
structure LoraRequest (W : Type) where
  loraIntId : ℕ
  loadInplace : Bool
  weights : W

inductive LoraMappingType
  | language
  | tower
  | connector
deriving DecidableEq

/-- The adapter of every token and of every sampled row of a batch; `0` stands for none. -/
structure LoraMapping where
  indexMapping : List ℕ
  promptMapping : List ℕ
  isPrefill : Bool
  type : LoraMappingType
deriving DecidableEq

/-- The results of `convert_mapping`; `-1` stands for no slot. -/
structure IndexTensors where
  baseIndices : List ℤ
  samplerIndices : List ℤ
  samplerIndicesPadded : List ℤ
  embeddingsIndices : List ℤ × List ℤ
deriving DecidableEq

/-- The exceptions. -/
inductive LoraError
  | tooManyLoras
  | noFreeLoraSlots
  | allItemsPinned
  | valueTooLarge
  | notRegistered
  | notInCache
  /-- `lora_index_to_id.index` finds nothing. -/
  | idNotInSlots
deriving DecidableEq

/-- The state of `LRUCacheLoRAModelManager`, with what each slot was last filled with and the index
tensors of the last `update_metadata`. -/
structure LoraManager (W : Type) where
  registeredAdapters : Lru ℕ W
  activeAdapters : Lru ℕ Unit
  loraIndexToId : List (Option ℕ)
  slotWeights : List (Option W)
  lastMapping : Option LoraMapping
  metadata : Option IndexTensors
deriving DecidableEq

variable {W : Type}

/-- A manager without adapters. -/
def LoraManager.init (cfg : LoraConfig) : LoraManager W where
  registeredAdapters := .empty
  activeAdapters := .empty
  loraIndexToId := List.replicate cfg.maxLoras none
  slotWeights := List.replicate cfg.maxLoras none
  lastMapping := none
  metadata := none

/-- Computations on the manager that may raise. -/
abbrev LoraM (W : Type) := EStateM LoraError (LoraManager W)

/-! ### Removing adapters -/

namespace LoraManager

section

variable (s : LoraManager W) (id : ℕ)

/-- `_deactivate_adapter`: free the slot of an adapter, if it has one. -/
def freeSlot : LoraManager W :=
  { s with loraIndexToId := s.loraIndexToId.set (s.loraIndexToId.idxOf (some id)) none }

/-- Delete an active adapter, with the cache's callback. -/
def deleteActive : LoraManager W :=
  { s with activeAdapters := s.activeAdapters.delete id }.freeSlot id

/-- `deactivate_adapter`. -/
def deactivateAdapter : LoraManager W :=
  if id ∈ s.activeAdapters.keys then (s.freeSlot id).deleteActive id else s

/-- Delete a registered adapter, with the cache's callback. -/
def deleteRegistered : LoraManager W :=
  { s with registeredAdapters := s.registeredAdapters.delete id }.deactivateAdapter id

/-- `remove_adapter` on an adapter that may not be there. -/
def removeAdapter : LoraManager W :=
  let s := s.deactivateAdapter id
  if id ∈ s.registeredAdapters.keys then s.deleteRegistered id else s

end

end LoraManager

/-- `remove_adapter`: whether the adapter was registered. -/
def removeAdapter (id : ℕ) : LoraM W Bool := do
  let s ← get
  set (s.removeAdapter id)
  pure (decide (id ∈ s.registeredAdapters.keys))

/-- `popitem` of the registered adapters. -/
def popRegistered : LoraM W Unit := do
  match (← get).registeredAdapters.oldest with
  | none => throw .allItemsPinned
  | some id => modify fun s ↦ s.deleteRegistered id

/-- `popitem` of the active adapters. -/
def popActive : LoraM W Unit := do
  match (← get).activeAdapters.oldest with
  | none => throw .allItemsPinned
  | some id => modify fun s ↦ s.deleteActive id

/-- `remove_oldest_adapter`. -/
def removeOldestAdapter : LoraM W Unit := do
  if 0 < (← get).registeredAdapters.items.length then popRegistered

/-! ### Storing adapters -/

section Storing

variable (cfg : LoraConfig)

/-- Evict registered adapters until there is a place, as the item assignment of `cachetools` is
assumed to do with `popitem`. -/
def evictRegistered : ℕ → LoraM W Unit
  | 0 => pure ()
  | n + 1 => do
    if cfg.maxCpuLoras < (← get).registeredAdapters.items.length + 1 then
      popRegistered
      evictRegistered n

/-- Evict active adapters until there is a place, likewise. -/
def evictActive : ℕ → LoraM W Unit
  | 0 => pure ()
  | n + 1 => do
    if cfg.maxLoras < (← get).activeAdapters.items.length + 1 then
      popActive
      evictActive n

/-- `_registered_adapters[id] = lora` for an adapter that is not registered. The assignment of
`cachetools` is assumed to raise when an item exceeds `maxsize`, to make room, and to store the item
as the most recently used. -/
def setRegistered (id : ℕ) (weights : W) : LoraM W Unit := do
  if cfg.maxCpuLoras < 1 then throw .valueTooLarge
  else
    evictRegistered cfg (← get).registeredAdapters.items.length
    modify fun s ↦ { s with
      registeredAdapters := { s.registeredAdapters with
        items := s.registeredAdapters.items ++ [(id, weights)] } }

/-- `_active_adapters[id] = None` for an adapter that is not active, by the same assumption. -/
def setActive (id : ℕ) : LoraM W Unit := do
  if cfg.maxLoras < 1 then throw .valueTooLarge
  else
    evictActive cfg (← get).activeAdapters.items.length
    modify fun s ↦ { s with
      activeAdapters := { s.activeAdapters with items := s.activeAdapters.items ++ [(id, ())] } }

/-- Give a slot to an adapter and fill it with the adapter's weights. -/
def LoraManager.fillSlot (s : LoraManager W) (index id : ℕ) (weights : W) : LoraManager W :=
  { s with
    registeredAdapters := s.registeredAdapters.touch id
    loraIndexToId := s.loraIndexToId.set index (some id)
    slotWeights := s.slotWeights.set index (some weights) }

/-- `LoRAModelManager.activate_adapter`: the first free slot is filled. -/
def activateInSlot (id : ℕ) : LoraM W Bool := do
  let s ← get
  if id ∈ s.activeAdapters.keys then pure false
  else
    match s.loraIndexToId.findIdx? Option.isNone with
    | none => throw .noFreeLoraSlots
    | some index =>
      setActive cfg id
      match (← get).registeredAdapters.get? id with
      | none => throw .notRegistered
      | some weights =>
        modify fun s ↦ s.fillSlot index id weights
        pure true

/-- `LRUCacheLoRAModelManager.activate_adapter`. -/
def activateAdapter (id : ℕ) : LoraM W Bool := do
  let s ← get
  if id ∉ s.activeAdapters.keys ∧ cfg.maxLoras ≤ s.activeAdapters.items.length ∧
      0 < s.activeAdapters.items.length then
    popActive
  let result ← activateInSlot cfg id
  modify fun s ↦ { s with activeAdapters := s.activeAdapters.touch id }
  pure result

/-- `LRUCacheLoRAModelManager.add_adapter`. -/
def registerAdapter (id : ℕ) (weights : W) : LoraM W Bool := do
  if id ∈ (← get).registeredAdapters.keys then
    modify fun s ↦ { s with registeredAdapters := s.registeredAdapters.touch id }
    pure false
  else
    setRegistered cfg id weights
    pure true

/-- Register a loaded adapter in the place of an older version, the oldest one evicted if there is
no place. -/
def loadAdapter (r : LoraRequest W) : LoraM W Bool := do
  modify fun s ↦ s.removeAdapter r.loraIntId
  if cfg.maxCpuLoras < (← get).registeredAdapters.items.length + 1 then removeOldestAdapter
  registerAdapter cfg r.loraIntId r.weights

/-- `LRUCacheWorkerLoRAManager.add_adapter`. -/
def addAdapter (r : LoraRequest W) : LoraM W Bool := do
  if r.loraIntId ∉ (← get).registeredAdapters.keys ∨ r.loadInplace = true then
    let loaded ← loadAdapter cfg r
    let _ ← activateAdapter cfg r.loraIntId
    pure loaded
  else
    modify fun s ↦ { s with registeredAdapters := s.registeredAdapters.touch r.loraIntId }
    let _ ← activateAdapter cfg r.loraIntId
    pure true

/-- Load and activate adapters one after the other. -/
def addAdapters : List (LoraRequest W) → LoraM W Unit
  | [] => pure ()
  | r :: rs => do
    let _ ← addAdapter cfg r
    addAdapters rs

/-- `loras_map`: one request for each id, the last one of the set. -/
def lorasMap (requests : List (LoraRequest W)) : List (LoraRequest W) :=
  (requests.foldl (fun d r ↦ Dict.set d r.loraIntId r) []).map Prod.snd

/-- `_apply_adapters`. -/
def applyAdapters (requests : List (LoraRequest W)) : LoraM W Unit := do
  if cfg.maxLoras < (lorasMap requests).length then throw .tooManyLoras
  else addAdapters cfg (lorasMap requests)

/-- `_pin_lora_in_cpu_cache`. -/
def pinLoraInCpuCache (id : ℕ) : LoraM W Unit := do
  if id ∈ (← get).registeredAdapters.keys then
    modify fun s ↦ { s with registeredAdapters := s.registeredAdapters.pin id }
  else throw .notRegistered

/-- `pin` among the active adapters. -/
def pinActive (id : ℕ) : LoraM W Unit := do
  if id ∈ (← get).activeAdapters.keys then
    modify fun s ↦ { s with activeAdapters := s.activeAdapters.pin id }
  else throw .notInCache

/-- `_pin_lora_in_gpu_cache`: the adapter is activated first. -/
def pinLoraInGpuCache (id : ℕ) : LoraM W Unit := do
  if id ∈ (← get).activeAdapters.keys then pinActive id
  else
    let _ ← activateAdapter cfg id
    pinActive id

/-- `pin_adapter`. -/
def pinAdapter (id : ℕ) : LoraM W Unit := do
  pinLoraInCpuCache id
  pinLoraInGpuCache cfg id

/-! ### The mapping of a batch -/

/-- The slot of an adapter id, `-1` for none. -/
def slotOf (table : List (Option ℕ)) (id : ℕ) : ℤ :=
  if 0 < id then (table.idxOf (some id) : ℕ) else -1

/-- `convert_mapping`, with the extra vocabulary of size 0 that its caller gives. -/
def convertMapping (mapping : LoraMapping) (table : List (Option ℕ)) :
    Except LoraError IndexTensors :=
  if ∀ id ∈ mapping.promptMapping ++ mapping.indexMapping, 0 < id → some id ∈ table then
    let sampler := mapping.promptMapping.map (slotOf table)
    .ok {
      baseIndices := mapping.indexMapping.map (slotOf table)
      samplerIndices := sampler
      samplerIndicesPadded := sampler.mapIdx fun i slot ↦
        i + (if slot = -1 then (cfg.maxLoras : ℤ) else slot) * sampler.length
      embeddingsIndices :=
        (mapping.indexMapping.map fun _ ↦ 0,
          mapping.indexMapping.map fun id ↦
            (if 0 < id then slotOf table id else 0) * cfg.vocabSize) }
  else .error .idNotInSlots

/-- `set_adapter_mapping`: nothing is converted when the mapping is the last one. -/
def setAdapterMapping (mapping : LoraMapping) : LoraM W Unit := do
  let s ← get
  if s.lastMapping ≠ some mapping then
    match convertMapping cfg mapping s.loraIndexToId with
    | .error e => throw e
    | .ok tensors => set { s with metadata := some tensors, lastMapping := some mapping }

/-- `set_active_adapters`. -/
def setActiveAdapters (requests : List (LoraRequest W)) (mapping : Option LoraMapping) :
    LoraM W Unit := do
  applyAdapters cfg requests
  match mapping with
  | none => pure ()
  | some mapping => setAdapterMapping cfg mapping

/-! ### Calls -/

/-- The calls on the worker's manager. -/
inductive LoraCall (W : Type)
  | setActiveAdapters (requests : List (LoraRequest W)) (mapping : Option LoraMapping)
  | addAdapter (request : LoraRequest W)
  | removeAdapter (id : ℕ)
  | pinAdapter (id : ℕ)

/-- A call as a computation, its result left out. -/
def LoraCall.perform : LoraCall W → LoraM W Unit
  | .setActiveAdapters requests mapping => Lora.setActiveAdapters cfg requests mapping
  | .addAdapter request => do let _ ← Lora.addAdapter cfg request
  | .removeAdapter id => do let _ ← Lora.removeAdapter id
  | .pinAdapter id => Lora.pinAdapter cfg id

/-- The state after a call that returned or raised. -/
def stateAfter {α : Type} : EStateM.Result LoraError (LoraManager W) α → LoraManager W
  | .ok _ s => s
  | .error _ s => s

/-- The manager after a call. -/
def loraStep (s : LoraManager W) (call : LoraCall W) : Option (LoraManager W) :=
  some (stateAfter ((call.perform cfg) s))

end Storing

end OneCatVllm.Lora
