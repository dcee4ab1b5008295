import Mathlib.Data.List.Sort
import OneCatVllm.Lib.Lru
import OneCatVllm.Lib.Transition

/-!
# The multi-modal processor caches of the two processes

The front-end process (P0) processes the multi-modal items of a request and sends them to the engine
core (P1). `MultiModalProcessorSenderCache` keeps the **sizes** of processed items and leaves out
the data of an item it knows; `MultiModalReceiverCache` keeps the processed items themselves and
fills the data in again. Neither asks the other what it holds.

* `mergeMmKwargs` runs over the items **modality by modality**, in the order of the dictionary;
* `processInputs` then checks the lengths, which may reject the request, and puts the items into the
  order of their **positions in the prompt**;
* `getAndUpdateFeatures` runs over the items in that order.

An item is identified by its hash: `process h` is what the processor makes of the item with hash
`h`. Prompt updates, statistics and the shared-memory caches are left out.
-/

namespace OneCatVllm.Multimodal

variable {H V : Type*}

/-- An item of a request. An item without data is given by its hash alone. -/
structure MmItem (H : Type*) where
  mmHash : H
  hasData : Bool
  /-- The placeholder's place in the prompt. -/
  offset : ℕ
  numEmbeds : ℕ
deriving DecidableEq

/-- A request: for each modality, in the order of the dictionary `mm_hashes`, its items. Inputs with
passthrough data (embeddings) are not cached by the processor. -/
structure MmRequest (H : Type*) where
  mmItems : List (List (MmItem H))
  promptLen : ℕ
  passthrough : Bool
deriving DecidableEq

/-- The items in the order in which the processor visits them. -/
def MmRequest.items (r : MmRequest H) : List (MmItem H) := r.mmItems.flatten

/-- The configuration, with the processor and the sizes of processed items. -/
structure MmConfig (H V : Type*) where
  process : H → V
  getItemSize : V → ℕ
  /-- `mm_processor_cache_gb`, in bytes. -/
  capacity : ℕ
  maxModelLen : ℕ
  /-- `runner_type == "generate"`. -/
  generates : Bool
  mmEncoderCacheSize : ℕ
  skipPromptLengthCheck : Bool

/-- The exceptions of the caches. -/
inductive CacheError (H : Type*)
  /-- The assertion `Expected a cached item`. -/
  | expectedCachedItem (mmHash : H)
  /-- `value too large`. -/
  | valueTooLarge
  /-- `All items are pinned`. -/
  | allPinned
deriving DecidableEq

/-- The exceptions of the length checks. -/
inductive LengthError
  | promptEmpty
  | promptTooLong
  | noRoomForOutput
  | itemExceedsEncoderCache
deriving DecidableEq

/-! ### The caches -/

section Caches

variable [DecidableEq H] {α : Type*}

/-- `get_and_update_item`, which both caches have: the cached value if there is one; otherwise the
item, which must be given, is stored. -/
def getAndUpdateItem (size : α → ℕ) (capacity : ℕ) (c : Lru H α) (item : Option α) (h : H) :
    Lru H α × Except (CacheError H) (Option α) :=
  match c.get? h with
  | some v => (c.touch h, .ok (some v))
  | none =>
    match item with
    | none => (c, .error (.expectedCachedItem h))
    | some v =>
      let r := c.put size capacity h v
      match r.2.2 with
      | .stored => (r.1, .ok none)
      | .tooLarge => (r.1, .error .valueTooLarge)
      | .allPinned => (r.1, .error .allPinned)

/-- `get_and_update_item` on the items one after the other, up to the first exception. -/
def getAndUpdate (size : α → ℕ) (capacity : ℕ) :
    Lru H α → List (H × Option α) → Lru H α × Except (CacheError H) (List (Option α))
  | c, [] => (c, .ok [])
  | c, (h, item) :: rest =>
    match getAndUpdateItem size capacity c item h with
    | (c, .error e) => (c, .error e)
    | (c, .ok v) =>
      match getAndUpdate size capacity c rest with
      | (c, .error e) => (c, .error e)
      | (c, .ok vs) => (c, .ok (v :: vs))

/-- Touch all items first, so that none of them is evicted for another. -/
def touchAll (c : Lru H α) (hs : List H) : Lru H α := hs.foldl Lru.touch c

end Caches

/-! ### The front-end -/

section Processor

variable [DecidableEq H] (cfg : MmConfig H V)

section

variable (sender : Lru H ℕ) (items : List (MmItem H))

/-- An item of the sender's cache is its size. -/
def senderItems : List (H × Option ℕ) :=
  items.map fun i ↦ (i.mmHash,
    if i.mmHash ∈ sender.keys then none else some (cfg.getItemSize (cfg.process i.mmHash)))

/-- `_merge_mm_kwargs` with the sender's cache: for each item the data to send, left out when the
item was cached. Which items are missing was found out before. -/
def mergeMmKwargs : Lru H ℕ × Except (CacheError H) (List (Option V)) :=
  let r := getAndUpdate id cfg.capacity (touchAll sender (items.map MmItem.mmHash))
    (senderItems cfg sender items)
  (r.1, r.2.map fun cached ↦
    (items.zip cached).map fun p ↦ if p.2.isSome then none else some (cfg.process p.1.mmHash))

/-- `_get_cache_missing_items` raises when an item without data is not cached. -/
def cacheMiss : Bool :=
  items.any fun i ↦ !i.hasData && decide (i.mmHash ∉ sender.keys)

/-- `_validate_prompt_len` for the decoder prompt. -/
def validatePromptLen (promptLen : ℕ) : Except LengthError Unit :=
  if cfg.skipPromptLengthCheck then .ok ()
  else if promptLen = 0 then .error .promptEmpty
  else if cfg.maxModelLen < promptLen then .error .promptTooLong
  else if promptLen = cfg.maxModelLen ∧ cfg.generates then .error .noRoomForOutput
  else .ok ()

/-- `_validate_model_input`: the length of the prompt and of every item. -/
def validateModelInput (r : MmRequest H) : Except LengthError Unit :=
  match validatePromptLen cfg r.promptLen with
  | .error e => .error e
  | .ok () =>
    if r.items.any fun i ↦ cfg.mmEncoderCacheSize < i.numEmbeds then .error .itemExceedsEncoderCache
    else .ok ()

/-- The features of a request in the order of their positions (`argsort_mm_positions`, a stable
sort), each with the data that is sent along. -/
def mmFeatures (data : List (Option V)) : List (MmItem H × Option V) :=
  (items.zip data).insertionSort fun p q ↦ p.1.offset ≤ q.1.offset

end

end Processor

/-! ### The engine core -/

section Receiver

variable [DecidableEq H] (cfg : MmConfig H V)

/-- `get_and_update_features` with the receiver's cache: the data of the features, the cached data
in the place of what was sent. -/
def getAndUpdateFeatures (receiver : Lru H V) (features : List (MmItem H × Option V)) :
    Lru H V × Except (CacheError H) (List (Option V)) :=
  let r := getAndUpdate cfg.getItemSize cfg.capacity
    (touchAll receiver (features.map fun p ↦ p.1.mmHash))
    (features.map fun p ↦ (p.1.mmHash, p.2))
  (r.1, r.2.map fun cached ↦ (features.zip cached).map fun p ↦ p.2.or p.1.2)

end Receiver

/-! ### One request -/

/-- The two caches. -/
structure MmCaches (H V : Type*) where
  sender : Lru H ℕ
  receiver : Lru H V
deriving DecidableEq

/-- What becomes of a request: it is rejected in the front-end, or the engine core receives it and
looks up its features. -/
inductive MmOutcome (H V : Type*)
  | rejected
  | received (features : List (MmItem H × Option V))
      (data : Except (CacheError H) (List (Option V)))

variable [DecidableEq H] (cfg : MmConfig H V)

/-- An accepted request reaches the engine core. -/
def receive (s : MmCaches H V) (items : List (MmItem H)) (data : List (Option V)) :
    MmCaches H V × MmOutcome H V :=
  let features := mmFeatures items data
  let r := getAndUpdateFeatures cfg s.receiver features
  ({ s with receiver := r.1 }, .received features r.2)

/-- A request: the processor with the sender's cache, the length checks, and the engine core. Inputs
with passthrough data are processed without the cache and sent with all their data. -/
def handle (s : MmCaches H V) (r : MmRequest H) : MmCaches H V × MmOutcome H V :=
  if r.passthrough then
    if r.items.any fun i ↦ !i.hasData then (s, .rejected)
    else
      match validateModelInput cfg r with
      | .error _ => (s, .rejected)
      | .ok () => receive cfg s r.items (r.items.map fun i ↦ some (cfg.process i.mmHash))
  else if cacheMiss s.sender r.items then (s, .rejected)
  else
    match mergeMmKwargs cfg s.sender r.items with
    | (sender, .error _) => ({ s with sender }, .rejected)
    | (sender, .ok data) =>
      match validateModelInput cfg r with
      | .error _ => ({ s with sender }, .rejected)
      | .ok () => receive cfg { s with sender } r.items data

/-- Both caches empty. -/
def MmCaches.init : MmCaches H V := ⟨.empty, .empty⟩

/-- The caches after a request. -/
def mmStep (s : MmCaches H V) (r : MmRequest H) : Option (MmCaches H V) := some (handle cfg s r).1

end OneCatVllm.Multimodal
