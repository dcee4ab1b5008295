import Mathlib.Algebra.BigOperators.Group.List.Basic
import Mathlib.Algebra.GroupWithZero.Nat
import Mathlib.Algebra.Order.Group.Nat
import OneCatVllm.Lib.Dict

/-!
# Least-recently-used caches

A cache is the list of its items from the least to the most recently used, with a set of pinned
keys that are never evicted. Room for a new item is made by deleting the oldest item that is not
pinned, again and again, until the weights of the items that remain leave enough of the capacity.

Two facts carry the uses of these caches. The operations look at keys and weights only, so they
**commute with a change of the stored values** that keeps the weights (`map_touch`, `map_put`): a
cache of weights mirrors a cache of values as long as both perform the same operations. And room is
made at the old end: **a recent part that fits into the capacity stays** (`makeRoom_append`).
-/

/-- The items from the least to the most recently used, and the pinned keys. -/
structure Lru (κ α : Type*) where
  items : List (κ × α)
  pinned : List κ
deriving DecidableEq

namespace Lru

open Dict List Nat

variable {κ α β : Type*}

/-- The cache that holds nothing. -/
def empty : Lru κ α := ⟨[], []⟩

/-- The keys, the least recently used first. -/
def keys (c : Lru κ α) : List κ := Dict.keys c.items

/-- The weights of all items together. -/
def total (weight : α → ℕ) (c : Lru κ α) : ℕ := (c.items.map fun p ↦ weight p.2).sum

variable [DecidableEq κ] {c : Lru κ α} {k k' : κ} {v : α} {weight : α → ℕ} {capacity room n : ℕ}

section

variable (c : Lru κ α) (k : κ)

/-- The value stored for a key, the order left alone. -/
def get? : Option α := Dict.get? c.items k

/-- Make a key the most recently used one, if it is in the cache. -/
def touch : Lru κ α :=
  match c.get? k with
  | none => c
  | some v => { c with items := pop c.items k ++ [(k, v)] }

/-- Delete a key, and unpin it. -/
def delete : Lru κ α :=
  { items := pop c.items k, pinned := c.pinned.filter (· ≠ k) }

/-- Pin a key, so that it is not evicted. -/
def pin : Lru κ α := { c with pinned := c.pinned.insert k }

end

/-- The least recently used key that is not pinned. -/
def oldest (c : Lru κ α) : Option κ := c.keys.find? (· ∉ c.pinned)

/-- Delete the oldest item until the others weigh at most `room`. The result has the deleted keys in
order, and whether the room was made: it is not when all items that are left are pinned. Every turn
deletes an item, so as many turns as there are items are enough. That an assignment calls `popitem`
until the new item fits is assumed, see `put`. -/
def makeRoom (weight : α → ℕ) (room : ℕ) : ℕ → Lru κ α → Lru κ α × List κ × Bool
  | 0, c => (c, [], c.total weight ≤ room)
  | n + 1, c =>
    if c.total weight ≤ room then (c, [], true)
    else
      match c.oldest with
      | none => (c, [], false)
      | some k =>
        let r := makeRoom weight room n (c.delete k)
        (r.1, k :: r.2.1, r.2.2)

/-- What became of an item to be stored. -/
inductive Stored
  | stored
  /-- The item alone is heavier than the capacity. -/
  | tooLarge
  /-- No room could be made, since the items that are left are all pinned. -/
  | allPinned
deriving DecidableEq

/-- Store a value under a key that is not in the cache: the cache, the keys deleted to make room,
and whether the value was stored. This is the item assignment inherited from `cachetools`, and **its
behaviour is assumed**, not read from its source: it raises when the item alone exceeds `maxsize`,
calls `popitem` until the item fits, and stores it as the most recently used. -/
def put (weight : α → ℕ) (capacity : ℕ) (c : Lru κ α) (k : κ) (v : α) : Lru κ α × List κ × Stored :=
  if capacity < weight v then (c, [], .tooLarge)
  else
    let r := makeRoom weight (capacity - weight v) c.items.length c
    if r.2.2 then ({ r.1 with items := r.1.items ++ [(k, v)] }, r.2.1, .stored)
    else (r.1, r.2.1, .allPinned)

/-! ### Keys -/

theorem get?_eq_none_iff : c.get? k = none ↔ k ∉ c.keys := Dict.get?_eq_none_iff

theorem mem_keys_iff : k ∈ c.keys ↔ ∃ v, c.get? k = some v := by
  rw [← Option.ne_none_iff_exists', ne_eq, get?_eq_none_iff, not_not]

theorem mem_keys_of_get? (h : c.get? k = some v) : k ∈ c.keys := mem_keys_iff.2 ⟨v, h⟩

theorem touch_of_notMem (h : k ∉ c.keys) : c.touch k = c := by
  rw [touch, get?_eq_none_iff.2 h]

theorem touch_of_get? (h : c.get? k = some v) :
    c.touch k = { c with items := pop c.items k ++ [(k, v)] } := by
  rw [touch, h]

@[simp] theorem pinned_touch : (c.touch k).pinned = c.pinned := by
  unfold touch
  split <;> rfl

theorem keys_delete : (c.delete k).keys = c.keys.filter (· ≠ k) := keys_pop

theorem keys_touch (h : k ∈ c.keys) : (c.touch k).keys = c.keys.filter (· ≠ k) ++ [k] := by
  obtain ⟨v, hv⟩ := mem_keys_iff.1 h
  rw [touch_of_get? hv, keys, Dict.keys, map_append]
  exact congrArg (· ++ [k]) keys_pop

@[simp] theorem mem_keys_touch : k' ∈ (c.touch k).keys ↔ k' ∈ c.keys := by
  by_cases h : k ∈ c.keys
  · rw [keys_touch h, mem_append, mem_filter, mem_singleton, decide_eq_true_iff]
    refine ⟨?_, fun hk' ↦ ?_⟩
    · rintro (⟨hk', -⟩ | rfl)
      · exact hk'
      · exact h
    · exact (eq_or_ne k' k).symm.imp (fun hne ↦ ⟨hk', hne⟩) id
  · rw [touch_of_notMem h]

@[simp] theorem get?_touch : (c.touch k).get? k' = c.get? k' := by
  rcases h : c.get? k with - | v
  · rw [touch_of_notMem (get?_eq_none_iff.1 h)]
  · rw [touch_of_get? h]
    show Dict.get? (pop c.items k ++ [(k, v)]) k' = _
    rw [get?_append, get?_pop]
    split
    · rename_i hk
      subst hk
      rw [h]
      simp [Dict.get?]
    · rename_i hk
      simp [Dict.get?, hk, get?]

theorem nodup_keys_touch (h : c.keys.Nodup) : (c.touch k).keys.Nodup := by
  by_cases hk : k ∈ c.keys
  · rw [keys_touch hk, ← concat_eq_append]
    exact (h.filter _).concat (by simp)
  · rwa [touch_of_notMem hk]

/-! ### The same operations on other values -/

section Map

variable {f : α → β} {weight' : β → ℕ}

omit [DecidableEq κ] in
/-- Change the stored values. -/
def map (f : α → β) (c : Lru κ α) : Lru κ β :=
  { items := c.items.map fun p ↦ (p.1, f p.2), pinned := c.pinned }

omit [DecidableEq κ] in
@[simp] theorem keys_map : (c.map f).keys = c.keys := by
  rw [keys, Dict.keys, map, map_map]
  rfl

theorem get?_map : (c.map f).get? k = (c.get? k).map f := by
  obtain ⟨items, pinned⟩ := c
  show Dict.get? (items.map fun p ↦ (p.1, f p.2)) k = (Dict.get? items k).map f
  induction items with
  | nil => rfl
  | cons p items ih =>
    rw [map_cons, Dict.get?, Dict.get?, ih]
    split <;> rfl

theorem delete_map : (c.map f).delete k = (c.delete k).map f := by
  rw [delete, map, pop, filter_map]
  rfl

theorem touch_map : (c.map f).touch k = (c.touch k).map f := by
  rcases h : c.get? k with - | v
  · rw [touch, get?_map, touch, h]
    rfl
  · have hmap : (c.map f).get? k = some (f v) := by rw [get?_map, h, Option.map_some]
    rw [touch_of_get? hmap, touch_of_get? h, map, map, map_append, pop, filter_map]
    rfl

theorem oldest_map : (c.map f).oldest = c.oldest := by
  rw [oldest, keys_map]
  rfl

omit [DecidableEq κ] in
theorem total_map (hweight : ∀ v, weight' (f v) = weight v) :
    (c.map f).total weight' = c.total weight := by
  rw [total, map, map_map]
  exact congrArg sum (map_congr_left fun p _ ↦ hweight p.2)

theorem makeRoom_map (hweight : ∀ v, weight' (f v) = weight v) :
    makeRoom weight' room n (c.map f) =
      ((makeRoom weight room n c).1.map f, (makeRoom weight room n c).2) := by
  induction n generalizing c with
  | zero => rw [makeRoom, makeRoom, total_map hweight]
  | succ n ih =>
    rw [makeRoom, makeRoom, total_map hweight, oldest_map]
    split
    · rfl
    · split
      · rfl
      · rw [delete_map, ih]

/-- **Storing commutes with a change of the values** that keeps their weights. -/
theorem put_map (hweight : ∀ v, weight' (f v) = weight v) :
    (c.map f).put weight' capacity k (f v) =
      ((c.put weight capacity k v).1.map f, (c.put weight capacity k v).2) := by
  have hlength : (c.map f).items.length = c.items.length := length_map _
  rw [put, put, hweight, hlength, makeRoom_map hweight]
  dsimp only
  split
  · rfl
  · split
    · rw [map, map, map_append]
      rfl
    · rfl

end Map

/-! ### The recent end -/

/-- The items whose keys are in a list lie at the recent end. -/
def Recent (hs : List κ) (c : Lru κ α) : Prop := c.keys.Pairwise fun a b ↦ a ∈ hs → b ∈ hs

/-- The weights of the items whose keys are in a list. -/
def share (weight : α → ℕ) (hs : List κ) (c : Lru κ α) : ℕ :=
  ((c.items.filter fun p ↦ p.1 ∈ hs).map fun p ↦ weight p.2).sum

variable {hs : List κ}

omit [DecidableEq κ] in
theorem recent_nil : Recent [] c :=
  pairwise_of_forall fun _ _ h ↦ absurd h not_mem_nil

/-- **A touched key joins the recent ones.** -/
theorem Recent.touch (h : Recent hs c) : Recent (k :: hs) (c.touch k) := by
  have hother : ∀ {l : List κ}, k ∉ l → l.Pairwise (fun a b ↦ a ∈ hs → b ∈ hs) →
      l.Pairwise fun a b ↦ a ∈ k :: hs → b ∈ k :: hs := by
    intro l hl hpair
    refine hpair.imp_of_mem fun {a b} ha _ hab hmem ↦ ?_
    rcases mem_cons.1 hmem with rfl | hmem
    · exact absurd ha hl
    · exact mem_cons_of_mem k (hab hmem)
  unfold Recent
  by_cases hk : k ∈ c.keys
  · rw [keys_touch hk]
    refine pairwise_append.2 ⟨hother ?_ (h.filter _), pairwise_singleton _ _, ?_⟩
    · simp
    · intro a _ b hb _
      rw [mem_singleton.1 hb]
      exact mem_cons_self
  · rw [touch_of_notMem hk]
    exact hother hk h

omit [DecidableEq κ] in
theorem Recent.of_mem_iff {hs' : List κ} (h : Recent hs c) (hmem : ∀ a, a ∈ hs ↔ a ∈ hs') :
    Recent hs' c :=
  Pairwise.imp (S := fun a b ↦ a ∈ hs' → b ∈ hs')
    (fun {a b} hab ha ↦ (hmem b).1 (hab ((hmem a).2 ha))) h

section

variable (hpinned : c.pinned = []) (hnodup : c.keys.Nodup) (hrecent : Recent hs c)

include hpinned hnodup hrecent

/-- **Room is made at the old end**: what is deleted are the first items, none of them one of the
recent keys, provided that those fit. -/
theorem makeRoom_recent (hfit : c.share weight hs ≤ room) (hn : c.items.length ≤ n) :
    (makeRoom weight room n c).2.2 = true ∧ (makeRoom weight room n c).1.pinned = [] ∧
      ∃ gone, c.items = gone ++ (makeRoom weight room n c).1.items ∧ ∀ p ∈ gone, p.1 ∉ hs := by
  induction n generalizing c with
  | zero =>
    have hnil : c.items = [] := length_eq_zero_iff.1 (le_zero.1 hn)
    have htotal : c.total weight ≤ room := by
      rw [total, hnil]
      exact zero_le room
    exact ⟨decide_eq_true htotal, hpinned, [], rfl, fun p hp ↦ absurd hp not_mem_nil⟩
  | succ n ih =>
    rw [makeRoom]
    split
    · exact ⟨rfl, hpinned, [], rfl, fun p hp ↦ absurd hp not_mem_nil⟩
    · rename_i hover
      obtain ⟨items, pinned⟩ := c
      obtain rfl : pinned = [] := hpinned
      rcases items with - | ⟨p, items⟩
      · exact absurd (zero_le room) hover
      have hp : p.1 ∉ hs := by
        -- otherwise all items are recent ones, and they fit
        intro hp
        refine hover (le_trans (le_of_eq ?_) hfit)
        have hall : ∀ q ∈ p :: items, decide (q.1 ∈ hs) = true := by
          intro q hq
          refine decide_eq_true ?_
          rcases mem_cons.1 hq with rfl | hq
          · exact hp
          · exact (pairwise_cons.1 hrecent).1 q.1 (mem_map_of_mem hq) hp
        rw [total, share, filter_eq_self.2 hall]
      have hdelete : (⟨p :: items, []⟩ : Lru κ α).delete p.1 = ⟨items, []⟩ := by
        have hpop : pop (p :: items) p.1 = items := by
          rw [pop, filter_cons_of_neg (by simp)]
          exact pop_eq_self (nodup_cons.1 hnodup).1
        rw [delete, hpop]
        rfl
      have holdest : (⟨p :: items, []⟩ : Lru κ α).oldest = some p.1 := rfl
      have hshare : share weight hs ⟨p :: items, []⟩ = share weight hs ⟨items, []⟩ := by
        rw [share, share, filter_cons_of_neg (by simpa using hp)]
      rw [holdest]
      dsimp only
      rw [hdelete]
      obtain ⟨hok, hpins, gone, hgone, hold⟩ := ih (c := ⟨items, []⟩) rfl
        (nodup_cons.1 hnodup).2 (pairwise_cons.1 hrecent).2 (hshare ▸ hfit)
        (le_of_succ_le_succ hn)
      refine ⟨hok, hpins, p :: gone, congrArg (p :: ·) hgone, fun q hq ↦ ?_⟩
      rcases mem_cons.1 hq with rfl | hq
      · exact hp
      · exact hold q hq

/-- **A new recent item is stored** when the recent items fit into the capacity with it. -/
theorem put_recent (hfit : c.share weight hs + weight v ≤ capacity) :
    ∃ gone kept removed, c.items = gone ++ kept ∧ (∀ p ∈ gone, p.1 ∉ hs) ∧
      c.put weight capacity k v = (⟨kept ++ [(k, v)], []⟩, removed, .stored) := by
  have hroom : c.share weight hs ≤ capacity - weight v := by omega
  obtain ⟨hok, hpins, gone, hgone, hold⟩ :=
    makeRoom_recent hpinned hnodup hrecent hroom (le_refl c.items.length)
  set r := makeRoom weight (capacity - weight v) c.items.length c with hr
  refine ⟨gone, r.1.items, r.2.1, hgone, hold, ?_⟩
  rw [put, if_neg (by omega)]
  dsimp only
  rw [if_pos hok, hpins]

end

end Lru
