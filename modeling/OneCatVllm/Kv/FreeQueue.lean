import OneCatVllm.Lib.DoublyLinked

/-!
# The free queues

`FreeKVCacheBlockQueue` keeps the free blocks in a doubly linked list between a fake head and a fake
tail, so that a block can leave from the middle. A partitioned pool has two such queues over the
same block objects, one per range of block ids.

The operations are written as the pointer assignments of the source, on one store of pointers for
all blocks (`LinkedQueues`). `FreeQueue` is the interface the block pool uses; the pointers
implement it, and so does a plain **sequence** per range. The two are related by `Represents`, and
each operation of the sequence is simulated by the pointers.
-/

namespace OneCatVllm

open DoublyLinked Function List

/-- The ranges of block ids with a free queue of their own. A pool that is not partitioned has the
history range only. -/
inductive BlockRange
  | state
  | history
  deriving DecidableEq

/-- What the pool and the managers may raise. -/
inductive KvError
  /-- `get_new_blocks`: not enough free blocks. -/
  | noFreeBlocks
  /-- `get_new_blocks`: a free block with references. -/
  | refCntNotZero
  /-- `FreeKVCacheBlockQueue.remove`: the block is in no queue. -/
  | notInQueue
  /-- Any other assertion. -/
  | assertion
  /-- `IndexError`: a list is too short. -/
  | index
  /-- `NotImplementedError`. -/
  | notImplemented
  deriving DecidableEq

/-- The interface of the free queues. -/
class FreeQueue (Q : Type) where
  numFreeBlocks : BlockRange → Q → ℤ
  popleftN : BlockRange → ℕ → Q → Except KvError (List ℕ × Q)
  remove : BlockRange → ℕ → Q → Except KvError Q
  appendN : BlockRange → List ℕ → Q → Except KvError Q
  prependN : BlockRange → List ℕ → Q → Except KvError Q

/-! ### Sequences -/

/-- One sequence of blocks per range. -/
abbrev QueueLists : Type := BlockRange → List ℕ

/-- The queues with the sequence of one range replaced. -/
def QueueLists.put (q : QueueLists) (r : BlockRange) (l : List ℕ) : QueueLists :=
  fun r' ↦ if r' = r then l else q r'

@[simp] theorem QueueLists.put_self (q : QueueLists) (r : BlockRange) (l : List ℕ) :
    q.put r l r = l := if_pos rfl

variable {l : List ℕ} {r : BlockRange} {q : QueueLists}

theorem QueueLists.put_of_ne {r r' : BlockRange} (h : r' ≠ r) :
    q.put r l r' = q r' := if_neg h

instance : FreeQueue QueueLists where
  numFreeBlocks r q := (q r).length
  popleftN r n q :=
    if n ≤ (q r).length then .ok ((q r).take n, q.put r ((q r).drop n)) else .error .assertion
  remove r b q := if b ∈ q r then .ok (q.put r ((q r).erase b)) else .error .notInQueue
  appendN r bs q := .ok (q.put r (q r ++ bs))
  prependN r bs q := .ok (q.put r (bs ++ q r))

/-! ### Pointers -/

/-- A node of the linked lists: the fake ends of a queue, or a block. -/
inductive QueueNode
  | head (r : BlockRange)
  | tail (r : BlockRange)
  | block (id : ℕ)
  deriving DecidableEq

/-- The block of a node. -/
def QueueNode.blockId : QueueNode → Option ℕ
  | block id => some id
  | _ => none

/-- The pointers of all blocks and fake ends, and the queues' counters. -/
structure LinkedQueues where
  links : Links QueueNode
  numFreeBlocks : BlockRange → ℤ

namespace LinkedQueues

/-- The loop of `popleft_n`: the popped nodes lose their pointers; the node after them is the third
result. -/
def popLoop : ℕ → Links QueueNode → Option QueueNode →
    Except KvError (List QueueNode × Links QueueNode × Option QueueNode)
  | 0, L, curr => .ok ([], L, curr)
  | _ + 1, _, none => .error .assertion
  | n + 1, L, some c => do
    let (ret, L', curr) ← popLoop n (L.unlink c) (L.next c)
    return (c :: ret, L', curr)

section

variable (r : BlockRange) (bs : List ℕ)

/-- `FreeKVCacheBlockQueue.popleft`. -/
def popleft (q : LinkedQueues) : Except KvError (ℕ × LinkedQueues) :=
  match q.links.next (.head r) with
  | some (.block b) =>
    match q.links.next (.block b) with
    | none => .error .notInQueue
    | some n => .ok (b,
      { links := (q.links.join (.head r) n).unlink (.block b)
        numFreeBlocks := update q.numFreeBlocks r (q.numFreeBlocks r - 1) })
  | _ => .error .noFreeBlocks

/-- `FreeKVCacheBlockQueue.popleft_n`. -/
def popleftN (n : ℕ) (q : LinkedQueues) : Except KvError (List ℕ × LinkedQueues) :=
  if n = 0 then .ok ([], q)
  else if q.numFreeBlocks r < n then .error .assertion
  else do
    let (ret, L, curr) ← popLoop n q.links (q.links.next (.head r))
    let L := match curr with
      | some c => L.join (.head r) c
      | none => L
    return (ret.filterMap QueueNode.blockId,
      { links := L, numFreeBlocks := update q.numFreeBlocks r (q.numFreeBlocks r - n) })

/-- `FreeKVCacheBlockQueue.remove`. -/
def remove (b : ℕ) (q : LinkedQueues) : Except KvError LinkedQueues :=
  match q.links.prev (.block b), q.links.next (.block b) with
  | some p, some n => .ok
    { links := (q.links.join p n).unlink (.block b)
      numFreeBlocks := update q.numFreeBlocks r (q.numFreeBlocks r - 1) }
  | _, _ => .error .notInQueue

/-- `FreeKVCacheBlockQueue.append_n`. -/
def appendN (q : LinkedQueues) : Except KvError LinkedQueues :=
  if bs = [] then .ok q
  else match q.links.prev (.tail r) with
    | none => .error .assertion
    | some last => .ok
      { links := q.links.joinPath last (bs.map .block) (.tail r)
        numFreeBlocks := update q.numFreeBlocks r (q.numFreeBlocks r + bs.length) }

/-- `FreeKVCacheBlockQueue.prepend_n`. -/
def prependN (q : LinkedQueues) : Except KvError LinkedQueues :=
  if bs = [] then .ok q
  else match q.links.next (.head r) with
    | none => .error .assertion
    | some first => .ok
      { links := q.links.joinPath (.head r) (bs.map .block) first
        numFreeBlocks := update q.numFreeBlocks r (q.numFreeBlocks r + bs.length) }

/-- Blocks and fake ends before any queue is built. -/
def empty : LinkedQueues where
  links := ⟨fun _ ↦ none, fun _ ↦ none⟩
  numFreeBlocks := fun _ ↦ 0

/-- `FreeKVCacheBlockQueue.__init__`: the given blocks linked in order between the fake ends. -/
def init (q : LinkedQueues) : LinkedQueues where
  links := q.links.joinPath (.head r) (bs.map .block) (.tail r)
  numFreeBlocks := update q.numFreeBlocks r bs.length

end

end LinkedQueues

instance : FreeQueue LinkedQueues where
  numFreeBlocks r q := q.numFreeBlocks r
  popleftN := LinkedQueues.popleftN
  remove := LinkedQueues.remove
  appendN := LinkedQueues.appendN
  prependN := LinkedQueues.prependN

/-! ### Representation -/

/-- The nodes of a queue, from the fake head to the fake tail. -/
def queueNodes (r : BlockRange) (l : List ℕ) : List QueueNode :=
  .head r :: l.map .block ++ [.tail r]

/-- **The pointers represent the sequences.** Every queue is linked from its head to its tail, the
counters are the lengths, no block is in two places, and blocks in no queue have no pointers. -/
structure Represents (c : LinkedQueues) (q : QueueLists) : Prop where
  linked : ∀ r, Linked c.links (queueNodes r (q r))
  count : ∀ r, c.numFreeBlocks r = (q r).length
  nodup : ∀ r, (q r).Nodup
  disjoint : ∀ {r r' b}, b ∈ q r → b ∈ q r' → r = r'
  unlinked : ∀ b, (∀ r, b ∉ q r) → c.links.prev (.block b) = none ∧ c.links.next (.block b) = none

theorem mem_queueNodes {n : QueueNode} :
    n ∈ queueNodes r l ↔ n = .head r ∨ (∃ b ∈ l, n = .block b) ∨ n = .tail r := by
  simp only [queueNodes, cons_append, mem_cons, mem_append, mem_map, not_mem_nil, or_false]
  refine or_congr_right (or_congr_left ⟨?_, ?_⟩)
  · rintro ⟨b, hb, rfl⟩
    exact ⟨b, hb, rfl⟩
  · rintro ⟨b, hb, rfl⟩
    exact ⟨b, hb, rfl⟩

theorem block_mem_queueNodes {b : ℕ} : .block b ∈ queueNodes r l ↔ b ∈ l := by
  simp [mem_queueNodes]

theorem nodup_queueNodes (h : l.Nodup) : (queueNodes r l).Nodup := by
  refine nodup_cons.2 ⟨?_, nodup_append.2
    ⟨h.map fun _ _ h ↦ QueueNode.block.inj h, nodup_singleton _, ?_⟩⟩
  · simp
  · rintro n hn m hm rfl
    obtain ⟨b, -, rfl⟩ := mem_map.1 hn
    exact absurd hm (by simp)

namespace Represents

variable {c c' : LinkedQueues} {l₁ l₂ : List ℕ} {b : ℕ}

/-- **The frame of an operation on one queue.** It relinks the nodes of its own queue and of blocks
in no queue; the other queue and the other blocks keep their pointers. -/
theorem update (h : Represents c q) (hlinked : Linked c'.links (queueNodes r l))
    (hcount : c'.numFreeBlocks = update c.numFreeBlocks r l.length) (hnodup : l.Nodup)
    (hnew : ∀ b ∈ l, b ∈ q r ∨ ∀ r', b ∉ q r')
    (hframe : ∀ n, n ∉ queueNodes r (q r) → n ∉ queueNodes r l →
      c'.links.prev n = c.links.prev n ∧ c'.links.next n = c.links.next n)
    (hout : ∀ b ∈ q r, b ∉ l → c'.links.prev (.block b) = none ∧ c'.links.next (.block b) = none) :
    Represents c' (q.put r l) := by
  -- A new block of this queue was in this queue or in none.
  have hcross : ∀ {r' b}, r' ≠ r → b ∈ l → b ∉ q r' := fun {r' b} hr hl hq ↦
    (hnew b hl).elim (fun hb ↦ hr (h.disjoint hq hb)) fun hno ↦ hno r' hq
  -- The nodes of another queue are neither old nor new nodes of this one.
  have hother : ∀ {r'}, r' ≠ r → ∀ n ∈ queueNodes r' (q r'), n ∉ queueNodes r (q r) ∧
      n ∉ queueNodes r l := fun {r'} hr n hn ↦ by
    rcases mem_queueNodes.1 hn with rfl | ⟨b, hb, rfl⟩ | rfl
    · simp [mem_queueNodes, hr]
    · rw [block_mem_queueNodes, block_mem_queueNodes]
      exact ⟨fun hb' ↦ hr (h.disjoint hb hb'), fun hl ↦ hcross hr hl hb⟩
    · simp [mem_queueNodes, hr]
  refine ⟨fun r' ↦ ?_, fun r' ↦ ?_, fun r' ↦ ?_, fun {r₁ r₂ b} h₁ h₂ ↦ ?_, fun b hb ↦ ?_⟩
  · rcases eq_or_ne r' r with rfl | hr
    · rwa [QueueLists.put_self]
    · rw [QueueLists.put_of_ne hr]
      refine (h.linked r').frame (fun n hn ↦ ?_) fun n hn ↦ ?_
      · obtain ⟨h₁, h₂⟩ := hother hr n ((dropLast_sublist _).subset hn)
        exact (hframe n h₁ h₂).2
      · obtain ⟨h₁, h₂⟩ := hother hr n (mem_of_mem_tail hn)
        exact (hframe n h₁ h₂).1
  · rcases eq_or_ne r' r with rfl | hr
    · rw [hcount, QueueLists.put_self, update_self]
    · rw [hcount, QueueLists.put_of_ne hr, update_of_ne hr, h.count]
  · rcases eq_or_ne r' r with rfl | hr
    · rwa [QueueLists.put_self]
    · rw [QueueLists.put_of_ne hr]
      exact h.nodup r'
  · rw [QueueLists.put] at h₁ h₂
    split_ifs at h₁ h₂ with hr₁ hr₂ hr₂
    · rw [hr₁, hr₂]
    · exact absurd h₂ (hcross hr₂ h₁)
    · exact absurd h₁ (hcross hr₁ h₂)
    · exact h.disjoint h₁ h₂
  · have hl : b ∉ l := by simpa using hb r
    by_cases hq : b ∈ q r
    · exact hout b hq hl
    · have hno : ∀ r', b ∉ q r' := fun r' hr' ↦ by
        rcases eq_or_ne r' r with rfl | hr
        · exact hq hr'
        · exact hb r' (by rwa [QueueLists.put_of_ne hr])
      obtain ⟨hp, hn⟩ := hframe (.block b) (block_mem_queueNodes.not.2 hq)
        (block_mem_queueNodes.not.2 hl)
      rw [hp, hn]
      exact h.unlinked b hno

theorem congr {q' : QueueLists} (h : Represents c q) (hq : ∀ r, q' r = q r) : Represents c q' :=
  (funext hq : q' = q) ▸ h

/-- Keeping the blocks of a queue keeps the queues. -/
theorem put_eq_self (q : QueueLists) (r : BlockRange) : q.put r (q r) = q := by
  funext r'
  rcases eq_or_ne r' r with rfl | hr
  · exact QueueLists.put_self ..
  · exact QueueLists.put_of_ne hr

/-- The nodes around a place in a queue. -/
theorem exists_ends (r : BlockRange) (l₁ l₂ : List ℕ) :
    ∃ w₁ p z w₂, QueueNode.head r :: l₁.map .block = w₁ ++ [p] ∧
      l₂.map QueueNode.block ++ [.tail r] = z :: w₂ ∧
      ∀ bs, queueNodes r (l₁ ++ (bs ++ l₂)) = w₁ ++ (p :: bs.map .block ++ z :: w₂) := by
  obtain ⟨w₁, p, hp⟩ : ∃ w p, QueueNode.head r :: l₁.map .block = w ++ [p] :=
    ⟨_, _, (dropLast_append_getLast (cons_ne_nil _ _)).symm⟩
  obtain ⟨z, w₂, hz⟩ : ∃ z w, l₂.map QueueNode.block ++ [.tail r] = z :: w :=
    exists_cons_of_ne_nil (by simp)
  refine ⟨w₁, p, z, w₂, hp, hz, fun bs ↦ ?_⟩
  rw [queueNodes, map_append, ← cons_append, hp]
  simp [hz]

section

variable {bs : List ℕ} (h : Represents c q) (hbs : bs.Nodup) (hno : ∀ b ∈ bs, ∀ r', b ∉ q r')

include h hbs hno

/-- **Blocks enter in the middle** of a queue: they are joined to the nodes around them. -/
theorem paste (hq : q r = l₁ ++ l₂) :
    ∃ w₁ p z w₂, QueueNode.head r :: l₁.map .block = w₁ ++ [p] ∧
      l₂.map QueueNode.block ++ [.tail r] = z :: w₂ ∧ Adjacent c.links p z ∧
      Represents ⟨c.links.joinPath p (bs.map .block) z,
        Function.update c.numFreeBlocks r (c.numFreeBlocks r + bs.length)⟩
        (q.put r (l₁ ++ (bs ++ l₂))) := by
  obtain ⟨w₁, p, z, w₂, hp, hz, hnodes⟩ := exists_ends r l₁ l₂
  have hlinked : Linked c.links (w₁ ++ p :: z :: w₂) := hnodes [] ▸ hq ▸ h.linked r
  obtain ⟨hleft, hadj, hright⟩ := linked_split.1 hlinked
  have hperm : l₁ ++ (bs ++ l₂) ~ q r ++ bs := by
    rw [hq, append_assoc]
    exact perm_append_comm.append_left l₁
  have hnodup : (l₁ ++ (bs ++ l₂)).Nodup :=
    hperm.nodup_iff.2 (nodup_append.2 ⟨h.nodup r, hbs, fun _ ha b hb hab ↦ hno b hb r (hab ▸ ha)⟩)
  have hspliced := hleft.splice hright (hnodes bs ▸ nodup_queueNodes hnodup)
  refine ⟨w₁, p, z, w₂, hp, hz, hadj, h.update (hnodes bs ▸ hspliced) ?_ hnodup
    (fun b hb ↦ (mem_append.1 (hperm.mem_iff.1 hb)).imp_right (hno b))
    (fun n _ hnew ↦ ⟨?_, ?_⟩)
    fun b hb hnb ↦ absurd (hperm.mem_iff.2 (mem_append_left bs hb)) hnb⟩
  · rw [h.count r, hperm.length_eq, length_append, Int.natCast_add]
  · rw [hnodes] at hnew
    refine joinPath_prev (fun hb ↦ hnew ?_) fun hn ↦ hnew ?_
    · simp only [mem_append, mem_cons, hb, true_or, or_true]
    · simp only [mem_append, mem_cons, hn, true_or, or_true]
  · rw [hnodes] at hnew
    refine joinPath_next fun hb ↦ hnew ?_
    simp only [mem_append, hb, true_or, or_true]

/-- **`append_n` puts blocks behind the sequence.** -/
theorem appendN : ∃ c', c.appendN r bs = .ok c' ∧ Represents c' (q.put r (q r ++ bs)) := by
  rcases eq_or_ne bs [] with rfl | hne
  · exact ⟨c, rfl, by rwa [append_nil, put_eq_self]⟩
  obtain ⟨w₁, p, z, w₂, -, hz, hadj, hrep⟩ := h.paste hbs hno (append_nil (q r)).symm
  obtain ⟨rfl, -⟩ := cons.inj hz
  rw [append_nil] at hrep
  exact ⟨_, by rw [LinkedQueues.appendN, if_neg hne, hadj.2], hrep⟩

/-- **`prepend_n` puts blocks in front of the sequence.** -/
theorem prependN : ∃ c', c.prependN r bs = .ok c' ∧ Represents c' (q.put r (bs ++ q r)) := by
  rcases eq_or_ne bs [] with rfl | hne
  · exact ⟨c, rfl, by rwa [nil_append, put_eq_self]⟩
  obtain ⟨w₁, p, z, w₂, hp, -, hadj, hrep⟩ := h.paste hbs hno (nil_append (q r)).symm
  obtain rfl : QueueNode.head r = p := by simpa using congrArg getLast? hp
  exact ⟨_, by rw [LinkedQueues.prependN, if_neg hne, hadj.1], hrep⟩

end

/-- **Blocks leave from the middle** of a queue: they are unlinked, and their neighbours joined. -/
theorem cut {bs : List ℕ} (h : Represents c q) (hq : q r = l₁ ++ (bs ++ l₂)) :
    ∃ w₁ p z, QueueNode.head r :: l₁.map .block = w₁ ++ [p] ∧
      Linked c.links (p :: (bs.map .block ++ [z])) ∧ (p :: (bs.map .block ++ [z])).Nodup ∧
      Represents ⟨(c.links.unlinkAll (bs.map .block)).join p z,
        Function.update c.numFreeBlocks r (l₁ ++ l₂).length⟩ (q.put r (l₁ ++ l₂)) := by
  obtain ⟨w₁, p, z, w₂, hp, -, hnodes⟩ := exists_ends r l₁ l₂
  have hnodes' : queueNodes r (l₁ ++ l₂) = w₁ ++ ([p] ++ z :: w₂) := hnodes []
  have hlinked := h.linked r
  have hnodup := nodup_queueNodes (r := r) (h.nodup r)
  rw [hq, hnodes, append_cons (p :: bs.map .block), cons_append] at hlinked hnodup
  have hsub : l₁ ++ l₂ <+ q r := hq ▸ (sublist_append_right bs l₂).append_left l₁
  have hgone : ∀ m ∈ queueNodes r (l₁ ++ l₂), m ∉ bs.map .block := by
    rintro m hm hmem
    obtain ⟨b, hb, rfl⟩ := mem_map.1 hmem
    have hnodup := hq ▸ h.nodup r
    simp only [nodup_append, mem_append, block_mem_queueNodes] at hnodup hm
    rcases hm with hm | hm
    · exact hnodup.2.2 b hm b (.inl hb) rfl
    · exact hnodup.2.1.2.2 b hb b hm rfl
  have hpmem : p ∈ queueNodes r (l₁ ++ l₂) := by simp [hnodes']
  have hzmem : z ∈ queueNodes r (l₁ ++ l₂) := by simp [hnodes']
  refine ⟨w₁, p, z, hp, hlinked.right.left, hnodup.of_append_right.of_append_left,
    h.update ?_ rfl (hsub.nodup (h.nodup r)) (fun b hb ↦ .inl (hsub.subset hb)) ?_ ?_⟩
  · have hleft : Linked c.links (w₁ ++ [p]) := by
      rw [← singleton_append, append_assoc, ← append_assoc] at hlinked
      exact hlinked.left
    have hright : Linked c.links (z :: w₂) := by
      rw [← cons_append, append_assoc] at hlinked
      exact hlinked.right.right
    rw [hnodes'] at hgone ⊢
    refine (hleft.unlinkAll fun m hm ↦ hgone m ?_).splice
      (hright.unlinkAll fun m hm ↦ hgone m ?_) (hnodes' ▸ nodup_queueNodes (hsub.nodup (h.nodup r)))
    · exact mem_append.2 ((mem_append.1 hm).imp_right (mem_append_left _))
    · exact mem_append_right _ (mem_append_right _ hm)
  · intro m hold hnew
    have hmem : m ∉ bs.map .block := fun hm ↦ by
      obtain ⟨b, hb, rfl⟩ := mem_map.1 hm
      exact hold (block_mem_queueNodes.2 (by simp [hq, hb]))
    have hmp : m ≠ p := fun h ↦ hnew (h ▸ hpmem)
    have hmz : m ≠ z := fun h ↦ hnew (h ▸ hzmem)
    simpa [hmp, hmz] using unlinkAll_of_notMem hmem
  · intro b hb hnb
    have hbnodes : QueueNode.block b ∉ queueNodes r (l₁ ++ l₂) := block_mem_queueNodes.not.2 hnb
    have hbp : QueueNode.block b ≠ p := fun h ↦ hbnodes (h ▸ hpmem)
    have hbz : QueueNode.block b ≠ z := fun h ↦ hbnodes (h ▸ hzmem)
    rw [hq] at hb
    simp only [mem_append, not_or] at hb hnb
    simpa [hbp, hbz] using unlinkAll_of_mem (mem_map_of_mem ((hb.resolve_left hnb.1).resolve_right
      hnb.2))

/-- One block leaves between its neighbours. -/
theorem cut_one (h : Represents c q) (hq : q r = l₁ ++ b :: l₂) :
    ∃ w₁ p z, QueueNode.head r :: l₁.map .block = w₁ ++ [p] ∧
      Adjacent c.links p (.block b) ∧ Adjacent c.links (.block b) z ∧
      Represents ⟨(c.links.join p z).unlink (.block b),
        Function.update c.numFreeBlocks r (c.numFreeBlocks r - 1)⟩ (q.put r (l₁ ++ l₂)) := by
  obtain ⟨w₁, p, z, hp, hlinked, hnodup, hrep⟩ := h.cut (show q r = l₁ ++ ([b] ++ l₂) from hq)
  obtain ⟨hpb, hrest⟩ := isChain_cons_cons.1 hlinked
  have hcount : c.numFreeBlocks r - 1 = (l₁ ++ l₂).length := by
    rw [h.count r, hq]
    simp only [length_append, length_cons, Int.natCast_add]
    omega
  refine ⟨w₁, p, z, hp, hpb, isChain_pair.1 hrest, ?_⟩
  rw [hcount, unlink_join (by rintro rfl; simp at hnodup) (by rintro rfl; simp at hnodup)]
  exact hrep

/-- **`remove` takes a block out of the middle.** -/
theorem remove (h : Represents c q) (hb : b ∈ q r) :
    ∃ c', c.remove r b = .ok c' ∧ Represents c' (q.put r ((q r).erase b)) := by
  obtain ⟨l₁, l₂, hq⟩ := append_of_mem hb
  have hb₁ : b ∉ l₁ := fun hb₁ ↦
    (nodup_append.1 (hq ▸ h.nodup r)).2.2 b hb₁ b mem_cons_self rfl
  obtain ⟨-, p, z, -, hpb, hbz, hrep⟩ := h.cut_one hq
  refine ⟨_, by rw [LinkedQueues.remove, hpb.2, hbz.1], ?_⟩
  rwa [hq, erase_append_right _ hb₁, erase_cons_head]

/-- **`popleft` takes the first block.** -/
theorem popleft (h : Represents c q) (hq : q r = b :: l) :
    ∃ c', c.popleft r = .ok (b, c') ∧ Represents c' (q.put r l) := by
  obtain ⟨w₁, p, z, hp, hpb, hbz, hrep⟩ := h.cut_one (show q r = [] ++ _ from hq)
  obtain rfl : QueueNode.head r = p := by simpa using congrArg getLast? hp
  exact ⟨_, by rw [LinkedQueues.popleft, hpb.1]; dsimp only; rw [hbz.1], hrep⟩

theorem next_eq_head? {L : Links QueueNode} {x z : QueueNode} {xs : List QueueNode}
    (h : Linked L (x :: (xs ++ [z]))) : L.next x = (xs ++ [z]).head? := by
  rcases xs with - | ⟨y, xs⟩
  · exact (isChain_cons_cons.1 h).1.1
  · exact (isChain_cons_cons.1 h).1.1

/-- The popping loop walks along the list and unlinks what it passes. -/
theorem popLoop_spec {L : Links QueueNode} {z : QueueNode} {xs : List QueueNode}
    (hlinked : Linked L (xs ++ [z])) (hnodup : (xs ++ [z]).Nodup) :
    LinkedQueues.popLoop xs.length L (xs ++ [z]).head? = .ok (xs, L.unlinkAll xs, some z) := by
  induction xs generalizing L with
  | nil => rfl
  | cons x xs ih =>
    obtain ⟨hx, hrest⟩ := nodup_cons.1 hnodup
    have hlinked' : Linked (L.unlink x) (xs ++ [z]) := by
      have htail : Linked L (xs ++ [z]) := IsChain.tail hlinked
      have hout : ∀ n ∈ xs ++ [z], n ∉ [x] := fun n hn hnx ↦
        hx (by rwa [← mem_singleton.1 hnx])
      exact htail.unlinkAll hout
    have hloop := ih hlinked' hrest
    show (do
      let (ret, L', curr) ← LinkedQueues.popLoop xs.length (L.unlink x) (L.next x)
      return (x :: ret, L', curr) : Except KvError _) = _
    rw [next_eq_head? hlinked, hloop]
    rfl

/-- **`popleft_n` takes the first blocks.** -/
theorem popleftN (h : Represents c q) {n : ℕ} (hn : n ≤ (q r).length) :
    ∃ c', c.popleftN r n = .ok ((q r).take n, c') ∧ Represents c' (q.put r ((q r).drop n)) := by
  rcases Nat.eq_zero_or_pos n with rfl | hpos
  · exact ⟨c, rfl, by rwa [drop_zero, put_eq_self]⟩
  obtain ⟨w₁, p, z, hp, hlinked, hnodup, hrep⟩ :=
    h.cut (show q r = [] ++ _ from (take_append_drop n (q r)).symm)
  obtain rfl : QueueNode.head r = p := by simpa using congrArg getLast? hp
  have hloop := popLoop_spec (IsChain.tail hlinked) hnodup.of_cons
  rw [length_map, length_take_of_le hn, ← next_eq_head? hlinked] at hloop
  have hcount : ¬ c.numFreeBlocks r < n := by
    rw [h.count r]
    omega
  have hret : (((q r).take n).map QueueNode.block).filterMap QueueNode.blockId = (q r).take n := by
    rw [filterMap_map]
    exact filterMap_some
  have hsub : c.numFreeBlocks r - n = ((q r).drop n).length := by
    rw [h.count r, length_drop]
    omega
  refine ⟨_, ?_, hrep⟩
  rw [LinkedQueues.popleftN, if_neg hpos.ne', if_neg hcount, hloop, hsub]
  simp only [bind, Except.bind, hret, pure, Except.pure]
  rfl

/-- **Fresh queues.** Two queues built over disjoint blocks, in whatever state the pointers are;
the remaining blocks have none. -/
theorem of_init (h₁ : l₁.Nodup) (h₂ : l₂.Nodup) (hdisj : ∀ b ∈ l₁, b ∉ l₂)
    (hrest : ∀ b, b ∉ l₁ → b ∉ l₂ →
      c.links.prev (.block b) = none ∧ c.links.next (.block b) = none) :
    Represents ((c.init .state l₁).init .history l₂) (QueueLists.put (fun _ ↦ l₁) .history l₂) := by
  set c₁ := c.init .state l₁
  have hstate : Linked c₁.links (queueNodes .state l₁) := linked_joinPath (nodup_queueNodes h₁)
  have hother : ∀ n ∈ queueNodes .state l₁, n ≠ .tail .history ∧
      n ∉ QueueNode.head .history :: l₂.map .block := by
    intro n hn
    rcases mem_queueNodes.1 hn with rfl | ⟨b, hb, rfl⟩ | rfl
    · simp
    · simpa using hdisj b hb
    · simp
  refine ⟨fun r ↦ ?_, fun r ↦ ?_, fun r ↦ ?_, fun {r r' b} hb hb' ↦ ?_, fun b hb ↦ ?_⟩
  · cases r with
    | state =>
      refine hstate.frame (fun n hn ↦ ?_) fun n hn ↦ ?_
      · exact joinPath_next (hother n ((dropLast_sublist _).subset hn)).2
      · obtain ⟨ht, hl⟩ := hother n (mem_of_mem_tail hn)
        exact joinPath_prev (not_mem_of_not_mem_cons hl) ht
    | history => exact linked_joinPath (nodup_queueNodes h₂)
  · cases r with
    | state => rfl
    | history => rfl
  · cases r with
    | state => exact h₁
    | history => exact h₂
  · cases r <;> cases r'
    · rfl
    · exact absurd hb' (hdisj b hb)
    · exact absurd hb (hdisj b hb')
    · rfl
  · have hb₁ : b ∉ l₁ := hb .state
    have hb₂ : b ∉ l₂ := hb .history
    obtain ⟨hp, hn⟩ := hrest b hb₁ hb₂
    refine ⟨?_, ?_⟩
    · rw [← hp]
      exact (joinPath_prev (by simpa using hb₂) (by simp)).trans
        (joinPath_prev (by simpa using hb₁) (by simp))
    · rw [← hn]
      exact (joinPath_next (by simpa using hb₂)).trans (joinPath_next (by simpa using hb₁))

end Represents

end OneCatVllm
