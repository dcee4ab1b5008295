import Mathlib.Data.List.Chain
import Mathlib.Data.List.Nodup

/-!
# Doubly linked lists

A store of `prev` and `next` pointers, and the predicate that a list of nodes is linked: every
node's `next` is its successor, whose `prev` points back. A program that splices such lists is a
sequence of assignments; those of the usual programs all amount to **joining a path** of nodes to
two ends (`Links.joinPath`) and unlinking others, so one rule covers insertion at the front, at the
back and removal anywhere (`Linked.splice`).
-/

namespace DoublyLinked

open Function List

variable {N : Type*}

/-- The pointers of all nodes. -/
structure Links (N : Type*) where
  prev : N → Option N
  next : N → Option N

/-- Two nodes that point at each other. -/
def Adjacent (L : Links N) (x y : N) : Prop := L.next x = some y ∧ L.prev y = some x

/-- **A linked list**, sentinels included: the pointers are inverse to each other along it. -/
def Linked (L : Links N) (w : List N) : Prop := w.IsChain (Adjacent L)

variable {L L' : Links N} {a x y z : N} {w w₁ w₂ : List N}

theorem linked_split : Linked L (w₁ ++ x :: y :: w₂) ↔
    Linked L (w₁ ++ [x]) ∧ Adjacent L x y ∧ Linked L (y :: w₂) :=
  isChain_append_cons_cons

theorem Linked.left (h : Linked L (w₁ ++ w₂)) : Linked L w₁ := IsChain.left_of_append h

theorem Linked.right (h : Linked L (w₁ ++ w₂)) : Linked L w₂ := IsChain.right_of_append h

/-- Two lists that share a node are one. -/
theorem Linked.glue (h₁ : Linked L (w₁ ++ [x])) (h₂ : Linked L (x :: w₂)) :
    Linked L (w₁ ++ x :: w₂) := by
  rcases w₂ with - | ⟨y, w₂⟩
  · exact h₁
  · obtain ⟨hadj, hrest⟩ := isChain_cons_cons.1 h₂
    exact linked_split.2 ⟨h₁, hadj, hrest⟩

/-- Only the `next` pointers of all nodes but the last and the `prev` pointers of all but the first
matter. -/
theorem Linked.frame (h : Linked L w) (hnext : ∀ n ∈ w.dropLast, L'.next n = L.next n)
    (hprev : ∀ n ∈ w.tail, L'.prev n = L.prev n) : Linked L' w := by
  induction w with
  | nil => exact .nil
  | cons u w ih =>
    rcases w with - | ⟨v, w⟩
    · exact .singleton u
    · obtain ⟨⟨hn, hp⟩, hrest⟩ := isChain_cons_cons.1 h
      refine isChain_cons_cons.2 ⟨⟨?_, ?_⟩, ih hrest (fun n hn ↦ hnext n ?_) fun n hn ↦ ?_⟩
      · rw [hnext u mem_cons_self, hn]
      · rw [hprev v mem_cons_self, hp]
      · exact mem_cons_of_mem u hn
      · exact hprev n (mem_cons_of_mem v hn)

/-! ### Assignments -/

variable [DecidableEq N] {bs xs : List N} {n : N}

/-- `n.next = v`. -/
def Links.setNext (L : Links N) (n : N) (v : Option N) : Links N :=
  { L with next := update L.next n v }

/-- `n.prev = v`. -/
def Links.setPrev (L : Links N) (n : N) (v : Option N) : Links N :=
  { L with prev := update L.prev n v }

/-- `n.prev = n.next = None`. -/
def Links.unlink (L : Links N) (n : N) : Links N := (L.setPrev n none).setNext n none

/-- `a.next = b` and `b.prev = a`. -/
def Links.join (L : Links N) (a b : N) : Links N := (L.setNext a (some b)).setPrev b (some a)

/-- Join `a` to the nodes of `bs` one after the other, and the last of them to `z`. -/
def Links.joinPath (L : Links N) : N → List N → N → Links N
  | a, [], z => L.join a z
  | a, b :: bs, z => (L.join a b).joinPath b bs z

@[simp] theorem unlink_prev (n m : N) :
    (L.unlink n).prev m = if m = n then none else L.prev m := update_apply ..

@[simp] theorem unlink_next (n m : N) :
    (L.unlink n).next m = if m = n then none else L.next m := update_apply ..

@[simp] theorem join_prev (a b m : N) :
    (L.join a b).prev m = if m = b then some a else L.prev m := update_apply ..

@[simp] theorem join_next (a b m : N) :
    (L.join a b).next m = if m = a then some b else L.next m := update_apply ..

/-- A node that is not joined may be unlinked before. -/
theorem unlink_join (ha : x ≠ a) (hz : x ≠ z) : (L.join a z).unlink x = (L.unlink x).join a z := by
  simp only [Links.unlink, Links.join, Links.setPrev, Links.setNext, update_comm ha, update_comm hz]

/-- A path assigns the `next` pointers of its start and its inner nodes. -/
theorem joinPath_next (hn : n ∉ a :: bs) : (L.joinPath a bs z).next n = L.next n := by
  induction bs generalizing L a with
  | nil => rw [Links.joinPath, join_next, if_neg (ne_of_not_mem_cons hn)]
  | cons b bs ih =>
    rw [Links.joinPath, ih (not_mem_of_not_mem_cons hn), join_next, if_neg (ne_of_not_mem_cons hn)]

/-- A path assigns the `prev` pointers of its inner nodes and its end. -/
theorem joinPath_prev (hn : n ∉ bs) (hz : n ≠ z) : (L.joinPath a bs z).prev n = L.prev n := by
  induction bs generalizing L a with
  | nil => rw [Links.joinPath, join_prev, if_neg hz]
  | cons b bs ih =>
    rw [Links.joinPath, ih (not_mem_of_not_mem_cons hn), join_prev, if_neg (ne_of_not_mem_cons hn)]

theorem linked_joinPath (hnodup : (a :: bs ++ [z]).Nodup) :
    Linked (L.joinPath a bs z) (a :: bs ++ [z]) := by
  induction bs generalizing L a with
  | nil => exact isChain_pair.2 ⟨by simp [Links.joinPath], by simp [Links.joinPath]⟩
  | cons b bs ih =>
    obtain ⟨ha, hrest⟩ := nodup_cons.1 hnodup
    obtain ⟨hb, -⟩ := nodup_cons.1 hrest
    refine isChain_cons_cons.2 ⟨⟨?_, ?_⟩, ih hrest⟩
    · -- The rest of the path assigns neither pointer of this pair.
      rw [Links.joinPath, joinPath_next fun h ↦ ha (mem_append_left [z] h), join_next, if_pos rfl]
    · have hz : b ≠ z := fun h ↦ hb (h ▸ mem_append_right bs (mem_singleton_self _))
      rw [Links.joinPath, joinPath_prev (fun h ↦ hb (mem_append_left [z] h)) hz, join_prev,
        if_pos rfl]

/-- **The splice.** A path joined to the last node of one list and the first of another links the
two. -/
theorem Linked.splice (h₁ : Linked L (w₁ ++ [a])) (h₂ : Linked L (z :: w₂))
    (hnodup : (w₁ ++ (a :: bs ++ z :: w₂)).Nodup) :
    Linked (L.joinPath a bs z) (w₁ ++ (a :: bs ++ z :: w₂)) := by
  obtain ⟨-, hpath, hw₁⟩ := nodup_append.1 hnodup
  have hpath' : (a :: bs ++ [z]).Nodup := by
    have : (a :: bs ++ [z] ++ w₂).Nodup := by simpa using hpath
    exact this.of_append_left
  have hsplit : ∀ n ∈ z :: w₂, n ∉ a :: bs := fun n hn h ↦
    (nodup_append.1 hpath).2.2 n h n hn rfl
  -- The two old parts keep their links.
  have hleft : Linked (L.joinPath a bs z) (w₁ ++ [a]) := by
    refine h₁.frame (fun n hn ↦ joinPath_next fun h ↦ ?_) fun n hn ↦ ?_
    · rw [dropLast_concat] at hn
      exact hw₁ n hn n (mem_append_left _ h) rfl
    · have hmem := mem_of_mem_tail hn
      have hne : n ∉ bs ∧ n ≠ z := by
        rcases mem_append.1 hmem with hmem | hmem
        · refine ⟨fun h ↦ hw₁ n hmem n ?_ rfl, fun h ↦ hw₁ n hmem n ?_ rfl⟩
          · exact mem_append_left _ (mem_cons_of_mem a h)
          · exact h ▸ mem_append_right _ mem_cons_self
        · rw [mem_singleton] at hmem
          subst hmem
          simp only [cons_append, nodup_cons, mem_append, mem_cons, not_or] at hpath
          exact ⟨hpath.1.1, hpath.1.2.1⟩
      exact joinPath_prev hne.1 hne.2
  have hright : Linked (L.joinPath a bs z) (z :: w₂) := by
    refine h₂.frame (fun n hn ↦ joinPath_next (hsplit n ((dropLast_sublist _).subset hn)))
      fun n hn ↦ joinPath_prev (fun h ↦ ?_) fun h ↦ ?_
    · exact hsplit n (mem_cons_of_mem z hn) (mem_cons_of_mem a h)
    · have hz : (z :: w₂).Nodup := (nodup_append.1 hpath).2.1
      exact (nodup_cons.1 hz).1 (h ▸ hn)
  exact hleft.glue ((linked_joinPath hpath').glue hright)

/-! ### Unlinking -/

/-- Unlink the nodes one after the other. -/
def Links.unlinkAll (L : Links N) (xs : List N) : Links N := xs.foldl Links.unlink L

theorem unlinkAll_of_notMem (h : n ∉ xs) :
    (L.unlinkAll xs).prev n = L.prev n ∧ (L.unlinkAll xs).next n = L.next n := by
  induction xs generalizing L with
  | nil => exact ⟨rfl, rfl⟩
  | cons x xs ih =>
    obtain ⟨hp, hn⟩ := ih (not_mem_of_not_mem_cons h)
    have hne := ne_of_not_mem_cons h
    exact ⟨hp.trans (by simp [hne]), hn.trans (by simp [hne])⟩

theorem unlinkAll_of_mem (h : n ∈ xs) :
    (L.unlinkAll xs).prev n = none ∧ (L.unlinkAll xs).next n = none := by
  induction xs generalizing L with
  | nil => exact absurd h not_mem_nil
  | cons x xs ih =>
    by_cases hmem : n ∈ xs
    · exact ih hmem
    · obtain ⟨hp, hn⟩ := unlinkAll_of_notMem hmem
      have hx : n = x := (mem_cons.1 h).resolve_right hmem
      exact ⟨hp.trans (by simp [hx]), hn.trans (by simp [hx])⟩

/-- Unlinking nodes outside a list keeps it. -/
theorem Linked.unlinkAll (h : Linked L w) (hxs : ∀ n ∈ w, n ∉ xs) : Linked (L.unlinkAll xs) w :=
  h.frame (fun n hn ↦ (unlinkAll_of_notMem (hxs n ((dropLast_sublist w).subset hn))).2)
    fun n hn ↦ (unlinkAll_of_notMem (hxs n (mem_of_mem_tail hn))).1

end DoublyLinked
