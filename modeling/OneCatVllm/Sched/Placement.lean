import Mathlib.Data.List.Count
import OneCatVllm.Sched.Schedule

/-!
# Where requests are

A request's status says which kind of queue it belongs to: `running` for a running request, one of
the waiting queues for one that waits, none for a finished one (`RequestStatus.place`).
`AllPlaced s extra` is the **placement invariant**: every id occurs in the queues exactly as the
status of its request says, once in one queue of the right kind, and an id without a live request
occurs nowhere. The list `extra` stands for the requests set aside during a scheduling step.

The invariant speaks about each id on its own, through its numbers of occurrences. A transition that
touches a single request is therefore checked at that request only (`AllPlaced.move`).
-/

namespace OneCatVllm

open List RequestStatus Scheduler

variable {H E : Type} {st : RequestStatus}

/-- The kinds of place. -/
inductive Place
  | nowhere
  | running
  | waiting
  deriving DecidableEq

/-- Where a request with this status belongs. -/
def RequestStatus.place : RequestStatus → Place
  | .running => .running
  | .waiting | .waitingForStructuredOutputGrammar | .waitingForRemoteKvs | .waitingForStreamingReq
  | .preempted => .waiting
  | _ => .nowhere

/-- Where an entry of the dictionary of requests belongs. -/
def placeOf : Option (Request H E) → Place
  | none => .nowhere
  | some r => r.status.place

/-- A place demands these numbers of occurrences in `running` and in the waiting queues. -/
def Place.Holds : Place → ℕ → ℕ → Prop
  | .nowhere, inRunning, inWaiting => inRunning = 0 ∧ inWaiting = 0
  | .running, inRunning, inWaiting => inRunning = 1 ∧ inWaiting = 0
  | .waiting, inRunning, inWaiting => inRunning = 0 ∧ inWaiting = 1

theorem RequestStatus.place_eq_running_iff : st.place = .running ↔ st = .running := by
  cases st <;> simp [place]

theorem RequestStatus.place_eq_nowhere_iff : st.place = .nowhere ↔ st.isFinished = true := by
  cases st <;> simp [place, isFinished]

variable {r : Request H E}

theorem Request.isFinished_of_nowhere (h : placeOf (some r) = .nowhere) : r.isFinished = true :=
  place_eq_nowhere_iff.1 h

theorem RequestStatus.place_eq_waiting_iff :
    st.place = .waiting ↔ st ≠ .running ∧ st.isFinished = false := by
  cases st <;> simp [place, isFinished]

/-- Occurrences in the waiting queues and in `extra`. -/
def Scheduler.waitingCount (s : Scheduler H E) (extra : List ℕ) (id : ℕ) : ℕ :=
  s.waiting.count id + s.skippedWaiting.count id + extra.count id

/-- **The placement invariant.** -/
def AllPlaced (s : Scheduler H E) (extra : List ℕ) : Prop :=
  ∀ id, (placeOf (s.requests id)).Holds (s.running.count id) (s.waitingCount extra id)

variable {s s' : Scheduler H E} {extra : List ℕ}

/-- A transition that touches one request only. -/
theorem AllPlaced.move {extra' : List ℕ} (h : AllPlaced s extra) (id : ℕ)
    (hother : ∀ j ≠ id, s'.requests j = s.requests j ∧ s'.running.count j = s.running.count j ∧
      s'.waitingCount extra' j = s.waitingCount extra j)
    (hid : (placeOf (s'.requests id)).Holds (s'.running.count id) (s'.waitingCount extra' id)) :
    AllPlaced s' extra' := by
  intro j
  rcases eq_or_ne j id with rfl | hj
  · exact hid
  · obtain ⟨hr, hc, hw⟩ := hother j hj
    rw [hr, hc, hw]
    exact h j

/-! ### Small operations -/

variable {id : ℕ} {r' : Request H E}

namespace Scheduler

variable {j : ℕ} {q : WaitingQueue}

@[simp] theorem setRequest_requests_self : (s.setRequest id r).requests id = some r := by
  simp [setRequest]

@[simp] theorem setRequest_requests_of_ne (h : j ≠ id) :
    (s.setRequest id r).requests j = s.requests j := by
  simp [setRequest, h]

theorem setRequest_self (h : s.requests id = some r) : s.setRequest id r = s := by
  rw [setRequest, ← h, Function.update_eq_self]

theorem setRequest_setRequest : (s.setRequest id r).setRequest id r' = s.setRequest id r' := by
  simp [setRequest]

theorem setRequest_popRequest (q : WaitingQueue) :
    (s.setRequest id r).popRequest q j = (s.popRequest q j).setRequest id r := by
  cases q <;> rfl

@[simp] theorem setRequest_running : (s.setRequest id r).running = s.running := rfl

@[simp] theorem setRequest_waiting : (s.setRequest id r).waiting = s.waiting := rfl

@[simp] theorem setRequest_skippedWaiting :
    (s.setRequest id r).skippedWaiting = s.skippedWaiting := rfl

@[simp] theorem delRequest_requests_self : (s.delRequest id).requests id = none := by
  simp [delRequest]

@[simp] theorem delRequest_requests_of_ne (h : j ≠ id) :
    (s.delRequest id).requests j = s.requests j := by
  simp [delRequest, h]

@[simp] theorem popRequest_requests (q : WaitingQueue) :
    (s.popRequest q id).requests = s.requests := by
  cases q <;> rfl

@[simp] theorem popRequest_running (q : WaitingQueue) :
    (s.popRequest q id).running = s.running := by
  cases q <;> rfl

/-- **`_preempt_request`**: only a running request can be preempted. -/
theorem preemptRequest_eq_some :
    s.preemptRequest id = some s' ↔ ∃ r, s.requests id = some r ∧ r.status = .running ∧
      s' = { s.setRequest id r.preempt with waiting := id :: s.waiting } := by
  rcases hr : s.requests id with - | r
  · simp [preemptRequest, hr]
  · by_cases hrun : r.status = .running
    · simp [preemptRequest, hr, hrun, prependRequest, eq_comm]
    · simp [preemptRequest, hr, hrun]

/-- Popping the head of a waiting queue takes away one occurrence of it. -/
theorem popRequest_waitingCount (hid : id ∈ s.queue q) (extra : List ℕ) (j : ℕ) :
    (s.popRequest q id).waitingCount extra j + (if j = id then 1 else 0) =
      s.waitingCount extra j := by
  have hcount : ∀ l : List ℕ, id ∈ l →
      (l.erase id).count j + (if j = id then 1 else 0) = l.count j := by
    intro l hl
    split_ifs with hj
    · rw [hj, count_erase_self, Nat.sub_add_cancel (count_pos_iff.2 hl)]
    · rw [count_erase_of_ne hj, add_zero]
  cases q with
  | waiting =>
    have := hcount s.waiting hid
    simp only [popRequest, waitingCount]
    omega
  | skipped =>
    have := hcount s.skippedWaiting hid
    simp only [popRequest, waitingCount]
    omega

/-- A popped request may stay in a queue only if it was there twice. -/
theorem mem_queue_popRequest {q q' : WaitingQueue} (h : j ∈ (s.popRequest q id).queue q') :
    j ∈ s.queue q' := by
  cases q <;> cases q' <;> first | exact mem_of_mem_erase h | exact h

theorem waitingCount_pos_of_mem (h : id ∈ s.queue q) (extra : List ℕ) :
    0 < s.waitingCount extra id := by
  cases q <;>
  · have : 0 < count id _ := count_pos_iff.2 h
    simp only [waitingCount, queue] at this ⊢
    omega

end Scheduler

/-- Rewriting a request without changing where it belongs. -/
theorem AllPlaced.setRequest (h : AllPlaced s extra) (hr : s.requests id = some r)
    (hplace : r'.status.place = r.status.place) : AllPlaced (s.setRequest id r') extra := by
  refine h.move id (fun j hj ↦ ⟨setRequest_requests_of_ne hj, rfl, rfl⟩) ?_
  have hid := h id
  rw [hr] at hid
  rw [setRequest_requests_self, placeOf, hplace]
  exact hid

namespace AllPlaced

/-- A request found in `running` is live and running. -/
theorem of_mem_running (h : AllPlaced s extra) (hid : id ∈ s.running) :
    ∃ r, s.requests id = some r ∧ r.status = .running := by
  have hpos : 0 < s.running.count id := count_pos_iff.2 hid
  have hh := h id
  rcases hr : s.requests id with - | r
  · rw [hr] at hh
    exact absurd hh.1 hpos.ne'
  · refine ⟨r, rfl, place_eq_running_iff.1 ?_⟩
    rw [hr, placeOf] at hh
    rcases hp : r.status.place with - | - | -
    · rw [hp] at hh
      exact absurd hh.1 hpos.ne'
    · rfl
    · rw [hp] at hh
      exact absurd hh.1 hpos.ne'

/-- A request found waiting is live and neither running nor finished. -/
theorem of_waitingCount_pos (h : AllPlaced s extra) (hid : 0 < s.waitingCount extra id) :
    ∃ r, s.requests id = some r ∧ r.status.place = .waiting := by
  have hh := h id
  rcases hr : s.requests id with - | r
  · rw [hr] at hh
    exact absurd hh.2 hid.ne'
  · refine ⟨r, rfl, ?_⟩
    rw [hr, placeOf] at hh
    rcases hp : r.status.place with - | - | -
    · rw [hp] at hh
      exact absurd hh.2 hid.ne'
    · rw [hp] at hh
      exact absurd hh.2 hid.ne'
    · rfl

theorem running_nodup (h : AllPlaced s extra) : s.running.Nodup := by
  refine nodup_iff_count_le_one.2 fun id ↦ ?_
  have hh := h id
  rcases hp : placeOf (s.requests id) with - | - | - <;> rw [hp] at hh <;>
    exact hh.1.trans_le (by omega)

end AllPlaced

end OneCatVllm
