import Mathlib.Data.List.Dedup
import Mathlib.Data.List.Sort
import OneCatVllm.Lib.Dispatch

/-!
# Rearranging expert weights

The slots of a layer are divided among the expert-parallel ranks, and every slot holds the weights
of one expert. A rebalancing assigns new experts to the slots: `move_to_buffer` gathers what the
slots of a rank need, from the rank's own slots or from other ranks, and `move_from_buffer` copies
it into the slots.

Every rank works out on its own, from the old and the new assignment, what it sends and what it
receives (`postSends`, `postRecvs`); nobody tells a sender who asks. Between two ranks messages
arrive in the order in which they were sent, and a receive takes the next message (`arrivals`). The
communication ends only if between any two ranks as many messages are sent as received.

Weights are opaque here: a slot holds one value, which stands for all tensors of its expert.
Streams, profiling and the mapping of ranks before a transfer (which makes entries `-1`) are left
out.
-/

namespace OneCatVllm.Eplb

open List

/-- A layer: the slots' experts before and after; `-1` stands for none. Slot `row` of rank `rank`
is entry `rank * numLocalExperts + row`. -/
structure Layer where
  epSize : ℕ
  numLocalExperts : ℕ
  oldIndices : List ℤ
  newIndices : List ℤ
  length_old : oldIndices.length = epSize * numLocalExperts
  length_new : newIndices.length = epSize * numLocalExperts

namespace Layer

variable (l : Layer)

/-- The entry of a slot. -/
def entry (indices : List ℤ) (rank row : ℕ) : ℤ :=
  indices.getD (rank * l.numLocalExperts + row) (-1)

/-- `old_local_expert_ids`. -/
def oldLocal (rank row : ℕ) : ℤ := l.entry l.oldIndices rank row

/-- `new_local_expert_ids`. -/
def newLocal (rank row : ℕ) : ℤ := l.entry l.newIndices rank row

/-! ### Who sends and who receives an expert -/

/-- The ranks of an expert's slots, each once, in the order of the slots. -/
def ranksWith (indices : List ℤ) (expert : ℤ) : List ℕ :=
  (((range indices.length).filter fun g ↦ indices.getD g (-1) = expert).map
    (· / l.numLocalExperts)).eraseDups

/-- `ranks_to_send` of `get_ep_ranks_with_experts_batch`. -/
def ranksToSend (expert : ℤ) : List ℕ := l.ranksWith l.oldIndices expert

/-- `ranks_to_recv` of `get_ep_ranks_with_experts_batch`: those with a slot for the expert and
without an old copy. -/
def ranksToRecv (expert : ℤ) : List ℕ :=
  (l.ranksWith l.newIndices expert).filter (· ∉ l.ranksToSend expert)

/-! ### What a rank does with its slots -/

/-- The slots of a rank. -/
def rows : List ℕ := range l.numLocalExperts

def isUnchanged (rank row : ℕ) : Bool := l.oldLocal rank row = l.newLocal rank row

/-- `is_received_locally`: nothing changes, or the rank has the expert. -/
def isReceivedLocally (rank row : ℕ) : Bool :=
  l.isUnchanged rank row ||
    decide (l.newLocal rank row ≠ -1) && l.rows.any fun j ↦ l.oldLocal rank j = l.newLocal rank row

/-- `need_recv_mask`. -/
def needRecv (rank row : ℕ) : Bool :=
  !l.isReceivedLocally rank row && decide (l.newLocal rank row ≠ -1)

/-- `np.unique`: the values, ascending. -/
def npUnique (ids : List ℤ) : List ℤ := ids.dedup.insertionSort (· ≤ ·)

/-- `send_expert_ids` and `send_src_rows`: each expert of the rank with its first slot. -/
def sendMap (rank : ℕ) : List (ℤ × ℕ) :=
  (npUnique ((l.rows.filter fun i ↦ l.oldLocal rank i ≠ -1).map (l.oldLocal rank))).map
    fun e ↦ (e, l.rows.findIdx fun i ↦ l.oldLocal rank i = e)

/-- `recv_expert_ids` and `recv_dst_rows`: each expert that the rank has to receive, with the first
slot that needs it. -/
def recvMap (rank : ℕ) : List (ℤ × ℕ) :=
  (npUnique ((l.rows.filter (l.needRecv rank)).map (l.newLocal rank))).map
    fun e ↦ (e, l.rows.findIdx fun i ↦ l.needRecv rank i && decide (l.newLocal rank i = e))

/-! ### Messages -/

/-- A send: to whom, and from which slot. -/
structure Send where
  dst : ℕ
  expert : ℤ
  srcRow : ℕ
deriving DecidableEq

/-- A receive: from whom, and for which slot of the buffer. -/
structure Recv where
  src : ℕ
  expert : ℤ
  dstRow : ℕ
deriving DecidableEq

/-- The sends of one expert; `none` when `ranks_to_send.index` raises. -/
def sendsOf (rank : ℕ) (p : ℤ × ℕ) : Option (List Send) :=
  let send := l.ranksToSend p.1
  let recv := l.ranksToRecv p.1
  if send = [] ∨ recv = [] then some []
  else if rank ∈ send then some ((Dispatch.targets send recv rank).map fun dst ↦ ⟨dst, p.1, p.2⟩)
  else none

/-- The receive of one expert; `none` when `ranks_to_recv.index` or an access raises. -/
def recvsOf (rank : ℕ) (p : ℤ × ℕ) : Option (List Recv) :=
  let send := l.ranksToSend p.1
  let recv := l.ranksToRecv p.1
  if send = [] ∨ recv = [] then some []
  else if rank ∈ recv then (Dispatch.source send recv rank).map fun src ↦ [⟨src, p.1, p.2⟩]
  else none

/-- All sends of a rank, by ascending experts. -/
def postSends (rank : ℕ) : Option (List Send) :=
  ((l.sendMap rank).mapM (l.sendsOf rank)).map flatten

/-- All receives of a rank, by ascending experts. -/
def postRecvs (rank : ℕ) : Option (List Recv) :=
  ((l.recvMap rank).mapM (l.recvsOf rank)).map flatten

/-- The experts that one rank sends to another, in order. -/
def sentBetween (sends : ℕ → List Send) (src dst : ℕ) : List ℤ :=
  ((sends src).filter (·.dst = dst)).map Send.expert

/-- The experts that one rank receives from another, in order. -/
def receivedBetween (recvs : ℕ → List Recv) (src dst : ℕ) : List ℤ :=
  ((recvs dst).filter (·.src = src)).map Recv.expert

/-! ### The weights -/

variable {α : Type*}

/-- The local moves into the buffer of a rank. -/
def localMoves (rank : ℕ) (weights buffer : ℕ → α) (row : ℕ) : α :=
  if !l.isUnchanged rank row && l.isReceivedLocally rank row then
    match (l.sendMap rank).find? (·.1 = l.newLocal rank row) with
    | some p => weights p.2
    | none => buffer row
  else buffer row

/-- What arrives at a rank: the row of each receive with the value of the send it takes. -/
def arrivals (sends : ℕ → List Send) (recvs : ℕ → List Recv) (weights : ℕ → ℕ → α) (dst : ℕ) :
    List (ℕ × α) :=
  (range l.epSize).flatMap fun src ↦
    (((recvs dst).filter (·.src = src)).map Recv.dstRow).zip
      (((sends src).filter (·.dst = dst)).map fun p ↦ weights src p.srcRow)

/-- Write what arrived into the buffer. -/
def fill (arrived : List (ℕ × α)) (buffer : ℕ → α) (row : ℕ) : α :=
  match arrived.find? (·.1 = row) with
  | some p => p.2
  | none => buffer row

/-- `recv_primary_mask`. -/
def isPrimary (rank row : ℕ) : Bool := (l.recvMap rank).any (·.2 = row)

/-- The first part of `move_from_buffer`: rows that were moved or received. -/
def copyBack (rank : ℕ) (weights buffer : ℕ → α) (row : ℕ) : α :=
  if !l.isUnchanged rank row && (l.isReceivedLocally rank row || l.isPrimary rank row) then
    buffer row
  else weights row

/-- `move_from_buffer`: the rows of the buffer, and then further slots of a received expert. The
search in the sorted `prim_experts` finds an expert's entry exactly when there is one. -/
def moveFromBuffer (rank : ℕ) (weights buffer : ℕ → α) (row : ℕ) : α :=
  let copied := l.copyBack rank weights buffer
  if !l.isUnchanged rank row && !l.isReceivedLocally rank row && !l.isPrimary rank row &&
      decide (l.newLocal rank row ≠ -1) then
    match (l.recvMap rank).find? (·.1 = l.newLocal rank row) with
    | some p => copied p.2
    | none => copied row
  else copied row

section

variable (sends : ℕ → List Send) (recvs : ℕ → List Recv)

/-- Between any two ranks as many messages are sent as received. -/
def Balanced : Prop :=
  ∀ src ∈ range l.epSize, ∀ dst ∈ range l.epSize,
    (sentBetween sends src dst).length = (receivedBetween recvs src dst).length

instance : Decidable (l.Balanced sends recvs) :=
  inferInstanceAs (Decidable (∀ _ ∈ _, ∀ _ ∈ _, _))

/-- What all ranks post; `none` when one of them raises. -/
def posts {β : Type*} (post : ℕ → Option (List β)) : Option (ℕ → List β) :=
  ((range l.epSize).mapM post).map fun lists rank ↦ lists.getD rank []

/-- The slots of a rank after the messages were exchanged. -/
def exchange (weights buffers : ℕ → ℕ → α) (rank : ℕ) : ℕ → α :=
  l.moveFromBuffer rank (weights rank)
    (fill (l.arrivals sends recvs weights rank) (l.localMoves rank (weights rank) (buffers rank)))

end

/-- **All ranks run** `move_to_buffer` and `move_from_buffer`. The result is `none` when a rank
raises or the communication does not end. -/
def rearrange (weights buffers : ℕ → ℕ → α) : Option (ℕ → ℕ → α) :=
  (l.posts l.postSends).bind fun sends ↦
    (l.posts l.postRecvs).bind fun recvs ↦
      if l.Balanced sends recvs then some (l.exchange sends recvs weights buffers) else none

end Layer

end OneCatVllm.Eplb
