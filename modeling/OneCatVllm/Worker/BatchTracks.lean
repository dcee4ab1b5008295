import OneCatVllm.Worker.BatchRows

/-!
# The batch against its requests

`Tracks cfg s live` relates a batch to the dictionary of the requests that are in it: the index is
the inverse of the list of rows, the row of every request matches it, the rows without a request
have no dictionary entries, and the tables on request ids list exactly the requests in the batch.
Every operation keeps it, **whatever the mask of allowed tokens contains**; the mask is the subject
of the module on runs.
-/

namespace OneCatVllm.Batch

open CachedRequestState Dict Finset Function InputBatch List Option

section

variable (live : List (ℕ × LiveRequest)) (r : ℕ)

/-- The requests in the batch, without their draft tokens. -/
def requestOf : Option CachedRequestState :=
  (get? live r).map LiveRequest.req

theorem requestOf_pop : requestOf (pop live r) = update (requestOf live) r none := by
  funext r'
  simp only [requestOf, get?_pop, update_apply, eq_comm]
  split_ifs <;> rfl

theorem requestOf_set (e : LiveRequest) :
    requestOf (Dict.set live r e) = update (requestOf live) r (some e.req) := by
  funext r'
  simp only [requestOf, get?_set, update_apply, eq_comm]
  split_ifs <;> rfl

end

/-! ### Tables on request ids -/

/-- The LoRA dictionaries list the requests of every adapter in use. -/
structure LoraTables (ids : ℕ → Option (Finset ℕ)) (loras : ℕ → Option LoRARequest)
    (reqs : ℕ → Option CachedRequestState) : Prop where
  mem_iff : ∀ loraId r, (∃ rs, ids loraId = some rs ∧ r ∈ rs) ↔
    ∃ req l, reqs r = some req ∧ req.loraRequest = some l ∧ l.loraIntId = loraId
  request : ∀ loraId, ids loraId ≠ none → loras loraId ≠ none

/-- The tables on request ids list the requests in the batch; requests for pooling have no mask. -/
structure IdTables (cfg : BatchConfig) (s : InputBatch) (reqs : ℕ → Option CachedRequestState) :
    Prop where
  reqSets : ∀ k r, r ∈ s.reqSets k ↔
    ∃ req p, reqs r = some req ∧ req.samplingParams = some p ∧ k.joins cfg p = true
  numLogprobs : ∀ r, s.numLogprobs r = (reqs r).bind fun req ↦ req.samplingParams.bind fun p ↦
    p.logprobs.map fun n ↦ if n = -1 then (cfg.vocabSize : ℤ) else n
  logprobTokenIds : ∀ r, s.logprobTokenIds r =
    (reqs r).bind fun req ↦ req.samplingParams.bind SamplingParams.logprobTokenIds
  poolingParams : ∀ r, s.poolingParams r =
    (reqs r).bind fun req ↦ if req.samplingParams.isSome then none else req.poolingParams
  lora : LoraTables s.loraIdToRequestIds s.loraIdToLoraRequest reqs
  mask : cfg.isPoolingModel = true → s.allowedTokenIdsMask = none

variable {reqs : ℕ → Option CachedRequestState} {req : CachedRequestState} {r i : ℕ}
  {ids : ℕ → Option (Finset ℕ)} {loras : ℕ → Option LoRARequest} {s : InputBatch}

section LoraTables

variable {l : LoRARequest}

section

variable (h : LoraTables ids loras reqs)

include h

/-- A request without an adapter in no set of the LoRA dictionaries. -/
theorem LoraTables.update_of_none {x : Option CachedRequestState}
    (hold : ∀ req, reqs r = some req → req.loraRequest = none)
    (hnew : ∀ req, x = some req → req.loraRequest = none) :
    LoraTables ids loras (update reqs r x) := by
  refine ⟨fun loraId r' ↦ (h.mem_iff loraId r').trans ?_, h.request⟩
  rw [update_apply]
  split_ifs with hr
  · subst hr
    constructor
    · rintro ⟨q, l, hq, hl, -⟩
      cases (hold q hq).symm.trans hl
    · rintro ⟨q, l, hq, hl, -⟩
      cases (hnew q hq).symm.trans hl
  · exact Iff.rfl

theorem LoraTables.add (hr : reqs r = none) (hl : req.loraRequest = some l) :
    LoraTables (update ids l.loraIntId (some (insert r ((ids l.loraIntId).getD ∅))))
      (update loras l.loraIntId (some l)) (update reqs r (some req)) where
  mem_iff loraId r' := by
    have hold := h.mem_iff loraId r'
    rw [update_apply, update_apply]
    by_cases hid : loraId = l.loraIntId
    · subst hid
      rw [if_pos rfl]
      split_ifs with hr'
      · exact ⟨fun _ ↦ ⟨req, l, rfl, hl, rfl⟩,
          fun _ ↦ ⟨_, rfl, hr' ▸ mem_insert_self _ _⟩⟩
      · rw [← hold]
        rcases ids l.loraIntId with - | rs
        · simp [hr']
        · simp [hr']
    · rw [if_neg hid, hold]
      by_cases hr' : r' = r
      · subst hr'
        rw [if_pos rfl, hr]
        refine ⟨fun ⟨q, l', hq, _⟩ ↦ (some_ne_none q hq.symm).elim, ?_⟩
        rintro ⟨q, l', hq, hl', rfl⟩
        cases hq
        exact absurd (congrArg LoRARequest.loraIntId (some.inj (hl'.symm.trans hl))) hid
      · rw [if_neg hr']
  request loraId hne := by
    rw [update_apply] at hne ⊢
    by_cases hid : loraId = l.loraIntId
    · rw [if_pos hid]
      exact some_ne_none l
    · rw [if_neg hid] at hne ⊢
      exact h.request loraId hne

/-- The set of an adapter without one of its requests. -/
theorem LoraTables.mem_erase_iff {rs : Finset ℕ}
    (hr : reqs r = some req) (hl : req.loraRequest = some l) (hrs : ids l.loraIntId = some rs)
    (loraId r' : ℕ) :
    (∃ req l, update reqs r none r' = some req ∧ req.loraRequest = some l ∧ l.loraIntId = loraId) ↔
    if loraId = l.loraIntId then r' ∈ rs.erase r else ∃ rs, ids loraId = some rs ∧ r' ∈ rs := by
  rw [update_apply, h.mem_iff loraId r', mem_erase]
  by_cases hr' : r' = r
  · subst hr'
    rw [if_pos rfl]
    refine ⟨fun ⟨q, l', hq, _⟩ ↦ (some_ne_none q hq.symm).elim, fun hcases ↦ ?_⟩
    split_ifs at hcases with hid
    · exact absurd rfl hcases.1
    · obtain ⟨q, l', hq, hl', rfl⟩ := hcases
      cases hr.symm.trans hq
      exact absurd (congrArg LoRARequest.loraIntId (some.inj (hl'.symm.trans hl))) hid
  · rw [if_neg hr']
    by_cases hid : loraId = l.loraIntId
    · subst hid
      rw [← h.mem_iff]
      simp [hrs, hr']
    · rw [if_neg hid]

end

/-- **Removing a request from the LoRA dictionaries succeeds.** -/
theorem discardLora_spec
    (h : LoraTables s.loraIdToRequestIds s.loraIdToLoraRequest reqs) (hr : reqs r = some req)
    (hrow : (s.rows i).requestLoraMapping = req.loraId) :
    ∃ ids loras, s.discardLora r i =
        .ok { s with loraIdToRequestIds := ids, loraIdToLoraRequest := loras } ∧
      LoraTables ids loras (update reqs r none) := by
  rcases hl : req.loraRequest with - | l
  · have hid : (s.rows i).requestLoraMapping = 0 := by
      rw [hrow, loraId, hl]
      rfl
    refine ⟨s.loraIdToRequestIds, s.loraIdToLoraRequest, ?_, ?_⟩
    · rw [discardLora, if_pos hid]
    · exact h.update_of_none (fun q hq ↦ some.inj (hr.symm.trans hq) ▸ hl)
        fun q hq ↦ (some_ne_none q hq.symm).elim
  · have hid : (s.rows i).requestLoraMapping = l.loraIntId := by
      rw [hrow, loraId, hl]
      rfl
    obtain ⟨rs, hrs, -⟩ := (h.mem_iff l.loraIntId r).2 ⟨req, l, hr, hl, rfl⟩
    have hlora : s.loraIdToLoraRequest l.loraIntId ≠ none :=
      h.request l.loraIntId (hrs ▸ some_ne_none rs)
    have hiff := h.mem_erase_iff hr hl hrs
    by_cases hrest : (rs.erase r).Nonempty
    · refine ⟨update s.loraIdToRequestIds l.loraIntId (some (rs.erase r)),
        s.loraIdToLoraRequest, ?_, ⟨fun loraId r' ↦ ?_, fun loraId hne ↦ ?_⟩⟩
      · simp only [discardLora, hid, hrs, if_neg l.pos.ne', if_pos hrest]
      · rw [hiff, update_apply]
        split_ifs with hid'
        · simp
        · exact Iff.rfl
      · rw [update_apply] at hne
        split_ifs at hne with hid'
        · exact hid' ▸ hlora
        · exact h.request loraId hne
    · refine ⟨update s.loraIdToRequestIds l.loraIntId none,
        update s.loraIdToLoraRequest l.loraIntId none, ?_,
        ⟨fun loraId r' ↦ ?_, fun loraId hne ↦ ?_⟩⟩
      · simp only [discardLora, hid, hrs, if_neg l.pos.ne', if_neg hrest, if_neg hlora]
      · rw [hiff, update_apply]
        split_ifs with hid'
        · exact ⟨fun ⟨_, hnone, _⟩ ↦ hnone.elim, fun hmem ↦ absurd ⟨r', hmem⟩ hrest⟩
        · exact Iff.rfl
      · rw [update_apply] at hne ⊢
        split_ifs at hne ⊢ with hid'
        · exact absurd rfl hne
        · exact h.request loraId hne

end LoraTables

/-! ### Rows -/

/-- Row `i` has the lists and the buffers of a request. -/
structure InputBatch.HasRow (cfg : BatchConfig) (s : InputBatch) (i : ℕ) (e : LiveRequest) :
    Prop where
  output : s.reqOutputTokenIds[i]? = some (some e.req.outputTokenIds)
  spec : s.specTokenIds[i]? = some e.specTokenIds
  row : (s.rows i).Matches cfg e

variable {e : LiveRequest} {cfg : BatchConfig}

theorem InputBatch.HasRow.activeTokenCount (h : s.HasRow cfg i e) :
    s.activeTokenCount i = e.numActive := by
  rw [InputBatch.activeTokenCount, h.row.numTokensNoSpec, getD_eq_getElem?_getD, h.spec]
  rfl

section

variable (cfg : BatchConfig) (s : InputBatch) (live : List (ℕ × LiveRequest))

/-- The rows of the batch are those of its requests. -/
structure RowsTrack : Prop where
  nodup_index : (Dict.keys s.reqIdToIndex).Nodup
  nodup_live : (Dict.keys live).Nodup
  mem_keys : ∀ r, r ∈ Dict.keys s.reqIdToIndex ↔ r ∈ Dict.keys live
  inverse : ∀ r i, get? s.reqIdToIndex r = some i ↔ s.reqIds[i]? = some (some r)
  length_outputs : s.reqOutputTokenIds.length = s.reqIds.length
  length_specs : s.reqIds.length ≤ s.specTokenIds.length
  length_le : s.reqIds.length ≤ cfg.maxNumReqs
  hasRow : ∀ r i e, s.reqIds[i]? = some (some r) → get? live r = some e → s.HasRow cfg i e
  cleared : ∀ i, (∀ r, s.reqIds[i]? ≠ some (some r)) →
    (s.rows i).Cleared ∧ s.specTokenIds.getD i [] = []
  pooling : cfg.isPoolingModel = true → ∀ i, (s.rows i).Cleared
  recognized : ∀ r e, get? live r = some e → Recognized cfg e.req

/-- **The batch tracks its requests.** -/
structure Tracks : Prop where
  rows : RowsTrack cfg s live
  tables : IdTables cfg s (requestOf live)

end

variable {s' : InputBatch} {live live' : List (ℕ × LiveRequest)} {row : Row}

/-! ### Slots -/

/-- What the lists and the buffers contain at an index. -/
structure Slot where
  reqId : Option (Option ℕ)
  output : Option (Option (List ℤ))
  spec : Option (List ℤ)
  row : Row

/-- A slot with a request has its lists and its row; one without has no dictionary entries. -/
structure Slot.Tracks (cfg : BatchConfig) (live : List (ℕ × LiveRequest)) (x : Slot) : Prop where
  hasRow : ∀ r e, x.reqId = some (some r) → get? live r = some e →
    x.output = some (some e.req.outputTokenIds) ∧ x.spec = some e.specTokenIds ∧ x.row.Matches cfg e
  cleared : (∀ r, x.reqId ≠ some (some r)) → x.row.Cleared ∧ x.spec.getD [] = []
  pooling : cfg.isPoolingModel = true → x.row.Cleared

namespace Slot.Tracks

theorem gap (h : row.Cleared) (output : Option (Option (List ℤ))) :
    (⟨some none, output, some [], row⟩ : Slot).Tracks cfg live :=
  ⟨fun _ _ hr ↦ (some_ne_none _ (some.inj hr).symm).elim, fun _ ↦ ⟨h, rfl⟩, fun _ ↦ h⟩

theorem request (he : get? live r = some e) (hrow : row.Matches cfg e)
    (hpool : cfg.isPoolingModel = true → row.Cleared) :
    (⟨some (some r), some (some e.req.outputTokenIds), some e.specTokenIds, row⟩ : Slot).Tracks cfg
      live := by
  refine ⟨fun r' e' hr he' ↦ ?_, fun hnone ↦ absurd rfl (hnone r), hpool⟩
  obtain rfl := some.inj (some.inj hr)
  cases he.symm.trans he'
  exact ⟨rfl, rfl, hrow⟩

/-- Only the request of the slot matters. -/
theorem congr {x : Slot} (h : x.Tracks cfg live)
    (hlive : ∀ r, x.reqId = some (some r) → get? live' r = get? live r) : x.Tracks cfg live' :=
  ⟨fun r e hr he ↦ h.hasRow r e hr (hlive r hr ▸ he), h.cleared, h.pooling⟩

end Slot.Tracks

namespace InputBatch

def slot (s : InputBatch) (j : ℕ) : Slot :=
  ⟨s.reqIds[j]?, s.reqOutputTokenIds[j]?, s.specTokenIds[j]?, s.rows j⟩

/-- The batch with other contents at index `i`. -/
def setSlot (s : InputBatch) (i : ℕ) (reqId : Option ℕ) (output : Option (List ℤ))
    (spec : List ℤ) (row : Row) : InputBatch :=
  { s with
    reqIds := s.reqIds.set i reqId
    reqOutputTokenIds := s.reqOutputTokenIds.set i output
    specTokenIds := s.specTokenIds.set i spec
    rows := update s.rows i row }

/-- The index is within all lists. -/
def InRange (s : InputBatch) (i : ℕ) : Prop :=
  i < s.reqIds.length ∧ i < s.reqOutputTokenIds.length ∧ i < s.specTokenIds.length

variable {reqId : Option ℕ} {output : Option (List ℤ)} {spec : List ℤ}

theorem InRange.setSlot {j : ℕ} (h : s.InRange j) :
    (s.setSlot i reqId output spec row).InRange j := by
  simpa [InRange, InputBatch.setSlot] using h

theorem slot_setSlot (h : s.InRange i) (j : ℕ) : (s.setSlot i reqId output spec row).slot j =
    if j = i then ⟨some reqId, some output, some spec, row⟩ else s.slot j := by
  rw [slot, setSlot]
  simp only [getElem?_set, update_apply, eq_comm, if_pos h.1, if_pos h.2.1, if_pos h.2.2]
  split_ifs
  · rfl
  · rfl

end InputBatch

/-- A row is a gap or has a request. -/
theorem exists_request_of_ne {ids : List (Option ℕ)} (hi : i < ids.length)
    (h : ids[i]? ≠ some none) : ∃ r, ids[i]? = some (some r) := by
  rw [getElem?_eq_getElem hi] at h ⊢
  obtain ⟨r, hr⟩ := ne_none_iff_exists'.1 fun hnone ↦ h (congrArg some hnone)
  exact ⟨r, congrArg some hr⟩

namespace RowsTrack

section

variable (h : RowsTrack cfg s live)

include h

/-- The other fields of the batch do not matter. -/
theorem congr (hids : s'.reqIds = s.reqIds) (hindex : s'.reqIdToIndex = s.reqIdToIndex)
    (houts : s'.reqOutputTokenIds = s.reqOutputTokenIds) (hspecs : s'.specTokenIds = s.specTokenIds)
    (hrows : s'.rows = s.rows) : RowsTrack cfg s' live := by
  obtain ⟨⟩ := s
  subst hids hindex houts hspecs hrows
  exact { h with hasRow := fun r i e hi he ↦ { h.hasRow r i e hi he with } }

/-- As many rows as requests. -/
theorem numReqs_eq : s.numReqs = live.length := by
  have hperm := (perm_ext_iff_of_nodup h.nodup_index h.nodup_live).2 h.mem_keys
  simpa [Dict.keys, numReqs] using hperm.length_eq

theorem exists_live (hi : s.reqIds[i]? = some (some r)) : ∃ e, get? live r = some e :=
  mem_keys_iff.1 ((h.mem_keys r).1 (mem_keys_iff.2 ⟨i, (h.inverse r i).2 hi⟩))

theorem exists_row (he : get? live r = some e) : ∃ i : ℕ, s.reqIds[i]? = some (some r) := by
  obtain ⟨i, hi⟩ := mem_keys_iff.1 ((h.mem_keys r).2 (mem_keys_iff.2 ⟨e, he⟩))
  exact ⟨i, (h.inverse r i).1 hi⟩

/-- A request has one row. -/
theorem row_unique {j : ℕ} (hi : s.reqIds[i]? = some (some r)) (hj : s.reqIds[j]? = some (some r)) :
    i = j :=
  some.inj (((h.inverse r i).2 hi).symm.trans ((h.inverse r j).2 hj))

/-- The rows with a request are as many as the requests. -/
theorem numReqs_eq_of_gaps {n : ℕ} (hn : n ≤ s.reqIds.length)
    (hgaps : ∀ i < s.reqIds.length, s.reqIds[i]? = some none ↔ n ≤ i) : s.numReqs = n := by
  have hrow : ∀ i < n, ∃ r, s.reqIds[i]? = some (some r) := by
    intro i hi
    have hlt := hi.trans_le hn
    exact exists_request_of_ne hlt fun hnone ↦ Nat.not_le_of_lt hi ((hgaps i hlt).1 hnone)
  have hperm : ((Dict.keys s.reqIdToIndex).map fun r ↦ some (some r)).Perm
      ((List.range n).map (s.reqIds[·]?)) := by
    refine (perm_ext_iff_of_nodup (h.nodup_index.map fun r r' hr ↦ some.inj (some.inj hr))
      (nodup_range.map_on fun i hi j _ hij ↦ ?_)).2 fun x ↦ ?_
    · obtain ⟨r, hr⟩ := hrow i (List.mem_range.1 hi)
      exact h.row_unique hr (hij ▸ hr)
    · simp only [List.mem_map, List.mem_range, mem_keys_iff, h.inverse]
      constructor
      · rintro ⟨r, ⟨i, hi⟩, rfl⟩
        have hlt := (List.getElem?_eq_some_iff.1 hi).1
        refine ⟨i, Nat.lt_of_not_le fun hle ↦ ?_, hi⟩
        cases hi.symm.trans ((hgaps i hlt).2 hle)
      · rintro ⟨i, hi, rfl⟩
        obtain ⟨r, hr⟩ := hrow i hi
        exact ⟨r, ⟨i, hr⟩, hr.symm⟩
  simpa [Dict.keys, numReqs] using hperm.length_eq

theorem slot (j : ℕ) : (s.slot j).Tracks cfg live where
  hasRow r e hr he := ⟨(h.hasRow r j e hr he).output, (h.hasRow r j e hr he).spec,
    (h.hasRow r j e hr he).row⟩
  cleared hj := by
    exact h.cleared j hj
  pooling hpool := h.pooling hpool j

theorem inRange {x : Option ℕ} (hi : s.reqIds[i]? = some x) : s.InRange i := by
  have hlen := (List.getElem?_eq_some_iff.1 hi).1
  exact ⟨hlen, h.length_outputs ▸ hlen, hlen.trans_le h.length_specs⟩

/-- **A batch of the same size tracks its requests slot by slot.** -/
theorem of_slots (hids : s'.reqIds.length = s.reqIds.length)
    (houts : s'.reqOutputTokenIds.length = s.reqOutputTokenIds.length)
    (hspecs : s'.specTokenIds.length = s.specTokenIds.length)
    (hindex : (Dict.keys s'.reqIdToIndex).Nodup) (hlive : (Dict.keys live').Nodup)
    (hmem : ∀ r, r ∈ Dict.keys s'.reqIdToIndex ↔ r ∈ Dict.keys live')
    (hinverse : ∀ r i, get? s'.reqIdToIndex r = some i ↔ s'.reqIds[i]? = some (some r))
    (hslots : ∀ j, (s'.slot j).Tracks cfg live')
    (hrec : ∀ r e, get? live' r = some e → Recognized cfg e.req) : RowsTrack cfg s' live' where
  nodup_index := hindex
  nodup_live := hlive
  mem_keys := hmem
  inverse := hinverse
  length_outputs := houts.trans (h.length_outputs.trans hids.symm)
  length_specs := by
    rw [hids, hspecs]
    exact h.length_specs
  length_le := hids.trans_le h.length_le
  hasRow r i e hi he := by
    obtain ⟨houtput, hspec, hrow⟩ := (hslots i).hasRow r e hi he
    exact ⟨houtput, hspec, hrow⟩
  cleared i hi := by
    exact (hslots i).cleared hi
  pooling hpool i := (hslots i).pooling hpool
  recognized := hrec

section Swap

variable {j : ℕ}

/-- **Two rows exchanged**, in the lists and in the index. -/
theorem of_swap (hids : ∀ k, s'.reqIds[k]? = s.reqIds[Equiv.swap i j k]?)
    (hindex : ∀ r, get? s'.reqIdToIndex r = (get? s.reqIdToIndex r).map (Equiv.swap i j))
    (hnodup : (Dict.keys s'.reqIdToIndex).Nodup) (hlen : s'.reqIds.length = s.reqIds.length)
    (houts : s'.reqOutputTokenIds.length = s.reqOutputTokenIds.length)
    (hspecs : s'.specTokenIds.length = s.specTokenIds.length)
    (hslots : ∀ k, (s'.slot k).Tracks cfg live) : RowsTrack cfg s' live := by
  refine h.of_slots hlen houts hspecs hnodup h.nodup_live (fun r ↦ ?_) (fun r k ↦ ?_) hslots
    h.recognized
  · simp [← h.mem_keys, mem_keys_iff, hindex]
  · simp [hids, hindex, ← h.inverse, map_eq_some_iff, Equiv.swap_apply_eq_iff]

/-- The other requests stay where they are. -/
theorem map_swap_of_ne {x y : Option ℕ} (hi : s.reqIds[i]? = some x) (hj : s.reqIds[j]? = some y)
    (hx : x ≠ some r) (hy : y ≠ some r) :
    (get? s.reqIdToIndex r).map (Equiv.swap i j) = get? s.reqIdToIndex r := by
  rcases hidx : get? s.reqIdToIndex r with - | k
  · rfl
  have hk := (h.inverse r k).1 hidx
  rw [map_some, Equiv.swap_apply_of_ne_of_ne]
  · rintro rfl
    exact hx (some.inj (hi.symm.trans hk))
  · rintro rfl
    exact hy (some.inj (hj.symm.trans hk))

end Swap

/-- The row of a removed request is a gap. -/
theorem remove (hi : s.reqIds[i]? = some (some r)) :
    RowsTrack cfg { s with
      reqIdToIndex := pop s.reqIdToIndex r
      reqIds := s.reqIds.set i none
      reqOutputTokenIds := s.reqOutputTokenIds.set i none
      specTokenIds := s.specTokenIds.set i []
      rows := update s.rows i ((s.rows i).remove cfg) } (pop live r) := by
  have hrange := h.inRange hi
  -- a row that still has a request is another row, and has it as before
  have hother : ∀ {r' j : ℕ}, j ≠ i → s.reqIds[j]? = some (some r') → r ≠ r' := by
    rintro r' j hji hj rfl
    exact hji (h.row_unique hj hi)
  refine h.of_slots length_set length_set length_set
    (nodup_keys_pop h.nodup_index) (nodup_keys_pop h.nodup_live) (fun r' ↦ ?_)
    (fun r' j ↦ ?_) (fun j ↦ ?_) (fun r' e he ↦ ?_)
  · rw [mem_keys_pop, mem_keys_pop, h.mem_keys]
  · rw [get?_pop, getElem?_set]
    by_cases hij : i = j
    · subst hij
      rw [if_pos rfl, if_pos hrange.1]
      refine ⟨fun hj ↦ ?_, nofun⟩
      split_ifs at hj with hr
      exact absurd (some.inj (some.inj (hi.symm.trans ((h.inverse r' i).1 hj)))) hr
    · rw [if_neg hij, ← h.inverse]
      refine ⟨fun hj ↦ ?_, fun hj ↦ ?_⟩
      · split_ifs at hj
        exact hj
      · rw [if_neg (hother (Ne.symm hij) ((h.inverse r' j).1 hj))]
        exact hj
  · refine (slot_setSlot hrange j).symm ▸ ?_
    split_ifs with hji
    · exact .gap (Row.Cleared.remove fun hpool ↦ h.pooling hpool i) _
    · refine (h.slot j).congr fun r' hj ↦ ?_
      rw [get?_pop, if_neg (hother hji hj)]
  · rw [get?_pop] at he
    split_ifs at he with hr
    exact h.recognized r' e he

/-- New draft tokens in the row of a request. -/
theorem setSpec (specTokenIds : List ℤ) (hi : s.reqIds[i]? = some (some r))
    (he : get? live r = some e) (hrow : row.Matches cfg { e with specTokenIds := specTokenIds })
    (hpool : cfg.isPoolingModel = true → row.Cleared) :
    RowsTrack cfg { s with
      rows := update s.rows i row
      specTokenIds := s.specTokenIds.set i specTokenIds }
      (Dict.set live r { e with specTokenIds := specTokenIds }) := by
  obtain ⟨-, -, hlen⟩ := h.inRange hi
  have hmem : r ∈ Dict.keys live := mem_keys_iff.2 ⟨e, he⟩
  refine h.of_slots rfl rfl length_set h.nodup_index (nodup_keys_set h.nodup_live)
    (fun r' ↦ ?_) h.inverse (fun j ↦ ?_) (fun r' e' he' ↦ ?_)
  · rw [mem_keys_set, h.mem_keys]
    exact ⟨.inr, fun hr ↦ hr.elim (· ▸ hmem) id⟩
  · unfold InputBatch.slot
    dsimp only
    by_cases hji : j = i
    · rw [hji, hi, (h.hasRow r i e hi he).output, getElem?_set_self hlen, update_self]
      refine .request ?_ hrow hpool
      rw [get?_set, if_pos rfl]
    · rw [getElem?_set_ne (Ne.symm hji), update_of_ne hji]
      refine (h.slot j).congr fun r' hj ↦ ?_
      have hr : r ≠ r' := by
        rintro rfl
        exact hji (h.row_unique hj hi)
      rw [get?_set, if_neg hr]
  · rw [get?_set] at he'
    split_ifs at he' with hr
    · cases he'
      exact h.recognized r e he
    · exact h.recognized r' e' he'

/-- The last request moves into a gap, and its row becomes one. -/
theorem moveDown {last empty : ℕ} (rest : List ℕ) (hlast : s.reqIds[last]? = some (some r))
    (hempty : s.reqIds[empty]? = some none) :
    ∃ s', s.moveDown cfg last empty rest = .ok s' ∧ RowsTrack cfg s' live ∧
      s'.reqIds = (s.reqIds.set empty (some r)).set last none ∧
      s'.allowedTokenIdsMask = (if cfg.isPoolingModel then s.allowedTokenIdsMask
        else s.allowedTokenIdsMask.map fun m ↦ update m empty (m last)) ∧
      ∀ reqs, IdTables cfg s reqs → IdTables cfg s' reqs := by
  obtain ⟨e, he⟩ := h.exists_live hlast
  have hrow := h.hasRow r last e hlast he
  have hclear := h.cleared empty fun r' hr' ↦ by cases hempty.symm.trans hr'
  have hslots : ∀ j, (s.movedDown cfg r last empty rest).slot j =
      if j = last then ⟨some none, some none, some [], (s.rows last).movedAway cfg⟩
      else if j = empty then ⟨some (some r), some (some e.req.outputTokenIds), some e.specTokenIds,
        (s.rows last).moveFrom cfg (s.activeTokenCount last) (s.rows empty)⟩
      else s.slot j := by
    intro j
    have hout : s.reqOutputTokenIds.getD last none = some e.req.outputTokenIds := by
      rw [getD_eq_getElem?_getD, hrow.output]
      rfl
    have hspec : s.specTokenIds.getD last [] = e.specTokenIds := by
      rw [getD_eq_getElem?_getD, hrow.spec]
      rfl
    rw [← slot_setSlot (h.inRange hempty), ← slot_setSlot (h.inRange hlast).setSlot, ← hout,
      ← hspec]
    rfl
  refine ⟨s.movedDown cfg r last empty rest, by rw [InputBatch.moveDown, hlast], ?_, rfl, rfl, ?_⟩
  · refine h.of_swap (Rows.getElem?_set_set hempty hlast) (fun r' ↦ ?_)
      (nodup_keys_set h.nodup_index) (by simp [movedDown]) (by simp [movedDown])
      (by simp [movedDown]) (fun j ↦ ?_)
    · show get? (Dict.set s.reqIdToIndex r empty) r' = _
      rw [get?_set]
      split_ifs with hr
      · rw [← hr, (h.inverse r last).2 hlast, map_some, Equiv.swap_apply_right]
      · exact (h.map_swap_of_ne hempty hlast (some_ne_none r').symm
          fun heq ↦ hr (some.inj heq)).symm
    · rw [hslots]
      split_ifs
      · exact .gap (Row.Cleared.movedAway fun hpool ↦ h.pooling hpool last) _
      · refine .request he
          (hrow.row.moveFrom hrow.activeTokenCount.ge (h.recognized r e he) hclear.1) fun hpool ↦ ?_
        simp only [Row.moveFrom, Row.copyFrom, if_pos hpool]
        exact h.pooling hpool empty
      · exact h.slot j
  · exact fun reqs ht ↦ { ht with mask := fun hp ↦ (if_pos hp).trans (ht.mask hp) }

/-- **A swap of two rows with requests.** -/
theorem swap {i₁ i₂ id₁ id₂ : ℕ} (h₁ : s.reqIds[i₁]? = some (some id₁))
    (h₂ : s.reqIds[i₂]? = some (some id₂)) :
    ∃ s', s.swapStates cfg i₁ i₂ = .ok s' ∧ RowsTrack cfg s' live ∧
      s'.reqIds.length = s.reqIds.length ∧
      (∀ k, s'.reqIds[k]? = s.reqIds[Equiv.swap i₁ i₂ k]?) ∧
      s'.allowedTokenIdsMask = (if cfg.isPoolingModel then s.allowedTokenIdsMask
        else s.allowedTokenIdsMask.map fun m ↦ Rows.assignViews m i₁ i₂) ∧
      ∀ reqs, IdTables cfg s reqs → IdTables cfg s' reqs := by
  have hidx₁ := (h.inverse id₁ i₁).2 h₁
  have hidx₂ := (h.inverse id₂ i₂).2 h₂
  obtain ⟨e₁, he₁⟩ := h.exists_live h₁
  obtain ⟨e₂, he₂⟩ := h.exists_live h₂
  have hrow₁ := h.hasRow id₁ i₁ e₁ h₁ he₁
  have hrow₂ := h.hasRow id₂ i₂ e₂ h₂ he₂
  have hids := Rows.getElem?_set_set h₁ h₂
  set n := max (s.activeTokenCount i₁) (s.activeTokenCount i₂) with hn
  have hactive₁ : e₁.numActive ≤ n := hrow₁.activeTokenCount ▸ le_max_left _ _
  have hactive₂ : e₂.numActive ≤ n := hrow₂.activeTokenCount ▸ le_max_right _ _
  have hslots : ∀ k, (s.exchanged cfg i₁ i₂ id₁ id₂ i₁ i₂).slot k =
      if k = i₂ then ⟨some (some id₁), some (some e₁.req.outputTokenIds), some e₁.specTokenIds,
        (s.rows i₁).swapFrom cfg n (s.rows i₂)⟩
      else if k = i₁ then ⟨some (some id₂), some (some e₂.req.outputTokenIds),
        some e₂.specTokenIds, (s.rows i₂).swapFrom cfg n (s.rows i₁)⟩
      else s.slot k := by
    intro k
    rw [← slot_setSlot (h.inRange h₁), ← slot_setSlot (h.inRange h₂).setSlot]
    simp only [exchanged, setSlot, InputBatch.slot, getD_eq_getElem?_getD,
      hrow₁.output, hrow₂.output, hrow₁.spec, hrow₂.spec, getD_some, hn]
  have hswap : s.swapStates cfg i₁ i₂ = .ok (s.exchanged cfg i₁ i₂ id₁ id₂ i₁ i₂) := by
    rw [swapStates, h₁, h₂]
    simp only [hidx₁, hidx₂]
  have hpooling {src dst : Row} (hdst : cfg.isPoolingModel = true → dst.Cleared)
      (hpool : cfg.isPoolingModel = true) : (src.swapFrom cfg n dst).Cleared := by
    simp only [Row.swapFrom, Row.copyFrom, if_pos hpool]
    exact hdst hpool
  refine ⟨_, hswap, ?_, ?_, hids, rfl, ?_⟩
  · refine h.of_swap hids (fun r' ↦ ?_) (nodup_keys_set (nodup_keys_set h.nodup_index))
      (by simp [exchanged]) (by simp [exchanged]) (by simp [exchanged]) (fun k ↦ ?_)
    · show get? (Dict.set (Dict.set s.reqIdToIndex id₁ i₂) id₂ i₁) r' = _
      rw [get?_set, get?_set]
      split_ifs with hr₂ hr₁
      · rw [← hr₂, hidx₂, map_some, Equiv.swap_apply_right]
      · rw [← hr₁, hidx₁, map_some, Equiv.swap_apply_left]
      · exact (h.map_swap_of_ne h₁ h₂ (fun heq ↦ hr₁ (some.inj heq))
          fun heq ↦ hr₂ (some.inj heq)).symm
    · rw [hslots]
      split_ifs
      · exact .request he₁ (hrow₁.row.swapFrom hactive₁ (h.recognized _ _ he₁) _)
          (hpooling (h.pooling · i₂))
      · exact .request he₂ (hrow₂.row.swapFrom hactive₂ (h.recognized _ _ he₂) _)
          (hpooling (h.pooling · i₁))
      · exact h.slot k
  · simp only [exchanged, length_set]
  · exact fun reqs ht ↦ { ht with mask := fun hp ↦ (if_pos hp).trans (ht.mask hp) }

end

/-! ### Adding -/

/-- Replacing an entry of a list, or appending one. -/
theorem getElem?_setOrAppend {α : Type} {l : List α} {n : ℕ} (hl : l.length = n) (hi : i ≤ n)
    (x : α) (j : ℕ) :
    (if i = n then l ++ [x] else l.set i x)[j]? = if j = i then some x else l[j]? := by
  subst hl
  by_cases hil : i = l.length
  · rw [if_pos hil, getElem?_append]
    by_cases hji : j = i
    · rw [if_pos hji, if_neg (by omega), hji, hil, Nat.sub_self]
      rfl
    · split_ifs with hj
      · rfl
      · rw [getElem?_eq_none (by simp; omega), getElem?_eq_none (by omega)]
  · rw [if_neg hil, getElem?_set]
    by_cases hji : j = i
    · rw [if_pos hji.symm, if_pos hji, if_pos (by omega)]
    · rw [if_neg (Ne.symm hji), if_neg hji]

/-- The draft tokens after a request is placed: none for it, and the others as they were. The list
may be longer than the list of rows, and is then empty from there on. -/
theorem specTokenIds_place (h : RowsTrack cfg s live) (req : CachedRequestState)
    (hi : i ≤ s.reqIds.length) (hfree : s.specTokenIds.getD i [] = []) :
    (s.place req i).specTokenIds[i]? = some [] ∧
    (∀ j x, j ≠ i → s.specTokenIds[j]? = some x → (s.place req i).specTokenIds[j]? = some x) ∧
    (∀ j, j ≠ i → (s.place req i).specTokenIds.getD j [] = s.specTokenIds.getD j []) ∧
    (s.place req i).reqIds.length ≤ (s.place req i).specTokenIds.length := by
  have hlen := h.length_specs
  simp only [place, getD_eq_getElem?_getD] at hfree ⊢
  split_ifs with hil
  · simp only [length_append, length_singleton]
    refine ⟨?_, fun j x _ hx ↦ ?_, fun j _ ↦ ?_, by omega⟩
    · rw [getElem?_append]
      split_ifs with hlt
      · rw [getElem?_eq_getElem hlt] at hfree ⊢
        exact congrArg some hfree
      · rw [show i - s.specTokenIds.length = 0 by omega]
        rfl
    · rw [getElem?_append_left (List.getElem?_eq_some_iff.1 hx).1]
      exact hx
    · rw [getElem?_append]
      split_ifs with hlt
      · rfl
      · rw [getElem?_eq_none (by omega : s.specTokenIds.length ≤ j)]
        rcases j - s.specTokenIds.length with - | k <;> rfl
  · simp only [length_set]
    refine ⟨?_, fun j x hj hx ↦ ?_, fun j hj ↦ ?_, hlen⟩
    · rw [getElem?_set, if_pos rfl, if_pos (by omega)]
    · rw [getElem?_set, if_neg (Ne.symm hj)]
      exact hx
    · rw [getElem?_set, if_neg (Ne.symm hj)]

/-- **A request enters a free row.** -/
theorem place (h : RowsTrack cfg s live) (hnew : get? live req.reqId = none)
    (hi : i ≤ s.reqIds.length) (hmax : i < cfg.maxNumReqs)
    (hfree : ∀ r, s.reqIds[i]? ≠ some (some r)) (hrec : Recognized cfg req)
    (hrow : row.Matches cfg ⟨req, []⟩) (hpool : cfg.isPoolingModel = true → row.Cleared) :
    RowsTrack cfg { s.place req i with rows := update s.rows i row }
      (Dict.set live req.reqId ⟨req, []⟩) := by
  have hids := getElem?_setOrAppend rfl hi (some req.reqId)
  have houts := getElem?_setOrAppend h.length_outputs hi (some req.outputTokenIds)
  obtain ⟨hspec, hspecs, hspecsD, hlenSpecs⟩ := h.specTokenIds_place req hi (h.cleared i hfree).2
  have hnoRow : ∀ j : ℕ, s.reqIds[j]? ≠ some (some req.reqId) := by
    intro j hj
    obtain ⟨e, he⟩ := h.exists_live hj
    cases hnew.symm.trans he
  refine ⟨nodup_keys_set h.nodup_index, nodup_keys_set h.nodup_live, fun r' ↦ ?_,
    fun r' j ↦ ?_, ?_, hlenSpecs, ?_, fun r' j e hj he ↦ ?_, fun j hj ↦ ?_, fun hp j ↦ ?_,
    fun r' e he ↦ ?_⟩
  · show r' ∈ Dict.keys (Dict.set s.reqIdToIndex req.reqId i) ↔ _
    rw [mem_keys_set, mem_keys_set, h.mem_keys]
  · show get? (Dict.set s.reqIdToIndex req.reqId i) r' = some j ↔
      (if i = s.reqIds.length then _ else _)[j]? = _
    rw [hids, get?_set]
    by_cases hr : req.reqId = r'
    · subst hr
      rw [if_pos rfl]
      by_cases hji : j = i
      · simp [hji]
      · rw [if_neg hji]
        exact ⟨fun hij ↦ absurd (some.inj hij).symm hji, fun hj ↦ absurd hj (hnoRow j)⟩
    · rw [if_neg hr, h.inverse]
      by_cases hji : j = i
      · subst hji
        rw [if_pos rfl]
        refine ⟨fun hj ↦ absurd hj (hfree r'), fun hj ↦ ?_⟩
        exact absurd (some.inj (some.inj hj)) hr
      · rw [if_neg hji]
  · show (if i = s.reqIds.length then s.reqOutputTokenIds ++ _ else _).length =
      (if i = s.reqIds.length then s.reqIds ++ _ else _).length
    split_ifs
    · simp [h.length_outputs]
    · simp [h.length_outputs]
  · show (if i = s.reqIds.length then s.reqIds ++ _ else _).length ≤ _
    split_ifs with hil
    · simp only [length_append, length_singleton]
      omega
    · rw [length_set]
      exact h.length_le
  · have hj' : (if j = i then some (some req.reqId) else s.reqIds[j]?) = some (some r') :=
      (hids j).symm.trans hj
    rw [get?_set] at he
    split_ifs at hj' with hji
    · rw [if_pos (some.inj (some.inj hj'))] at he
      cases he
      subst hji
      refine ⟨(houts j).trans (if_pos rfl), hspec, ?_⟩
      dsimp only
      rw [update_self]
      exact hrow
    · have hr : req.reqId ≠ r' := by
        rintro rfl
        exact hnoRow j hj'
      rw [if_neg hr] at he
      have hrow' := h.hasRow r' j e hj' he
      refine ⟨((houts j).trans (if_neg hji)).trans hrow'.output, hspecs j _ hji hrow'.spec, ?_⟩
      dsimp only
      rw [update_of_ne hji]
      exact hrow'.row
  · have hji : j ≠ i := by
      rintro rfl
      exact hj req.reqId ((hids j).trans (if_pos rfl))
    have hclear := h.cleared j fun r' hj' ↦ hj r' (((hids j).trans (if_neg hji)).trans hj')
    dsimp only
    rw [update_of_ne hji]
    exact ⟨hclear.1, (hspecsD j hji).trans hclear.2⟩
  · dsimp only
    rw [update_apply]
    split_ifs with hji
    · exact hpool hp
    · exact h.pooling hp j
  · rw [get?_set] at he
    split_ifs at he with hr
    · cases he
      exact hrec
    · exact h.recognized r' e he

end RowsTrack

/-! ### The tables of an added or removed request -/

namespace IdTables

variable (h : IdTables cfg s reqs)

include h

/-- A request without sampling parameters is in no table of theirs. -/
theorem of_no_sampling (hr : (reqs r).bind CachedRequestState.samplingParams = none) :
    (∀ k, r ∉ s.reqSets k) ∧ s.numLogprobs r = none ∧ s.logprobTokenIds r = none := by
  refine ⟨fun k hmem ↦ ?_, ?_, ?_⟩
  · obtain ⟨req, p, hreq, hp, -⟩ := (h.reqSets k r).1 hmem
    rw [hreq] at hr
    cases hp.symm.trans hr
  · rw [h.numLogprobs, ← bind_assoc, hr]
    rfl
  · rw [h.logprobTokenIds, ← bind_assoc, hr]
    rfl

/-- The tables for one request are written anew. -/
theorem update {x : Option CachedRequestState}
    (hsets : ∀ k r', r' ∈ s'.reqSets k ↔ if r' = r then
      ∃ req p, x = some req ∧ req.samplingParams = some p ∧ k.joins cfg p = true
      else r' ∈ s.reqSets k)
    (hlogprobs : s'.numLogprobs = Function.update s.numLogprobs r
      (x.bind fun req ↦ req.samplingParams.bind fun p ↦
        p.logprobs.map fun n ↦ if n = -1 then (cfg.vocabSize : ℤ) else n))
    (htokens : s'.logprobTokenIds = Function.update s.logprobTokenIds r
      (x.bind fun req ↦ req.samplingParams.bind SamplingParams.logprobTokenIds))
    (hpooling : s'.poolingParams = Function.update s.poolingParams r
      (x.bind fun req ↦ if req.samplingParams.isSome then none else req.poolingParams))
    (hlora : LoraTables s'.loraIdToRequestIds s'.loraIdToLoraRequest (Function.update reqs r x))
    (hmask : cfg.isPoolingModel = true → s'.allowedTokenIdsMask = s.allowedTokenIdsMask) :
    IdTables cfg s' (Function.update reqs r x) := by
  refine ⟨fun k r' ↦ ?_, fun r' ↦ ?_, fun r' ↦ ?_, fun r' ↦ ?_, hlora,
    fun hp ↦ (hmask hp).trans (h.mask hp)⟩
  · rw [hsets, update_apply]
    split_ifs
    · rfl
    · exact h.reqSets k r'
  · rw [hlogprobs, update_apply, update_apply, h.numLogprobs]
    split_ifs <;> rfl
  · rw [htokens, update_apply, update_apply, h.logprobTokenIds]
    split_ifs <;> rfl
  · rw [hpooling, update_apply, update_apply, h.poolingParams]
    split_ifs <;> rfl

end IdTables

end OneCatVllm.Batch
