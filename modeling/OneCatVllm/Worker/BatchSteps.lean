import OneCatVllm.Lib.Fallible
import OneCatVllm.Worker.BatchTracks

/-!
# The operations of the batch

Every operation of the persistent batch succeeds on the calls that the model runner makes, and keeps
`Tracks`. Before `condense` the gaps of the batch are exactly the removed indices (`Gaps`); after it
there are none (`Dense`). What each operation does to the mask of allowed tokens is stated beside
it.
-/

namespace OneCatVllm.Batch

open Dict Function InputBatch List Nat Option Rows

variable {cfg : BatchConfig} {s s' : InputBatch} {live : List (ℕ × LiveRequest)} {r i : ℕ}
  {f : (ℕ → ℕ → Bool) → ℕ → ℕ → Bool} {α : Type}

/-- The gaps of the batch are the removed indices. -/
structure Gaps (s : InputBatch) : Prop where
  nodup : s.removed.Nodup
  mem_iff : ∀ i, i ∈ s.removed ↔ s.reqIds[i]? = some none
  length : s.reqIds.length = s.numReqs + s.removed.length
  sorted : s.isRemovedSorted = true → s.removed.Pairwise (· ≥ ·)

/-- The batch has no gaps. -/
structure Dense (s : InputBatch) : Prop where
  length : s.reqIds.length = s.numReqs
  ne_none : ∀ i : ℕ, s.reqIds[i]? ≠ some none

theorem Dense.exists_request (h : Dense s) (hi : i < s.numReqs) :
    ∃ r, s.reqIds[i]? = some (some r) :=
  exists_request_of_ne (h.length ▸ hi) (h.ne_none i)

/-- The requests of `s'` come from rows of `s`, with the masks they had there. -/
def Carries (s s' : InputBatch) : Prop :=
  ∀ r j, s'.reqIds[j]? = some (some r) →
    ∃ i : ℕ, s.reqIds[i]? = some (some r) ∧ ∀ v, s'.maskRow j v = s.maskRow i v

theorem Carries.refl (s : InputBatch) : Carries s s := fun _ j hj ↦ ⟨j, hj, fun _ ↦ rfl⟩

theorem Carries.trans {s'' : InputBatch} (h : Carries s s') (h' : Carries s' s'') :
    Carries s s'' := by
  intro r k hk
  obtain ⟨j, hj, hv⟩ := h' r k hk
  obtain ⟨i, hi, hw⟩ := h r j hj
  exact ⟨i, hi, fun v ↦ (hv v).trans (hw v)⟩

/-- A row of a mask after a change of all its rows. -/
theorem maskRow_map {j v : ℕ} (h : s'.allowedTokenIdsMask = s.allowedTokenIdsMask.map f)
    (hf : ∀ m, f m j v = m i v) : s'.maskRow j v = s.maskRow i v := by
  unfold maskRow
  rw [h]
  rcases s.allowedTokenIdsMask with - | m
  · rfl
  · exact hf m

theorem maskRow_congr (h : s'.allowedTokenIdsMask = s.allowedTokenIdsMask) (j v : ℕ) :
    s'.maskRow j v = s.maskRow j v := by
  unfold maskRow
  rw [h]

/-- A pooling model has no mask to change. -/
theorem mask_eq_map (hpool : cfg.isPoolingModel = true → s.allowedTokenIdsMask = none)
    (h : s'.allowedTokenIdsMask =
      if cfg.isPoolingModel then s.allowedTokenIdsMask else s.allowedTokenIdsMask.map f) :
    s'.allowedTokenIdsMask = s.allowedTokenIdsMask.map f := by
  rw [h]
  split_ifs with hp
  · rw [hpool hp]
    rfl
  · rfl

/-- A dictionary without the request. -/
theorem eq_update_none {d : ℕ → Option α} (h : d r = none) : d = update d r none :=
  (update_eq_self_iff.2 h.symm).symm

/-! ### Removing -/

theorem length_pop {d : List (ℕ × α)} {v : α} (h : (Dict.keys d).Nodup)
    (hv : get? d r = some v) : (pop d r).length + 1 = d.length := by
  have hperm := perm_cons_pop h hv
  rw [hperm.length_eq, length_cons]

/-- **`remove_request`** of a request in the batch. -/
theorem Tracks.removeRequest (h : Tracks cfg s live) (hgaps : Gaps s)
    (hsorted : s.isRemovedSorted = false) (r : ℕ) :
    ∃ s', s.removeRequest cfg r = .ok s' ∧ Tracks cfg s' (pop live r) ∧ Gaps s' ∧
      s'.isRemovedSorted = false ∧ Carries s s' := by
  rcases hidx : get? s.reqIdToIndex r with - | i
  · have hlive : r ∉ Dict.keys live := fun hmem ↦
      get?_eq_none_iff.1 hidx ((h.rows.mem_keys r).2 hmem)
    refine ⟨s, by rw [InputBatch.removeRequest, hidx], ?_, hgaps, hsorted, .refl s⟩
    rw [pop_eq_self hlive]
    exact h
  · have hi := (h.rows.inverse r i).1 hidx
    obtain ⟨e, he⟩ := h.rows.exists_live hi
    have hrow := h.rows.hasRow r i e hi he
    have hreq : requestOf live r = some e.req := by
      rw [requestOf, he]
      rfl
    obtain ⟨ids, loras, hdiscard, hlora⟩ :=
      discardLora_spec h.tables.lora hreq hrow.row.requestLoraMapping
    have hrows := h.rows.remove hi
    have hlen : i < s.reqIds.length := (List.getElem?_eq_some_iff.1 hi).1
    have hgaps' : Gaps { s with
        removed := s.removed ++ [i]
        reqIds := s.reqIds.set i none
        reqIdToIndex := pop s.reqIdToIndex r } := by
      have hnotMem : i ∉ s.removed := by
        intro hmem
        cases hi.symm.trans ((hgaps.mem_iff i).1 hmem)
      refine ⟨?_, fun j ↦ ?_, ?_, fun hs ↦ by cases hsorted.symm.trans hs⟩
      · rw [← concat_eq_append]
        exact hgaps.nodup.concat hnotMem
      · rw [mem_append, mem_singleton, hgaps.mem_iff, getElem?_set]
        by_cases hij : i = j
        · subst hij
          rw [if_pos rfl, if_pos hlen]
          exact ⟨fun _ ↦ rfl, fun _ ↦ .inr rfl⟩
        · rw [if_neg hij]
          exact or_iff_left (Ne.symm hij)
      · have hpop := length_pop h.rows.nodup_index hidx
        have hlength := hgaps.length
        rw [numReqs] at hlength
        show (s.reqIds.set i none).length = (pop s.reqIdToIndex r).length + _
        rw [length_set, length_append, length_singleton]
        omega
    have hother : ∀ {r' j : ℕ}, (s.reqIds.set i none)[j]? = some (some r') →
        j ≠ i ∧ s.reqIds[j]? = some (some r') := by
      intro r' j hj
      rw [getElem?_set] at hj
      split_ifs at hj with hij
      · cases hj
      · exact ⟨Ne.symm hij, hj⟩
    -- the state that `discardLora` leaves, without the row
    set s₁ := { s with loraIdToRequestIds := ids, loraIdToLoraRequest := loras } with hs₁
    have hremove : s.removeRequest cfg r = .ok ((s₁.withoutRow cfg r i).withoutParams cfg r i) := by
      rw [InputBatch.removeRequest, hidx]
      simp only [hsorted, hdiscard]
      rfl
    by_cases hpool : cfg.isPoolingModel = true
    · have hnone : e.req.samplingParams = none :=
        (h.rows.recognized r e he).samplingParams_eq_none hpool
      rw [withoutParams, if_pos hpool] at hremove
      refine ⟨_, hremove, ⟨hrows.congr rfl rfl rfl rfl rfl, ?_⟩, { hgaps' with }, hsorted,
        fun r' j hj ↦ ⟨j, (hother hj).2, fun _ ↦ rfl⟩⟩
      rw [requestOf_pop]
      obtain ⟨hsets, hlogprobs, htokens⟩ := h.tables.of_no_sampling (by rw [hreq]; exact hnone)
      refine h.tables.update (x := none) (fun k r' ↦ ?_) (eq_update_none hlogprobs)
        (eq_update_none htokens) rfl hlora fun _ ↦ rfl
      split_ifs with hr
      · rw [hr]
        exact iff_of_false (hsets k) (by simp)
      · exact Iff.rfl
    · obtain ⟨p, hp, -⟩ := (h.rows.recognized r e he).exists_samplingParams hpool
      rw [withoutParams, if_neg hpool] at hremove
      refine ⟨_, hremove, ⟨hrows.congr rfl rfl rfl rfl rfl, ?_⟩, { hgaps' with }, hsorted,
        fun r' j hj ↦ ⟨j, (hother hj).2, fun v ↦ ?_⟩⟩
      · rw [requestOf_pop]
        refine h.tables.update (x := none) (fun k r' ↦ ?_) rfl rfl ?_ hlora fun hp ↦ absurd hp hpool
        · show r' ∈ (s.reqSets k).erase r ↔ _
          rw [Finset.mem_erase]
          split_ifs with hr
          · exact iff_of_false (fun hmem ↦ hmem.1 hr) (by simp)
          · exact and_iff_right hr
        · refine eq_update_none (d := s.poolingParams) ?_
          rw [h.tables.poolingParams, hreq, bind_some, hp]
          rfl
      · have hji := (hother hj).1
        exact maskRow_map rfl fun m ↦ by rw [update_of_ne hji]

/-! ### Adding -/

/-- The row that the next added request takes. -/
def InputBatch.nextRow (s : InputBatch) : ℕ := s.sortedRemoved.getLast?.getD s.numReqs

theorem sortedRemoved_perm (s : InputBatch) : s.sortedRemoved.Perm s.removed := by
  rw [sortedRemoved]
  split_ifs
  · exact .refl _
  · exact perm_insertionSort _ _

theorem Gaps.pairwise_sortedRemoved (h : Gaps s) : s.sortedRemoved.Pairwise (· ≥ ·) := by
  rw [sortedRemoved]
  split_ifs with hsorted
  · exact h.sorted hsorted
  · exact pairwise_insertionSort _ _

/-- **The row of an added request is free**, and no longer a removed index. -/
theorem Gaps.registerAddRequest (h : Gaps s) (hroom : s.numReqs < cfg.maxNumReqs)
    (hle : s.reqIds.length ≤ cfg.maxNumReqs) :
    ∃ removed flag, s.registerAddRequest cfg =
        .ok (s.nextRow, { s with removed := removed, isRemovedSorted := flag }) ∧
      s.nextRow ≤ s.reqIds.length ∧ s.nextRow < cfg.maxNumReqs ∧
      (∀ r, s.reqIds[s.nextRow]? ≠ some (some r)) ∧ removed.Nodup ∧
      (∀ j, j ∈ removed ↔ s.reqIds[j]? = some none ∧ j ≠ s.nextRow) ∧
      (flag = true → removed.Pairwise (· ≥ ·)) ∧
      (if s.nextRow = s.reqIds.length then s.reqIds.length + 1 else s.reqIds.length) =
        s.numReqs + 1 + removed.length := by
  have hperm := sortedRemoved_perm s
  have hmem : ∀ j, j ∈ s.sortedRemoved ↔ s.reqIds[j]? = some none := fun j ↦
    hperm.mem_iff.trans (h.mem_iff j)
  have hlength := h.length
  rcases hlast : s.sortedRemoved.getLast? with - | i
  · have hnil : s.sortedRemoved = [] := getLast?_eq_none_iff.1 hlast
    have hrem : s.removed = [] := by
      rw [hnil] at hperm
      exact hperm.nil_eq.symm
    have hnext : s.nextRow = s.reqIds.length := by
      rw [nextRow, hlast, getD_none, hlength, hrem, length_nil, Nat.add_zero]
    refine ⟨s.removed, s.isRemovedSorted, ?_, hnext.le, ?_, fun r ↦ ?_, h.nodup, fun j ↦ ?_,
      h.sorted, ?_⟩
    · simp only [InputBatch.registerAddRequest, nextRow, hlast, getD_none, if_pos hroom]
    · rw [nextRow, hlast]
      exact hroom
    · rw [hnext, getElem?_eq_none (le_refl _)]
      exact (some_ne_none _).symm
    · rw [h.mem_iff, hnext]
      refine ⟨fun hj ↦ ⟨hj, ?_⟩, And.left⟩
      exact ((List.getElem?_eq_some_iff.1 hj).1).ne
    · rw [if_pos hnext, hlength, hrem]
      simp
  · have hsplit : s.sortedRemoved.dropLast ++ [i] = s.sortedRemoved :=
      dropLast_append_getLast? i hlast
    have hnext : s.nextRow = i := by
      rw [nextRow, hlast, getD_some]
    have hnodup : (s.sortedRemoved.dropLast ++ [i]).Nodup := by
      rw [hsplit]
      exact hperm.nodup_iff.2 h.nodup
    have hi : s.reqIds[i]? = some none := (hmem i).1 (hsplit ▸ mem_append_right _ (.head _))
    have hilen : i < s.reqIds.length := (List.getElem?_eq_some_iff.1 hi).1
    have hlenR : s.sortedRemoved.dropLast.length + 1 = s.removed.length := by
      rw [← hperm.length_eq, ← hsplit]
      simp
    refine ⟨s.sortedRemoved.dropLast, true, ?_, hnext ▸ hilen.le, hnext ▸ hilen.trans_le hle,
      fun r hr ↦ ?_, (nodup_append.1 hnodup).1, fun j ↦ ?_, fun _ ↦ ?_, ?_⟩
    · simp only [InputBatch.registerAddRequest, nextRow, hlast, getD_some,
        if_pos (hilen.trans_le hle)]
    · rw [hnext] at hr
      cases hi.symm.trans hr
    · rw [← hmem, hnext]
      constructor
      · intro hj
        refine ⟨hsplit ▸ mem_append_left _ hj, fun hji ↦ ?_⟩
        exact (nodup_append.1 hnodup).2.2 j hj i (.head _) hji
      · rintro ⟨hj, hji⟩
        rw [← hsplit, mem_append, mem_singleton] at hj
        exact hj.resolve_right hji
    · have hsorted := h.pairwise_sortedRemoved
      rw [← hsplit] at hsorted
      exact (pairwise_append.1 hsorted).1
    · rw [hnext, if_neg hilen.ne]
      omega

variable {req : CachedRequestState}

theorem addLora_spec {reqs : ℕ → Option CachedRequestState}
    (h : LoraTables s.loraIdToRequestIds s.loraIdToLoraRequest reqs)
    (hnew : reqs req.reqId = none) :
    ∃ ids loras, s.addLora req =
        { s with loraIdToRequestIds := ids, loraIdToLoraRequest := loras } ∧
      LoraTables ids loras (update reqs req.reqId (some req)) := by
  unfold addLora
  rcases hl : req.loraRequest with - | l
  · refine ⟨s.loraIdToRequestIds, s.loraIdToLoraRequest, rfl, h.update_of_none ?_ ?_⟩
    · intro q hq
      cases hnew.symm.trans hq
    · intro q hq
      rw [← some.inj hq]
      exact hl
  · exact ⟨_, _, rfl, h.add hnew hl⟩

/-- The mask after a request enters row `i`. -/
def addedMask (req : CachedRequestState) (i : ℕ) (mask : Option (ℕ → ℕ → Bool)) :
    Option (ℕ → ℕ → Bool) :=
  match req.samplingParams with
  | some p => addMask p i mask
  | none => mask

/-- A state with everything that `add_request` writes but the parameters. -/
def InputBatch.placed (cfg : BatchConfig) (s : InputBatch) (req : CachedRequestState) (i : ℕ) :
    InputBatch :=
  { s.place req i with rows := update s.rows i ((s.rows i).addTokens cfg req) }

theorem addParams_spec (h : RowsTrack cfg s live)
    (ht : IdTables cfg s (requestOf live)) (hnew : get? live req.reqId = none)
    (hi : i ≤ s.reqIds.length) (hmax : i < cfg.maxNumReqs)
    (hfree : ∀ r, s.reqIds[i]? ≠ some (some r)) (hrec : Recognized cfg req) :
    ∃ s', ((s.placed cfg req i).addParams cfg req i).map (fun s ↦ s.addLora req) = .ok s' ∧
      Tracks cfg s' (Dict.set live req.reqId ⟨req, []⟩) ∧
      s'.reqIds = (s.place req i).reqIds ∧ s'.removed = s.removed ∧
      s'.isRemovedSorted = s.isRemovedSorted ∧
      s'.allowedTokenIdsMask = addedMask req i s.allowedTokenIdsMask := by
  have hreq : requestOf live req.reqId = none := by
    rw [requestOf, hnew]
    rfl
  obtain ⟨hsets, hlogprobs, htokens⟩ := ht.of_no_sampling (by rw [hreq]; rfl)
  have hpooling : s.poolingParams req.reqId = none := by
    rw [ht.poolingParams, hreq]
    rfl
  have hclear := (h.cleared i hfree).1
  by_cases hpool : cfg.isPoolingModel = true
  · have hnone := hrec.samplingParams_eq_none hpool
    obtain ⟨q, hq⟩ : ∃ q, req.poolingParams = some q := by
      rw [Recognized, if_pos hpool] at hrec
      exact isSome_iff_exists.1 hrec.2
    obtain ⟨ids, loras, hlora, htables⟩ :=
      addLora_spec (s := (s.placed cfg req i).withPooling req i q) ht.lora hreq
    refine ⟨{ (s.placed cfg req i).withPooling req i q with
      loraIdToRequestIds := ids, loraIdToLoraRequest := loras }, ?_, ⟨?_, ?_⟩, rfl, rfl, rfl, ?_⟩
    · rw [addParams, hnone, hq, ← hlora]
      rfl
    · refine (h.place hnew hi hmax hfree hrec (Row.matches_addPooling hnone q) fun _ ↦ hclear).congr
        rfl rfl rfl rfl ?_
      show update (update s.rows i _) i ((update s.rows i _ i).addPooling q) = update s.rows i _
      rw [update_idem, update_self]
    · rw [requestOf_set]
      refine ht.update (x := some req) (fun k r' ↦ ?_) ?_ ?_ ?_ htables fun _ ↦ rfl
      · split_ifs with hr
        · rw [hr]
          exact iff_of_false (hsets k) (by simp [hnone])
        · exact Iff.rfl
      · rw [bind_some, hnone]
        exact eq_update_none hlogprobs
      · rw [bind_some, hnone]
        exact eq_update_none htokens
      · rw [bind_some, hnone, hq]
        rfl
    · rw [addedMask, hnone]
      rfl
  · obtain ⟨p, hp, hvocab⟩ := hrec.exists_samplingParams hpool
    obtain ⟨ids, loras, hlora, htables⟩ :=
      addLora_spec (s := (s.placed cfg req i).withSampling cfg req i p) ht.lora hreq
    refine ⟨{ (s.placed cfg req i).withSampling cfg req i p with
      loraIdToRequestIds := ids, loraIdToLoraRequest := loras }, ?_, ⟨?_, ?_⟩, rfl, rfl, rfl, ?_⟩
    · rw [addParams, hp, ← hlora]
      simp only [if_pos hvocab]
      rfl
    · refine (h.place hnew hi hmax hfree hrec (Row.matches_addSampling hclear hp)
        fun hp ↦ absurd hp hpool).congr rfl rfl rfl rfl ?_
      show update (update s.rows i _) i
        ((update s.rows i _ i).addSampling cfg p req.generator) = update s.rows i _
      rw [update_idem, update_self]
    · rw [requestOf_set]
      refine ht.update (x := some req) (fun k r' ↦ ?_) ?_ ?_ ?_ htables fun hp ↦ absurd hp hpool
      · show r' ∈ (if k.joins cfg p = true then insert req.reqId (s.reqSets k) else s.reqSets k) ↔ _
        by_cases hr : r' = req.reqId
        · by_cases hjoins : k.joins cfg p = true <;> simp [hr, hp, hjoins, hsets]
        · by_cases hjoins : k.joins cfg p = true <;> simp [hr, hjoins]
      · rw [bind_some, hp]
        dsimp only [withSampling, placed]
        rcases hn : p.logprobs with - | n
        · rw [bind_some, hn]
          exact eq_update_none hlogprobs
        · rw [bind_some, hn]
          rfl
      · rw [bind_some, hp]
        dsimp only [withSampling, placed]
        rcases hn : p.logprobTokenIds with - | n
        · rw [bind_some, hn]
          exact eq_update_none htokens
        · rw [bind_some, hn]
          rfl
      · rw [bind_some, hp]
        exact eq_update_none hpooling
    · rw [addedMask, hp]
      rfl

/-- **`add_request`** of a request that is not in the batch. -/
theorem Tracks.addRequest (h : Tracks cfg s live) (hgaps : Gaps s)
    (hnew : get? live req.reqId = none) (hroom : live.length < cfg.maxNumReqs)
    (hfits : Fits cfg req) (hrec : Recognized cfg req) :
    ∃ s', s.addRequest cfg req = .ok s' ∧ Tracks cfg s' (Dict.set live req.reqId ⟨req, []⟩) ∧
      Gaps s' ∧
      (∀ j, s'.reqIds[j]? = if j = s.nextRow then some (some req.reqId) else s.reqIds[j]?) ∧
      s'.allowedTokenIdsMask = addedMask req s.nextRow s.allowedTokenIdsMask := by
  obtain ⟨removed, flag, hregister, hle, hmax, hfree, hnodup, hmem, hsorted, hlength⟩ :=
    hgaps.registerAddRequest (h.rows.numReqs_eq ▸ hroom) h.rows.length_le
  set s₁ : InputBatch := { s with removed := removed, isRemovedSorted := flag } with hs₁
  have htables₁ : IdTables cfg s₁ (requestOf live) := { h.tables with }
  have hrows₁ : RowsTrack cfg s₁ live := h.rows.congr rfl rfl rfl rfl rfl
  obtain ⟨s', hs', htracks, hids, hremoved, hflag, hmask⟩ :=
    addParams_spec hrows₁ htables₁ hnew hle hmax hfree hrec
  have hrowIds : ∀ j, s'.reqIds[j]? =
      if j = s.nextRow then some (some req.reqId) else s.reqIds[j]? := by
    intro j
    rw [hids]
    exact RowsTrack.getElem?_setOrAppend rfl hle _ j
  refine ⟨s', ?_, htracks, ⟨?_, fun j ↦ ?_, ?_, ?_⟩, hrowIds, hmask⟩
  · have hadd : s.addRequest cfg req = (s₁.placed cfg req s.nextRow).addParams cfg req s.nextRow >>=
        fun s ↦ .ok (s.addLora req) := by
      rw [InputBatch.addRequest, hregister]
      exact if_pos hfits
    rw [hadd, ← hs']
    rcases (s₁.placed cfg req s.nextRow).addParams cfg req s.nextRow with - | - <;> rfl
  · rw [hremoved]
    exact hnodup
  · rw [hremoved, hrowIds, hmem]
    by_cases hj : j = s.nextRow
    · simp [hj]
    · rw [if_neg hj]
      exact and_iff_left hj
  · have hlen : s'.reqIds.length =
        if s.nextRow = s.reqIds.length then s.reqIds.length + 1 else s.reqIds.length := by
      rw [hids]
      show (if s.nextRow = s.reqIds.length then s.reqIds ++ _ else s.reqIds.set _ _).length = _
      split_ifs
      · exact length_append
      · exact length_set
    have hnum : s'.numReqs = s.numReqs + 1 := by
      rw [htracks.rows.numReqs_eq, h.rows.numReqs_eq]
      have hkeys : Dict.keys (Dict.set live req.reqId ⟨req, []⟩) =
          Dict.keys live ++ [req.reqId] := by
        rw [keys_set, if_neg (get?_eq_none_iff.1 hnew)]
      simpa [Dict.keys] using congrArg length hkeys
    rw [hlen, hlength, hnum, hremoved]
  · rw [hremoved, hflag]
    exact hsorted

/-! ### Condensing -/

/-- The rows that `usedRows` drops are gaps, and the last row it keeps is none. -/
theorem usedRows_spec (l : List ℕ) (n : ℕ) :
    usedRows l n ≤ n ∧ (∀ i, usedRows l n ≤ i → i < n → i ∈ l) ∧
    (0 < usedRows l n → usedRows l n - 1 ∉ l) := by
  induction n with
  | zero =>
    exact ⟨le_refl 0, fun i _ hi ↦ absurd hi (not_lt_zero i), fun h ↦ absurd h (lt_irrefl 0)⟩
  | succ n ih =>
    obtain ⟨hle, hdropped, hlast⟩ := ih
    rw [usedRows]
    split_ifs with hn
    · refine ⟨by omega, fun i hi hlt ↦ ?_, hlast⟩
      rcases Nat.lt_succ_iff_lt_or_eq.1 hlt with hlt | rfl
      · exact hdropped i hi hlt
      · exact hn
    · exact ⟨le_refl _, fun i hi hlt ↦ absurd hlt (Nat.not_lt_of_le hi), fun _ ↦ hn⟩

variable {n : ℕ}

/-- **The loop of `condense`.** The gaps below row `n` are the indices that are left; each move
fills the lowest of them, and in the end there is no gap below the number of requests. -/
theorem RowsTrack.condenseLoop {empties : List ℕ} (h : RowsTrack cfg s live)
    (hpool : cfg.isPoolingModel = true → s.allowedTokenIdsMask = none)
    (hsorted : empties.Pairwise (· < ·)) (hlt : ∀ i ∈ empties, i < s.reqIds.length)
    (hn : n ≤ s.reqIds.length)
    (hgaps : ∀ i < s.reqIds.length, s.reqIds[i]? = some none ↔ i ∈ empties ∨ n ≤ i) :
    ∃ s', condenseLoop cfg empties n s = .ok s' ∧ RowsTrack cfg s' live ∧
      s'.numReqs ≤ s'.reqIds.length ∧
      (∀ i < s'.reqIds.length, s'.reqIds[i]? = some none ↔ s'.numReqs ≤ i) ∧
      (∀ reqs, IdTables cfg s reqs → IdTables cfg s' reqs) ∧ Carries s s' := by
  induction empties generalizing n s with
  | nil =>
    have hgaps' : ∀ i < s.reqIds.length, s.reqIds[i]? = some none ↔ n ≤ i := by simpa using hgaps
    obtain rfl := h.numReqs_eq_of_gaps hn hgaps'
    exact ⟨s, rfl, h, hn, hgaps', fun _ ht ↦ ht, .refl s⟩
  | cons empty rest ih =>
    obtain ⟨hfirst, hrest⟩ := pairwise_cons.1 hsorted
    obtain ⟨hle, hdropped, hlast⟩ := usedRows_spec (empty :: rest) n
    set m := usedRows (empty :: rest) n
    -- the rows from `m` to `n` are gaps
    have hgaps' : ∀ i < s.reqIds.length, s.reqIds[i]? = some none ↔ i ∈ empty :: rest ∨ m ≤ i := by
      intro i hi
      rw [hgaps i hi]
      refine ⟨Or.imp_right hle.trans, fun h ↦ h.elim .inl fun hmi ↦ ?_⟩
      exact (lt_or_ge i n).imp_left (hdropped i hmi)
    have hm := hle.trans hn
    by_cases hstop : m ≤ empty + 1
    · -- the row below `m` has a request, so the lowest gap is not below `m`
      have hge : m ≤ empty := by
        by_contra hlt'
        have hlastMem := hlast (by omega)
        rw [show m - 1 = empty by omega] at hlastMem
        exact hlastMem (.head _)
      have hall : ∀ i ∈ empty :: rest, m ≤ i := by
        intro i hi
        rcases mem_cons.1 hi with rfl | hi
        · exact hge
        · exact hge.trans (hfirst i hi).le
      have hgapsm (i : ℕ) (hi : i < s.reqIds.length) : s.reqIds[i]? = some none ↔ m ≤ i :=
        (hgaps' i hi).trans (or_iff_right_of_imp (hall i))
      have hnum := h.numReqs_eq_of_gaps hm hgapsm
      rw [← hnum] at hm hgapsm
      exact ⟨s, if_pos hstop, h, hm, hgapsm, fun _ ht ↦ ht, .refl s⟩
    · have hlastLt : m - 1 < s.reqIds.length := by omega
      obtain ⟨r, hr⟩ : ∃ r, s.reqIds[m - 1]? = some (some r) := by
        refine exists_request_of_ne hlastLt fun hnone ↦ ?_
        rcases (hgaps' _ hlastLt).1 hnone with hmem | hge
        · exact hlast (by omega) hmem
        · omega
      have hemptyLt : empty < s.reqIds.length := hlt empty (.head _)
      obtain ⟨s₁, hs₁, hrows₁, hids₁, hmask₁, htables₁⟩ :=
        h.moveDown rest hr ((hgaps empty hemptyLt).2 (.inl (.head _)))
      have hlen₁ : s₁.reqIds.length = s.reqIds.length := by
        rw [hids₁, length_set, length_set]
      have hget (i : ℕ) : s₁.reqIds[i]? = if i = m - 1 then some none
          else if i = empty then some (some r) else s.reqIds[i]? := by
        rw [hids₁, getElem?_set, getElem?_set, length_set, if_pos hlastLt, if_pos hemptyLt]
        simp only [eq_comm]
      have hmask := mask_eq_map hpool hmask₁
      have hpool₁ : cfg.isPoolingModel = true → s₁.allowedTokenIdsMask = none := fun hp ↦
        hmask₁.trans ((if_pos hp).trans (hpool hp))
      have hcarries : Carries s s₁ := by
        intro r' j hj
        rw [hget] at hj
        split_ifs at hj with hjlast hjempty
        · cases hj
        · rw [← hj, hjempty]
          exact ⟨m - 1, hr, fun v ↦ maskRow_map hmask fun mask ↦ by rw [update_self]⟩
        · exact ⟨j, hj, fun v ↦ maskRow_map hmask fun mask ↦ by rw [update_of_ne hjempty]⟩
      have hgaps₁ : ∀ i < s₁.reqIds.length, s₁.reqIds[i]? = some none ↔ i ∈ rest ∨ m - 1 ≤ i := by
        intro i hi
        rw [hlen₁] at hi
        rw [hget]
        split_ifs with hilast hiempty
        · exact iff_of_true rfl (.inr hilast.ge)
        · refine iff_of_false nofun ?_
          rintro (hmem | hge)
          · exact lt_irrefl i (hiempty ▸ hfirst i hmem)
          · omega
        · rw [hgaps' i hi, mem_cons, or_iff_right hiempty]
          exact or_congr_right (by omega)
      obtain ⟨s', hs', hrows', hle', hgaps', htables', hcarries'⟩ :=
        ih hrows₁ hpool₁ hrest (fun i hi ↦ hlen₁ ▸ hlt i (.tail _ hi)) (by omega) hgaps₁
      refine ⟨s', ?_, hrows', hle', hgaps', fun reqs ht ↦ htables' reqs (htables₁ reqs ht),
        hcarries.trans hcarries'⟩
      refine (if_neg hstop).trans ?_
      rw [hs₁]
      exact hs'

/-- Trimming drops rows without a request. -/
theorem RowsTrack.trim (h : RowsTrack cfg s live)
    (hn : ∀ i r, n ≤ i → s.reqIds[i]? ≠ some (some r)) : RowsTrack cfg (s.trim n) live := by
  have htake : ∀ i r : ℕ, (s.reqIds.take n)[i]? = some (some r) ↔ s.reqIds[i]? = some (some r) := by
    intro i r
    rcases lt_or_ge i n with hi | hi
    · rw [getElem?_take_of_lt hi]
    · rw [getElem?_eq_none ((length_take_le n _).trans hi)]
      exact ⟨fun hnone ↦ (some_ne_none _ hnone.symm).elim, fun hr ↦ absurd hr (hn i r hi)⟩
  refine ⟨h.nodup_index, h.nodup_live, h.mem_keys, fun r i ↦ (h.inverse r i).trans (htake i r).symm,
    ?_, ?_, ?_, fun r i e hi he ↦ ?_, fun i hi ↦ ?_, h.pooling, h.recognized⟩
  · show (s.reqOutputTokenIds.take n).length = (s.reqIds.take n).length
    rw [length_take, length_take, h.length_outputs]
  · show (s.reqIds.take n).length ≤ (s.specTokenIds.take n).length
    rw [length_take, length_take]
    have hlen := h.length_specs
    omega
  · exact (length_take_le' n s.reqIds).trans h.length_le
  · have hi' := (htake i r).1 hi
    have hlt : i < n := Nat.lt_of_not_le fun hge ↦ hn i r hge hi'
    have hrow := h.hasRow r i e hi' he
    refine ⟨?_, ?_, hrow.row⟩
    · exact (getElem?_take_of_lt hlt).trans hrow.output
    · exact (getElem?_take_of_lt hlt).trans hrow.spec
  · have hclear := h.cleared i fun r hr ↦ hi r ((htake i r).2 hr)
    refine ⟨hclear.1, ?_⟩
    show (s.specTokenIds.take n).getD i [] = []
    rw [getD_eq_getElem?_getD] at hclear ⊢
    rcases lt_or_ge i n with hlt | hge
    · rw [getElem?_take_of_lt hlt]
      exact hclear.2
    · rw [getElem?_eq_none ((length_take_le n _).trans hge)]
      rfl

/-- **`condense`** leaves no gaps, and every request with its row. -/
theorem Tracks.condense (h : Tracks cfg s live) (hgaps : Gaps s) :
    ∃ s', s.condense cfg = .ok s' ∧ Tracks cfg s' live ∧ Dense s' ∧ Carries s s' := by
  have hperm := sortedRemoved_perm s
  set s₀ : InputBatch := { s with removed := s.sortedRemoved, isRemovedSorted := true } with hs₀
  have hrows₀ : RowsTrack cfg s₀ live := h.rows.congr rfl rfl rfl rfl rfl
  have htables₀ : IdTables cfg s₀ (requestOf live) := { h.tables with }
  have hmem : ∀ i, i ∈ s.sortedRemoved ↔ s.reqIds[i]? = some none := fun i ↦
    hperm.mem_iff.trans (hgaps.mem_iff i)
  have hlength : s.reqIds.length = s.numReqs + s.sortedRemoved.length := by
    rw [hperm.length_eq]
    exact hgaps.length
  by_cases hnil : s.sortedRemoved = []
  · refine ⟨s₀, ?_, ⟨hrows₀, htables₀⟩, ⟨?_, fun i hi ↦ ?_⟩, .refl s⟩
    · exact if_pos hnil
    · rw [hnil] at hlength
      exact hlength
    · have hmem' := (hmem i).2 hi
      rw [hnil] at hmem'
      cases hmem'
  · by_cases hzero : s.numReqs = 0
    · have hnone : ∀ i r, 0 ≤ i → s₀.reqIds[i]? ≠ some (some r) := by
        intro i r _ hr
        have hidx := (h.rows.inverse r i).2 hr
        rw [eq_nil_of_length_eq_zero hzero] at hidx
        cases hidx
      refine ⟨s₀.trim 0, ?_, ⟨hrows₀.trim hnone, { htables₀ with }⟩, ⟨?_, fun i hi ↦ ?_⟩,
        fun r j hj ↦ ?_⟩
      · exact (if_neg hnil).trans (if_pos hzero)
      · exact hzero.symm
      · cases hi
      · cases hj
    · have hasc : s.sortedRemoved.reverse.Pairwise (· < ·) := by
        rw [pairwise_reverse]
        exact (hgaps.pairwise_sortedRemoved.and (hperm.nodup_iff.2 hgaps.nodup)).imp
          fun ⟨hge, hne⟩ ↦ lt_of_le_of_ne hge (Ne.symm hne)
      have hlt : ∀ i ∈ s.sortedRemoved.reverse, i < s₀.reqIds.length := fun i hi ↦
        (List.getElem?_eq_some_iff.1 ((hmem i).1 (mem_reverse.1 hi))).1
      have hgaps₀ : ∀ i < s₀.reqIds.length, s₀.reqIds[i]? = some none ↔
          i ∈ s.sortedRemoved.reverse ∨ s.numReqs + s.sortedRemoved.length ≤ i := by
        intro i hi
        rw [mem_reverse, hmem]
        exact (or_iff_left (by rw [← hlength]; exact Nat.not_le_of_lt hi)).symm
      obtain ⟨s₁, hs₁, hrows₁, hle₁, hgaps₁, htables₁, hmasks₁⟩ :=
        hrows₀.condenseLoop htables₀.mask hasc hlt hlength.ge hgaps₀
      have hnum₁ : s₁.numReqs = s₀.numReqs := hrows₁.numReqs_eq.trans hrows₀.numReqs_eq.symm
      rw [hnum₁] at hle₁ hgaps₁
      have htrim : ∀ i r, s₀.numReqs ≤ i → s₁.reqIds[i]? ≠ some (some r) := by
        intro i r hi hr
        cases hr.symm.trans ((hgaps₁ i (List.getElem?_eq_some_iff.1 hr).1).2 hi)
      refine ⟨s₁.trim s₀.numReqs, ?_,
        ⟨hrows₁.trim htrim, { htables₁ _ htables₀ with }⟩, ⟨?_, fun i hi ↦ ?_⟩, fun r j hj ↦ ?_⟩
      · refine (if_neg hnil).trans ((if_neg hzero).trans ?_)
        exact Fallible.bind_eq_ok.2 ⟨s₁, hs₁, rfl⟩
      · show (s₁.reqIds.take s₀.numReqs).length = s₁.numReqs
        rw [length_take, hnum₁]
        exact min_eq_left hle₁
      · have hi' : (s₁.reqIds.take s₀.numReqs)[i]? = some none := hi
        have hilt : i < s₀.numReqs :=
          (List.getElem?_eq_some_iff.1 hi').1.trans_le (length_take_le _ _)
        rw [getElem?_take_of_lt hilt] at hi'
        exact Nat.not_le_of_lt hilt ((hgaps₁ i (List.getElem?_eq_some_iff.1 hi').1).1 hi')
      · have hj' : (s₁.reqIds.take s₀.numReqs)[j]? = some (some r) := hj
        have hjlt : j < s₀.numReqs :=
          (List.getElem?_eq_some_iff.1 hj').1.trans_le (length_take_le _ _)
        rw [getElem?_take_of_lt hjlt] at hj'
        exact hmasks₁ r j hj'

/-! ### Swapping and draft tokens -/

/-- **`swap_states`** of two rows of a batch without gaps. -/
theorem Tracks.swapStates (h : Tracks cfg s live) (hdense : Dense s) {i₁ i₂ : ℕ}
    (h₁ : i₁ < s.numReqs) (h₂ : i₂ < s.numReqs) :
    ∃ s', s.swapStates cfg i₁ i₂ = .ok s' ∧ Tracks cfg s' live ∧ Dense s' ∧
      (∀ k, s'.reqIds[k]? = s.reqIds[Equiv.swap i₁ i₂ k]?) ∧
      ∀ k v, s'.maskRow k v = if k = i₁ ∨ k = i₂ then s.maskRow i₂ v else s.maskRow k v := by
  obtain ⟨id₁, hid₁⟩ := hdense.exists_request h₁
  obtain ⟨id₂, hid₂⟩ := hdense.exists_request h₂
  obtain ⟨s', hs', hrows, hlen, hids, hmask, htables⟩ := h.rows.swap hid₁ hid₂
  have hnum : s'.numReqs = s.numReqs := by rw [hrows.numReqs_eq, h.rows.numReqs_eq]
  refine ⟨s', hs', ⟨hrows, htables _ h.tables⟩,
    ⟨by rw [hlen, hnum]; exact hdense.length, fun i ↦ hids i ▸ hdense.ne_none _⟩, hids,
    fun k v ↦ ?_⟩
  have hmap := mask_eq_map h.tables.mask hmask
  split_ifs with hk
  · exact maskRow_map hmap fun m ↦ by rw [assignViews_apply, if_pos hk]
  · exact maskRow_map hmap fun m ↦ by rw [assignViews_apply, if_neg hk]

/-- **`update_req_spec_token_ids`** of a request in the batch. -/
theorem Tracks.updateReqSpecTokenIds (h : Tracks cfg s live) {e : LiveRequest}
    (he : get? live r = some e) {specTokenIds : List ℤ}
    (hfits : e.req.numTokens + specTokenIds.length ≤ cfg.maxModelLen) :
    ∃ s', s.updateReqSpecTokenIds cfg r specTokenIds = .ok s' ∧
      Tracks cfg s' (Dict.set live r { e with specTokenIds := specTokenIds }) ∧
      s'.reqIds = s.reqIds ∧ (Gaps s → Gaps s') ∧
      s'.allowedTokenIdsMask = s.allowedTokenIdsMask := by
  obtain ⟨i, hi⟩ := h.rows.exists_row he
  have hrow := (h.rows.hasRow r i e hi he).row
  have hreqs :
      requestOf (Dict.set live r { e with specTokenIds := specTokenIds }) = requestOf live := by
    rw [requestOf_set]
    refine update_eq_self_iff.2 ?_
    rw [requestOf, he]
    rfl
  have hidx := (h.rows.inverse r i).2 hi
  by_cases hnil : specTokenIds = []
  · subst hnil
    refine ⟨{ s with specTokenIds := s.specTokenIds.set i [] }, ?_, ⟨?_, ?_⟩, rfl,
      fun hgaps ↦ { hgaps with }, rfl⟩
    · rw [InputBatch.updateReqSpecTokenIds, hidx]
      exact if_pos rfl
    · refine (h.rows.setSpec [] hi he hrow.clearSpec fun hp ↦ h.rows.pooling hp i).congr rfl rfl rfl
        rfl ?_
      exact (update_eq_self i s.rows).symm
    · rw [hreqs]
      exact { h.tables with }
  · refine ⟨{ s with
      rows := update s.rows i { s.rows i with
        tokenIdsCpu :=
          writeSlice (s.rows i).tokenIdsCpu (s.rows i).numTokensNoSpec specTokenIds
        isTokenIds := writeSlice (s.rows i).isTokenIds (s.rows i).numTokensNoSpec
          (replicate specTokenIds.length true) }
      specTokenIds := s.specTokenIds.set i specTokenIds }, ?_, ⟨?_, ?_⟩, rfl,
      fun hgaps ↦ { hgaps with }, rfl⟩
    · rw [InputBatch.updateReqSpecTokenIds, hidx]
      refine (if_neg hnil).trans (if_pos ?_)
      rw [hrow.numTokensNoSpec]
      exact hfits
    · exact h.rows.setSpec specTokenIds hi he (hrow.setSpec specTokenIds)
        fun hp ↦ h.rows.pooling hp i
    · rw [hreqs]
      exact { h.tables with }

end OneCatVllm.Batch
