import OneCatVllm.Eplb.Rebalance

/-!
# The rearrangement is exact

Senders and receivers of an expert are the ranks with an old copy, and the ranks with a new slot for
it and without an old copy; both sides divide the receivers in the same way, and both post their
messages by ascending experts. So **between any two ranks the experts sent are the experts received,
in the same order and each once** (`sentBetween_eq`), and every slot gets the weights of its expert:
it keeps them, has them from a slot of its own rank, receives them, or copies them from the slot of
its rank that received them.
-/

namespace OneCatVllm.Eplb

open Dispatch List

/-! ### Lists -/

theorem nodup_eraseDups {α : Type*} [DecidableEq α] : ∀ l : List α, l.eraseDups.Nodup
  | [] => nodup_nil
  | a :: l => by
    rw [eraseDups_cons, nodup_cons]
    refine ⟨fun hmem ↦ ?_, nodup_eraseDups _⟩
    have := (mem_filter.1 (mem_eraseDups.1 hmem)).2
    simp at this
termination_by l => l.length
decreasing_by exact Nat.lt_succ_of_le (length_filter_le _ l)

theorem mapM_eq_some_map {α β : Type*} {f : α → Option β} {g : α → β} :
    ∀ {l : List α}, (∀ a ∈ l, f a = some (g a)) → l.mapM f = some (l.map g)
  | [], _ => rfl
  | a :: l, h => by
    rw [mapM_cons, h a mem_cons_self, mapM_eq_some_map fun b hb ↦ h b (mem_cons_of_mem a hb)]
    rfl

/-- Lists with the same images in a pairing: what is paired has the same image, and everything is
paired. -/
theorem zip_of_map_eq {α β γ : Type*} {f : α → γ} {g : β → γ} :
    ∀ {l : List α} {l' : List β}, l.map f = l'.map g →
      (∀ p ∈ l.zip l', f p.1 = g p.2) ∧ ∀ a ∈ l, ∃ b, (a, b) ∈ l.zip l'
  | [], _, _ => ⟨fun p hp ↦ by simp at hp, fun a ha ↦ by simp at ha⟩
  | a :: l, [], h => by simp at h
  | a :: l, b :: l', h => by
    obtain ⟨hhead, htail⟩ := cons.inj h
    obtain ⟨hsame, hall⟩ := zip_of_map_eq htail
    refine ⟨fun p hp ↦ ?_, fun a' ha' ↦ ?_⟩
    · rcases mem_cons.1 hp with rfl | hp
      · exact hhead
      · exact hsame p hp
    · rcases mem_cons.1 ha' with rfl | ha'
      · exact ⟨b, mem_cons_self⟩
      · obtain ⟨b', hb'⟩ := hall a' ha'
        exact ⟨b', mem_cons_of_mem _ hb'⟩

namespace Layer

variable {l : Layer} {rank row src dst i : ℕ} {e : ℤ} {p : ℤ × ℕ}

@[simp] theorem mem_npUnique {ids : List ℤ} : e ∈ npUnique ids ↔ e ∈ ids := by
  rw [npUnique, mem_insertionSort, mem_dedup]

theorem sorted_npUnique (ids : List ℤ) : (npUnique ids).Pairwise (· < ·) := by
  have hle : (npUnique ids).Pairwise (· ≤ ·) := pairwise_insertionSort _ _
  have hnodup : (npUnique ids).Nodup :=
    (perm_insertionSort _ _).nodup_iff.2 (nodup_dedup ids)
  exact hle.imp₂ (fun _ _ hle hne ↦ lt_of_le_of_ne hle hne) hnodup

@[simp] theorem mem_rows : row ∈ l.rows ↔ row < l.numLocalExperts := mem_range

/-- The first row with a property, if there is one. -/
theorem findIdx_rows {p : ℕ → Bool} (h : ∃ i < l.numLocalExperts, p i = true) :
    l.rows.findIdx p < l.numLocalExperts ∧ p (l.rows.findIdx p) = true := by
  obtain ⟨i, hi, hp⟩ := h
  have hlt : l.rows.findIdx p < l.rows.length :=
    findIdx_lt_length_of_exists ⟨i, mem_rows.2 hi, hp⟩
  have hget := findIdx_getElem (w := hlt)
  have hrow : l.rows[l.rows.findIdx p] = l.rows.findIdx p := getElem_range hlt
  rw [hrow] at hget
  exact ⟨by simpa [rows] using hlt, hget⟩

/-! ### Ranks -/

/-- The ranks of an expert. -/
theorem mem_ranksWith {indices : List ℤ} (hlength : indices.length = l.epSize * l.numLocalExperts) :
    rank ∈ l.ranksWith indices e ↔
      rank < l.epSize ∧ ∃ row < l.numLocalExperts, l.entry indices rank row = e := by
  simp only [ranksWith, entry, mem_eraseDups, mem_map, mem_filter, mem_range,
    decide_eq_true_eq, hlength]
  constructor
  · rintro ⟨g, ⟨hg, hentry⟩, rfl⟩
    have hpos : 0 < l.numLocalExperts :=
      Nat.pos_of_mul_pos_left (lt_of_le_of_lt (Nat.zero_le g) hg)
    refine ⟨Nat.div_lt_of_lt_mul (mul_comm l.epSize _ ▸ hg), g % l.numLocalExperts,
      Nat.mod_lt g hpos, ?_⟩
    rwa [mul_comm, Nat.div_add_mod]
  · rintro ⟨hrank, row, hrow, hentry⟩
    have hpos : 0 < l.numLocalExperts := lt_of_le_of_lt (Nat.zero_le row) hrow
    refine ⟨rank * l.numLocalExperts + row, ⟨?_, hentry⟩, ?_⟩
    · calc rank * l.numLocalExperts + row
          < rank * l.numLocalExperts + l.numLocalExperts := Nat.add_lt_add_left hrow _
        _ = (rank + 1) * l.numLocalExperts := (Nat.succ_mul ..).symm
        _ ≤ l.epSize * l.numLocalExperts := Nat.mul_le_mul_right _ hrank
    · rw [mul_comm, Nat.mul_add_div hpos, Nat.div_eq_of_lt hrow, add_zero]

theorem mem_ranksToSend : rank ∈ l.ranksToSend e ↔
    rank < l.epSize ∧ ∃ row < l.numLocalExperts, l.oldLocal rank row = e :=
  mem_ranksWith l.length_old

theorem mem_ranksToRecv : rank ∈ l.ranksToRecv e ↔
    (rank < l.epSize ∧ ∃ row < l.numLocalExperts, l.newLocal rank row = e) ∧
      ∀ row < l.numLocalExperts, l.oldLocal rank row ≠ e := by
  rw [ranksToRecv, mem_filter, mem_ranksWith l.length_new, decide_eq_true_eq, mem_ranksToSend]
  refine and_congr_right fun ⟨hrank, _⟩ ↦ ?_
  simp [hrank]

theorem nodup_ranksToSend : (l.ranksToSend e).Nodup := nodup_eraseDups _

theorem nodup_ranksToRecv : (l.ranksToRecv e).Nodup := (nodup_eraseDups _).filter _

/-! ### Slots that are received -/

theorem needRecv_iff : l.needRecv rank row = true ↔
    l.newLocal rank row ≠ -1 ∧ l.oldLocal rank row ≠ l.newLocal rank row ∧
      ∀ j < l.numLocalExperts, l.oldLocal rank j ≠ l.newLocal rank row := by
  unfold needRecv isReceivedLocally isUnchanged
  simp only [Bool.and_eq_true, Bool.not_eq_true', Bool.or_eq_false_iff, decide_eq_false_iff_not,
    Bool.and_eq_false_iff, any_eq_false, mem_rows, decide_eq_true_eq, ne_eq, not_not]
  tauto

/-- The experts that a rank has. -/
theorem mem_sendMap_iff : (∃ i, (e, i) ∈ l.sendMap rank) ↔
    e ≠ -1 ∧ ∃ row < l.numLocalExperts, l.oldLocal rank row = e := by
  simp only [sendMap, mem_map, mem_npUnique, mem_filter, mem_rows, decide_eq_true_eq, Prod.mk.injEq]
  constructor
  · rintro ⟨i, e', ⟨row, ⟨hrow, hne⟩, rfl⟩, rfl, -⟩
    exact ⟨hne, row, hrow, rfl⟩
  · rintro ⟨hne, row, hrow, rfl⟩
    exact ⟨_, _, ⟨row, ⟨hrow, hne⟩, rfl⟩, rfl, rfl⟩

/-- The experts that a rank has to receive. -/
theorem mem_recvMap_iff (hrank : rank < l.epSize) : (∃ i, (e, i) ∈ l.recvMap rank) ↔
    e ≠ -1 ∧ rank ∈ l.ranksToRecv e := by
  simp only [recvMap, mem_map, mem_npUnique, mem_filter, mem_rows, Prod.mk.injEq, mem_ranksToRecv]
  constructor
  · rintro ⟨i, e', ⟨row, ⟨hrow, hneed⟩, rfl⟩, rfl, -⟩
    obtain ⟨hne, -, hold⟩ := needRecv_iff.1 hneed
    exact ⟨hne, ⟨hrank, row, hrow, rfl⟩, hold⟩
  · rintro ⟨hne, ⟨-, row, hrow, rfl⟩, hold⟩
    exact ⟨_, _, ⟨row, ⟨hrow, needRecv_iff.2 ⟨hne, hold row hrow, hold⟩⟩, rfl⟩, rfl, rfl⟩

/-- The slot from which an expert is sent holds it. -/
theorem oldLocal_of_mem_sendMap (h : (e, i) ∈ l.sendMap rank) :
    i < l.numLocalExperts ∧ l.oldLocal rank i = e ∧ e ≠ -1 := by
  obtain ⟨hne, hrow⟩ := mem_sendMap_iff.1 ⟨i, h⟩
  obtain ⟨e', -, heq⟩ := mem_map.1 h
  obtain ⟨rfl, rfl⟩ := Prod.mk.inj heq
  obtain ⟨hlt, hfirst⟩ := findIdx_rows (p := fun i ↦ decide (l.oldLocal rank i = e'))
    (by simpa using hrow)
  exact ⟨hlt, of_decide_eq_true hfirst, hne⟩

/-- The slot for which an expert is received needs it. -/
theorem newLocal_of_mem_recvMap (h : (e, i) ∈ l.recvMap rank) :
    i < l.numLocalExperts ∧ l.newLocal rank i = e ∧ l.needRecv rank i = true := by
  obtain ⟨e', hmem, heq⟩ := mem_map.1 h
  cases heq
  obtain ⟨row, hrow, rfl⟩ := mem_map.1 (mem_npUnique.1 hmem)
  obtain ⟨hrow, hneed⟩ := mem_filter.1 hrow
  obtain ⟨hlt, hfirst⟩ := findIdx_rows
    (p := fun i ↦ l.needRecv rank i && decide (l.newLocal rank i = l.newLocal rank row))
    ⟨row, mem_rows.1 hrow, by simp [hneed]⟩
  obtain ⟨hneed', hnew⟩ := Bool.and_eq_true_iff.1 hfirst
  exact ⟨hlt, of_decide_eq_true hnew, hneed'⟩

/-! ### Messages -/

/-- Every expert of the new assignment has a slot in the old one. -/
def Covered (l : Layer) : Prop := ∀ e ∈ l.newIndices, e ≠ -1 → e ∈ l.oldIndices

instance : Decidable l.Covered := inferInstanceAs (Decidable (∀ _ ∈ _, _))

theorem Covered.ranksToSend_ne_nil (h : l.Covered) (he : e ≠ -1) (hrecv : rank ∈ l.ranksToRecv e) :
    l.ranksToSend e ≠ [] := by
  obtain ⟨⟨-, row, -, hnew⟩, -⟩ := mem_ranksToRecv.1 hrecv
  have hmem : e ∈ l.newIndices := by
    rw [newLocal, entry, getD_eq_getElem?_getD] at hnew
    rcases hentry : l.newIndices[rank * l.numLocalExperts + row]? with - | e'
    · rw [hentry] at hnew
      exact absurd hnew.symm he
    · rw [hentry] at hnew
      exact hnew ▸ mem_of_getElem? hentry
  obtain ⟨g, hg, hentry⟩ := getElem_of_mem (h e hmem he)
  refine ne_nil_of_mem (a := g / l.numLocalExperts) ?_
  rw [ranksToSend, ranksWith, mem_eraseDups, mem_map]
  refine ⟨g, mem_filter.2 ⟨mem_range.2 hg, ?_⟩, rfl⟩
  rw [getD_eq_getElem?_getD, getElem?_eq_getElem hg, hentry, decide_eq_true_iff]
  rfl

/-- The sends of a rank. -/
theorem sendsOf_eq (hrank : rank < l.epSize) (hp : p ∈ l.sendMap rank) :
    l.sendsOf rank p = some ((targets (l.ranksToSend p.1) (l.ranksToRecv p.1) rank).map
      fun dst ↦ ⟨dst, p.1, p.2⟩) := by
  obtain ⟨hlt, hold, -⟩ := oldLocal_of_mem_sendMap hp
  have hmem : rank ∈ l.ranksToSend p.1 := mem_ranksToSend.2 ⟨hrank, p.2, hlt, hold⟩
  unfold sendsOf
  dsimp only
  split
  · rename_i hempty
    have hrecv := hempty.resolve_left (ne_nil_of_mem hmem)
    rw [hrecv]
    simp [targets]
  · rfl

/-- The receives of a rank. -/
theorem recvsOf_eq (hl : l.Covered) (hrank : rank < l.epSize) (hp : p ∈ l.recvMap rank) :
    ∃ src ∈ l.ranksToSend p.1,
      source (l.ranksToSend p.1) (l.ranksToRecv p.1) rank = some src ∧
      l.recvsOf rank p = some [⟨src, p.1, p.2⟩] := by
  obtain ⟨hne, hmem⟩ := (mem_recvMap_iff hrank).1 ⟨p.2, hp⟩
  have hsend := hl.ranksToSend_ne_nil hne hmem
  obtain ⟨src, hsrc, hsource⟩ := exists_source hsend hmem
  refine ⟨src, hsrc, hsource, ?_⟩
  rw [recvsOf, if_neg (by simp [hsend, ne_nil_of_mem hmem]), if_pos hmem, hsource]
  rfl

/-- The messages that a rank sends, by ascending experts. -/
def sends (l : Layer) (rank : ℕ) : List Send :=
  (l.sendMap rank).flatMap fun p ↦
    (targets (l.ranksToSend p.1) (l.ranksToRecv p.1) rank).map fun dst ↦ ⟨dst, p.1, p.2⟩

/-- The messages that a rank receives, by ascending experts. -/
def recvs (l : Layer) (rank : ℕ) : List Recv :=
  (l.recvMap rank).flatMap fun p ↦
    ((source (l.ranksToSend p.1) (l.ranksToRecv p.1) rank).map fun src ↦
      (⟨src, p.1, p.2⟩ : Recv)).toList

theorem postSends_eq (hrank : rank < l.epSize) : l.postSends rank = some (l.sends rank) := by
  rw [postSends, mapM_eq_some_map fun p hp ↦ sendsOf_eq hrank hp]
  rfl

theorem postRecvs_eq (hl : l.Covered) (hrank : rank < l.epSize) :
    l.postRecvs rank = some (l.recvs rank) := by
  have hall : ∀ p ∈ l.recvMap rank, l.recvsOf rank p =
      some ((source (l.ranksToSend p.1) (l.ranksToRecv p.1) rank).map fun src ↦
        (⟨src, p.1, p.2⟩ : Recv)).toList := by
    intro p hp
    obtain ⟨src, -, hsource, hrecvs⟩ := recvsOf_eq hl hrank hp
    rw [hrecvs, hsource]
    rfl
  rw [postRecvs, mapM_eq_some_map hall]
  rfl

theorem mem_sends {q : Send} : q ∈ l.sends rank ↔ (q.expert, q.srcRow) ∈ l.sendMap rank ∧
    q.dst ∈ targets (l.ranksToSend q.expert) (l.ranksToRecv q.expert) rank := by
  rw [sends, mem_flatMap]
  constructor
  · rintro ⟨p, hp, hq⟩
    obtain ⟨dst, hdst, rfl⟩ := mem_map.1 hq
    exact ⟨hp, hdst⟩
  · rintro ⟨hp, hdst⟩
    exact ⟨_, hp, mem_map.2 ⟨q.dst, hdst, rfl⟩⟩

theorem mem_recvs {q : Recv} : q ∈ l.recvs rank ↔ (q.expert, q.dstRow) ∈ l.recvMap rank ∧
    source (l.ranksToSend q.expert) (l.ranksToRecv q.expert) rank = some q.src := by
  rw [recvs, mem_flatMap]
  constructor
  · rintro ⟨p, hp, hq⟩
    rw [Option.mem_toList, Option.map_eq_some_iff] at hq
    obtain ⟨src, hsrc, rfl⟩ := hq
    exact ⟨hp, hsrc⟩
  · rintro ⟨hp, hsrc⟩
    refine ⟨_, hp, ?_⟩
    rw [Option.mem_toList, Option.map_eq_some_iff]
    exact ⟨q.src, hsrc, rfl⟩

/-- Messages by ascending experts: those to or from one rank, at most one for each expert, have
ascending experts. -/
theorem sorted_messages {β : Type*} {ids : List ℤ} {f : ℤ → ℕ} {messages : ℤ × ℕ → List β}
    {expert : β → ℤ} (hexpert : ∀ p, ∀ q ∈ messages p, expert q = p.1) {keep : β → Bool}
    (hone : ∀ p ∈ (npUnique ids).map fun e ↦ (e, f e), ((messages p).filter keep).length ≤ 1) :
    (((((npUnique ids).map fun e ↦ (e, f e)).flatMap messages).filter keep).map expert).Pairwise
      (· < ·) := by
  rw [filter_flatMap, map_flatMap, pairwise_flatMap]
  refine ⟨fun p hp ↦ ?_, pairwise_map.2 ((sorted_npUnique ids).imp fun hlt a ha b hb ↦ ?_)⟩
  · have hle := hone p hp
    generalize (messages p).filter keep = kept at hle ⊢
    rcases kept with - | ⟨q, - | ⟨q', l⟩⟩
    · exact .nil
    · exact pairwise_singleton _ _
    · simp at hle
  · obtain ⟨x, hx, rfl⟩ := mem_map.1 ha
    obtain ⟨y, hy, rfl⟩ := mem_map.1 hb
    rw [hexpert _ x (mem_of_mem_filter hx), hexpert _ y (mem_of_mem_filter hy)]
    exact hlt

/-- The experts that a rank sends to another are ascending. -/
theorem sorted_sentBetween (hsrc : src < l.epSize) :
    (sentBetween l.sends src dst).Pairwise (· < ·) := by
  refine sorted_messages (fun p q hq ↦ ?_) fun p hp ↦ ?_
  · obtain ⟨-, -, rfl⟩ := mem_map.1 hq
    rfl
  · -- one expert goes to a rank at most once
    obtain ⟨hlt, hold, -⟩ := oldLocal_of_mem_sendMap hp
    have hmem : src ∈ l.ranksToSend p.1 := mem_ranksToSend.2 ⟨hsrc, p.2, hlt, hold⟩
    have hcount := nodup_iff_count_le_one.1
      (nodup_targets (nodup_ranksToRecv (l := l) (e := p.1)) hmem) dst
    rw [filter_map, length_map]
    show (filter (fun d ↦ decide (d = dst)) _).length ≤ 1
    rwa [filter_eq, length_replicate]

/-- The experts that a rank receives from another are ascending. -/
theorem sorted_receivedBetween : (receivedBetween l.recvs src dst).Pairwise (· < ·) := by
  refine sorted_messages (fun p q hq ↦ ?_) fun p _ ↦ ?_
  · obtain ⟨-, -, rfl⟩ := Option.map_eq_some_iff.1 (Option.mem_toList.1 hq)
    rfl
  · exact (length_filter_le ..).trans Option.length_toList_le

theorem mem_sentBetween : e ∈ sentBetween l.sends src dst ↔ (∃ i, (e, i) ∈ l.sendMap src) ∧
    dst ∈ targets (l.ranksToSend e) (l.ranksToRecv e) src := by
  simp only [sentBetween, mem_map, mem_filter, decide_eq_true_eq]
  constructor
  · rintro ⟨q, ⟨hq, rfl⟩, rfl⟩
    obtain ⟨hmap, hdst⟩ := mem_sends.1 hq
    exact ⟨⟨_, hmap⟩, hdst⟩
  · rintro ⟨⟨i, hmap⟩, hdst⟩
    exact ⟨⟨dst, e, i⟩, ⟨mem_sends.2 ⟨hmap, hdst⟩, rfl⟩, rfl⟩

theorem mem_receivedBetween : e ∈ receivedBetween l.recvs src dst ↔
    (∃ i, (e, i) ∈ l.recvMap dst) ∧ source (l.ranksToSend e) (l.ranksToRecv e) dst = some src := by
  simp only [receivedBetween, mem_map, mem_filter, decide_eq_true_eq]
  constructor
  · rintro ⟨q, ⟨hq, rfl⟩, rfl⟩
    obtain ⟨hmap, hsrc⟩ := mem_recvs.1 hq
    exact ⟨⟨_, hmap⟩, hsrc⟩
  · rintro ⟨⟨i, hmap⟩, hsrc⟩
    exact ⟨⟨src, e, i⟩, ⟨mem_recvs.2 ⟨hmap, hsrc⟩, rfl⟩, rfl⟩

/-- **Sends match receives**: between two ranks the experts sent are those received, in order. -/
theorem sentBetween_eq (hl : l.Covered) (hsrc : src < l.epSize) (hdst : dst < l.epSize) :
    sentBetween l.sends src dst = receivedBetween l.recvs src dst := by
  refine Perm.eq_of_pairwise (fun a b _ _ hab hba ↦ absurd hab (lt_asymm hba))
    (sorted_sentBetween hsrc) sorted_receivedBetween ?_
  refine (perm_ext_iff_of_nodup ((sorted_sentBetween hsrc).imp ne_of_lt)
    (sorted_receivedBetween.imp ne_of_lt)).2 fun e ↦ ?_
  rw [mem_sentBetween, mem_receivedBetween, mem_sendMap_iff, mem_recvMap_iff hdst]
  constructor
  · rintro ⟨⟨hne, row, hrow, hold⟩, htarget⟩
    have hsend : src ∈ l.ranksToSend e := mem_ranksToSend.2 ⟨hsrc, row, hrow, hold⟩
    have hrecv : dst ∈ l.ranksToRecv e := mem_of_mem_targets htarget
    exact ⟨⟨hne, hrecv⟩,
      (mem_targets_iff nodup_ranksToSend nodup_ranksToRecv hsend hrecv).1 htarget⟩
  · rintro ⟨⟨hne, hrecv⟩, hsource⟩
    obtain ⟨src', hsend, hsource'⟩ :=
      exists_source (hl.ranksToSend_ne_nil hne hrecv) hrecv
    cases hsource'.symm.trans hsource
    obtain ⟨-, row, hrow, hold⟩ := mem_ranksToSend.1 hsend
    exact ⟨⟨hne, row, hrow, hold⟩,
      (mem_targets_iff nodup_ranksToSend nodup_ranksToRecv hsend hrecv).2 hsource⟩

theorem posts_eq {β : Type*} {post : ℕ → Option (List β)} {f : ℕ → List β}
    (h : ∀ rank < l.epSize, post rank = some (f rank)) :
    ∃ g, l.posts post = some g ∧ ∀ rank < l.epSize, g rank = f rank := by
  rw [posts, mapM_eq_some_map fun rank hrank ↦ h rank (mem_range.1 hrank), Option.map_some]
  refine ⟨_, rfl, fun rank hrank ↦ ?_⟩
  rw [getD_eq_getElem?_getD, getElem?_map, getElem?_range hrank]
  rfl

/-! ### Weights -/

variable {α : Type*} {weights buffers : ℕ → ℕ → α} {W : ℤ → α}

section

variable (l : Layer) (W : ℤ → α) (weights : ℕ → ℕ → α)

/-- The old slots of an expert hold its weights. -/
def HoldsOld : Prop :=
  ∀ rank < l.epSize, ∀ row < l.numLocalExperts, l.oldLocal rank row ≠ -1 →
    weights rank row = W (l.oldLocal rank row)

/-- The new slots of an expert hold its weights. -/
def HoldsNew : Prop :=
  ∀ rank < l.epSize, ∀ row < l.numLocalExperts, l.newLocal rank row ≠ -1 →
    weights rank row = W (l.newLocal rank row)

end

/-- What arrives for a slot are the weights of its expert. -/
theorem mem_arrivals (hl : l.Covered) (hw : l.HoldsOld W weights) (hdst : dst < l.epSize)
    {p : ℕ × α} (hp : p ∈ l.arrivals l.sends l.recvs weights dst) :
    p.2 = W (l.newLocal dst p.1) := by
  obtain ⟨src, hsrc, hp⟩ := mem_flatMap.1 hp
  have hsrc := mem_range.1 hsrc
  rw [zip_map] at hp
  obtain ⟨⟨recv, send⟩, hmem, rfl⟩ := mem_map.1 hp
  have hexpert : recv.expert = send.expert :=
    (zip_of_map_eq (sentBetween_eq hl hsrc hdst).symm).1 _ hmem
  obtain ⟨hrecv, hsend⟩ := of_mem_zip hmem
  obtain ⟨-, hnew, -⟩ :=
    newLocal_of_mem_recvMap (mem_recvs.1 (mem_of_mem_filter hrecv)).1
  obtain ⟨hlt, hold, hne⟩ :=
    oldLocal_of_mem_sendMap (mem_sends.1 (mem_of_mem_filter hsend)).1
  show weights src send.srcRow = W (l.newLocal dst recv.dstRow)
  rw [hw src hsrc send.srcRow hlt (hold ▸ hne), hold, hnew, hexpert]

/-- Something arrives for every slot that receives. -/
theorem exists_mem_arrivals (hl : l.Covered) (hdst : dst < l.epSize) (hp : p ∈ l.recvMap dst) :
    ∃ v, (p.2, v) ∈ l.arrivals l.sends l.recvs weights dst := by
  obtain ⟨src, hsend, hsource, -⟩ := recvsOf_eq hl hdst hp
  have hsrc := (mem_ranksToSend.1 hsend).1
  have hrecv : (⟨src, p.1, p.2⟩ : Recv) ∈ (l.recvs dst).filter (·.src = src) :=
    mem_filter.2 ⟨mem_recvs.2 ⟨hp, hsource⟩, decide_eq_true rfl⟩
  obtain ⟨send, hmem⟩ := (zip_of_map_eq (sentBetween_eq hl hsrc hdst).symm).2 _ hrecv
  refine ⟨weights src send.srcRow, mem_flatMap.2 ⟨src, mem_range.2 hsrc, ?_⟩⟩
  rw [zip_map]
  exact mem_map.2 ⟨_, hmem, rfl⟩

/-- A row of the buffer is something that arrived for it, or as it was before. -/
theorem fill_cases (arrived : List (ℕ × α)) (buffer : ℕ → α) (row : ℕ) :
    (∃ v, (row, v) ∈ arrived ∧ fill arrived buffer row = v) ∨
      (∀ p ∈ arrived, p.1 ≠ row) ∧ fill arrived buffer row = buffer row := by
  unfold fill
  split
  · rename_i p hfind
    have hrow : p.1 = row := by simpa using find?_some hfind
    exact .inl ⟨p.2, hrow ▸ mem_of_find?_eq_some hfind, rfl⟩
  · rename_i hfind
    exact .inr ⟨fun p hp hrow ↦ find?_eq_none.1 hfind p hp (decide_eq_true hrow), rfl⟩

/-- Looking an expert up in a map from experts. -/
theorem exists_find?_of_mem {map : List (ℤ × ℕ)} (h : ∃ i, (e, i) ∈ map) :
    ∃ i, map.find? (·.1 = e) = some (e, i) ∧ (e, i) ∈ map := by
  obtain ⟨i, hi⟩ := h
  have hsome : (map.find? (·.1 = e)).isSome = true :=
    find?_isSome.2 ⟨_, hi, decide_eq_true rfl⟩
  obtain ⟨p, hp⟩ := Option.isSome_iff_exists.1 hsome
  have hexpert : p.1 = e := by simpa using find?_some hp
  subst hexpert
  exact ⟨p.2, hp, mem_of_find?_eq_some hp⟩

/-- A slot that is moved within its rank gets the weights of its expert. -/
theorem localMoves_eq (hw : l.HoldsOld W weights) (hrank : rank < l.epSize) {buffer : ℕ → α}
    (hchanged : l.isUnchanged rank row = false) (hlocal : l.isReceivedLocally rank row = true) :
    l.localMoves rank (weights rank) buffer row = W (l.newLocal rank row) := by
  obtain ⟨hnew, j, hj, hold⟩ : l.newLocal rank row ≠ -1 ∧
      ∃ j < l.numLocalExperts, l.oldLocal rank j = l.newLocal rank row := by
    simpa [isReceivedLocally, hchanged] using hlocal
  obtain ⟨i, hfind, hmem⟩ := exists_find?_of_mem (mem_sendMap_iff.2 ⟨hnew, j, hj, hold⟩)
  obtain ⟨hlt, hi, hne⟩ := oldLocal_of_mem_sendMap hmem
  rw [localMoves, hchanged, hlocal, hfind]
  show weights rank i = _
  rw [hw rank hrank i hlt (hi ▸ hne), hi]

section

variable (hl : l.Covered) (hw : l.HoldsOld W weights) (hrank : rank < l.epSize) {buffer : ℕ → α}

include hl hw hrank

section

variable (hchanged : l.isUnchanged rank row = false)
  (hcopied : l.isReceivedLocally rank row = true ∨ l.isPrimary rank row = true)

include hchanged hcopied

/-- **The buffer** holds the weights of every slot that is moved or received. -/
theorem buffer_eq :
    fill (l.arrivals l.sends l.recvs weights rank) (l.localMoves rank (weights rank) buffer) row =
      W (l.newLocal rank row) := by
  rcases fill_cases (l.arrivals l.sends l.recvs weights rank)
    (l.localMoves rank (weights rank) buffer) row with ⟨v, hv, hfill⟩ | ⟨hnone, hfill⟩
  · rw [hfill]
    exact mem_arrivals hl hw hrank hv
  · have hlocal : l.isReceivedLocally rank row = true := by
      refine hcopied.resolve_right fun hprimary ↦ ?_
      obtain ⟨p, hp, hrow⟩ := any_eq_true.1 hprimary
      obtain ⟨v, hv⟩ := exists_mem_arrivals hl hrank hp
      exact hnone _ hv (of_decide_eq_true hrow)
    rw [hfill, localMoves_eq hw hrank hchanged hlocal]

/-- A slot that has a row in the buffer gets the weights of its expert. -/
theorem copyBack_eq :
    l.copyBack rank (weights rank) (fill (l.arrivals l.sends l.recvs weights rank)
      (l.localMoves rank (weights rank) buffer)) row = W (l.newLocal rank row) := by
  rw [copyBack, if_pos (by simpa [hchanged] using hcopied)]
  exact buffer_eq hl hw hrank hchanged hcopied

end

/-- **The slots** get the weights of their experts. -/
theorem moveFromBuffer_eq (hrow : row < l.numLocalExperts) (hnew : l.newLocal rank row ≠ -1) :
    l.moveFromBuffer rank (weights rank) (fill (l.arrivals l.sends l.recvs weights rank)
      (l.localMoves rank (weights rank) buffer)) row = W (l.newLocal rank row) := by
  unfold moveFromBuffer
  by_cases hunchanged : l.isUnchanged rank row = true
  · have hold : l.oldLocal rank row = l.newLocal rank row := of_decide_eq_true hunchanged
    rw [if_neg (by simp [hunchanged]), copyBack, if_neg (by simp [hunchanged]),
      hw rank hrank row hrow (hold ▸ hnew), hold]
  rw [Bool.not_eq_true] at hunchanged
  by_cases hcopied : l.isReceivedLocally rank row = true ∨ l.isPrimary rank row = true
  · rw [if_neg (by rcases hcopied with h | h <;> simp [h])]
    exact copyBack_eq hl hw hrank hunchanged hcopied
  · -- another slot of the rank receives the expert
    obtain ⟨hlocal, hprimary⟩ := not_or.1 hcopied
    have hneed : l.needRecv rank row = true := by simp [needRecv, hlocal, hnew]
    obtain ⟨hne, -, hold⟩ := needRecv_iff.1 hneed
    have hrecv : rank ∈ l.ranksToRecv (l.newLocal rank row) :=
      mem_ranksToRecv.2 ⟨⟨hrank, row, hrow, rfl⟩, hold⟩
    obtain ⟨i, hfind, hmem⟩ := exists_find?_of_mem ((mem_recvMap_iff hrank).2 ⟨hne, hrecv⟩)
    obtain ⟨-, hi, hneedi⟩ := newLocal_of_mem_recvMap hmem
    have hunchangedi : l.isUnchanged rank i = false :=
      decide_eq_false (needRecv_iff.1 hneedi).2.1
    have hprimaryi : l.isPrimary rank i = true :=
      any_eq_true.2 ⟨_, hmem, decide_eq_true rfl⟩
    rw [if_pos (by simp [hunchanged, hlocal, hprimary, hnew]), hfind]
    show l.copyBack rank _ _ i = _
    rw [copyBack_eq hl hw hrank hunchangedi (.inr hprimaryi), hi]

end

/-- **Expert weights are rearranged exactly.** When every expert of the new assignment has a slot in
the old one, no rank raises and the communication ends: between any two ranks the experts sent are
the experts received, each once, and nobody else is written to. If all old slots of an expert hold
its weights, so do all new ones afterwards. -/
theorem rearrange_exact (hl : l.Covered) (hw : l.HoldsOld W weights) :
    ∃ sends recvs weights', l.posts l.postSends = some sends ∧ l.posts l.postRecvs = some recvs ∧
      (∀ src < l.epSize, ∀ q ∈ sends src, q.dst < l.epSize) ∧
      (∀ dst < l.epSize, ∀ q ∈ recvs dst, q.src < l.epSize) ∧
      (∀ src < l.epSize, ∀ dst < l.epSize,
        sentBetween sends src dst = receivedBetween recvs src dst ∧
          (sentBetween sends src dst).Nodup) ∧
      l.rearrange weights buffers = some weights' ∧ l.HoldsNew W weights' := by
  obtain ⟨sends, hsends, hsend⟩ := posts_eq fun rank hrank ↦ postSends_eq hrank
  obtain ⟨recvs, hrecvs, hrecv⟩ := posts_eq fun rank hrank ↦ postRecvs_eq hl hrank
  have hmatch : ∀ src < l.epSize, ∀ dst < l.epSize,
      sentBetween sends src dst = receivedBetween recvs src dst ∧
        (sentBetween sends src dst).Nodup := by
    intro src hsrc dst hdst
    rw [sentBetween, receivedBetween, hsend src hsrc, hrecv dst hdst]
    exact ⟨sentBetween_eq hl hsrc hdst, (sorted_sentBetween hsrc).imp ne_of_lt⟩
  have hbalanced : l.Balanced sends recvs := fun src hsrc dst hdst ↦
    congrArg length (hmatch src (mem_range.1 hsrc) dst (mem_range.1 hdst)).1
  have harrivals : ∀ dst < l.epSize, l.arrivals sends recvs weights dst =
      l.arrivals l.sends l.recvs weights dst := by
    intro dst hdst
    refine flatMap_congr fun src hsrc ↦ ?_
    rw [hsend src (mem_range.1 hsrc), hrecv dst hdst]
  refine ⟨sends, recvs, l.exchange sends recvs weights buffers, hsends, hrecvs, ?_, ?_, hmatch,
    ?_, ?_⟩
  · intro src hsrc q hq
    rw [hsend src hsrc] at hq
    exact (mem_ranksToRecv.1 (mem_of_mem_targets (mem_sends.1 hq).2)).1.1
  · intro dst hdst q hq
    rw [hrecv dst hdst] at hq
    exact (mem_ranksToSend.1 (mem_of_source_eq_some (mem_recvs.1 hq).2)).1
  · rw [rearrange, hsends, hrecvs, Option.bind_some, Option.bind_some, if_pos hbalanced]
  · intro rank hrank row hrow hnew
    rw [exchange, harrivals rank hrank]
    exact moveFromBuffer_eq hl hw hrank hrow hnew

/-- Three ranks with two slots. Expert 5 moves to two slots of a rank that does not have it, expert
7 to the two other ranks, and a slot without expert gets one. -/
def threeRanks : Layer where
  epSize := 3
  numLocalExperts := 2
  oldIndices := [5, 7, 6, 6, -1, 8]
  newIndices := [7, 8, 7, 6, 5, 5]
  length_old := rfl
  length_new := rfl

theorem rearrange_exact_threeRanks : ∃ sends recvs weights',
    threeRanks.posts threeRanks.postSends = some sends ∧
      threeRanks.posts threeRanks.postRecvs = some recvs ∧
      (∀ src < 3, ∀ q ∈ sends src, q.dst < 3) ∧ (∀ dst < 3, ∀ q ∈ recvs dst, q.src < 3) ∧
      (∀ src < 3, ∀ dst < 3, sentBetween sends src dst = receivedBetween recvs src dst ∧
        (sentBetween sends src dst).Nodup) ∧
      threeRanks.rearrange threeRanks.oldLocal (fun _ _ ↦ 0) = some weights' ∧
      threeRanks.HoldsNew id weights' :=
  rearrange_exact (by decide) fun _ _ _ _ _ ↦ rfl

end Layer

end OneCatVllm.Eplb
