import OneCatVllm.Sched.CallSpec

/-!
# The hashes of a streaming session

A streaming session goes on with new input: the tokens that are not computed are dropped, the
update's tokens and items are appended, and the blocks that have become full are hashed. The prompt
is meant to be all of the tokens again, and the hashes those of one call over all tokens.

`Coherent B r` is that state of affairs for a request between its updates: the prompt is the front
of the tokens, and the hashes are those of one call. It is kept by appended output
(`Coherent.appendEach`) and by a session update (`Coherent.session`) under conditions on the blocks
that they complete, and `sessions_consistent` carries it along the runs of the scheduler.
-/

namespace OneCatVllm

open BlockHasher HashChain List Nat Option Request OneCatVllm.System Transition

variable {H E : Type} {recs : List (SessionRecord H E)} {o' : Option (Request H E)}
  {ds : List Delivery} {a : NewRequest E}

/-! ### One call -/

/-- What the prompt and the hashes of a request depend on. -/
def Request.inputs (r : Request H E) :=
  (r.promptTokenIds, r.numPromptTokens, r.allTokenIds, r.blockHashes, r.mmFeatures, r.loraRequest,
    r.cacheSalt, r.promptEmbeds)

variable {B : BlockHasher H E} {r r' : Request H E}

namespace BlockHasher

variable {first : ℕ}

/-- The hashes of one call over all tokens. -/
theorem requestBlockHasher_nil (B : BlockHasher H E) (r : Request H E) :
    B.requestBlockHasher { r with blockHashes := [] } =
      hashChain B.chainStep B.noneHash
        ((range (B.numBlocks r)).map (B.blockInput r r.mmFeatures)) := by
  rw [requestBlockHasher_eq, range_eq_range']
  rfl

section

variable (blockSize : ℕ) (vs fs : List MultiModalFeatureSpec) (j : ℕ)

/-- The scan of all items and the scan of `vs` key block `j` alike. -/
def SameKeys : Prop :=
  itemKeys (recorded vs (j * blockSize) (j * blockSize + blockSize)) =
    itemKeys (recorded fs (j * blockSize) (j * blockSize + blockSize))

instance : Decidable (SameKeys blockSize vs fs j) :=
  inferInstanceAs (Decidable (_ = _))

end

/-- A request is hashed as in one call if the blocks hashed later are keyed alike. -/
theorem Hashed.oneCall (h : B.Hashed first r)
    (hkeys : ∀ j < B.numBlocks r, first ≤ j →
      SameKeys B.blockSize (lastOnly r.mmFeatures) r.mmFeatures j) :
    B.Hashed (B.numBlocks r) r := by
  refine ⟨h.blockHashes_eq.trans (congrArg _ (map_congr_left fun j hj ↦ ?_)), le_rfl, id⟩
  have hlt := mem_range.1 hj
  rw [seenAt, seenAt]
  split_ifs with hfirst
  · rfl
  · exact blockInput_eq_iff.2 (hkeys j hlt (not_lt.1 hfirst))

/-- The hashes are those of one call. -/
theorem hashed_iff_oneCall :
    B.Hashed (B.numBlocks r) r ↔
      r.blockHashes = B.requestBlockHasher { r with blockHashes := [] } := by
  have hseen : ((range (B.numBlocks r)).map
      fun j ↦ B.blockInput r (seenAt (B.numBlocks r) r.mmFeatures j) j) =
        (range (B.numBlocks r)).map (B.blockInput r r.mmFeatures) :=
    map_congr_left fun j hj ↦ by rw [seenAt, if_pos (mem_range.1 hj)]
  rw [requestBlockHasher_nil]
  refine ⟨fun h ↦ h.blockHashes_eq.trans (by rw [hseen]), fun h ↦ ⟨?_, le_rfl, id⟩⟩
  rw [h, hseen]

theorem Hashed.length_eq (h : B.Hashed first r) : r.blockHashes.length = B.numBlocks r := by
  rw [h.blockHashes_eq, length_hashChain, length_map, length_range]

/-- The hashes depend on the tokens, the items, the adapter, the salt and the embeddings. -/
theorem Hashed.congr (h : B.Hashed first r) (hr : r'.inputs = r.inputs) : B.Hashed first r' := by
  simp only [inputs, Prod.mk.injEq] at hr
  obtain ⟨-, -, htokens, hhashes, hfs, hlora, hsalt, hembeds⟩ := hr
  have hnum : B.numBlocks r' = B.numBlocks r := by
    rw [numBlocks, numBlocks, numTokens, numTokens, htokens]
  refine ⟨?_, hnum ▸ h.first_le, hnum ▸ h.numBlocks_eq_zero⟩
  rw [hhashes, h.blockHashes_eq, hnum, hfs]
  exact congrArg _ (map_congr_left fun j hj ↦ (blockInput_append
    (by rw [htokens, append_nil]) hlora hsalt hembeds (mem_range.1 hj) _).symm)

end BlockHasher

/-- The first hashing call hashes at least the blocks that are full now. -/
theorem div_le_firstHashed (blockSize : ℕ) (n : ℕ) (chunks : List (List ℕ)) :
    n / blockSize ≤ firstHashed blockSize n chunks := by
  induction chunks generalizing n with
  | nil => exact le_rfl
  | cons c cs ih =>
    rw [firstHashed]
    split_ifs with h0
    · rw [h0]
      exact zero_le _
    · exact le_rfl

/-! ### Coherent requests -/

/-- **A request between two inputs of its session**: the prompt is the front of the tokens, and the
hashes are those of one call. -/
structure Coherent (B : BlockHasher H E) (r : Request H E) : Prop where
  prompt : ∀ p ∈ r.promptTokenIds, p.length = r.numPromptTokens ∧ p <+: r.allTokenIds
  hashed : B.Hashed (B.numBlocks r) r

/-- **The blocks that `n` appended tokens complete** are keyed by the last item as by all items,
unless they are hashed in one call from the start. -/
def AppendKeyed (blockSize : ℕ) (r : Request H E) (n : ℕ) : Prop :=
  ∀ j < (r.numTokens + n) / blockSize, 0 < j → r.blockHashes.length ≤ j →
    SameKeys blockSize (lastOnly r.mmFeatures) r.mmFeatures j

instance (blockSize : ℕ) (r : Request H E) (n : ℕ) : Decidable (AppendKeyed blockSize r n) :=
  inferInstanceAs (Decidable (∀ j < (r.numTokens + n) / blockSize, _))

/-- **A session can take the update**: its prompt is computed, no block is hashed beyond the
computed tokens, the hashed blocks are keyed alike with the new items, and so are the blocks still
to hash. -/
@[mk_iff]
structure SessionUpdatable (blockSize : ℕ) (r : Request H E) (update : StreamingUpdate) : Prop where
  prompt_le : (r.numPromptTokens : ℤ) ≤ r.numComputedTokens
  hashed_le : ((r.blockHashes.length * blockSize : ℕ) : ℤ) ≤ r.numComputedTokens
  kept_keys : ∀ j < r.blockHashes.length, SameKeys blockSize r.mmFeatures
    (r.mmFeatures ++ update.mmFeatures.map (·.shift r.keptTokenIds.length)) j
  new_keys : ∀ j < (r.keptTokenIds.length + (update.promptTokenIds.getD []).length) / blockSize,
    r.blockHashes ≠ [] → r.blockHashes.length ≤ j → SameKeys blockSize
      (lastOnly (r.mmFeatures ++ update.mmFeatures.map (·.shift r.keptTokenIds.length)))
      (r.mmFeatures ++ update.mmFeatures.map (·.shift r.keptTokenIds.length)) j

section

variable {update : StreamingUpdate} {p : List ℕ}

theorem Coherent.congr (h : Coherent B r) (hr : r'.inputs = r.inputs) : Coherent B r' := by
  have hhashed := h.hashed.congr hr
  simp only [inputs, Prod.mk.injEq] at hr
  obtain ⟨hids, hprompt, htokens, -⟩ := hr
  refine ⟨?_, ?_⟩
  · rw [hids, hprompt, htokens]
    exact h.prompt
  · rw [numBlocks, numTokens, htokens]
    exact hhashed

/-- **A new request is coherent.** -/
theorem Coherent.new (h : new (some B.requestBlockHasher) a = some r) : Coherent B r := by
  refine ⟨?_, hashed_new h⟩
  obtain ⟨n, hn, rfl⟩ := map_eq_some_iff.1 h
  intro p hp
  have hids : a.promptTokenIds = some p := hp
  refine ⟨length_of_promptTokenIds hn hids, ?_⟩
  show p <+: a.promptTokenIds.getD _
  rw [hids]
  exact prefix_rfl

/-- **Appended output keeps a request coherent**, if the blocks it completes are keyed alike. -/
theorem Coherent.appendEach (h : Coherent B r) {ts : List ℕ}
    (hkeyed : AppendKeyed B.blockSize r ts.length) :
    Coherent B (r.appendEach (some B.requestBlockHasher) ts) := by
  refine ⟨?_, ?_⟩
  · rw [appendEach_eq]
    intro p hp
    obtain ⟨hlen, hpfx⟩ := h.prompt p hp
    exact ⟨hlen, hpfx.trans (prefix_append _ _)⟩
  · have hgrown := h.hashed.grow (ts.map fun t ↦ [t])
    refine Hashed.oneCall hgrown fun j hj hfirst ↦ ?_
    have hfs : (r.appendEach (some B.requestBlockHasher) ts).mmFeatures = r.mmFeatures :=
      grow_mmFeatures _
    have hlen : B.numBlocks (r.appendEach (some B.requestBlockHasher) ts) =
        (r.numTokens + ts.length) / B.blockSize := by
      rw [appendEach_eq]
      exact congrArg (· / B.blockSize) length_append
    rw [hlen] at hj
    rw [hfs]
    refine hkeyed j hj ?_ ?_
    · -- a block exists, so the first hashing call found one
      refine pos_of_ne_zero fun h0 ↦ ?_
      have hz : B.numBlocks (r.appendEach (some B.requestBlockHasher) ts) = 0 :=
        hgrown.numBlocks_eq_zero (by omega)
      omega
    · rw [h.hashed.length_eq]
      exact (div_le_firstHashed B.blockSize r.numTokens _).trans hfirst

/-- With the prompt computed, the next prompt is all of the tokens. -/
theorem Coherent.nextPromptTokenIds (h : Coherent B r) (hp : r.promptTokenIds = some p)
    (hle : (r.numPromptTokens : ℤ) ≤ r.numComputedTokens) (update : StreamingUpdate) :
    r.nextPromptTokenIds p update = r.keptTokenIds ++ update.promptTokenIds.getD [] := by
  obtain ⟨hlen, rest, hrest⟩ := h.prompt p hp
  have hkept : p <+: r.keptTokenIds := by
    rw [keptTokenIds, sliceStop, if_neg (by omega), ← hrest]
    refine prefix_take_iff.2 ⟨prefix_append _ _, ?_⟩
    rw [length_append]
    omega
  obtain ⟨tail, htail⟩ := hkept
  rw [Request.nextPromptTokenIds, ← htail, ← hlen, drop_left]

/-- The tokens kept are those computed. -/
theorem keptTokenIds_eq (hle : 0 ≤ r.numComputedTokens) :
    r.keptTokenIds = r.allTokenIds.take r.numComputedTokens.toNat := by
  rw [keptTokenIds, sliceStop, if_neg (not_lt.2 hle), ← take_eq_take_min]

/-- The input of a hashed block is not changed by the update. -/
theorem blockInput_extended {j : ℕ} (hj : j < B.numBlocks r)
    (hle : ((j + 1) * B.blockSize : ℕ) ≤ r.numComputedTokens)
    (hkeys : SameKeys B.blockSize r.mmFeatures (r.extended p update).mmFeatures j) :
    B.blockInput r r.mmFeatures j =
      B.blockInput (r.extended p update) (r.extended p update).mmFeatures j := by
  have hfull : (j + 1) * B.blockSize ≤ r.allTokenIds.length :=
    (le_div_iff_mul_le B.blockSize_pos).1 hj
  have hkept : (j + 1) * B.blockSize ≤ r.keptTokenIds.length := by
    rw [keptTokenIds_eq (by omega), length_take]
    omega
  -- the kept tokens are a front part both of the old and of the new tokens
  set x : Request H E := { r with allTokenIds := r.keptTokenIds } with hx
  have hjx : j < B.numBlocks x := (le_div_iff_mul_le B.blockSize_pos).2 hkept
  obtain ⟨tail, htail⟩ : r.keptTokenIds <+: r.allTokenIds := take_prefix _ _
  have hold : B.blockInput r r.mmFeatures j = B.blockInput x r.mmFeatures j :=
    blockInput_append (show r.allTokenIds = x.allTokenIds ++ tail from htail.symm)
      (show r.loraRequest = x.loraRequest from rfl) rfl rfl hjx _
  have hnew : B.blockInput (r.extended p update) (r.extended p update).mmFeatures j =
      B.blockInput x (r.extended p update).mmFeatures j :=
    blockInput_append
      (show (r.extended p update).allTokenIds = x.allTokenIds ++ _ from rfl)
      (show (r.extended p update).loraRequest = x.loraRequest from rfl) rfl rfl hjx _
  rw [hold, hnew]
  exact blockInput_eq_iff.2 hkeys

/-- **A session update hashes as one call does.** -/
theorem Coherent.hashed_extended (h : Coherent B r) (hup : SessionUpdatable B.blockSize r update) :
    ((r.extended p update).updateBlockHashes (some B.requestBlockHasher)).blockHashes =
      B.requestBlockHasher { r.extended p update with blockHashes := [] } := by
  set x := r.extended p update with hx
  have hlen := h.hashed.length_eq
  have hcomputed := hup.hashed_le
  rw [hlen] at hcomputed
  have hmono : B.numBlocks r ≤ B.numBlocks x := by
    refine (le_div_iff_mul_le B.blockSize_pos).2 ?_
    have hfull : B.numBlocks r * B.blockSize ≤ r.allTokenIds.length :=
      div_mul_le_self _ _
    show _ ≤ (r.keptTokenIds ++ update.promptTokenIds.getD []).length
    rw [length_append, keptTokenIds_eq (by omega), length_take]
    omega
  have hold : ∀ j < B.numBlocks r, B.blockInput r r.mmFeatures j = B.blockInput x x.mmFeatures j :=
    fun j hj ↦ blockInput_extended hj
      (le_trans (by exact_mod_cast mul_le_mul_right _ hj) hcomputed)
      (hup.kept_keys j (hlen.symm ▸ hj))
  have hchain : x.blockHashes = hashChain B.chainStep B.noneHash
      ((range (B.numBlocks r)).map (B.blockInput x x.mmFeatures)) := by
    have hone := (hashed_iff_oneCall.1 h.hashed).trans (B.requestBlockHasher_nil r)
    rw [show x.blockHashes = r.blockHashes from rfl, hone]
    exact congrArg _ (map_congr_left fun j hj ↦ hold j (mem_range.1 hj))
  rw [updateBlockHashes_blockHashes hchain, length_map, length_range,
    requestBlockHasher_nil, range_eq_append_range' hmono, map_append]
  refine congrArg (fun xs ↦ hashChain B.chainStep B.noneHash (_ ++ xs)) ?_
  refine map_congr_left fun j hj ↦ ?_
  obtain ⟨hle, hlt⟩ := mem_range'_1.1 hj
  rw [seen]
  split_ifs with h0
  · rfl
  · refine blockInput_eq_iff.2 (hup.new_keys j ?_ ?_ (hlen.symm ▸ hle))
    · have hnum : B.numBlocks x =
          (r.keptTokenIds.length + (update.promptTokenIds.getD []).length) / B.blockSize :=
        congrArg (· / B.blockSize) length_append
      omega
    · rw [← length_pos_iff]
      omega

/-- **A session update that is consistent**: the prompt is all of the tokens, the tokens are those
kept and those of the update, and the hashes are those of one call over them. -/
structure SessionConsistent (B : BlockHasher H E) (rec : SessionRecord H E) : Prop where
  prompt : rec.after.promptTokenIds = some rec.after.allTokenIds
  numPrompt : rec.after.numPromptTokens = rec.after.allTokenIds.length
  tokens : rec.after.allTokenIds = rec.before.allTokenIds.take rec.before.numComputedTokens.toNat ++
    rec.update.promptTokenIds.getD []
  hashes : rec.after.blockHashes = B.requestBlockHasher { rec.after with blockHashes := [] }

/-- **A session update of a coherent request** is consistent, under the condition. -/
theorem Coherent.session (h : Coherent B r)
    (hr' : updateRequestAsSession (some B.requestBlockHasher) r update = some r')
    (hup : SessionUpdatable B.blockSize r update) : SessionConsistent B ⟨r, update, r'⟩ := by
  obtain ⟨p, hp, heq⟩ := updateRequestAsSession_eq_some hr'
  have hprompt := h.nextPromptTokenIds hp hup.prompt_le update
  have hnonneg : 0 ≤ r.numComputedTokens := by
    have := hup.prompt_le
    omega
  refine ⟨?_, ?_, ?_, ?_⟩
  · rw [heq]
    exact congrArg some hprompt
  · rw [heq]
    exact congrArg length hprompt
  · rw [heq, ← keptTokenIds_eq hnonneg]
    rfl
  · rw [requestBlockHasher_nil, heq]
    exact (h.hashed_extended hup).trans (B.requestBlockHasher_nil _)

theorem SessionConsistent.coherent {rec : SessionRecord H E} (h : SessionConsistent B rec) :
    Coherent B rec.after := by
  refine ⟨fun p hp ↦ ?_, hashed_iff_oneCall.2 h.hashes⟩
  rw [h.prompt] at hp
  cases hp
  exact ⟨h.numPrompt.symm, prefix_rfl⟩

end

/-! ### Calls -/

/-- **The state of a request with respect to its session**: a live session is coherent, and only a
session waits for input. -/
structure InSession (B : BlockHasher H E) (r : Request H E) : Prop where
  coherent : r.isFinished = false → r.resumable = true → Coherent B r
  resumable : r.status = .waitingForStreamingReq → r.resumable = true

variable {cfg : SchedulerConfig H E} {out : ModelRunnerOutput}

section

theorem InSession.of_nowhere (h : placeOf (some r) = .nowhere) : InSession B r := by
  refine ⟨fun hlive ↦ ?_, fun hst ↦ ?_⟩
  · cases (isFinished_of_nowhere h).symm.trans hlive
  · rw [placeOf, hst] at h
    cases h

/-- **A scheduling step keeps the state of a session.** -/
theorem InSession.requestStep (h : InSession B r) {env : ScheduleEnv} {currentStep id : ℕ}
    {len len' : ℤ} {es : List OutputEntry}
    (hstep : RequestStep cfg env currentStep id len (some r) (some r') len' es) :
    InSession B r' := by
  generalize ho : some r = o at hstep
  generalize ho' : some r' = o' at hstep
  cases hstep with
  | absent => cases ho
  | @live r₁ r₂ t hout =>
    cases ho
    obtain ⟨st, c, spec, n, rfl, hst, hfin⟩ := hout.eq_with
    obtain ⟨c', fl, chunk, p, spec', next, heq⟩ := finishedAt_eq_with cfg currentStep t
      { r with status := st, numComputedTokens := c, specTokenIds := spec, numPreemptions := n }
    rw [heq] at ho'
    cases ho'
    exact ⟨fun hlive hres ↦ (h.coherent (hfin hlive) hres).congr rfl, fun hw ↦ h.resumable (hst hw)⟩

variable {failed : List ℕ} {e : OutputEntry} {res : OutputResult H E} {id : ℕ}

theorem AppendKeyed.mono {blockSize n n' : ℕ} (h : AppendKeyed blockSize r n) (hle : n' ≤ n) :
    AppendKeyed blockSize r n' := fun j hj ↦
  h j (hj.trans_le (Nat.div_le_div_right (Nat.add_le_add_left hle _)))

/-- **An output keeps a session coherent.** -/
theorem Applied.coherent (hB : cfg.hasher = some B.requestBlockHasher)
    (happ : Applied cfg out id r res) (h : Coherent B r)
    (hkeyed : AppendKeyed B.blockSize r (out.sampledTokenIds id).length) :
    Coherent B res.request := by
  cases happ with
  | nothing => exact h
  | pooled => exact h.congr rfl
  | dropped => exact h.congr rfl
  | @appended kept st p _ _ _ hle =>
    rw [hB]
    have hkept := h.appendEach (hkeyed.mono (length_take_le' kept _))
    exact hkept.congr rfl

theorem corrected_resumable : (r.corrected out e).resumable = r.resumable := by
  unfold corrected rejectDrafts
  split_ifs <;> rfl

/-- An output that does not stop a request leaves it resumable. -/
theorem Applied.resumable_eq (happ : Applied cfg out id r res) (hstop : res.stopped = false) :
    res.request.resumable = r.resumable := by
  cases happ with
  | nothing => rfl
  | pooled => cases hstop
  | dropped => rfl
  | appended hgen hd =>
    have hrej : out.grammarRejects id = false := by
      have hstops : stopsOn cfg out id r = false := hstop
      simp only [stopsOn, if_pos hgen, hd, Bool.not_false, Bool.true_and, Bool.or_eq_false_iff]
        at hstops
      exact hstops.2
    rw [hrej, Bool.not_false, Bool.and_true]

theorem Applied.resumable_of (happ : Applied cfg out id r res) (h : res.request.resumable = true) :
    r.resumable = true := by
  cases happ with
  | nothing => exact h
  | pooled => exact h
  | dropped => exact h
  | appended => exact (Bool.and_eq_true _ _ ▸ h).1

/-- **An entry of a batch keeps the state of a session**, and its update is consistent. -/
theorem EntryOutcome.inSession (hB : cfg.hasher = some B.requestBlockHasher)
    (hout : EntryOutcome cfg out failed e (some r) o' ds recs) (h : InSession B r)
    (hkeyed : r.isFinished = false → r.resumable = true →
      AppendKeyed B.blockSize r (out.sampledTokenIds e.reqId).length)
    (hup : ∀ rec ∈ recs, SessionUpdatable B.blockSize rec.before rec.update) :
    (∀ r' ∈ o', InSession B r') ∧ ∀ rec ∈ recs, SessionConsistent B rec := by
  have hreached {res : OutputResult H E} (hr : Reached cfg out failed e r res)
      (hres : res.request.resumable = true) : Coherent B res.request := by
    have hres₀ : r.resumable = true := by
      have hres' := hr.applied.resumable_of hres
      rwa [corrected_resumable] at hres'
    refine hr.applied.coherent hB ?_ ?_
    · have := h.coherent hr.live hres₀
      unfold corrected rejectDrafts
      split_ifs <;> exact this.congr rfl
    · have := hkeyed hr.live hres₀
      unfold corrected rejectDrafts
      split_ifs <;> exact this
  have hnil : ∀ rec ∈ ([] : List (SessionRecord H E)), SessionConsistent B rec := by simp
  cases hout with
  | ignored =>
    refine ⟨?_, hnil⟩
    rintro _ ⟨⟩
    exact ⟨fun hlive hres ↦ (h.coherent hlive hres).congr rfl, h.resumable⟩
  | applied hr hstop =>
    refine ⟨?_, hnil⟩
    rintro _ ⟨⟩
    refine ⟨fun _ hres ↦ hreached hr hres, fun hst ↦ ?_⟩
    rw [hr.applied.status_eq hstop, corrected_status] at hst
    rw [hr.applied.resumable_eq hstop, corrected_resumable]
    exact h.resumable hst
  | freed _ _ hplace =>
    refine ⟨?_, hnil⟩
    rintro r' ⟨⟩
    exact .of_nowhere hplace
  | @nextInput _ r' res update rest hr hstop hres hq hr' =>
    have hcoh : Coherent B { res.request with streamingQueue := some rest } :=
      (hreached hr hres).congr rfl
    rw [hB] at hr'
    have hcons := hcoh.session hr' (hup _ (mem_singleton_self _))
    refine ⟨?_, fun rec hrec ↦ mem_singleton.1 hrec ▸ hcons⟩
    rintro _ ⟨⟩
    refine ⟨fun _ _ ↦ hcons.coherent, fun hst ↦ ?_⟩
    rw [updateRequestAsSession_status hr'] at hst
    cases hst
  | awaitsInput hr hstop hres hq =>
    refine ⟨?_, hnil⟩
    rintro _ ⟨⟩
    exact ⟨fun _ _ ↦ (hreached hr hres).congr rfl, fun _ ↦ hres⟩

end

/-! ### Runs -/

instance (blockSize : ℕ) (r : Request H E) (update : StreamingUpdate) :
    Decidable (SessionUpdatable blockSize r update) :=
  decidable_of_iff' _ (sessionUpdatable_iff blockSize r update)

/-- The output of sessions completes blocks that are keyed alike. -/
def OutputsKeyed (blockSize : ℕ) (σ : System H E) : Call E → Prop
  | .updateFromOutput out => ∀ es ∈ σ.inFlight.head?, ∀ e ∈ es, ∀ r ∈ σ.sched.requests e.reqId,
      r.isFinished = false → r.resumable = true →
        AppendKeyed blockSize r (out.sampledTokenIds e.reqId).length
  | _ => True

instance (blockSize : ℕ) (σ : System H E) : ∀ call, Decidable (OutputsKeyed blockSize σ call)
  | .updateFromOutput _ => inferInstanceAs (Decidable (∀ _ ∈ _, _))
  | .addRequest _ _ | .schedule _ | .finishRequests _ _ _ | .resetPrefixCache _ _
  | .updateDraftTokenIds _ => .isTrue trivial

/-- **The condition on a call**: the output of sessions completes blocks keyed alike, and every
session that takes an update in this call can take it. -/
@[mk_iff]
structure SessionsKeyed (blockSize : ℕ) (cfg : SchedulerConfig H E) (σ : System H E)
    (call : Call E) : Prop where
  stops : StopsPlaced cfg σ call
  outputs : OutputsKeyed blockSize σ call
  updates : ∀ σ' ∈ step cfg σ call, ∀ rec ∈ σ'.sessions.drop σ.sessions.length,
    SessionUpdatable blockSize rec.before rec.update

instance (blockSize : ℕ) (cfg : SchedulerConfig H E) (σ : System H E) (call : Call E) :
    Decidable (SessionsKeyed blockSize cfg σ call) :=
  decidable_of_iff' _ (sessionsKeyed_iff blockSize cfg σ call)

/-- **The invariant of the runs.** -/
structure System.InSessions (B : BlockHasher H E) (σ : System H E) : Prop where
  placed : σ.Placed
  requests : ∀ id, ∀ r ∈ σ.sched.requests id, InSession B r
  consistent : ∀ rec ∈ σ.sessions, SessionConsistent B rec

section

variable {σ : System H E} {s : Scheduler H E} {o : Option (Request H E)}

theorem KeptOrEnded.inSession (h : KeptOrEnded o o') (ho : ∀ r ∈ o, InSession B r) :
    ∀ r ∈ o', InSession B r := by
  intro r hr
  rcases h with rfl | h
  · exact ho r hr
  · rw [mem_def.1 hr] at h
    exact .of_nowhere h

section

variable (hB : cfg.hasher = some B.requestBlockHasher)

include hB

/-- **`add_request` keeps the state of sessions.** -/
theorem AddOutcome.inSession
    (hr : Request.new cfg.hasher a = some r) (hout : AddOutcome cfg r o o' recs)
    (ho : ∀ r ∈ o, InSession B r)
    (hup : ∀ rec ∈ recs, SessionUpdatable B.blockSize rec.before rec.update) :
    (∀ r' ∈ o', InSession B r') ∧ ∀ rec ∈ recs, SessionConsistent B rec := by
  have hnil : ∀ rec ∈ ([] : List (SessionRecord H E)), SessionConsistent B rec := by simp
  cases hout with
  | new =>
    refine ⟨?_, hnil⟩
    rintro _ ⟨⟩
    have hcoh : Coherent B r := Coherent.new (hB ▸ hr)
    refine ⟨fun _ _ ↦ hcoh.congr rfl, fun hst ↦ ?_⟩
    rcases new_status hr with h | h <;> exact absurd (h.symm.trans hst) nofun
  | @queued existing q hst =>
    refine ⟨?_, hnil⟩
    rintro _ ⟨⟩
    have h := ho existing rfl
    exact ⟨fun hlive hres ↦ (h.coherent hlive hres).congr rfl, h.resumable⟩
  | @session existing after update hst hupdate hafter =>
    have h := ho existing rfl
    have hlive : existing.isFinished = false := by
      rw [isFinished, hst]
      rfl
    rw [hB] at hafter
    have hcons := (h.coherent hlive (h.resumable hst)).session hafter (hup _ (mem_singleton_self _))
    refine ⟨?_, fun rec hrec ↦ mem_singleton.1 hrec ▸ hcons⟩
    rintro _ ⟨⟩
    refine ⟨fun _ _ ↦ hcons.coherent, fun hst' ↦ ?_⟩
    rw [updateRequestAsSession_status hafter] at hst'
    cases hst'
  | closed hplace =>
    refine ⟨?_, hnil⟩
    rintro r' ⟨⟩
    exact .of_nowhere hplace

/-- **`update_from_output` keeps the state of sessions.** -/
theorem System.InSessions.updateFromOutput (h : σ.InSessions B) {es : SchedulerOutput}
    {rest : List SchedulerOutput} (hfl : σ.inFlight = es :: rest)
    (hok : OutputsKeyed B.blockSize σ (.updateFromOutput out))
    (hup : ∀ rec ∈ recs, SessionUpdatable B.blockSize rec.before rec.update)
    (hs : OneCatVllm.updateFromOutput cfg σ.sched es out = some (s, ds, recs)) :
    (∀ id, ∀ r ∈ s.requests id, InSession B r) ∧ ∀ rec ∈ recs, SessionConsistent B rec := by
  have hnodup : (es.map (·.reqId)).Nodup := h.placed.nodup es (hfl ▸ mem_cons_self)
  obtain ⟨s₂, logs, hbatch, -, rfl, hkept⟩ := updateFromOutput_spec hnodup hs
  set s₁ := out.invalidBlocks.foldl cutComputedTokens σ.sched with hs₁
  have hcut : CutFrom σ.sched s₁ := foldl_cutComputedTokens out.invalidBlocks
  -- cutting the computed tokens of failed loads does not concern the tokens and hashes
  have hreq₁ (id : ℕ) : ∀ r ∈ s₁.requests id, InSession B r := by
    obtain ⟨c, hc⟩ := hcut.requests id
    rw [hc]
    intro r hr
    obtain ⟨r₀, hr₀, rfl⟩ := map_eq_some_iff.1 hr
    have h₀ := h.requests id r₀ hr₀
    exact ⟨fun hlive hres ↦ (h₀.coherent hlive hres).congr rfl, h₀.resumable⟩
  have hentry (l : EntryLog H E) (hl : l ∈ logs) :
      (∀ r ∈ s₂.requests l.entry.reqId, InSession B r) ∧
        ∀ rec ∈ l.sessions, SessionConsistent B rec := by
    have hout := hbatch.outcome l hl
    rcases hr : s₁.requests l.entry.reqId with - | r <;> rw [hr] at hout
    · generalize s₂.requests l.entry.reqId = o at hout ⊢
      obtain ⟨e, ds', recs'⟩ := l
      cases hout
      exact ⟨by simp, by simp⟩
    · refine hout.inSession hB (hreq₁ _ r hr) (fun hlive hres ↦ ?_) fun rec hrec ↦
        hup rec (mem_flatMap.2 ⟨l, hl, hrec⟩)
      obtain ⟨c, hc⟩ := hcut.requests l.entry.reqId
      rw [hc] at hr
      obtain ⟨r₀, hr₀, rfl⟩ := map_eq_some_iff.1 hr
      exact hok es (by rw [hfl]; rfl) _ (hbatch.entries ▸ mem_map_of_mem hl) r₀ hr₀ hlive hres
  refine ⟨fun id ↦ (hkept id).inSession ?_, fun rec hrec ↦ ?_⟩
  · by_cases hmem : ∃ e ∈ es, e.reqId = id
    · obtain ⟨e, he, rfl⟩ := hmem
      obtain ⟨l, hl, rfl⟩ := mem_map.1 (hbatch.entries ▸ he)
      exact (hentry l hl).1
    · rw [hbatch.other id fun e he heq ↦ hmem ⟨e, he, heq⟩]
      exact hreq₁ id
  · obtain ⟨l, hl, hmem⟩ := mem_flatMap.1 hrec
    exact (hentry l hl).2 rec hmem

/-- **One call keeps the invariant.** -/
theorem System.InSessions.step {σ' : System H E}
    {call : Call E} (h : σ.InSessions B) (hok : SessionsKeyed B.blockSize cfg σ call)
    (hstep : step cfg σ call = some σ') : σ'.InSessions B := by
  have hplaced := h.placed.step hok.stops hstep
  have hupdates := hok.updates σ' hstep
  have happend {recs : List (SessionRecord H E)} (hrecs : ∀ rec ∈ recs, SessionConsistent B rec) :
      ∀ rec ∈ σ.sessions ++ recs, SessionConsistent B rec := fun rec hrec ↦
    (mem_append.1 hrec).elim (h.consistent rec) (hrecs rec)
  cases call with
  | addRequest a delayFree =>
    obtain ⟨r, s, recs, hr, hadd, rfl⟩ := step_addRequest hstep
    obtain ⟨hout, hother⟩ := addRequest_spec hadd
    simp only [drop_left] at hupdates
    obtain ⟨hreq, hcons⟩ := hout.inSession hB hr (h.requests _) hupdates
    refine ⟨hplaced, fun id ↦ ?_, happend hcons⟩
    rcases eq_or_ne id r.requestId with rfl | hne
    · exact hreq
    · rw [hother id hne]
      exact h.requests id
  | schedule env =>
    obtain ⟨⟨s, lens, out⟩, hsched, rfl⟩ := map_eq_some_iff.1 hstep
    refine ⟨hplaced, fun id r' hr' ↦ ?_, h.consistent⟩
    have hreq := (schedule_spec h.placed.sched hsched).request id
    rcases hr : σ.sched.requests id with - | r <;>
      rw [hr, show s.requests id = some r' from hr'] at hreq
    · cases hreq
    · exact (h.requests id r hr).requestStep hreq
  | updateFromOutput out =>
    obtain ⟨es, rest, s, ds, recs, hfl, hout, rfl⟩ := step_updateFromOutput hstep
    simp only [drop_left] at hupdates
    obtain ⟨hreq, hcons⟩ := h.updateFromOutput hB hfl hok.outputs hupdates hout
    exact ⟨hplaced, hreq, happend hcons⟩
  | finishRequests ids status delayFree =>
    obtain ⟨s, hfin, rfl⟩ := map_eq_some_iff.1 hstep
    exact ⟨hplaced, fun id ↦ (finishRequests_keptOrEnded hfin id).inSession (h.requests id),
      h.consistent⟩
  | resetPrefixCache resetRunningRequests cacheReset =>
    obtain ⟨s, hreset, rfl⟩ := map_eq_some_iff.1 hstep
    refine ⟨hplaced, fun id r' hr' ↦ ?_, h.consistent⟩
    unfold Scheduler.resetPrefixCache at hreset
    split_ifs at hreset
    · have hnodup : σ.sched.running.reverse.Nodup :=
        nodup_reverse.2 h.placed.sched.running_nodup
      have heq := (resetRunning_requests hnodup hreset id).symm.trans hr'
      split_ifs at heq with hid
      · obtain ⟨r, hr, rfl⟩ := map_eq_some_iff.1 heq
        obtain ⟨r₁, hr₁, hrun⟩ := h.placed.sched.of_mem_running (mem_reverse.1 hid)
        obtain rfl := some.inj (hr₁.symm.trans hr)
        have hlive : r₁.isFinished = false := by
          rw [isFinished, hrun]
          rfl
        exact ⟨fun _ hres ↦ ((h.requests id r₁ hr).coherent hlive hres).congr rfl, by rintro ⟨⟩⟩
      · exact h.requests id r' heq
    · exact h.requests id r' (some.inj hreset ▸ hr')
  | updateDraftTokenIds drafts =>
    simp only [System.step] at hstep
    split_ifs at hstep
    cases hstep
    refine ⟨hplaced, fun id r' hr' ↦ ?_, h.consistent⟩
    obtain ⟨spec, hspec⟩ := updateDraftTokenIds_requests drafts id
    obtain ⟨r, hr, rfl⟩ := map_eq_some_iff.1 (hspec.symm.trans hr')
    have h₀ := h.requests id r hr
    exact ⟨fun hlive hres ↦ (h₀.coherent hlive hres).congr rfl, h₀.resumable⟩

end

end

/-- **Session updates are consistent** in every run whose calls meet the condition. -/
theorem sessions_consistent {B : BlockHasher H E} {cfg : SchedulerConfig H E}
    (hB : cfg.hasher = some B.requestBlockHasher) {σ : System H E}
    (h : Run cfg (SessionsKeyed B.blockSize cfg) σ) :
    ∀ rec ∈ σ.sessions, SessionConsistent B rec := by
  have hinit : (init : System H E).InSessions B :=
    ⟨placed_init, fun _ _ hr ↦ absurd hr nofun, fun _ hrec ↦ absurd hrec not_mem_nil⟩
  have hinv : σ.InSessions B := Run.invariant h hinit
    fun hσ hok hstep ↦ hσ.step hB hok hstep
  exact hinv.consistent

/-- The tokens of a hashed block. -/
def SymbolicDigest.blockTokens : SymbolicDigest → List ℕ
  | .block _ tokens _ => tokens
  | _ => []

/-- Prefix caching with blocks of four tokens. -/
def cachingConfig : SchedulerConfig SymbolicDigest ℕ where
  maxNumScheduledTokens := 8
  maxNumRunningReqs := 4
  maxModelLen := 100
  drafterMaxModelLen := 100
  hasher := some hasherOfFour.requestBlockHasher

/-- An input of a session that ends with token `7`. -/
def sessionInput (prompt : List ℕ) : NewRequest ℕ where
  requestId := 0
  promptTokenIds := some prompt
  maxTokens := 10
  samplingParams := { eosTokenId := some 7 }
  resumable := true

/-- A session whose second input arrives while the first one runs; then the first one stops. -/
def twoInputs (prompt next : List ℕ) : List (Call ℕ) :=
  [.addRequest (sessionInput prompt) fun _ ↦ false, .schedule {},
    .addRequest (sessionInput next) fun _ ↦ false, .sampled [7]]

/-- The stop token completes the first block, is dropped with the update, and stays in the hash of
the first block. -/
theorem dropped_token_hashed :
    ∃ σ, exec (step cachingConfig) (twoInputs [1, 2, 3] [8]) init =
      some σ ∧ ∃ rec ∈ σ.sessions, rec.after.allTokenIds = [1, 2, 3, 8] ∧
        ¬ SessionConsistent hasherOfFour rec := by
  obtain ⟨σ, hσ, rec, hmem, htokens, hold, hnew⟩ : ∃ σ ∈ exec
      (step cachingConfig) (twoInputs [1, 2, 3] [8]) init, ∃ rec ∈ σ.sessions,
        rec.after.allTokenIds = [1, 2, 3, 8] ∧
        rec.after.blockHashes.map SymbolicDigest.blockTokens = [[1, 2, 3, 7]] ∧
        (hasherOfFour.requestBlockHasher { rec.after with blockHashes := [] }).map
          SymbolicDigest.blockTokens = [[1, 2, 3, 8]] := by
    decide
  refine ⟨σ, hσ, rec, hmem, htokens, fun h ↦ ?_⟩
  rw [h.hashes, hnew] at hold
  cases hold

/-- With the first block complete before, the second block is hashed after the update. -/
theorem sessions_consistent_twoInputs :
    ∃ σ, exec (step cachingConfig) (twoInputs [1, 2, 3, 4] [8, 9, 10, 11])
      init = some σ ∧ σ.sessions.length = 1 ∧
        ∀ rec ∈ σ.sessions, SessionConsistent hasherOfFour rec := by
  obtain ⟨σ, hσ, hlen⟩ : ∃ σ ∈ exec (step cachingConfig)
      (twoInputs [1, 2, 3, 4] [8, 9, 10, 11]) init, σ.sessions.length = 1 := by
    decide
  exact ⟨σ, hσ, hlen, sessions_consistent rfl (Run.of_exec .start (by decide) hσ)⟩

end OneCatVllm
