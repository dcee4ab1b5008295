import OneCatVllm.Lib.Transition
import OneCatVllm.Worker.BatchSteps

/-!
# Runs of the persistent batch

The model runner works on the batch in steps: it removes requests, adds requests and sets draft
tokens, condenses the batch, lets the attention backend swap rows, and refreshes the metadata. A
`Roster` is what it knows about the batch without looking into a buffer: the requests that are in
it, and how far the step is.

In every run all rows follow their requests, **except for the mask of allowed tokens**, which a swap
does not exchange and which a move leaves behind. `maskSafe` is the exact condition on a call under
which the masks follow too.
-/

namespace OneCatVllm.Batch

open Dict InputBatch List Option Transition

/-- How far the current step is: `settled` after `condense`. -/
inductive Phase
  | removing
  | adding
  | settled
  deriving DecidableEq

/-- The requests in the batch. -/
structure Roster where
  live : List (ℕ × LiveRequest)
  phase : Phase

/-- No requests. -/
def Roster.empty : Roster := ⟨[], .removing⟩

/-- The calls of the model runner. -/
inductive BatchCall
  | remove (r : ℕ)
  | add (req : CachedRequestState)
  | updateSpec (r : ℕ) (specTokenIds : List ℤ)
  | condense
  | swap (i₁ i₂ : ℕ)
  | refresh

section

variable (cfg : BatchConfig) (s : InputBatch) (a : Roster) (req : CachedRequestState)

/-- A request that may be added: it is new, there is room for it, and it fits. -/
def Roster.Admits : Prop :=
  a.phase ≠ .settled ∧ req.reqId ∉ keys a.live ∧ a.live.length < cfg.maxNumReqs ∧
    Fits cfg req ∧ Recognized cfg req

instance : Decidable (Recognized cfg req) :=
  inferInstanceAs (Decidable (if cfg.isPoolingModel then _ else _))

instance : Decidable (a.Admits cfg req) :=
  inferInstanceAs (Decidable (_ ∧ _ ∧ _ ∧ _ ∧ _))

/-- The requests after a call, for the calls that the model runner makes. -/
def Roster.next : BatchCall → Option Roster
  | .remove r => if a.phase = .removing then some { a with live := pop a.live r } else none
  | .add req =>
    if a.Admits cfg req then some ⟨set a.live req.reqId ⟨req, []⟩, .adding⟩ else none
  | .updateSpec r specTokenIds =>
    match get? a.live r with
    | none => none
    | some e =>
      if a.phase ≠ .settled ∧ e.req.numTokens + specTokenIds.length ≤ cfg.maxModelLen then
        some ⟨set a.live r { e with specTokenIds := specTokenIds }, .adding⟩
      else none
  | .condense => if a.phase ≠ .settled then some { a with phase := .settled } else none
  | .swap i₁ i₂ =>
    if a.phase = .settled ∧ i₁ < a.live.length ∧ i₂ < a.live.length then some a else none
  | .refresh => if a.phase = .settled then some { a with phase := .removing } else none

/-- A call on the batch. -/
def InputBatch.call : BatchCall → Except BatchError InputBatch
  | .remove r => s.removeRequest cfg r
  | .add req => s.addRequest cfg req
  | .updateSpec r specTokenIds => s.updateReqSpecTokenIds cfg r specTokenIds
  | .condense => s.condense cfg
  | .swap i₁ i₂ => s.swapStates cfg i₁ i₂
  | .refresh => .ok s.refreshMetadata

/-- The batch after a call that raises nothing. -/
def InputBatch.next (c : BatchCall) : Option InputBatch :=
  (s.call cfg c).toOption

/-! ### The property of a batch -/

/-- The rows of the mask of allowed tokens are those of the requests in them: all `False` for a
request that restricts nothing. -/
def Masks (live : List (ℕ × LiveRequest)) : Prop :=
  ∀ r i e, s.reqIds[i]? = some (some r) → get? live r = some e →
    ∀ v < cfg.vocabSize, s.maskRow i v = e.masks v

/-- **Rows follow their requests.** The rows with a request are exactly the requests in the batch,
with the index as inverse, and after `condense` they are the rows below `num_reqs`; every row
matches its request, and so does its mask. -/
structure Follows : Prop where
  mem_keys : ∀ r, r ∈ keys s.reqIdToIndex ↔ r ∈ keys a.live
  inverse : ∀ r i, get? s.reqIdToIndex r = some i ↔ s.reqIds[i]? = some (some r)
  numReqs : s.numReqs = a.live.length
  dense : a.phase = .settled → s.reqIds.length = s.numReqs ∧
    ∀ i < s.numReqs, ∃ r, s.reqIds[i]? = some (some r)
  hasRow : ∀ r i e, s.reqIds[i]? = some (some r) → get? a.live r = some e → s.HasRow cfg i e
  tables : IdTables cfg s (requestOf a.live)
  masks : Masks cfg s a.live

/-- **The condition on a call**, in the state before it: a request that restricts nothing is added
to a row without a left-over mask, and two rows are swapped only if their masks are alike. -/
def MaskSafe : BatchCall → Prop
  | .add req => (∀ p ∈ req.samplingParams, p.allowedTokenIds = []) →
      ∀ v < cfg.vocabSize, s.maskRow s.nextRow v = false
  | .swap i₁ i₂ => ∀ v < cfg.vocabSize, s.maskRow i₁ v = s.maskRow i₂ v
  | _ => True

instance : ∀ c, Decidable (MaskSafe cfg s c)
  | .add _ => inferInstanceAs (Decidable (_ → _))
  | .swap _ _ => inferInstanceAs (Decidable (∀ v < cfg.vocabSize, _))
  | .remove _ | .updateSpec _ _ | .condense | .refresh => inferInstanceAs (Decidable True)

/-! ### One call -/

/-- What the calls keep, whatever the masks are. -/
def Regular : Prop :=
  Tracks cfg s a.live ∧
    match a.phase with
    | .removing => Gaps s ∧ s.isRemovedSorted = false
    | .adding => Gaps s
    | .settled => Dense s

end

variable {cfg : BatchConfig} {s s' : InputBatch} {a a' : Roster} {req : CachedRequestState}

theorem Regular.gaps (h : Regular cfg s a) (hphase : a.phase ≠ .settled) : Gaps s := by
  obtain ⟨-, hp⟩ := h
  rcases hphase' : a.phase with - | - | -
  · rw [hphase'] at hp
    exact hp.1
  · rw [hphase'] at hp
    exact hp
  · exact absurd hphase' hphase

theorem Regular.dense (h : Regular cfg s a) (hphase : a.phase = .settled) : Dense s := by
  obtain ⟨-, hp⟩ := h
  rw [hphase] at hp
  exact hp

/-- **Only the masks are in question.** -/
theorem Regular.follows_iff (h : Regular cfg s a) : Follows cfg s a ↔ Masks cfg s a.live := by
  refine ⟨Follows.masks, fun hmasks ↦ ⟨h.1.rows.mem_keys, h.1.rows.inverse, h.1.rows.numReqs_eq,
    fun hphase ↦ ?_, h.1.rows.hasRow, h.1.tables, hmasks⟩⟩
  have hdense := h.dense hphase
  exact ⟨hdense.length, fun i hi ↦ hdense.exists_request hi⟩

/-- Masks move along with their requests. -/
theorem Masks.mono {live live' : List (ℕ × LiveRequest)} (h : Masks cfg s live)
    (hcarries : Carries s s') (hlive : ∀ r e', get? live' r = some e' →
      ∃ e, get? live r = some e ∧ e.masks = e'.masks) : Masks cfg s' live' := by
  intro r j e' hj he' v hv
  obtain ⟨i, hi, hrow⟩ := hcarries r j hj
  obtain ⟨e, he, hmasks⟩ := hlive r e' he'
  rw [hrow, h r i e hi he v hv, hmasks]

/-- The mask of a row after a request is added. -/
theorem maskRow_addedMask {i : ℕ}
    (h : s'.allowedTokenIdsMask = addedMask req i s.allowedTokenIdsMask) (j v : ℕ) :
    s'.maskRow j v =
      if j = i ∧ ∃ p ∈ req.samplingParams, p.allowedTokenIds ≠ [] then
        (⟨req, []⟩ : LiveRequest).masks v
      else s.maskRow j v := by
  unfold addedMask at h
  rcases hp : req.samplingParams with - | p
  · rw [hp] at h
    rw [if_neg (by simp)]
    exact maskRow_congr h j v
  · simp only [hp] at h
    by_cases hallowed : p.allowedTokenIds = []
    · rw [addMask, if_pos hallowed] at h
      rw [if_neg (by simp [hallowed])]
      exact maskRow_congr h j v
    · have hexists : ∃ q ∈ some p, q.allowedTokenIds ≠ [] := ⟨p, rfl, hallowed⟩
      rw [addMask, if_neg hallowed] at h
      rw [maskRow, h]
      by_cases hj : j = i
      · rw [LiveRequest.masks]
        simp [hp, hj, hallowed]
      · rw [if_neg (fun hji ↦ hj hji.1), maskRow]
        dsimp only
        rw [Function.update_of_ne hj]
        rcases s.allowedTokenIdsMask with - | m <;> rfl

variable {specTokenIds : List ℤ}

/-- A request that restricts nothing masks nothing. -/
theorem masks_eq_false (h : ∀ p ∈ req.samplingParams, p.allowedTokenIds = []) (v : ℕ) :
    (⟨req, specTokenIds⟩ : LiveRequest).masks v = false := by
  unfold LiveRequest.masks
  rcases hp : req.samplingParams with - | p
  · rfl
  · simp [h p hp]

section

variable (h : Regular cfg s a) (hmasks : Masks cfg s a.live)

include h hmasks

theorem Regular.remove (hphase : a.phase = .removing) (r : ℕ) :
    ∃ s', s.removeRequest cfg r = .ok s' ∧
      Regular cfg s' { a with live := pop a.live r } ∧ Masks cfg s' (pop a.live r) := by
  obtain ⟨htracks, hp⟩ := h
  rw [hphase] at hp
  obtain ⟨s', hs', htracks', hgaps, hflag, hcarries⟩ := htracks.removeRequest hp.1 hp.2 r
  refine ⟨s', hs', ⟨htracks', ?_⟩, hmasks.mono hcarries fun r' e he ↦ ?_⟩
  · rw [hphase]
    exact ⟨hgaps, hflag⟩
  · rw [get?_pop] at he
    split_ifs at he
    exact ⟨e, he, rfl⟩

/-- **Adding.** The mask of the row is written for a request with a restriction only. -/
theorem Regular.add (hadmits : a.Admits cfg req) :
    ∃ s', s.addRequest cfg req = .ok s' ∧
      Regular cfg s' ⟨set a.live req.reqId ⟨req, []⟩, .adding⟩ ∧
      (Masks cfg s' (set a.live req.reqId ⟨req, []⟩) ↔ MaskSafe cfg s (.add req)) := by
  obtain ⟨hphase, hkey, hroom, hfits, hrec⟩ := hadmits
  have hnew : get? a.live req.reqId = none := get?_eq_none_iff.2 hkey
  obtain ⟨s', hs', htracks', hgaps', hids, hmask⟩ :=
    h.1.addRequest (h.gaps hphase) hnew hroom hfits hrec
  have hrowMask := maskRow_addedMask hmask
  refine ⟨s', hs', ⟨htracks', hgaps'⟩, fun hall hnone v hv ↦ ?_, fun hsafe r j e hj he v hv ↦ ?_⟩
  · have hrow := hall req.reqId s.nextRow ⟨req, []⟩ ((hids _).trans (if_pos rfl))
      ((get?_set _).trans (if_pos rfl)) v hv
    rw [masks_eq_false hnone, hrowMask, if_neg] at hrow
    · exact hrow
    · rintro ⟨-, p, hp, hne⟩
      exact hne (hnone p hp)
  · rw [hids] at hj
    rw [get?_set] at he
    split_ifs at hj with hjrow
    · rw [if_pos (some.inj (some.inj hj))] at he
      cases he
      rw [hrowMask]
      split_ifs with hrestricts
      · rfl
      · have hnone : ∀ p ∈ req.samplingParams, p.allowedTokenIds = [] := by
          intro p hp
          by_contra hne
          exact hrestricts ⟨hjrow, p, hp, hne⟩
        rw [masks_eq_false hnone, hjrow]
        exact hsafe hnone v hv
    · have hr : req.reqId ≠ r := by
        rintro rfl
        obtain ⟨e', he'⟩ := h.1.rows.exists_live hj
        cases hnew.symm.trans he'
      rw [if_neg hr] at he
      rw [hrowMask, if_neg fun hjr ↦ hjrow hjr.1]
      exact hmasks r j e hj he v hv

theorem Regular.updateSpec {r : ℕ} {e : LiveRequest} (he : get? a.live r = some e)
    (hphase : a.phase ≠ .settled)
    (hfits : e.req.numTokens + specTokenIds.length ≤ cfg.maxModelLen) :
    ∃ s', s.updateReqSpecTokenIds cfg r specTokenIds = .ok s' ∧
      Regular cfg s' ⟨set a.live r { e with specTokenIds := specTokenIds }, .adding⟩ ∧
      Masks cfg s' (set a.live r { e with specTokenIds := specTokenIds }) := by
  obtain ⟨s', hs', htracks', hids, hgaps, hmask⟩ := h.1.updateReqSpecTokenIds he hfits
  refine ⟨s', hs', ⟨htracks', hgaps (h.gaps hphase)⟩,
    hmasks.mono (fun r' j hj ↦ ⟨j, hids ▸ hj, maskRow_congr hmask j⟩) fun r' e' he' ↦ ?_⟩
  rw [get?_set] at he'
  split_ifs at he' with hr
  · cases he'
    exact ⟨e, hr ▸ he, rfl⟩
  · exact ⟨e', he', rfl⟩

theorem Regular.condense (hphase : a.phase ≠ .settled) :
    ∃ s', s.condense cfg = .ok s' ∧ Regular cfg s' { a with phase := .settled } ∧
      Masks cfg s' a.live := by
  obtain ⟨s', hs', htracks', hdense, hcarries⟩ := h.1.condense (h.gaps hphase)
  exact ⟨s', hs', ⟨htracks', hdense⟩, hmasks.mono hcarries fun r e he ↦ ⟨e, he, rfl⟩⟩

/-- **Swapping.** Both rows get the mask of the second, so their masks must be alike. -/
theorem Regular.swap (hphase : a.phase = .settled) {i₁ i₂ : ℕ} (h₁ : i₁ < a.live.length)
    (h₂ : i₂ < a.live.length) :
    ∃ s', s.swapStates cfg i₁ i₂ = .ok s' ∧ Regular cfg s' a ∧
      (Masks cfg s' a.live ↔ MaskSafe cfg s (.swap i₁ i₂)) := by
  have hdense := h.dense hphase
  rw [← h.1.rows.numReqs_eq] at h₁ h₂
  obtain ⟨s', hs', htracks', hdense', hids, hmask⟩ := h.1.swapStates hdense h₁ h₂
  have hregular : Regular cfg s' a := by
    refine ⟨htracks', ?_⟩
    rw [hphase]
    exact hdense'
  obtain ⟨id₁, hid₁⟩ := hdense.exists_request h₁
  obtain ⟨e₁, he₁⟩ := h.1.rows.exists_live hid₁
  have hid₁' : s'.reqIds[i₂]? = some (some id₁) := by
    rw [hids, Equiv.swap_apply_right]
    exact hid₁
  refine ⟨s', hs', hregular, fun hall v hv ↦ ?_, fun hsafe r k e hk he v hv ↦ ?_⟩
  · -- the request of the first row is now in the second
    have hnow := hall id₁ i₂ e₁ hid₁' he₁ v hv
    rw [hmask, if_pos (.inr rfl)] at hnow
    rw [hnow]
    exact hmasks id₁ i₁ e₁ hid₁ he₁ v hv
  · rw [hids] at hk
    rw [← hmasks r _ e hk he v hv, hmask]
    have hsafe' : s.maskRow i₁ v = s.maskRow i₂ v := hsafe v hv
    by_cases hk₁ : k = i₁
    · rw [if_pos (.inl hk₁), hk₁, Equiv.swap_apply_left]
    · by_cases hk₂ : k = i₂
      · rw [if_pos (.inr hk₂), hk₂, Equiv.swap_apply_right, hsafe']
      · rw [if_neg (not_or.2 ⟨hk₁, hk₂⟩), Equiv.swap_apply_of_ne_of_ne hk₁ hk₂]

end

theorem Regular.refresh (h : Regular cfg s a) (hphase : a.phase = .settled) :
    Regular cfg s.refreshMetadata { a with phase := .removing } := by
  have hdense := h.dense hphase
  refine ⟨⟨h.1.rows.congr rfl rfl rfl rfl rfl, { h.1.tables with }⟩,
    ⟨nodup_nil, fun i ↦ ?_, hdense.length, fun hflag ↦ by cases hflag⟩, rfl⟩
  exact ⟨nofun, fun hi ↦ absurd hi (hdense.ne_none i)⟩

/-- **One call.** It raises nothing, and the rows follow their requests afterwards exactly when the
call is safe for the masks. -/
theorem Regular.call (h : Regular cfg s a) (hfollows : Follows cfg s a) {c : BatchCall}
    (hnext : a.next cfg c = some a') :
    ∃ s', s.next cfg c = some s' ∧ Regular cfg s' a' ∧ (Follows cfg s' a' ↔ MaskSafe cfg s c) := by
  have hmasks := hfollows.masks
  suffices hcall : ∃ s', s.call cfg c = .ok s' ∧ Regular cfg s' a' ∧
      (Masks cfg s' a'.live ↔ MaskSafe cfg s c) by
    obtain ⟨s', hs', hregular, hiff⟩ := hcall
    exact ⟨s', Fallible.toOption_eq_some.2 hs', hregular, hregular.follows_iff.trans hiff⟩
  cases c with
  | remove r =>
    rw [Roster.next] at hnext
    split_ifs at hnext with hphase
    cases hnext
    obtain ⟨s', hs', hregular, hmasks'⟩ := h.remove hmasks hphase r
    exact ⟨s', hs', hregular, iff_of_true hmasks' trivial⟩
  | add req =>
    rw [Roster.next] at hnext
    split_ifs at hnext with hadmits
    cases hnext
    exact h.add hmasks hadmits
  | updateSpec r specTokenIds =>
    rw [Roster.next] at hnext
    rcases he : get? a.live r with - | e
    · simp only [he] at hnext
      cases hnext
    · simp only [he] at hnext
      split_ifs at hnext with hspec
      cases hnext
      obtain ⟨s', hs', hregular, hmasks'⟩ := h.updateSpec hmasks he hspec.1 hspec.2
      exact ⟨s', hs', hregular, iff_of_true hmasks' trivial⟩
  | condense =>
    rw [Roster.next] at hnext
    split_ifs at hnext with hphase
    cases hnext
    obtain ⟨s', hs', hregular, hmasks'⟩ := h.condense hmasks hphase
    exact ⟨s', hs', hregular, iff_of_true hmasks' trivial⟩
  | swap i₁ i₂ =>
    rw [Roster.next] at hnext
    split_ifs at hnext with hswap
    cases hnext
    exact h.swap hmasks hswap.1 hswap.2.1 hswap.2.2
  | refresh =>
    rw [Roster.next] at hnext
    split_ifs at hnext with hphase
    cases hnext
    exact ⟨s.refreshMetadata, rfl, h.refresh hphase, iff_of_true hmasks trivial⟩

/-! ### Runs -/

theorem regular_init (cfg : BatchConfig) (memory : ℕ → Row) :
    Regular cfg (init cfg memory) Roster.empty := by
  refine ⟨⟨⟨nodup_nil, nodup_nil, fun r ↦ Iff.rfl, fun r i ↦ ?_, rfl, Nat.zero_le _,
    Nat.zero_le _, fun r i e hi ↦ ?_, fun i _ ↦ ⟨⟨rfl, rfl⟩, ?_⟩, fun _ i ↦ ⟨rfl, rfl⟩,
    fun r e he ↦ ?_⟩, ?_⟩, ?_, rfl⟩
  · exact ⟨nofun, nofun⟩
  · cases hi
  · show (replicate cfg.maxNumReqs []).getD i [] = []
    rw [getD_eq_getElem?_getD, getElem?_replicate]
    split_ifs <;> rfl
  · cases he
  · refine ⟨fun k r ↦ ?_, fun r ↦ rfl, fun r ↦ rfl, fun r ↦ rfl, ⟨fun loraId r ↦ ?_, ?_⟩,
      fun _ ↦ rfl⟩
    · refine ⟨fun hmem ↦ absurd hmem (Finset.notMem_empty r), ?_⟩
      rintro ⟨req, p, hreq, -⟩
      cases hreq
    · refine ⟨?_, ?_⟩
      · rintro ⟨rs, hrs, -⟩
        cases hrs
      · rintro ⟨req, l, hreq, -⟩
        cases hreq
    · exact fun loraId hne ↦ absurd rfl hne
  · exact ⟨nodup_nil, fun i ↦ ⟨nofun, nofun⟩, rfl, nofun⟩

/-- A batch of four rows, with one group of the block table and a vocabulary of eight tokens. -/
def smallBatch : BatchConfig where
  maxNumReqs := 4
  maxModelLen := 16
  vocabSize := 8
  groups := [(1, 4)]

/-- Memory that happens to be zero. -/
def zeroRow : Row where
  tokenIdsCpu := fun _ ↦ 0
  isTokenIds := fun _ ↦ false
  reqPromptEmbeds := none
  numTokensNoSpec := 0
  numPromptTokens := 0
  numComputedTokensCpu := 0
  blockTable := fun _ ↦ ⟨0, fun _ ↦ 0⟩
  requestLoraMapping := 0
  temperatureCpu := 0
  topPCpu := 0
  topKCpu := 0
  frequencyPenaltiesCpu := 0
  presencePenaltiesCpu := 0
  repetitionPenaltiesCpu := 0
  numAcceptedTokensCpu := 0
  specNumAcceptedTokensCpu := 0
  generators := none
  badWordsTokenIds := none
  logitsProcessingNeedsTokenIds := false

/-- A request with a prompt of three tokens in one block, and a list of allowed tokens. -/
def shortRequest (reqId block : ℕ) (allowedTokenIds : List ℕ) : CachedRequestState where
  reqId := reqId
  promptTokenIds := some [5, 6, 7]
  blockIds := [[block]]
  samplingParams := some { allowedTokenIds := allowedTokenIds }
  defined := .inl rfl
  embeds_length := by simp
  isTokenIds_length := by simp

/-- Two requests that restrict nothing are swapped; then one of them leaves, the other moves down,
and a request that may only sample the token `3` joins it. -/
def swapAndMove : List BatchCall :=
  [.add (shortRequest 1 1 []), .add (shortRequest 2 2 []), .condense, .swap 1 0, .refresh,
    .remove 2, .condense, .refresh, .add (shortRequest 3 3 [3]), .updateSpec 3 [4], .condense,
    .refresh]

/-- The request `1` may only sample the token `3`; the request `2` restricts nothing. The second is
ahead of the first in a later step, and the attention backend swaps their rows. -/
def restrictedSwap : List BatchCall :=
  [.add (shortRequest 1 1 [3]), .condense, .refresh, .add (shortRequest 2 2 []), .condense,
    .refresh, .condense, .swap 1 0]

end OneCatVllm.Batch
