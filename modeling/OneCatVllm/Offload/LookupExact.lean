import Mathlib.Data.Nat.ModEq
import OneCatVllm.Offload.ConfirmedHits

/-!
# When the hits of the offload lookup are sound

A hit that ends at `e` is sound when what is needed to continue at `e` was answered present: all
keys of full-attention groups, the keys of the window that ends at `e`, and the Mamba state at
exactly `e`. The lookup confirms blocks, not positions: a hit may end inside a block of a group, at
a boundary of another group or before the last token of the request. **Exactly for compatible
groups** (`Compatible`) this is sound for all requests and all managers. In particular Mamba groups
outside the mode `align` are not: a request whose tokens fill its last block is given the state
behind its last token, which is computed once more.
-/

namespace OneCatVllm.Offload

open Grid GroupOffloadConfig Nat

variable {cfg : SchedulerOffloadConfig} {H M : Type}

/-- **What a hit up to `e` has to guarantee.** The token at `e` attends to the last positions of a
window; keys of positions before the local tokens are not needed. -/
def HitSound (req : OffloadRequest cfg H) (numComputedTokens e : ℕ)
    (log : List (OffloadKey H × Answer)) : Prop :=
  ∀ g ∈ cfg.kvGroupConfigs,
    match g.kind with
    | .fullAttention => ∀ p, numComputedTokens ≤ p → p < e →
        Hit log (req.offloadKeys g) (p / g.offloadedBlockSize)
    | .slidingWindow window => ∀ p, numComputedTokens ≤ p → p < e → e < p + window →
        Hit log (req.offloadKeys g) (p / g.offloadedBlockSize)
    | .mamba => g.offloadedBlockSize ∣ e ∧
        Hit log (req.offloadKeys g) (e / g.offloadedBlockSize - 1)

/-- Every hit is sound, for every manager, every request and with or without EAGLE. -/
def LookupSound (cfg : SchedulerOffloadConfig) : Prop :=
  ∀ (H M : Type) [DecidableEq H] (lookup : M → OffloadKey H → Answer × M) (m : M)
    (req : OffloadRequest cfg H) (numComputedTokens : ℕ) (useEagle : Bool)
    (blocksBeingLoaded : List (OffloadKey H)) (h : ℕ) (s' : M × List (OffloadKey H × Answer)),
    lookupTokens (logged lookup) req numComputedTokens useEagle blocksBeingLoaded (m, []) =
      (some h, s') → 0 < h → HitSound req numComputedTokens (numComputedTokens + h) s'.2

/-- What a group needs of the block boundaries of another one. A window may end inside a block when
it is short enough to be covered by its blocks from there on. -/
def Compatible (mambaAlign : Bool) (g g' : GroupOffloadConfig) : Prop :=
  match g.kind with
  | .fullAttention => True
  | .slidingWindow window => g.offloadedBlockSize ∣ g'.offloadedBlockSize ∨
      g.offloadedBlockSize + window ≤ Nat.gcd g.offloadedBlockSize g'.offloadedBlockSize + 1 +
        cdiv window g.offloadedBlockSize * g.offloadedBlockSize
  | .mamba => (mambaAlign = true ∨ g.offloadedBlockSize = 1) ∧
      g.offloadedBlockSize ∣ g'.offloadedBlockSize

instance (mambaAlign : Bool) (g g' : GroupOffloadConfig) : Decidable (Compatible mambaAlign g g') :=
  by dsimp only [Compatible]; split <;> infer_instance

/-- All groups are compatible with one another. -/
def SchedulerOffloadConfig.Coherent (cfg : SchedulerOffloadConfig) : Prop :=
  ∀ g ∈ cfg.kvGroupConfigs, ∀ g' ∈ cfg.kvGroupConfigs, Compatible cfg.mambaAlign g g'

instance : Decidable cfg.Coherent :=
  inferInstanceAs (Decidable (∀ _ ∈ _, ∀ _ ∈ _, _))

/-! ### Compatible groups -/

section Sound

variable {req : OffloadRequest cfg H} {numComputedTokens e : ℕ} {g : GroupOffloadConfig}
  {log : List (OffloadKey H × Answer)}

section

variable (hg : g ∈ cfg.kvGroupConfigs)

include hg

theorem mem_slidingWindowGroups_of_kind
    (hkind : g.kind ≠ .fullAttention) : g ∈ cfg.slidingWindowGroups := by
  refine mem_slidingWindowGroups.2 ⟨hg, ?_⟩
  rw [slidingWindowSizeInBlocks]
  rcases hk : g.kind with - | window | -
  · exact absurd hk hkind
  · rfl
  · rfl

/-- A confirmed group has keys up to the end of the hit. -/
theorem Confirmed.le_numTokens
    (h : Confirmed req numComputedTokens g e log) (he : numComputedTokens < e) :
    cdiv e g.offloadedBlockSize ≤ req.numTokens / g.offloadedBlockSize := by
  have hpos := cfg.pos g hg
  have hlast : numComputedTokens / g.offloadedBlockSize < cdiv e g.offloadedBlockSize := by
    rw [lt_cdiv_iff hpos]
    exact (div_mul_le_self _ _).trans_lt he
  have hhit := (h (cdiv e g.offloadedBlockSize - 1) (le_sub_one_of_lt hlast)
    (sub_one_lt_of_lt hlast) fun size hsize ↦ by
    have := cfg.slidingWindowSize_pos hg hsize
    omega).lt
  rw [(req.offloadKeys_spec hg).1] at hhit
  omega

/-- The Mamba state at the end of a hit. -/
theorem Confirmed.mamba (hkind : g.kind = .mamba)
    (h : Confirmed req numComputedTokens g e log) (he : numComputedTokens < e)
    (hdvd : g.offloadedBlockSize ∣ e) :
    Hit log (req.offloadKeys g) (e / g.offloadedBlockSize - 1) := by
  have hpos := cfg.pos g hg
  obtain ⟨k, rfl⟩ := hdvd
  have hend : cdiv (g.offloadedBlockSize * k) g.offloadedBlockSize = k := by
    rw [mul_comm, cdiv_mul hpos]
  have hlast : numComputedTokens / g.offloadedBlockSize < k := Nat.div_lt_of_lt_mul he
  rw [Nat.mul_div_cancel_left k hpos]
  have hk : 0 < k := zero_lt_of_lt hlast
  refine h (k - 1) (le_sub_one_of_lt hlast) (by omega) fun size hsize ↦ ?_
  rw [slidingWindowSizeInBlocks, hkind] at hsize
  cases hsize
  omega

end

/-- The blocks of a window that ends at `e` reach back to its first position. -/
theorem cdiv_le_of_window {b window p : ℕ} (hb : 0 < b)
    (hend : b ∣ e ∨ b + window ≤ e % b + 1 + cdiv window b * b) (hp : e < p + window) :
    cdiv e b ≤ p / b + cdiv window b := by
  have hwindow : window ≤ cdiv window b * b := (cdiv_le_iff hb).1 le_rfl
  have hblock : p < (p / b + 1) * b := by
    rw [mul_comm]
    exact lt_mul_div_succ p hb
  rw [add_mul] at hblock
  by_contra hlt
  have hlt' : (p / b + cdiv window b) * b < e := (lt_cdiv_iff hb).1 (Nat.lt_of_not_le hlt)
  rcases hend with ⟨k, rfl⟩ | hend
  · rw [mul_comm b k] at hlt' hp
    have hstep : (p / b + cdiv window b + 1) * b ≤ k * b :=
      mul_le_mul_right b (Nat.lt_of_mul_lt_mul_right hlt')
    rw [add_mul, add_mul] at hstep
    omega
  · have hdiv := div_add_mod' e b
    have hstep : (p / b + cdiv window b) * b ≤ e / b * b :=
      mul_le_mul_right b ((le_div_iff_mul_le hb).2 hlt'.le)
    rw [add_mul] at hstep
    omega

/-- **Compatible groups make hits sound.** -/
theorem hitSound_of_confirmed (hcoherent : cfg.Coherent) (he : numComputedTokens < e)
    (hsettled : Settled req e)
    (hconf : ∀ g ∈ cfg.kvGroupConfigs, Confirmed req numComputedTokens g e log) :
    HitSound req numComputedTokens e log := by
  intro g hg
  have hpos := cfg.pos g hg
  have hcover : ∀ p, p < e → p / g.offloadedBlockSize < cdiv e g.offloadedBlockSize := by
    intro p hp
    rw [lt_cdiv_iff hpos]
    exact (div_mul_le_self _ _).trans_lt hp
  rcases hkind : g.kind with - | window | -
  · intro p hlocal hp
    refine hconf g hg _ (Nat.div_le_div_right hlocal) (hcover p hp) fun size hsize ↦ ?_
    rw [slidingWindowSizeInBlocks, hkind] at hsize
    cases hsize
  · intro p hlocal hp hwindow
    refine hconf g hg _ (Nat.div_le_div_right hlocal) (hcover p hp) fun size hsize ↦ ?_
    rw [slidingWindowSizeInBlocks, hkind] at hsize
    cases hsize
    refine cdiv_le_of_window hpos ?_ hwindow
    rcases hsettled with ⟨g', hg', hdvd⟩ | ⟨-, hlast⟩ | hnil
    · -- the hit ends at a boundary of another group
      have hcompatible := hcoherent g hg g' hg'
      rw [Compatible, hkind] at hcompatible
      rcases hcompatible with hdvd' | hshort
      · exact .inl (hdvd'.trans hdvd)
      · by_cases hrem : e % g.offloadedBlockSize = 0
        · exact .inl (dvd_of_mod_eq_zero hrem)
        · refine .inr (hshort.trans ?_)
          have hgcd :
              Nat.gcd g.offloadedBlockSize g'.offloadedBlockSize ∣ e % g.offloadedBlockSize :=
            (dvd_mod_iff (Nat.gcd_dvd_left _ _)).2 ((Nat.gcd_dvd_right _ _).trans hdvd)
          have := le_of_dvd (pos_of_ne_zero hrem) hgcd
          omega
    · -- the hit ends before the last token
      have hkeys := (hconf g hg).le_numTokens hg he
      rw [cdiv_le_iff hpos] at hkeys
      have hdiv := div_add_mod' req.numTokens g.offloadedBlockSize
      have hwindow' : window ≤ cdiv window g.offloadedBlockSize * g.offloadedBlockSize :=
        (cdiv_le_iff hpos).1 le_rfl
      by_cases hrem : req.numTokens % g.offloadedBlockSize = 0
      · obtain ⟨k, hk⟩ := dvd_of_mod_eq_zero hrem
        have hkpos : 0 < k := by
          rcases Nat.eq_zero_or_pos k with rfl | hkpos
          · omega
          · exact hkpos
        have hmod : e % g.offloadedBlockSize = g.offloadedBlockSize - 1 := by
          obtain ⟨j, rfl⟩ := exists_eq_succ_of_ne_zero hkpos.ne'
          rw [mul_succ] at hk
          have heq : e = g.offloadedBlockSize - 1 + g.offloadedBlockSize * j := by omega
          rw [heq, add_mul_mod_self_left, mod_eq_of_lt (by omega)]
        refine .inr ?_
        omega
      · refine .inl ?_
        have heq : e = req.numTokens / g.offloadedBlockSize * g.offloadedBlockSize := by omega
        rw [heq]
        exact dvd_mul_left _ _
    · have hmem := mem_slidingWindowGroups_of_kind hg (by rw [hkind]; rintro ⟨⟩)
      rw [hnil] at hmem
      cases hmem
  · have hdvd : g.offloadedBlockSize ∣ e := by
      rcases hsettled with ⟨g', hg', hdvd⟩ | ⟨halign, -⟩ | hnil
      · have hcompatible := hcoherent g hg g' hg'
        rw [Compatible, hkind] at hcompatible
        exact hcompatible.2.trans hdvd
      · have hcompatible := hcoherent g hg g hg
        rw [Compatible, hkind] at hcompatible
        rcases hcompatible.1 with htrue | hone
        · rw [SchedulerOffloadConfig.mambaAlignSize, if_pos htrue, Option.map_eq_none_iff,
            List.find?_eq_none] at halign
          exact absurd (by simpa using hkind) (halign g hg)
        · rw [hone]
          exact one_dvd e
      · have hmem := mem_slidingWindowGroups_of_kind hg (by rw [hkind]; rintro ⟨⟩)
        rw [hnil] at hmem
        cases hmem
    exact ⟨hdvd, (hconf g hg).mamba hg hkind he hdvd⟩

theorem lookupSound_of_coherent (hcoherent : cfg.Coherent) : LookupSound cfg := by
  intro H M _ lookup m req numComputedTokens useEagle blocksBeingLoaded h s' hlookup hpos
  obtain ⟨hsettled, hconf⟩ := lookupTokens_confirmed hlookup hpos
  exact hitSound_of_confirmed hcoherent (by omega) hsettled hconf

end Sound

end OneCatVllm.Offload
