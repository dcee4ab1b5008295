import Mathlib.Data.Multiset.AddSub

/-!
# Reference counts and free lists

Items with reference counts, and free lists that hold the items without references. The items are
split over several sides, each with a free list of its own. The **owners** are the multiset of all
references that were handed out; a caller gives back only references it has.

`Balanced` says that counts, free lists and owners agree. It is kept by taking items out of a free
list, by adding a reference, and by releasing references.
-/

namespace Ledger

open Int List Multiset

variable {α σ : Type*} [DecidableEq α]

/-- **A balanced ledger.** -/
structure Balanced (valid : α → Prop) (side : α → σ) (ref : α → ℤ) (free : σ → List α)
    (owners : Multiset α) : Prop where
  nodup : ∀ s, (free s).Nodup
  mem_free : ∀ {s b}, b ∈ free s ↔ valid b ∧ side b = s ∧ ref b = 0
  ref_eq : ∀ {b}, valid b → ref b = owners.count b
  valid_of_mem : ∀ {b}, b ∈ owners → valid b

namespace Balanced

variable {valid : α → Prop} {side : α → σ} {ref ref' : α → ℤ} {free free' : σ → List α}
  {owners : Multiset α} {s : σ} {b : α} {l bs : List α}

section

variable (h : Balanced valid side ref free owners)

include h

theorem ref_nonneg (hb : valid b) : 0 ≤ ref b := by
  rw [h.ref_eq hb]
  omega

/-- **Free exactly once.** -/
theorem count_free (hb : valid b) (hs : side b = s) (href : ref b = 0) : (free s).count b = 1 :=
  count_eq_one_of_mem (h.nodup s) (h.mem_free.2 ⟨hb, hs, href⟩)

/-- **In use, not free.** -/
theorem notMem_free (href : 0 < ref b) : b ∉ free s := by
  intro hb
  have hzero := (h.mem_free.1 hb).2.2
  omega

/-- Items that are held are not free. -/
theorem notMem_free_of_mem_owners (hb : b ∈ owners) : b ∉ free s := by
  refine h.notMem_free ?_
  rw [h.ref_eq (h.valid_of_mem hb)]
  exact natCast_pos.2 (count_pos.2 hb)

end

/-- **The start**: every item is free on its side, nothing is owned. -/
theorem init (hnodup : ∀ s, (free s).Nodup) (hfree : ∀ {s b}, b ∈ free s ↔ valid b ∧ side b = s) :
    Balanced valid side (fun _ ↦ 0) free 0 := by
  refine ⟨hnodup, ?_, ?_, ?_⟩
  · intro s b
    rw [hfree]
    exact ⟨fun h ↦ ⟨h.1, h.2, rfl⟩, fun h ↦ ⟨h.1, h.2.1⟩⟩
  · intro b _
    rw [count_zero, Int.natCast_zero]
  · exact fun hb ↦ absurd hb (notMem_zero _)

section

variable (h : Balanced valid side ref free owners)

include h

/-- **Taking** items out of a free list gives each of them its first reference. -/
theorem take (hperm : (free s).Perm (l ++ free' s)) (hother : ∀ t, t ≠ s → free' t = free t)
    (href : ∀ b, valid b → ref' b = ref b + l.count b) :
    Balanced valid side ref' free' (owners + (l : Multiset α)) := by
  have hnodup : (l ++ free' s).Nodup := hperm.nodup_iff.1 (h.nodup s)
  have hmem : ∀ {b}, b ∈ l → valid b ∧ side b = s ∧ ref b = 0 := fun {b} hb ↦
    h.mem_free.1 (hperm.mem_iff.2 (mem_append_left _ hb))
  refine ⟨fun t ↦ ?_, fun {t b} ↦ ?_, fun {b} hb ↦ ?_, fun {b} hb ↦ ?_⟩
  · by_cases ht : t = s
    · exact ht ▸ (nodup_append.1 hnodup).2.1
    · exact hother t ht ▸ h.nodup t
  · by_cases ht : t = s
    · subst ht
      refine ⟨fun hb ↦ ?_, fun ⟨hv, hside, hzero⟩ ↦ ?_⟩
      · obtain ⟨hv, hside, hzero⟩ :=
          h.mem_free.1 (hperm.mem_iff.2 (mem_append_right _ hb))
        have hnotMem : b ∉ l := fun hl ↦ (nodup_append.1 hnodup).2.2 b hl b hb rfl
        refine ⟨hv, hside, ?_⟩
        rw [href b hv, hzero, count_eq_zero_of_not_mem hnotMem, Int.natCast_zero, Int.add_zero]
      · rw [href b hv] at hzero
        have hnonneg := h.ref_nonneg hv
        have hcount : l.count b = 0 := by omega
        have hfree : b ∈ free t := h.mem_free.2 ⟨hv, hside, by omega⟩
        exact (mem_append.1 (hperm.mem_iff.1 hfree)).resolve_left (count_eq_zero.1 hcount)
    · rw [hother t ht, h.mem_free]
      refine and_congr_right fun hv ↦ and_congr_right fun hside ↦ ?_
      have hnotMem : b ∉ l := fun hl ↦ ht (hside.symm.trans (hmem hl).2.1)
      rw [href b hv, count_eq_zero_of_not_mem hnotMem, Int.natCast_zero, Int.add_zero]
  · rw [href b hb, h.ref_eq hb, count_add, coe_count, natCast_add]
  · rcases mem_add.1 hb with hb | hb
    · exact h.valid_of_mem hb
    · exact (hmem (mem_coe.1 hb)).1

/-- **Touching** a free item takes it out of its list. -/
theorem touch_free (hb : valid b) (hzero : ref b = 0)
    (hs : free' (side b) = (free (side b)).erase b) (hother : ∀ t, t ≠ side b → free' t = free t)
    (href : ∀ c, valid c → ref' c = ref c + [b].count c) :
    Balanced valid side ref' free' (owners + {b}) := by
  refine h.take ?_ hother href
  rw [hs]
  exact perm_cons_erase (h.mem_free.2 ⟨hb, rfl, hzero⟩)

/-- **Touching** an item in use only counts. -/
theorem touch_held (hb : valid b) (hpos : ref b ≠ 0)
    (href : ∀ c, valid c → ref' c = ref c + [b].count c) :
    Balanced valid side ref' free (owners + {b}) := by
  refine ⟨h.nodup, fun {t c} ↦ ?_, fun {c} hc ↦ ?_, fun {c} hc ↦ ?_⟩
  · rw [h.mem_free]
    refine and_congr_right fun hv ↦ and_congr_right fun _ ↦ ?_
    rw [href c hv]
    have hnonneg := h.ref_nonneg hv
    by_cases hcb : c = b
    · subst hcb
      omega
    · rw [count_eq_zero_of_not_mem (by simpa using hcb)]
      omega
  · rw [href c hc, h.ref_eq hc, count_add, ← coe_singleton, coe_count, natCast_add]
  · rcases mem_add.1 hc with hc | hc
    · exact h.valid_of_mem hc
    · exact Multiset.mem_singleton.1 hc ▸ hb

/-- **Releasing** references: the items that lose their last one return to the free lists. -/
theorem release (hown : (bs : Multiset α) ≤ owners)
    (href : ∀ b, valid b → ref' b = ref b - bs.count b)
    (hmem : ∀ {t b}, b ∈ free' t ↔ (b ∈ bs ∧ ref' b = 0 ∧ side b = t) ∨ b ∈ free t)
    (hnodup' : ∀ t, (free' t).Nodup) :
    Balanced valid side ref' free' (owners - (bs : Multiset α)) := by
  have hheld : ∀ {b}, b ∈ bs → valid b ∧ 0 < ref b := by
    intro b hb
    have hcount : 0 < owners.count b :=
      count_pos.2 (mem_of_le hown (mem_coe.2 hb))
    have hv := h.valid_of_mem (count_pos.1 hcount)
    exact ⟨hv, by rw [h.ref_eq hv]; exact natCast_pos.2 hcount⟩
  refine ⟨hnodup', fun {t b} ↦ ?_, fun {b} hb ↦ ?_, fun {b} hb ↦ ?_⟩
  · rw [hmem, h.mem_free]
    constructor
    · rintro (⟨hb, hzero, hside⟩ | ⟨hv, hside, hzero⟩)
      · exact ⟨(hheld hb).1, hside, hzero⟩
      · have hnotMem : b ∉ bs := fun hb ↦ by
          have hpos := (hheld hb).2
          omega
        refine ⟨hv, hside, ?_⟩
        rw [href b hv, hzero, count_eq_zero_of_not_mem hnotMem, Int.natCast_zero, Int.sub_zero]
    · rintro ⟨hv, hside, hzero⟩
      by_cases hb : b ∈ bs
      · exact .inl ⟨hb, hzero, hside⟩
      · rw [href b hv, count_eq_zero_of_not_mem hb, Int.natCast_zero, Int.sub_zero] at hzero
        exact .inr ⟨hv, hside, hzero⟩
  · have hle : bs.count b ≤ owners.count b := by
      rw [← coe_count]
      exact count_le_of_le b hown
    rw [href b hb, h.ref_eq hb, count_sub, coe_count]
    omega
  · exact h.valid_of_mem (mem_of_le (Multiset.sub_le_self ..) hb)

end

end Balanced

end Ledger
