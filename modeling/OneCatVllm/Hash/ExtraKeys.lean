import Mathlib.Data.List.TakeWhile
import OneCatVllm.Request

/-!
# Extra keys of a block hash

A block hash covers, besides the block's tokens, everything else that changes the block's cache
contents: the LoRA adapter, the multimodal items that reach into the block, the cache salt and the
prompt embeddings (`generate_block_hash_extra_keys`).

The multimodal part is a loop over the items with a **cursor** that survives from block to block,
so that a long prompt does not rescan the items it has passed. The cursor may start at `-1`,
meaning the last item.

## What a scan records

`recorded fs s e` says in closed form which items of `fs` the block `[s, e)` is keyed by: going
through the items in order, those that end inside the block, then the first one that does not, as
far as it starts before the block's end; items that ended before the block are left out.
`genMmExtraHashKeys_spec` proves that the loop computes it from any cursor that satisfies the
invariant `CursorAt`, and that the invariant moves on to the next block.
-/

namespace OneCatVllm

open List MultiModalFeatureSpec

variable {H E : Type} {s e : ℕ}

/-! ### The code -/

/-- One entry of the extra-key tuple. LoRA names and cache salts are both plain strings; a
multimodal entry is a pair of an identifier and the item's offset relative to the block. -/
inductive ExtraKey (H : Type)
  | str (s : String)
  | mm (identifier : String) (offset : ℤ)
  | digest (h : H)
  deriving DecidableEq

/-- The entry for an item in the block that starts at `s`. -/
def mmKey (s : ℕ) (f : MultiModalFeatureSpec) : ExtraKey H :=
  .mm f.identifier ((f.offset : ℤ) - s)

/-- The `while` loop of `_gen_mm_extra_hash_keys`, on the items from index `idx` on. -/
def mmLoop (s e : ℕ) : List MultiModalFeatureSpec → ℕ → List (ExtraKey H) × ℕ
  | [], idx => ([], idx)
  | f :: fs, idx =>
    if e > f.offset then
      -- this block has passed the current item
      if s ≥ f.stop then mmLoop s e fs (idx + 1)
      else if e ≥ f.stop then
        (mmKey s f :: (mmLoop s e fs (idx + 1)).1, (mmLoop s e fs (idx + 1)).2)
      else ([mmKey s f], idx)
    else ([], idx)

/-- The list index a cursor stands for: a negative one counts from the end. -/
def resolveCursor (n : ℕ) (c : ℤ) : ℕ := if c < 0 then (n + c).toNat else c.toNat

/-- `_gen_mm_extra_hash_keys`. -/
def genMmExtraHashKeys (fs : List MultiModalFeatureSpec) (s e : ℕ) (c : ℤ) :
    List (ExtraKey H) × ℤ :=
  match fs.getLast? with
  | none => ([], c)
  | some last =>
    if last.stop ≤ s then ([], c)
    else
      let idx := resolveCursor fs.length c
      let res := mmLoop s e (fs.drop idx) idx
      (res.1, res.2)

/-- `_gen_lora_extra_hash_keys`. -/
def genLoraExtraHashKeys (r : Request H E) : List (ExtraKey H) :=
  match r.loraRequest with
  | none => []
  | some l => [.str l.loraName]

/-- The cache salt's entry: only in the first block, and not for an empty salt. -/
def cacheSaltKeys (r : Request H E) (s : ℕ) : List (ExtraKey H) :=
  match r.cacheSalt with
  | none => []
  | some salt => if s = 0 ∧ salt ≠ "" then [.str salt] else []

/-- `_gen_prompt_embeds_extra_hash_keys`. The per-block digests are memoised in the source; the
embeddings never change, so the memo is not observable. -/
def genPromptEmbedsExtraHashKeys (sha256 : List E → H) (r : Request H E) (s e : ℕ) :
    List (ExtraKey H) :=
  match r.promptEmbeds with
  | none => []
  | some rows => [.digest (sha256 ((rows.drop s).take (e - s)))]

/-- `generate_block_hash_extra_keys`. -/
def generateBlockHashExtraKeys (sha256 : List E → H) (r : Request H E) (s e : ℕ) (c : ℤ) :
    Option (List (ExtraKey H)) × ℤ :=
  let mm := genMmExtraHashKeys r.mmFeatures s e c
  let keys := genLoraExtraHashKeys r ++ mm.1 ++ cacheSaltKeys r s ++
    genPromptEmbedsExtraHashKeys sha256 r s e
  (if keys = [] then none else some keys, mm.2)

/-! ### What a scan records -/

/-- The item ends before position `e`, and does not start at it. A scan of a block that ends at `e`
moves past such an item. -/
def Passed (e : ℕ) (f : MultiModalFeatureSpec) : Prop := f.offset < e ∧ f.stop ≤ e

instance (e : ℕ) : DecidablePred (Passed e) := fun f ↦
  inferInstanceAs (Decidable (f.offset < e ∧ f.stop ≤ e))

variable {f : MultiModalFeatureSpec}

theorem Passed.mono (h : Passed s f) (hse : s ≤ e) : Passed e f :=
  ⟨h.1.trans_le hse, h.2.trans hse⟩

section

variable (fs : List MultiModalFeatureSpec)

/-- The items that the block `[s, e)` reaches: those that end in it, then the first one that does
not, as far as it starts in it; items that ended before the block are left out. -/
def reached (s e : ℕ) : List MultiModalFeatureSpec :=
  (fs.takeWhile (Passed e ·) ++
    (fs.dropWhile (Passed e ·)).head?.toList.filter (·.offset < e)).filter (s < ·.stop)

/-- The items that the block `[s, e)` is keyed by. Once the last item of the list has ended, no
item is recorded any more. -/
def recorded (s e : ℕ) : List MultiModalFeatureSpec :=
  match fs.getLast? with
  | none => []
  | some last => if last.stop ≤ s then [] else reached fs s e

/-- How many items a scan that has arrived at position `s` has passed. -/
def passedCount (s : ℕ) : ℕ := (fs.takeWhile (Passed s ·)).length

@[simp] theorem passedCount_zero : passedCount fs 0 = 0 := by
  cases fs <;> simp [passedCount, Passed]

end

section

variable {fs : List MultiModalFeatureSpec}

theorem passedCount_cons_of_passed (h : Passed s f) :
    passedCount (f :: fs) s = passedCount fs s + 1 := by
  simp [passedCount, h]

theorem passedCount_cons_of_not_passed (h : ¬ Passed s f) : passedCount (f :: fs) s = 0 := by
  simp [passedCount, h]

/-- An item that ended before the block is skipped. -/
theorem reached_cons_of_stop_le (h : Passed e f) (hs : f.stop ≤ s) :
    reached (f :: fs) s e = reached fs s e := by
  simp [reached, h, not_lt.2 hs]

/-- An item that ends in the block is recorded, and the scan goes on. -/
theorem reached_cons_of_lt_stop (h : Passed e f) (hs : s < f.stop) :
    reached (f :: fs) s e = f :: reached fs s e := by
  simp [reached, h, hs]

end

section

variable (hse : s ≤ e) (fs : List MultiModalFeatureSpec)

include hse

/-- The items passed before the block do not matter to it. -/
theorem reached_drop_passedCount : reached (fs.drop (passedCount fs s)) s e = reached fs s e := by
  induction fs with
  | nil => rfl
  | cons f fs ih =>
    by_cases h : Passed s f
    · rw [passedCount_cons_of_passed h, drop_succ_cons, ih,
        reached_cons_of_stop_le (h.mono hse) h.2]
    · rw [passedCount_cons_of_not_passed h, drop_zero]

/-- The items passed at a later position are those passed now and some of the rest. -/
theorem passedCount_drop :
    passedCount fs s + passedCount (fs.drop (passedCount fs s)) e = passedCount fs e := by
  induction fs with
  | nil => rfl
  | cons f fs ih =>
    by_cases h : Passed s f
    · rw [passedCount_cons_of_passed h, passedCount_cons_of_passed (h.mono hse), drop_succ_cons]
      omega
    · rw [passedCount_cons_of_not_passed h, drop_zero, Nat.zero_add]

/-- **The loop** records what the block reaches, and stops at the first item not yet passed at the
block's end. -/
theorem mmLoop_eq (idx : ℕ) :
    mmLoop (H := H) s e fs idx = ((reached fs s e).map (mmKey s), idx + passedCount fs e) := by
  induction fs generalizing idx with
  | nil => rfl
  | cons f fs ih =>
    unfold mmLoop
    split_ifs with hoff hpast hstop
    · have hp : Passed e f := ⟨hoff, hpast.trans hse⟩
      rw [ih, reached_cons_of_stop_le hp hpast, passedCount_cons_of_passed hp, Nat.add_assoc,
        Nat.add_comm 1]
    · have hp : Passed e f := ⟨hoff, hstop⟩
      rw [ih, reached_cons_of_lt_stop hp (Nat.lt_of_not_le hpast), passedCount_cons_of_passed hp,
        Nat.add_assoc, Nat.add_comm 1]
      rfl
    · -- the item reaches beyond the block, so the cursor stays on it
      have hp : ¬ Passed e f := fun h ↦ hstop h.2
      have hs : s < f.stop := Nat.lt_of_not_le hpast
      have hoff' : f.offset < e := hoff
      simp [reached, passedCount, hp, hs, hoff']
    · have hp : ¬ Passed e f := fun h ↦ hoff h.1
      have hoff' : e ≤ f.offset := not_lt.1 hoff
      simp [reached, passedCount, hp, hoff']

end

/-! ### The cursor -/

/-- **The cursor invariant** of a hashing call that sees the items `vs`, a final part of the
request's list: on arrival at position `s` the cursor stands at the first item of `vs` not yet
passed, unless the last item has ended and the cursor is no longer read. -/
def CursorAt (fs vs : List MultiModalFeatureSpec) (s : ℕ) (c : ℤ) : Prop :=
  resolveCursor fs.length c = fs.length - vs.length + passedCount vs s ∨
    ∀ last ∈ fs.getLast?, last.stop ≤ s

@[simp] theorem resolveCursor_natCast (n k : ℕ) : resolveCursor n k = k := by
  simp [resolveCursor]

section

variable (fs : List MultiModalFeatureSpec)

/-- The items a call sees when its cursor starts at `-1`. -/
def lastOnly : List MultiModalFeatureSpec := fs.getLast?.toList

theorem lastOnly_suffix : lastOnly fs <:+ fs := by
  rcases fs.eq_nil_or_concat with rfl | ⟨pre, last, rfl⟩
  · exact suffix_rfl
  · simp [lastOnly]

@[simp] theorem getLast?_lastOnly : (lastOnly fs).getLast? = fs.getLast? := by
  rcases h : fs.getLast? with - | last <;> simp [lastOnly, h]

/-- A call that starts later sees the last item only. -/
theorem cursorAt_lastOnly (s : ℕ) : CursorAt fs (lastOnly fs) s (-1) := by
  rcases hlast : fs.getLast? with - | last
  · exact .inr (by simp [hlast])
  by_cases hp : Passed s last
  · refine .inr fun l hl ↦ ?_
    rw [hlast, Option.mem_some_iff] at hl
    exact hl ▸ hp.2
  · refine .inl ?_
    have hl : lastOnly fs = [last] := by simp [lastOnly, hlast]
    simp only [resolveCursor, hl, passedCount, takeWhile_cons, hp, length_singleton]
    simp
    omega

end

/-- **One block.** From a cursor in the right place, the multimodal keys of a block are those of
the items recorded for it, and the cursor is in the right place for the next block. -/
theorem genMmExtraHashKeys_spec {fs vs : List MultiModalFeatureSpec} {c : ℤ} (hvs : vs <:+ fs)
    (hlast : vs.getLast? = fs.getLast?) (hse : s ≤ e) (hc : CursorAt fs vs s c) :
    (genMmExtraHashKeys (H := H) fs s e c).1 = (recorded vs s e).map (mmKey s) ∧
      CursorAt fs vs e (genMmExtraHashKeys (H := H) fs s e c).2 := by
  rw [genMmExtraHashKeys, recorded, hlast]
  rcases h : fs.getLast? with - | last
  · exact ⟨rfl, .inr (by simp [h])⟩
  by_cases hstop : last.stop ≤ s
  · simp only [hstop, if_true]
    refine ⟨rfl, .inr fun l hl ↦ ?_⟩
    rw [h, Option.mem_some_iff] at hl
    exact hl ▸ hstop.trans hse
  · simp only [hstop, if_false]
    have hidx : resolveCursor fs.length c = fs.length - vs.length + passedCount vs s :=
      hc.resolve_right fun hall ↦ hstop (hall last h)
    -- dropping up to the cursor leaves the items of `vs` not yet passed
    obtain ⟨pre, rfl⟩ := hvs
    have hpre : (pre ++ vs).length - vs.length = pre.length := by simp
    rw [hidx, hpre, drop_append, drop_of_length_le (by omega), nil_append,
      Nat.add_sub_cancel_left, mmLoop_eq hse, reached_drop_passedCount hse]
    refine ⟨rfl, .inl ?_⟩
    rw [resolveCursor_natCast, hpre, Nat.add_assoc, passedCount_drop hse]

end OneCatVllm
