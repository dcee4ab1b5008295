import OneCatVllm.Lib.PartialParser

/-!
# Machines over buffered input

A machine reads a buffer from the front. A step either needs more input (`wait`), or fails, or
takes something off the buffer and goes to another state (`next`). `run` takes steps as long as
there are some; what is left of the buffer waits for the next input.

How a stream is **cut** should not matter to such a machine. It does not when a step on the input
so far is either the step that is also made with more input behind it, or a first part of that step
(`Cuttable`): running on `x ++ y` is then running on `x` and going on with what was left followed
by `y` (`run_append`).

The machines of interest read one event after the other with a parser over partial input
(`readStep`). Where the parser's answer is stable, so is the step (`readStep_append`).
-/

namespace Buffered

open List

variable {σ τ : Type*}

/-- What one step does. -/
inductive Progress (σ τ : Type*)
  | wait
  | fail
  | next (state : σ) (rest : List τ)

/-- The same step with more input after the rest. -/
def Progress.append (y : List τ) : Progress σ τ → Progress σ τ
  | .next s rest => .next s (rest ++ y)
  | p => p

/-- Where a run stops. -/
@[ext]
structure Stop (σ τ : Type*) where
  /-- The state reached. -/
  state : σ
  /-- What is left of the buffer. -/
  rest : List τ
  /-- Whether the last step failed. -/
  failed : Bool
  deriving DecidableEq

/-- Take steps until one waits or fails, at most `n`. -/
def drain (step : σ → List τ → Progress σ τ) : ℕ → σ → List τ → Stop σ τ
  | 0, s, x => ⟨s, x, false⟩
  | n + 1, s, x =>
    match step s x with
    | .wait => ⟨s, x, false⟩
    | .fail => ⟨s, x, true⟩
    | .next s' rest => drain step n s' rest

/-- Take steps until one waits or fails. Each takes something off the buffer, so that there are no
more than its length. -/
def run (step : σ → List τ → Progress σ τ) (s : σ) (x : List τ) : Stop σ τ :=
  drain step (x.length + 1) s x

variable {step : σ → List τ → Progress σ τ} {s s' : σ} {x y rest : List τ}

theorem Progress.append_append (p : Progress σ τ) : (p.append x).append y = p.append (x ++ y) := by
  rcases p with - | - | ⟨s, rest⟩
  · rfl
  · rfl
  · exact congrArg _ (append_assoc rest x y)

/-- Every step takes something off the buffer. -/
def Shrinks (step : σ → List τ → Progress σ τ) : Prop :=
  ∀ ⦃s x s' rest⦄, step s x = .next s' rest → rest.length < x.length

theorem drain_eq_of_lt (hstep : Shrinks step) {n m : ℕ} (hn : x.length < n) (hm : x.length < m) :
    drain step n s x = drain step m s x := by
  induction n generalizing m s x with
  | zero => omega
  | succ n ih =>
    obtain ⟨m, rfl⟩ : ∃ k, m = k + 1 := ⟨m - 1, by omega⟩
    unfold drain
    rcases h : step s x with - | - | ⟨s', rest⟩
    · rfl
    · rfl
    · have := hstep h
      exact ih (by omega) (by omega)

theorem run_of_wait (h : step s x = .wait) : run step s x = ⟨s, x, false⟩ := by
  rw [run, drain, h]

theorem run_of_fail (h : step s x = .fail) : run step s x = ⟨s, x, true⟩ := by
  rw [run, drain, h]

section

variable (hstep : Shrinks step)

include hstep

theorem run_of_next (h : step s x = .next s' rest) : run step s x = run step s' rest := by
  have hlt := hstep h
  rw [run, drain, h]
  exact drain_eq_of_lt hstep (by omega) (by omega)

/-- **Induction over a run.** -/
theorem run_induction {P : σ → List τ → Stop σ τ → Prop}
    (wait : ∀ s x, step s x = .wait → P s x ⟨s, x, false⟩)
    (fail : ∀ s x, step s x = .fail → P s x ⟨s, x, true⟩)
    (next : ∀ s x s' rest, step s x = .next s' rest → P s' rest (run step s' rest) →
      P s x (run step s' rest)) (s : σ) (x : List τ) : P s x (run step s x) := by
  induction hn : x.length using Nat.strongRecOn generalizing s x with
  | ind n ih =>
    rcases h : step s x with - | - | ⟨s', rest⟩
    · rw [run_of_wait h]
      exact wait s x h
    · rw [run_of_fail h]
      exact fail s x h
    · rw [run_of_next hstep h]
      exact next s x s' rest h (ih rest.length (hn ▸ hstep h) s' rest rfl)

/-- A run stops where a step fails or waits. -/
theorem step_run : step (run step s x).state (run step s x).rest =
    if (run step s x).failed then .fail else .wait :=
  run_induction hstep (P := fun _ _ r ↦ step r.state r.rest = if r.failed then .fail else .wait)
    (fun _ _ h ↦ h) (fun _ _ h ↦ h) (fun _ _ _ _ _ ih ↦ ih) s x

end

/-- Go on with more input, unless the run has failed. -/
def Stop.feed (step : σ → List τ → Progress σ τ) (a : Stop σ τ) (y : List τ) : Stop σ τ :=
  if a.failed then a else run step a.state (a.rest ++ y)

theorem foldl_feed_of_failed {a : Stop σ τ} (ha : a.failed = true) (ys : List (List τ)) :
    ys.foldl (Stop.feed step) a = a := by
  induction ys with
  | nil => rfl
  | cons y ys ih =>
    have hfeed : a.feed step y = a := if_pos ha
    rw [foldl_cons, hfeed, ih]

/-- A stream that fails does so in one of its parts. -/
theorem exists_feed_failed {a : Stop σ τ} {ys : List (List τ)} (ha : a.failed = false)
    (h : (ys.foldl (Stop.feed step) a).failed = true) :
    ∃ before y after, ys = before ++ y :: after ∧
      (before.foldl (Stop.feed step) a).failed = false ∧
      ys.foldl (Stop.feed step) a = (before.foldl (Stop.feed step) a).feed step y := by
  induction ys using reverseRecOn with
  | nil => cases ha.symm.trans h
  | append_singleton ys y ih =>
    rw [foldl_append] at h ⊢
    rcases hys : (ys.foldl (Stop.feed step) a).failed with - | -
    · exact ⟨ys, y, [], rfl, hys, rfl⟩
    · obtain ⟨before, y', after, rfl, hbefore, heq⟩ := ih hys
      refine ⟨before, y', after ++ [y], by simp, hbefore, ?_⟩
      rw [← heq]
      exact foldl_feed_of_failed hys [y]

/-! ### Cutting the input -/

/-- How a step on `x` relates to the step with `y` behind it. -/
@[mk_iff]
structure Extends (step : σ → List τ → Progress σ τ) (s : σ) (x y : List τ) : Prop where
  /-- A failure is not repaired by more input. -/
  fail : step s x = .fail → step s (x ++ y) = .fail
  /-- With more input the same step is made, or one that also does the step after it. -/
  next : ∀ ⦃s' rest⦄, step s x = .next s' rest →
    step s (x ++ y) = .next s' (rest ++ y) ∨
    ∃ t left, step s (x ++ y) = .next t left ∧ step s' (rest ++ y) = .next t left

/-- The machines for which the cut of the input does not matter. -/
structure Cuttable (step : σ → List τ → Progress σ τ) : Prop where
  shrinks : Shrinks step
  extend : ∀ s x y, Extends step s x y

theorem extends_of_wait (h : step s x = .wait) : Extends step s x y := by
  rw [extends_iff, h]
  exact ⟨nofun, nofun⟩

/-- A step that stays the same with more input. -/
theorem extends_of_append (h : step s (x ++ y) = (step s x).append y) : Extends step s x y := by
  rw [extends_iff, h]
  refine ⟨fun hx ↦ ?_, fun s' rest hx ↦ .inl ?_⟩ <;> rw [hx] <;> rfl

/-- **How the input is cut does not matter**: a run on `x ++ y` is the run on `x`, and then on what
it left and `y`. -/
theorem Cuttable.run_append (hcut : Cuttable step) :
    run step s (x ++ y) = run step (run step s x).state ((run step s x).rest ++ y) := by
  refine run_induction hcut.shrinks
    (P := fun s x r ↦ run step s (x ++ y) = run step r.state (r.rest ++ y))
    (fun _ _ _ ↦ rfl) (fun _ _ _ ↦ rfl) (fun s x s' rest h ih ↦ ?_) s x
  rw [← ih]
  rcases (hcut.extend s x y).next h with hsame | ⟨t, left, ht, ht'⟩
  · exact run_of_next hcut.shrinks hsame
  · rw [run_of_next hcut.shrinks ht, run_of_next hcut.shrinks ht']

/-- No more input repairs a run that failed. -/
theorem Cuttable.run_append_of_failed (hcut : Cuttable step) (h : (run step s x).failed = true) :
    run step s (x ++ y) = ⟨(run step s x).state, (run step s x).rest ++ y, true⟩ := by
  rw [hcut.run_append]
  refine run_of_fail ((hcut.extend _ _ y).fail ?_)
  rw [step_run hcut.shrinks, h]
  rfl

/-! ### Reading one event after the other -/

section Read

open Partial

variable {ε : Type*} {parse : σ → List τ → Res τ ε} {apply : σ → ε → Option σ}

/-- Parse an event and apply it to the state. An event that takes nothing off the buffer is none. -/
def readStep (parse : σ → List τ → Res τ ε) (apply : σ → ε → Option σ) (s : σ) (x : List τ) :
    Progress σ τ :=
  match parse s x with
  | .incomplete => .wait
  | .backtrack => .fail
  | .cut => .fail
  | .ok event rest =>
    if rest.length < x.length then
      match apply s event with
      | none => .fail
      | some s' => .next s' rest
    else .wait

theorem readStep_eq_next_iff : readStep parse apply s x = .next s' rest ↔
    ∃ event, parse s x = .ok event rest ∧ rest.length < x.length ∧ apply s event = some s' := by
  unfold readStep
  rcases parse s x with - | - | - | ⟨event, left⟩
  case ok =>
    dsimp only
    split_ifs with hlt
    · rcases ha : apply s event with - | t
      · exact ⟨nofun, fun ⟨_, he, _, h⟩ ↦ by cases he; rw [ha] at h; cases h⟩
      · refine ⟨fun h ↦ ?_, fun ⟨_, he, _, h⟩ ↦ ?_⟩
        · cases h
          exact ⟨event, rfl, hlt, ha⟩
        · cases he
          cases ha.symm.trans h
          rfl
    · exact ⟨nofun, fun ⟨_, he, h, _⟩ ↦ by cases he; exact absurd h hlt⟩
  all_goals exact ⟨nofun, fun ⟨_, he, _⟩ ↦ nomatch he⟩

theorem readStep_of_incomplete (h : parse s x = .incomplete) :
    readStep parse apply s x = .wait := by
  rw [readStep, h]

theorem readStep_of_length_le {event : ε} (h : parse s x = .ok event rest)
    (hle : x.length ≤ rest.length) : readStep parse apply s x = .wait := by
  rw [readStep, h]
  exact if_neg (by omega)

theorem readStep_shrinks : Shrinks (readStep parse apply) := by
  intro s x s' rest h
  obtain ⟨-, -, hlt, -⟩ := readStep_eq_next_iff.1 h
  exact hlt

/-- **A stable answer of the parser gives the same step with more input behind it.** -/
theorem readStep_append (h : parse s (x ++ y) = (parse s x).append y) :
    readStep parse apply s (x ++ y) = (readStep parse apply s x).append y := by
  unfold readStep
  rw [h]
  rcases parse s x with - | - | - | ⟨event, rest⟩
  case ok =>
    have hlt : (rest ++ y).length < (x ++ y).length ↔ rest.length < x.length := by
      simp [length_append]
    simp only [Res.append, hlt]
    split_ifs
    · rcases apply s event with - | s' <;> rfl
    · rfl
  all_goals rfl

/-- Two machines that read the same events, one holding an image of what the other does. -/
theorem run_readStep_map {ρ : Type*} {parse' : ρ → List τ → Res τ ε} {apply' : ρ → ε → Option ρ}
    {f : σ → ρ} (hparse : ∀ s, parse' (f s) = parse s)
    (happly : ∀ s event, apply' (f s) event = (apply s event).map f) (s : σ) (x : List τ) :
    run (readStep parse' apply') (f s) x =
      ⟨f (run (readStep parse apply) s x).state, (run (readStep parse apply) s x).rest,
        (run (readStep parse apply) s x).failed⟩ := by
  have hstep (s : σ) (x : List τ) : readStep parse' apply' (f s) x =
      (match readStep parse apply s x with
        | .wait => .wait
        | .fail => .fail
        | .next s' rest => .next (f s') rest) := by
    unfold readStep
    rw [hparse]
    rcases parse s x with - | - | - | ⟨event, rest⟩
    case ok =>
      dsimp only
      split_ifs
      · rw [happly]
        rcases apply s event with - | s' <;> rfl
      · rfl
    all_goals rfl
  refine run_induction readStep_shrinks (P := fun s x r ↦ run (readStep parse' apply') (f s) x =
    ⟨f r.state, r.rest, r.failed⟩) (fun s x h ↦ ?_) (fun s x h ↦ ?_) (fun s x s' rest h ih ↦ ?_) s x
  · exact run_of_wait (by rw [hstep, h])
  · exact run_of_fail (by rw [hstep, h])
  · rw [← ih]
    exact run_of_next readStep_shrinks (by rw [hstep, h])

end Read

end Buffered
