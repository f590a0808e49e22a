import Mathlib

/-!
# Deterministic transducers and their runs

A transducer consumes inputs one at a time, and each input changes the state and
produces an output. `run` feeds it a list of inputs and collects the outputs.

* `run_simulation` — a relation kept by matching steps with equal outputs is kept
  by whole runs, whose output lists are then equal;
* `RunOk` — every step of a run meets a condition on the state before it and the input;
  `forall_prefix_iff` finds it to be the exact condition for a property;
* `run_simulation_of_ok` — simulation of the runs that meet a condition;
* `run_quiet` — simulation of a run by one with further, quiet, steps in between, for a
  relation that depends on the time of the step.
-/

namespace Transducer

variable {σ τ ι ο : Type*}

/-- Feed the inputs to `step` from `s`: the last state and all outputs in order. -/
def run (step : σ → ι → σ × ο) (s : σ) : List ι → σ × List ο
  | [] => (s, [])
  | i :: is =>
    let r := run step (step s i).1 is
    (r.1, (step s i).2 :: r.2)

@[simp] theorem run_nil (step : σ → ι → σ × ο) (s : σ) : run step s [] = (s, []) := rfl

@[simp] theorem run_cons (step : σ → ι → σ × ο) (s : σ) (i : ι) (is : List ι) :
    run step s (i :: is) =
      ((run step (step s i).1 is).1, (step s i).2 :: (run step (step s i).1 is).2) := rfl

/-- Every step of the run meets the condition `ok` on the state before it and the input. -/
def RunOk (step : σ → ι → σ × ο) (ok : σ → ι → Prop) (s : σ) : List ι → Prop
  | [] => True
  | i :: is => ok s i ∧ RunOk step ok (step s i).1 is

instance RunOk.decidable {step : σ → ι → σ × ο} {ok : σ → ι → Prop}
    [hok : ∀ s i, Decidable (ok s i)] : ∀ (s : σ) (is : List ι), Decidable (RunOk step ok s is)
  | _, [] => inferInstanceAs (Decidable True)
  | s, i :: is =>
    @instDecidableAnd (ok s i) (RunOk step ok (step s i).1 is) (hok s i)
      (RunOk.decidable (step s i).1 is)

/-- A condition that an invariant implies is met by every run. -/
theorem runOk_of_invariant {step : σ → ι → σ × ο} {ok : σ → ι → Prop} {P : σ → Prop}
    {is : List ι} (hstep : ∀ i ∈ is, ∀ s, P s → ok s i ∧ P (step s i).1) {s : σ} (hs : P s) :
    RunOk step ok s is := by
  induction is generalizing s with
  | nil => trivial
  | cons i is ih =>
    obtain ⟨hok, hnext⟩ := hstep i List.mem_cons_self s hs
    exact ⟨hok, ih (fun j hj => hstep j (List.mem_cons_of_mem i hj)) hnext⟩

/-- An invariant that is kept by the steps that meet the condition is kept by the runs that
do. -/
theorem invariant_of_runOk {step : σ → ι → σ × ο} {ok : σ → ι → Prop} {I : σ → Prop}
    (hkeep : ∀ s i, I s → ok s i → I (step s i).1) {s : σ} (hs : I s) {is : List ι}
    (hok : RunOk step ok s is) : I (run step s is).1 := by
  induction is generalizing s with
  | nil => exact hs
  | cons i is ih =>
    obtain ⟨hhead, htail⟩ := hok
    exact ih (hkeep s i hs hhead) htail

/-- **Exactness.** When a step keeps the invariant under the condition and breaks the
property otherwise, the property holds along a run exactly when the run meets the
condition. -/
theorem forall_prefix_iff {step : σ → ι → σ × ο} {ok : σ → ι → Prop} {I P : σ → Prop}
    (hP : ∀ s, I s → P s) (hkeep : ∀ s i, I s → ok s i → I (step s i).1)
    (hbreak : ∀ s i, I s → ¬ok s i → ¬P (step s i).1) {s : σ} (hs : I s) (is : List ι) :
    (∀ pre, pre <+: is → P (run step s pre).1) ↔ RunOk step ok s is := by
  induction is generalizing s with
  | nil =>
    refine ⟨fun _ => trivial, fun _ pre hpre => ?_⟩
    rw [List.prefix_nil.mp hpre]
    exact hP s hs
  | cons i is ih =>
    constructor
    · intro h
      -- the run of one step is a prefix, and it would break the property
      have hok : ok s i := by
        by_contra hnot
        exact hbreak s i hs hnot (h [i] (List.prefix_append [i] is))
      refine ⟨hok, (ih (hkeep s i hs hok)).mp fun pre hpre => ?_⟩
      exact h (i :: pre) (List.cons_prefix_cons.mpr ⟨rfl, hpre⟩)
    · rintro ⟨hok, htail⟩ pre hpre
      rcases List.prefix_cons_iff.mp hpre with rfl | ⟨pre', rfl, hpre'⟩
      · exact hP s hs
      · exact (ih (hkeep s i hs hok)).mpr htail pre' hpre'

/-- **Simulation under a condition.** A relation kept by matching steps that meet a
condition on the second side, whose outputs agree, is kept by matching runs that do. -/
theorem run_simulation_of_ok {step : σ → ι → σ × ο} {step' : τ → ι → τ × ο} {R : σ → τ → Prop}
    {ok : τ → ι → Prop}
    (hstep : ∀ i s t, R s t → ok t i → R (step s i).1 (step' t i).1 ∧ (step s i).2 = (step' t i).2)
    {is : List ι} {s : σ} {t : τ} (hst : R s t) (hok : RunOk step' ok t is) :
    R (run step s is).1 (run step' t is).1 ∧ (run step s is).2 = (run step' t is).2 := by
  induction is generalizing s t with
  | nil => exact ⟨hst, rfl⟩
  | cons i is ih =>
    obtain ⟨hhead, htail⟩ := hok
    obtain ⟨hrel, hout⟩ := hstep i s t hst hhead
    obtain ⟨hrel', houts⟩ := ih hrel htail
    exact ⟨hrel', by rw [run_cons, run_cons, hout, houts]⟩

/-- **Simulation.** A relation kept by matching steps, whose outputs agree, is kept
by matching runs, whose outputs agree. -/
theorem run_simulation {step : σ → ι → σ × ο} {step' : τ → ι → τ × ο} {R : σ → τ → Prop}
    (hstep : ∀ i s t, R s t → R (step s i).1 (step' t i).1 ∧ (step s i).2 = (step' t i).2)
    {s : σ} {t : τ} (hst : R s t) (is : List ι) :
    R (run step s is).1 (run step' t is).1 ∧ (run step s is).2 = (run step' t is).2 := by
  have hok : RunOk step' (fun _ _ => True) t is :=
    runOk_of_invariant (P := fun _ => True) (fun _ _ _ _ => ⟨trivial, trivial⟩) trivial
  exact run_simulation_of_ok (fun i s t h _ => hstep i s t h) hst hok

section Quiet

variable {θ : Type*} {time : ι → θ} {le : θ → θ → Prop} {quiet : ι → Bool}
  {step : σ → ι → σ × Option ο} {step' : τ → ι → τ × Option ο} {R : θ → σ → τ → Prop}
  {ok : σ → ι → Prop}

/-- **Quiet steps.** The second side makes all the steps, the first one only those that are
not quiet. When the relation survives the passing of time, quiet steps on the second side,
which put nothing out, and matching steps that meet the condition, the two runs end related
and put out the same. -/
theorem run_quiet (hmono : ∀ {a b s t}, le a b → R a s t → R b s t)
    (hquiet : ∀ i s t, quiet i = true → R (time i) s t →
      R (time i) s (step' t i).1 ∧ (step' t i).2 = none)
    {is : List ι} (hstep : ∀ i ∈ is, quiet i = false → ∀ s t, R (time i) s t → ok s i →
      R (time i) (step s i).1 (step' t i).1 ∧ (step s i).2 = (step' t i).2)
    (hsorted : (is.map time).Pairwise le) {last : θ} (hlast : ∀ i ∈ is, le (time i) last)
    {s : σ} {t : τ} (hst : ∀ i ∈ is, R (time i) s t) (hend : R last s t)
    (hok : RunOk step ok s (is.filter fun i => !quiet i)) :
    R last (run step s (is.filter fun i => !quiet i)).1 (run step' t is).1 ∧
      (run step s (is.filter fun i => !quiet i)).2.reduceOption =
        (run step' t is).2.reduceOption := by
  induction is generalizing s t with
  | nil => exact ⟨hend, rfl⟩
  | cons i is ih =>
    obtain ⟨hlater, hsorted⟩ := List.pairwise_cons.mp hsorted
    have hlast' : ∀ j ∈ is, le (time j) last := fun j hj => hlast j (List.mem_cons_of_mem i hj)
    -- a pair related at the time of `i` is related at all times that follow
    have hnext : ∀ {s' t'}, R (time i) s' t' → (∀ j ∈ is, R (time j) s' t') ∧ R last s' t' :=
      fun h => ⟨fun j hj => hmono (hlater _ (List.mem_map_of_mem hj)) h,
        hmono (hlast i List.mem_cons_self) h⟩
    have hi := hst i List.mem_cons_self
    by_cases hq : quiet i = true
    · -- a quiet step is made on the second side only
      rw [List.filter_cons_of_neg (by simp [hq])] at hok ⊢
      obtain ⟨hrel, hnone⟩ := hquiet i s t hq hi
      obtain ⟨hrun, hout⟩ := ih (fun j hj => hstep j (List.mem_cons_of_mem i hj)) hsorted hlast'
        (hnext hrel).1 (hnext hrel).2 hok
      exact ⟨hrun, by rw [run_cons, hnone, List.reduceOption_cons_of_none]; exact hout⟩
    · -- any other step is made on both sides
      rw [Bool.not_eq_true] at hq
      rw [List.filter_cons_of_pos (by simp [hq])] at hok ⊢
      obtain ⟨hhead, htail⟩ := hok
      obtain ⟨hrel, hsame⟩ := hstep i List.mem_cons_self hq s t hi hhead
      obtain ⟨hrun, hout⟩ := ih (fun j hj => hstep j (List.mem_cons_of_mem i hj)) hsorted hlast'
        (hnext hrel).1 (hnext hrel).2 htail
      refine ⟨hrun, ?_⟩
      rw [run_cons, run_cons, hsame]
      cases (step' t i).2 with
      | none => exact hout
      | some o => exact congrArg (o :: ·) hout

end Quiet

end Transducer
