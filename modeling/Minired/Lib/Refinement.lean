import Mathlib.Data.List.Basic

/-!
# Specifications and refinement

A specification says what a step may do: `spec s i o t` leads from `s` with the input `i` to `t`
and puts out `o`. It may allow several outputs and next states, or none. `Runs spec s trace t` is a
run from `s` to `t`; its trace has the inputs and the outputs, in order.

`Refines R ok step spec` is forward simulation: from related states, every step on an input that is
`ok` is allowed by the specification, with the same output, and leads to related states. Then every
run on such inputs is a run of the specification with the same trace (`Refines.runs`).
-/

namespace Refinement

variable {σ τ ι ο : Type*}

/-- What a step may do. -/
abbrev Spec (σ ι ο : Type*) := σ → ι → ο → σ → Prop

/-- A run, with its inputs and outputs. -/
inductive Runs (spec : Spec σ ι ο) : σ → List (ι × ο) → σ → Prop
  | nil (s : σ) : Runs spec s [] s
  | cons {s t u : σ} {i : ι} {o : ο} {trace : List (ι × ο)} (hstep : spec s i o t)
      (hrest : Runs spec t trace u) : Runs spec s ((i, o) :: trace) u

namespace Runs

variable {spec : Spec σ ι ο} {s t u : σ} {trace more : List (ι × ο)}

/-- A run of one step. -/
theorem single {i : ι} {o : ο} (hstep : spec s i o t) : Runs spec s [(i, o)] t :=
  .cons hstep (.nil t)

/-- One run after another. -/
theorem append (h : Runs spec s trace t) (h' : Runs spec t more u) :
    Runs spec s (trace ++ more) u := by
  induction h with
  | nil s => exact h'
  | cons hstep _ ih => exact .cons hstep (ih h')

/-- A run stops anywhere in between. -/
theorem of_append (h : Runs spec s (trace ++ more) u) :
    ∃ t, Runs spec s trace t ∧ Runs spec t more u := by
  induction trace generalizing s with
  | nil => exact ⟨s, .nil s, h⟩
  | cons io trace ih =>
    cases h with
    | cons hstep hrest =>
      obtain ⟨t, hfirst, hsecond⟩ := ih hrest
      exact ⟨t, .cons hstep hfirst, hsecond⟩

/-- **Invariants.** What every step keeps, runs keep. -/
theorem invariant {P : σ → Prop} {ok : ι → Prop} (h : Runs spec s trace t)
    (hok : ∀ io ∈ trace, ok io.1) (hstep : ∀ s i o t, ok i → P s → spec s i o t → P t)
    (hs : P s) : P t := by
  induction h with
  | nil s => exact hs
  | cons hfirst _ ih =>
    exact ih (fun io hio => hok io (List.mem_cons_of_mem _ hio))
      (hstep _ _ _ _ (hok _ List.mem_cons_self) hs hfirst)

end Runs

/-- The steps from states and with inputs that are `ok`. -/
def Spec.guard (ok : σ → ι → Prop) (spec : Spec σ ι ο) : Spec σ ι ο :=
  fun s i o t => ok s i ∧ spec s i o t

/-- **Forward simulation** on the inputs that are `ok`. -/
def Refines (R : σ → τ → Prop) (ok : ι → Prop) (step : Spec σ ι ο) (spec : Spec τ ι ο) : Prop :=
  ∀ s t i o s', ok i → R s t → step s i o s' → ∃ t', spec t i o t' ∧ R s' t'

namespace Refines

variable {R : σ → τ → Prop} {ok : ι → Prop} {step : Spec σ ι ο} {spec : Spec τ ι ο}

/-- **Trace inclusion.** -/
theorem runs (h : Refines R ok step spec) {s s' : σ} {t : τ} {trace : List (ι × ο)}
    (hrun : Runs step s trace s') (hok : ∀ io ∈ trace, ok io.1) (hst : R s t) :
    ∃ t', Runs spec t trace t' ∧ R s' t' := by
  induction hrun generalizing t with
  | nil s => exact ⟨t, .nil t, hst⟩
  | cons hstep _ ih =>
    obtain ⟨t', hspec, hrel⟩ := h _ _ _ _ _ (hok _ List.mem_cons_self) hst hstep
    obtain ⟨t'', hruns, hend⟩ := ih (fun io hio => hok io (List.mem_cons_of_mem _ hio)) hrel
    exact ⟨t'', .cons hspec hruns, hend⟩

end Refines

/-- **Forward simulation of a part.** Only the inputs that are `visible` are steps of the
specification; the others leave its state as it is. -/
def RefinesPart (R : σ → τ → Prop) (ok : ι → Prop) (visible : ι → Bool) (step : Spec σ ι ο)
    (spec : Spec τ ι ο) : Prop :=
  ∀ s t i o s', ok i → R s t → step s i o s' →
    (visible i = true → ∃ t', spec t i o t' ∧ R s' t') ∧ (visible i = false → R s' t)

/-- **Trace inclusion**, for the visible part of the trace. -/
theorem RefinesPart.runs {R : σ → τ → Prop} {ok : ι → Prop} {visible : ι → Bool}
    {step : Spec σ ι ο} {spec : Spec τ ι ο} (h : RefinesPart R ok visible step spec) {s s' : σ}
    {t : τ} {trace : List (ι × ο)} (hrun : Runs step s trace s') (hok : ∀ io ∈ trace, ok io.1)
    (hst : R s t) :
    ∃ t', Runs spec t (trace.filter fun io => visible io.1) t' ∧ R s' t' := by
  induction hrun generalizing t with
  | nil s => exact ⟨t, .nil t, hst⟩
  | @cons s _ _ i o trace hstep _ ih =>
    obtain ⟨hshow, hhide⟩ := h _ _ _ _ _ (hok _ List.mem_cons_self) hst hstep
    have hrest := fun io hio => hok io (List.mem_cons_of_mem _ hio)
    cases hvisible : visible i with
    | true =>
      obtain ⟨t₁, hspec, hrel⟩ := hshow hvisible
      obtain ⟨t', hruns, hend⟩ := ih hrest hrel
      rw [List.filter_cons_of_pos (by exact hvisible)]
      exact ⟨t', .cons hspec hruns, hend⟩
    | false =>
      obtain ⟨t', hruns, hend⟩ := ih hrest (hhide hvisible)
      rw [List.filter_cons_of_neg (by simp [hvisible])]
      exact ⟨t', hruns, hend⟩

end Refinement
