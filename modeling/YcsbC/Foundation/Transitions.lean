import Mathlib.Logic.Relation
import Mathlib.Tactic.Common

/-!
# Runs of a labelled transition system

The steps of a system carry labels. A run may be restricted to steps that meet a condition on the
state before the step and on its label, which is how an assumption on the environment or on the
order of the steps is stated.

## Main definitions

* `Runs`: the states that are reached by steps that all meet a condition.

## Main results

* `Runs.invariant`: the induction over a run.
* `Runs.meets`: a run whose steps meet a further condition.
-/

namespace YcsbC

variable {S L : Type}

/-- The states that a system reaches from `s₀` by steps that are all `ok` in the state in which they
are taken. -/
inductive Runs (step : S → L → S → Prop) (ok : S → L → Prop) (s₀ : S) : S → Prop
  | start : Runs step ok s₀ s₀
  | step {s s' : S} {l : L} (h : Runs step ok s₀ s) (hok : ok s l) (hstep : step s l s') :
      Runs step ok s₀ s'

namespace Runs

variable {step : S → L → S → Prop} {ok ok' : S → L → Prop} {s₀ s s' : S}

/-- What holds at the start and is preserved by every step that is `ok` holds in every state of a
run. -/
theorem invariant {I : S → Prop} (h : Runs step ok s₀ s) (h₀ : I s₀)
    (hstep : ∀ s l s', Runs step ok s₀ s → I s → ok s l → step s l s' → I s') : I s := by
  induction h with
  | start => exact h₀
  | step hrun hok hl ih => exact hstep _ _ _ hrun ih hok hl

theorem mono (h : Runs step ok s₀ s) (hok : ∀ s l, ok s l → ok' s l) : Runs step ok' s₀ s := by
  induction h with
  | start => exact .start
  | step _ hl hstep ih => exact ih.step (hok _ _ hl) hstep

/-- An invariant of a run may say that its steps meet a further condition. -/
theorem meets {I : S → Prop} (h : Runs step ok s₀ s) (h₀ : I s₀)
    (hstep : ∀ s l s', I s → ok s l → step s l s' → ok' s l ∧ I s') : Runs step ok' s₀ s := by
  have hboth : Runs step ok' s₀ s ∧ I s := by
    induction h with
    | start => exact ⟨.start, h₀⟩
    | step _ hok hl ih =>
      obtain ⟨hok', hI⟩ := hstep _ _ _ ih.2 hok hl
      exact ⟨ih.1.step hok' hl, hI⟩
  exact hboth.1

theorem single {l : L} (hok : ok s l) (h : step s l s') : Runs step ok s s' :=
  .step .start hok h

theorem trans (h : Runs step ok s₀ s) (h' : Runs step ok s s') : Runs step ok s₀ s' := by
  induction h' with
  | start => exact h
  | step _ hl hstep ih => exact ih.step hl hstep

end Runs

end YcsbC
