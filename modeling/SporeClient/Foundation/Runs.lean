/-
  Foundation/Runs.lean --- runs of a labelled transition system.

  WHAT THIS FILE IS FOR.  A system is a relation `step s a t`: in the state `s` the label
  `a` leads to `t`.  `Run` lists the labels of finitely many steps.  `EachStep` says that a
  property holds of every step of a run, and `eachStep_iff` exchanges one such property for
  another when an invariant, which the second one keeps, makes them equivalent.
-/
import Mathlib.Data.List.Infix
import Mathlib.Tactic.Common

set_option autoImplicit false

namespace SporeClient.Foundation

variable {σ α : Type} {step : σ → α → σ → Prop} {init : σ}

/-- The steps of these labels lead from `init` to a state. -/
inductive Run (step : σ → α → σ → Prop) (init : σ) : List α → σ → Prop
  | start : Run step init [] init
  | step {l : List α} {s t : σ} {a : α} (h : Run step init l s) (hstep : step s a t) :
      Run step init (l ++ [a]) t

namespace Run

/-- When every step is possible, so is every run. -/
theorem exists_of_total (htotal : ∀ s a, ∃ t, step s a t) (l : List α) :
    ∃ t, Run step init l t := by
  induction l using List.reverseRecOn with
  | nil => exact ⟨init, start⟩
  | append_singleton l a ih =>
      obtain ⟨s, hs⟩ := ih
      obtain ⟨t, ht⟩ := htotal s a
      exact ⟨t, hs.step ht⟩

theorem append {l l' : List α} {s t : σ} (h : Run step init l s) (h' : Run step s l' t) :
    Run step init (l ++ l') t := by
  induction h' with
  | start => rwa [List.append_nil]
  | step _ hstep ih =>
      rw [← List.append_assoc]
      exact ih.step hstep

theorem last {l : List α} {a : α} {t : σ} (h : Run step init (l ++ [a]) t) :
    ∃ s, Run step init l s ∧ step s a t := by
  generalize heq : l ++ [a] = l' at h
  cases h with
  | start => simp at heq
  | step h hstep =>
      obtain ⟨rfl, hlast⟩ := List.append_inj' heq rfl
      obtain rfl := List.singleton_inj.mp hlast
      exact ⟨_, h, hstep⟩

/-- A label of a run is a step, from a state that the labels before it lead to. -/
theorem split {pre post : List α} {a : α} {t : σ} (h : Run step init (pre ++ a :: post) t) :
    ∃ s u, Run step init pre s ∧ step s a u := by
  induction post using List.reverseRecOn generalizing t with
  | nil =>
      obtain ⟨s, hs, hstep⟩ := h.last
      exact ⟨s, t, hs, hstep⟩
  | append_singleton post b ih =>
      rw [← List.cons_append, ← List.append_assoc] at h
      obtain ⟨s, hs, _⟩ := h.last
      exact ih hs

end Run

/-- The property holds of every step of the runs with these labels. -/
def EachStep (step : σ → α → σ → Prop) (init : σ) (l : List α) (P : σ → α → σ → Prop) : Prop :=
  ∀ pre a s t, pre ++ [a] <+: l → Run step init pre s → step s a t → P s a t

section

variable {P : σ → α → σ → Prop} {Q : σ → α → Prop} {I : σ → Prop}

/-- An invariant that is kept where a property of the steps holds is there before every
step, when the property holds of every step. -/
theorem EachStep.reached (hstart : I init) (hkeep : ∀ s a t, I s → step s a t → P s a t → I t)
    {l : List α} (h : EachStep step init l P) {pre : List α} {s : σ} (hpre : pre <+: l)
    (hrun : Run step init pre s) : I s := by
  induction hrun with
  | start => exact hstart
  | step hrun hstep ih =>
      apply hkeep _ _ _ (ih ((List.prefix_append _ _).trans hpre)) hstep
      exact h _ _ _ _ hpre hrun hstep

/-- **A property of every step and a condition on every step**, which are equivalent in the
states of an invariant that the condition keeps. -/
theorem eachStep_iff (hstart : I init) (hkeep : ∀ s a t, I s → step s a t → Q s a → I t)
    (hiff : ∀ s a t, I s → step s a t → (P s a t ↔ Q s a)) {l : List α} :
    EachStep step init l P ↔ EachStep step init l fun s a _ => Q s a := by
  have hkeep' : ∀ s a t, I s → step s a t → P s a t → I t := fun s a t hs hstep hp =>
    hkeep s a t hs hstep ((hiff s a t hs hstep).mp hp)
  constructor
  · intro h pre a s t hpre hrun hstep
    have hs : I s := h.reached hstart hkeep' ((List.prefix_append _ _).trans hpre) hrun
    exact (hiff s a t hs hstep).mp (h pre a s t hpre hrun hstep)
  · intro h pre a s t hpre hrun hstep
    have hs : I s := h.reached hstart hkeep ((List.prefix_append _ _).trans hpre) hrun
    exact (hiff s a t hs hstep).mpr (h pre a s t hpre hrun hstep)

end

end SporeClient.Foundation
