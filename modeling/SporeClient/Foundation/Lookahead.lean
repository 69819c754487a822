/-
  Foundation/Lookahead.lean --- machines that read a list with one element of lookahead.

  WHAT THIS FILE IS FOR.  A scanner often looks at the next symbol before it decides what
  to do with the present one.  `run` folds such a step over a list; `after` is the symbol
  that follows the list, so that the run over a list can be cut in two (`run_append`).
  A relation kept by every step is kept by the run (`run_rel`): with an equation for the
  relation this is a simulation of one machine by another, with a relation that ignores
  one side it is an invariant.
-/
import Mathlib.Algebra.GroupWithZero.Nat
import Mathlib.Data.List.Basic
import Mathlib.Tactic.Common

set_option autoImplicit false

namespace SporeClient.Foundation.Lookahead

variable {α σ τ : Type}

/-- Read a list from left to right; `step` sees the state, the element and the element
after it. -/
def run (step : σ → α → Option α → σ) (after : Option α) : σ → List α → σ
  | s, [] => s
  | s, c :: rest => run step after (step s c (rest.head?.or after)) rest

@[simp] theorem run_nil (step : σ → α → Option α → σ) (after : Option α) (s : σ) :
    run step after s [] = s := rfl

theorem run_cons (step : σ → α → Option α → σ) (after : Option α) (s : σ) (c : α)
    (rest : List α) :
    run step after s (c :: rest) = run step after (step s c (rest.head?.or after)) rest := rfl

/-- Reading a list is reading its front, with the back in sight, and then its back. -/
theorem run_append (step : σ → α → Option α → σ) (after : Option α) (s : σ) (a b : List α) :
    run step after s (a ++ b) = run step after (run step (b.head?.or after) s a) b := by
  induction a generalizing s with
  | nil => rfl
  | cons c a ih =>
      rw [List.cons_append, run_cons, run_cons, ih]
      cases a <;> simp

/-- **Simulation.**  A relation that every step keeps is kept by the run. -/
theorem run_rel {step : σ → α → Option α → σ} {step' : τ → α → Option α → τ}
    {R : σ → τ → Prop} (hstep : ∀ s t c next, R s t → R (step s c next) (step' t c next))
    {s : σ} {t : τ} (h : R s t) (after : Option α) (l : List α) :
    R (run step after s l) (run step' after t l) := by
  induction l generalizing s t with
  | nil => exact h
  | cons c rest ih => exact ih (hstep _ _ _ _ h)

/-- A step that does not tell two lookaheads apart gives the same run before either. -/
theorem run_after {step : σ → α → Option α → σ} {a b : Option α}
    (h : ∀ s c, step s c a = step s c b) (s : σ) (l : List α) :
    run step a s l = run step b s l := by
  induction l generalizing s with
  | nil => rfl
  | cons c rest ih =>
      rw [run_cons, run_cons, ih]
      cases rest with
      | nil => rw [List.head?_nil, Option.none_or, Option.none_or, h]
      | cons d rest => rfl

end SporeClient.Foundation.Lookahead
