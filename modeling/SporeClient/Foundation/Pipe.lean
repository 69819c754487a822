/-
  Foundation/Pipe.lean --- a system that puts out a stream, and a reader of the stream.

  WHAT THIS FILE IS FOR.  A system `step` has put out the stream `out s`, which only grows.
  A reader takes pieces of what has been put out and not been taken.  The two take turns in
  any order.

  THE RULES IT GIVES.

      Piped.run_source     the moves of the system alone are a run of it
      Piped.taken_begins   what has been taken is the beginning of the stream
      Coupled.run_sink     when the reader is a system too, its moves alone are a run of it
      Coupled.got_begins   what it has read is the beginning of the stream
      LineReader.scan_begins
                           what a line reader puts out for the beginning of a stream is the
                           beginning of what it puts out for the stream
-/
import SporeClient.Foundation.LineReader
import SporeClient.Foundation.Runs

set_option autoImplicit false

namespace SporeClient.Foundation

/-- A system, and the pieces that have been taken of what it put out. -/
structure Piped (σ π : Type) where
  source : σ
  taken : List π

/-- A move of the system, or a piece that is taken. -/
inductive PipeMove (μ π : Type) where
  | source (a : μ)
  | take (piece : π)
  deriving DecidableEq

/-- The moves of the system. -/
def sourceMoves {μ π : Type} (moves : List (PipeMove μ π)) : List μ :=
  moves.filterMap fun
    | .source a => some a
    | .take _ => none

theorem sourceMoves_append {μ π : Type} (moves moves' : List (PipeMove μ π)) :
    sourceMoves (moves ++ moves') = sourceMoves moves ++ sourceMoves moves' :=
  List.filterMap_append

namespace Piped

variable {σ μ α π : Type} {step : σ → μ → σ → Prop} {out : σ → List α} {bytes : π → List α}

/-- All that has been taken. -/
def got (bytes : π → List α) (c : Piped σ π) : List α := (c.taken.map bytes).flatten

/-- The moves of the system and its reader, in any order. -/
inductive Step (step : σ → μ → σ → Prop) (out : σ → List α) (bytes : π → List α) :
    Piped σ π → PipeMove μ π → Piped σ π → Prop
  | source {c : Piped σ π} {a : μ} {t : σ} (h : step c.source a t) :
      Step step out bytes c (.source a) { c with source := t }
  | take {c : Piped σ π} {piece : π} (h : c.got bytes ++ bytes piece <+: out c.source) :
      Step step out bytes c (.take piece) { c with taken := c.taken ++ [piece] }

variable {s₀ : σ} {moves : List (PipeMove μ π)} {c : Piped σ π}

/-- The moves of the system alone are a run of it. -/
theorem run_source (h : Run (Step step out bytes) ⟨s₀, []⟩ moves c) :
    Run step s₀ (sourceMoves moves) c.source := by
  induction h with
  | start => exact .start
  | step _ hstep ih =>
      rw [sourceMoves_append]
      cases hstep with
      | source h => exact ih.step h
      | take _ => simpa [sourceMoves] using ih

/-- What has been taken is the beginning of the stream. -/
theorem taken_begins (hgrow : ∀ s a t, step s a t → out s <+: out t)
    (h : Run (Step step out bytes) ⟨s₀, []⟩ moves c) : c.got bytes <+: out c.source := by
  induction h with
  | start => simp [got]
  | step _ hstep ih =>
      cases hstep with
      | source h => exact ih.trans (hgrow _ _ _ h)
      | take h => simpa [got] using h

end Piped

/-! ## A reader that is a system -/

/-- Two systems: the second one reads what the first one puts out. -/
structure Coupled (σ τ α : Type) where
  source : σ
  sink : τ
  got : List α

/-- A move of one of them. -/
inductive CoupledMove (μ ν : Type) where
  | source (a : μ)
  | sink (b : ν)
  deriving DecidableEq

namespace CoupledMove

variable {μ ν : Type}

/-- The moves of the first system. -/
def sources (moves : List (CoupledMove μ ν)) : List μ :=
  moves.filterMap fun
    | .source a => some a
    | .sink _ => none

/-- The moves of the second one. -/
def sinks (moves : List (CoupledMove μ ν)) : List ν :=
  moves.filterMap fun
    | .source _ => none
    | .sink b => some b

theorem sources_append (l l' : List (CoupledMove μ ν)) :
    sources (l ++ l') = sources l ++ sources l' := List.filterMap_append

theorem sinks_append (l l' : List (CoupledMove μ ν)) :
    sinks (l ++ l') = sinks l ++ sinks l' := List.filterMap_append

end CoupledMove

namespace Coupled

open CoupledMove

variable {σ τ μ ν α : Type} {step : σ → μ → σ → Prop} {out : σ → List α}
  {sinkStep : τ → ν → τ → Prop} {input : ν → List α}

/-- The moves of the two systems, in any order: a move of the second one reads `input` of
it. -/
inductive Step (step : σ → μ → σ → Prop) (out : σ → List α) (sinkStep : τ → ν → τ → Prop)
    (input : ν → List α) : Coupled σ τ α → CoupledMove μ ν → Coupled σ τ α → Prop
  | source {x : Coupled σ τ α} {a : μ} {t : σ} (h : step x.source a t) :
      Step step out sinkStep input x (.source a) { x with source := t }
  | sink {x : Coupled σ τ α} {b : ν} {t : τ} (h : sinkStep x.sink b t)
      (hnext : x.got ++ input b <+: out x.source) :
      Step step out sinkStep input x (.sink b) { x with sink := t, got := x.got ++ input b }

variable {s₀ : σ} {t₀ : τ} {moves : List (CoupledMove μ ν)} {x : Coupled σ τ α}

theorem run_source (h : Run (Step step out sinkStep input) ⟨s₀, t₀, []⟩ moves x) :
    Run step s₀ (sources moves) x.source := by
  induction h with
  | start => exact .start
  | step _ hstep ih =>
      rw [sources_append]
      cases hstep with
      | source h => exact ih.step h
      | sink _ _ => simpa [sources] using ih

theorem run_sink (h : Run (Step step out sinkStep input) ⟨s₀, t₀, []⟩ moves x) :
    Run sinkStep t₀ (sinks moves) x.sink := by
  induction h with
  | start => exact .start
  | step _ hstep ih =>
      rw [sinks_append]
      cases hstep with
      | source _ => simpa [sinks] using ih
      | sink h _ => exact ih.step h

/-- What the second system has read is what its moves read, and the beginning of the
stream. -/
theorem got_begins (hgrow : ∀ s a t, step s a t → out s <+: out t)
    (h : Run (Step step out sinkStep input) ⟨s₀, t₀, []⟩ moves x) :
    x.got = (sinks moves).flatMap input ∧ x.got <+: out x.source := by
  induction h with
  | start => exact ⟨rfl, List.nil_prefix⟩
  | step _ hstep ih =>
      rw [sinks_append, List.flatMap_append, ← ih.1]
      cases hstep with
      | source h => exact ⟨by simp [sinks], ih.2.trans (hgrow _ _ _ h)⟩
      | sink _ hnext => exact ⟨by simp [sinks], hnext⟩

end Coupled

/-! ## A reader of lines -/

/-- **A line reader that has read less has put out less**, and nothing else. -/
theorem LineReader.scan_begins {α σ ο : Type} [DecidableEq α] (R : LineReader α σ ο)
    (s : Reading α σ) {a b : List α} (h : a <+: b) : (R.scan s a).2 <+: (R.scan s b).2 := by
  obtain ⟨rest, rfl⟩ := h
  rw [R.scan_append]
  exact List.prefix_append _ _

end SporeClient.Foundation
