/-
  Go/Snapshot.lean --- what a dispatch of a bridge calls in all.

  WHAT THIS FILE IS FOR.  `Go/Dispatch.lean` says which handlers may be called.  This file
  says that none is left out: the handlers that were registered when the bridge took the
  lock are called, each once, in the order in which the map was walked, as far as the dispatch
  has come; and whatever the goroutines did since then, also when they destroyed the client,
  the calls that are left can be made (`Bridges.calls_snapshot`).
-/
import SporeClient.Go.Dispatch

set_option autoImplicit false

namespace SporeClient.Go

open SporeClient.Foundation
open SporeClient.Client

namespace Bridges

variable {φ : Type} {s t : Bridges φ} {l p q : List (BridgeAct φ)} {d : Nat}
  {type : HandlerType} {c : ClientPtr} {handlers : List (Nat × φ)}

/-- A step after the copy: a call takes the first handler of those that are left, and no other
step touches them. -/
theorem running_of_step {rest : List (Nat × φ)} (h : s.running d = some rest) {a : BridgeAct φ}
    (hstep : s.Step a t) :
    ∃ rest', t.running d = some rest' ∧ callsOf d [a] ++ rest' = rest := by
  cases a with
  | go a => exact ⟨rest, (congrFun (step_go hstep).2.1 d).trans h, rfl⟩
  | offReturn c i =>
      obtain rfl := Option.some.inj hstep.2
      exact ⟨rest, h, rfl⟩
  | copy d' type c handlers =>
      obtain ⟨⟨hnone, _⟩, ht⟩ := hstep
      obtain rfl := Option.some.inj ht
      -- a dispatch copies once
      have hne : d ≠ d' := by
        rintro rfl
        exact absurd (hnone.symm.trans h) (by simp)
      exact ⟨rest, (Function.update_of_ne hne ..).trans h, rfl⟩
  | call d' x =>
      obtain ⟨⟨rest', hrest'⟩, ht⟩ := hstep
      obtain rfl := Option.some.inj ht
      by_cases hdd : d' = d
      · obtain rfl := hdd
        obtain rfl := Option.some.inj (h.symm.trans hrest')
        exact ⟨rest', by simp [hrest'], by simp [callsOf]⟩
      · have hne : d ≠ d' := fun heq => hdd heq.symm
        exact ⟨rest, (Function.update_of_ne hne ..).trans h, by simp [callsOf, hdd]⟩

/-- **As far as a dispatch has come**, it has called a first part of what it copied. -/
theorem running_after_copy (h : Run Step start (p ++ .copy d type c handlers :: q) s) :
    ∃ rest, s.running d = some rest ∧
      callsOf d (p ++ .copy d type c handlers :: q) ++ rest = handlers := by
  induction q using List.reverseRecOn generalizing s with
  | nil =>
      obtain ⟨u, hrun, ⟨hnone, _⟩, hs⟩ := h.last
      obtain rfl := Option.some.inj hs
      refine ⟨handlers, Function.update_self .., ?_⟩
      rw [callsOf_append, (Copies.run hrun d).idle hnone]
      simp [callsOf]
  | append_singleton q a ih =>
      rw [← List.cons_append, ← List.append_assoc] at h ⊢
      obtain ⟨u, hrun, hstep⟩ := h.last
      obtain ⟨rest, hrest, hcalls⟩ := ih hrun
      obtain ⟨rest', hrest', hcall⟩ := running_of_step hrest hstep
      refine ⟨rest', hrest', ?_⟩
      rw [callsOf_append, List.append_assoc, hcall, hcalls]

/-- **What is left can be called**, whatever the goroutines have done. -/
theorem exists_rest_run {rest : List (Nat × φ)} (h : Run Step start l s)
    (hrest : s.running d = some rest) :
    ∃ t, Run Step start (l ++ rest.map (.call d)) t ∧ t.system = s.system := by
  induction rest generalizing l s with
  | nil => exact ⟨s, by simpa using h, rfl⟩
  | cons x rest ih =>
      have hstep : s.Step (.call d x)
          { s with running := Function.update s.running d ((s.running d).map List.tail) } :=
        ⟨⟨rest, hrest⟩, rfl⟩
      obtain ⟨t, ht, hsystem⟩ := ih (h.step hstep) (by simp [hrest])
      exact ⟨t, by simpa using ht, hsystem⟩

theorem callsOf_map_call (d : Nat) (rest : List (Nat × φ)) :
    callsOf d (rest.map (.call d)) = rest := by
  simp [callsOf, List.filterMap_map]

/-- **A dispatch is a snapshot.**  What it copies are the handlers registered at that moment,
each once; at every later moment it has called a first part of them, in order, and it can call
the others without waiting for anybody. -/
theorem calls_snapshot (h : Run Step start (p ++ .copy d type c handlers :: q) s) :
    handlers.Perm ((Registrations.after (goActs p)).handlersOf type c) ∧
      (handlers.map Prod.fst).Nodup ∧
      ∃ rest, callsOf d (p ++ .copy d type c handlers :: q) ++ rest = handlers ∧
        ∃ t, Run Step start (p ++ .copy d type c handlers :: q ++ rest.map (.call d)) t ∧
          t.system = s.system ∧
          callsOf d (p ++ .copy d type c handlers :: q ++ rest.map (.call d)) = handlers := by
  obtain ⟨u, _, hrun, ⟨_, hperm⟩, _⟩ := h.split
  have hholds := (System.Tracks.run (run_goActs hrun)).holds
  obtain ⟨rest, hrest, hcalls⟩ := running_after_copy h
  obtain ⟨t, ht, hsystem⟩ := exists_rest_run h hrest
  refine ⟨hperm.trans (hholds.goBridge_perm type c).1, (copiedAt hrun hperm).nodup, rest, hcalls,
    t, ht, hsystem, ?_⟩
  rw [callsOf_append, callsOf_map_call, hcalls]

/-- A client with two handlers is destroyed while its bridge calls them. -/
def destroyedInFlight : List (BridgeAct Nat) :=
  [.go (.create 1), .go (.on .request 1 10 5), .go (.on .request 1 20 6),
    .copy 0 .request 1 [(1, 10), (2, 20)], .call 0 (1, 10), .go (.destroyBegin 1),
    .go (.destroyEnd 1)]

theorem run_destroyedInFlight : ∃ s : Bridges Nat, Run Step start destroyedInFlight s := by
  have h₁ : Run Step (start : Bridges Nat) ([] ++ [.go (.create 1)]) _ :=
    Run.start.step ⟨⟨by decide, rfl⟩, rfl⟩
  have h₂ : Run Step (start : Bridges Nat) (_ ++ [.go (.on .request 1 10 5)]) _ :=
    h₁.step ⟨⟨Or.inr ⟨rfl, List.not_mem_nil⟩, fun _ => ⟨by decide, rfl⟩⟩, rfl⟩
  have h₃ : Run Step (start : Bridges Nat) (_ ++ [.go (.on .request 1 20 6)]) _ :=
    h₂.step ⟨⟨Or.inr ⟨rfl, List.not_mem_nil⟩, fun hnone => by cases hnone⟩, rfl⟩
  have h₄ : Run Step (start : Bridges Nat) (_ ++ [.copy 0 .request 1 [(1, 10), (2, 20)]]) _ :=
    h₃.step ⟨⟨rfl, List.Perm.refl _⟩, rfl⟩
  have h₅ : Run Step (start : Bridges Nat) (_ ++ [.call 0 (1, 10)]) _ :=
    h₄.step ⟨⟨_, rfl⟩, rfl⟩
  have h₆ : Run Step (start : Bridges Nat) (_ ++ [.go (.destroyBegin 1)]) _ :=
    h₅.step ⟨⟨Or.inr ⟨rfl, List.not_mem_nil⟩, fun _ => List.not_mem_nil⟩, rfl⟩
  exact ⟨_, h₆.step ⟨List.mem_cons_self, rfl⟩⟩

/-- The second handler can still be called. -/
theorem calls_snapshot_destroyed :
    [(1, 10), (2, 20)].Perm
        ((Registrations.after (goActs (destroyedInFlight.take 3))).handlersOf .request 1) ∧
      ([(1, 10), (2, 20)].map Prod.fst).Nodup ∧
      ∃ rest, callsOf 0 destroyedInFlight ++ rest = [(1, 10), (2, 20)] ∧
        ∃ t : Bridges Nat, Run Step start (destroyedInFlight ++ rest.map (.call 0)) t ∧
          callsOf 0 (destroyedInFlight ++ rest.map (.call 0)) = [(1, 10), (2, 20)] := by
  obtain ⟨s, hrun⟩ := run_destroyedInFlight
  obtain ⟨hperm, hnodup, rest, hcalls, t, ht, _, hall⟩ :=
    calls_snapshot (p := destroyedInFlight.take 3) (q := destroyedInFlight.drop 4) hrun
  exact ⟨hperm, hnodup, rest, hcalls, t, ht, hall⟩

end Bridges

end SporeClient.Go
