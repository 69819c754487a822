/-
  Go/Dispatch.lean --- the bridges of `callbacks.go` among the goroutines.

  WHAT THIS FILE IS FOR.  A bridge copies the handlers under `handlersMu` and calls them
  after it has released the lock.  Between the two, and between two calls, other goroutines
  and the callbacks themselves register and remove handlers.  `Bridges.Step` adds these
  steps to those of `System`.

  A handler may be called after `ClientOffHandler` has returned
  (`not_neverAfterOff`), by the bridges that had copied it before and by no others
  (`onlyUnderWay`).  The invariant that carries the second one is `Bridges.Copies`.
-/
import SporeClient.Go.Interleavings

set_option autoImplicit false

namespace SporeClient.Go

open SporeClient.Foundation
open SporeClient.Client

/-! ## The steps -/

/-- A step of a goroutine, or of a bridge.  `copy` is the critical section of a bridge and
gives this dispatch its number `d`; the order of `handlers` is the one in which the Go map is
walked.  `call` begins the call of a function.  `offReturn` is the return of a
`ClientOffHandler` that has had its critical section. -/
inductive BridgeAct (φ : Type) where
  | go (a : Act φ)
  | copy (d : Nat) (type : HandlerType) (c : ClientPtr) (handlers : List (Nat × φ))
  | call (d : Nat) (x : Nat × φ)
  | offReturn (c : ClientPtr) (h : Nat)

/-- The goroutines, what each dispatch has yet to call, and the calls of `ClientOffHandler`
that have released the lock and not returned. -/
structure Bridges (φ : Type) where
  system : System φ
  running : Nat → Option (List (Nat × φ))
  returning : List (ClientPtr × Nat)

namespace Bridges

variable {φ : Type}

def start : Bridges φ := ⟨.start, fun _ => none, []⟩

/-- When a step is possible: a dispatch copies once, and calls what it has copied in order. -/
def Enabled (s : Bridges φ) : BridgeAct φ → Prop
  | .go a => s.system.Enabled a
  | .copy d type c handlers =>
      s.running d = none ∧ handlers.Perm (s.system.registry.goBridge type c)
  | .call d x => ∃ rest, s.running d = some (x :: rest)
  | .offReturn c h => (c, h) ∈ s.returning

/-- What a step does.  A callback may do anything while it runs: its own steps are steps of
the goroutines. -/
def act (s : Bridges φ) : BridgeAct φ → Option (Bridges φ)
  | .go a =>
      (s.system.act a).map fun system =>
        match a with
        | .offEnd c h => { s with system, returning := (c, h) :: s.returning }
        | _ => { s with system }
  | .copy d _ _ handlers =>
      some { s with running := Function.update s.running d (some handlers) }
  | .call d _ =>
      some { s with running := Function.update s.running d ((s.running d).map List.tail) }
  | .offReturn c h => some { s with returning := s.returning.erase (c, h) }

def Step (s : Bridges φ) (a : BridgeAct φ) (t : Bridges φ) : Prop :=
  s.Enabled a ∧ s.act a = some t

end Bridges

/-! ## What the labels tell -/

section
variable {φ : Type}

/-- The steps of the goroutines. -/
def goActs (l : List (BridgeAct φ)) : List (Act φ) :=
  l.filterMap fun
    | .go a => some a
    | _ => none

/-- What a dispatch has called. -/
def callsOf (d : Nat) (l : List (BridgeAct φ)) : List (Nat × φ) :=
  l.filterMap fun
    | .call d' x => if d' = d then some x else none
    | _ => none

theorem mem_goActs {l : List (BridgeAct φ)} {a : Act φ} : a ∈ goActs l ↔ .go a ∈ l := by
  simp only [goActs, List.mem_filterMap]
  constructor
  · rintro ⟨b, hb, heq⟩
    cases b with
    | go a' =>
        obtain rfl := Option.some.inj heq
        exact hb
    | copy d type c handlers => simp at heq
    | call d x => simp at heq
    | offReturn c h => simp at heq
  · intro ha
    exact ⟨.go a, ha, rfl⟩

theorem goActs_append (l l' : List (BridgeAct φ)) :
    goActs (l ++ l') = goActs l ++ goActs l' := List.filterMap_append

theorem callsOf_append (d : Nat) (l l' : List (BridgeAct φ)) :
    callsOf d (l ++ l') = callsOf d l ++ callsOf d l' := List.filterMap_append

/-- No handler is called after `ClientOffHandler` for it has returned; `h` counts the
registrations from 0, and the ids count them from 1. -/
def NeverAfterOff (l : List (BridgeAct φ)) : Prop :=
  ∀ p c h q d x, l = p ++ .offReturn c h :: q → .call d x ∈ q → x.1 ≠ h + 1

/-- The handlers were copied when they were registered, and before any critical section of a
`ClientOffHandler` that removes one of them. -/
structure CopiedAt (p : List (BridgeAct φ)) (type : HandlerType) (c : ClientPtr)
    (handlers : List (Nat × φ)) : Prop where
  nodup : (handlers.map Prod.fst).Nodup
  registered : ∀ x ∈ handlers, ⟨x.1, c, type, x.2⟩ ∈ (Registrations.after (goActs p)).live
  before : ∀ x ∈ handlers, ∀ c' h, .go (.offEnd c' h) ∈ p → x.1 ≠ h + 1

/-- **What holds of the calls of the handlers.**  A dispatch calls what it has copied, each
handler at most once; and a call of a handler that comes after the return of a
`ClientOffHandler` for it is by a dispatch that had copied before the critical section. -/
structure OnlyUnderWay (l : List (BridgeAct φ)) : Prop where
  copied : ∀ pre d x post, l = pre ++ .call d x :: post →
    ∃ p type c handlers q, pre = p ++ .copy d type c handlers :: q ∧ x ∈ handlers ∧
      CopiedAt p type c handlers
  once : ∀ d, ((callsOf d l).map Prod.fst).Nodup
  afterOff : ∀ p c h q d x, l = p ++ .offReturn c h :: q → .call d x ∈ q → x.1 = h + 1 →
    ∃ p₁ type c' handlers p₂, p = p₁ ++ .copy d type c' handlers :: p₂ ∧ x ∈ handlers ∧
      ∀ c'', .go (.offEnd c'' h) ∉ p₁

end

/-! ## What is removed stays removed -/

section
variable {φ : Type}

/-- The registration that the call number `h` made is one of the past. -/
def Registrations.Past (r : Registrations φ) (h : Nat) : Prop :=
  h + 1 ≤ r.count ∧ ∀ x ∈ r.live, x.id ≠ h + 1

theorem Registrations.Past.act {r : Registrations φ} {h : Nat} (hpast : r.Past h) (a : Act φ) :
    (r.act a).Past h := by
  obtain ⟨hle, hnot⟩ := hpast
  cases a with
  | on type c fn p =>
      refine ⟨Nat.le_succ_of_le hle, ?_⟩
      intro x hx
      rcases List.mem_append.mp hx with hx | hx
      · exact hnot x hx
      · -- ids are not used again
        obtain rfl := List.mem_singleton.mp hx
        change r.count + 1 ≠ h + 1
        omega
  | offEnd c i => exact ⟨hle, fun x hx => hnot x (List.mem_of_mem_filter hx)⟩
  | destroyBegin c => exact ⟨hle, fun x hx => hnot x (List.mem_of_mem_filter hx)⟩
  | create c => exact ⟨hle, hnot⟩
  | offBegin c i => exact ⟨hle, hnot⟩
  | destroyEnd c => exact ⟨hle, hnot⟩

/-- In every run, what a critical section of `ClientOffHandler` was for is not registered
any more. -/
theorem System.past_of_offEnd {l : List (Act φ)} {s : System φ}
    (hrun : Run System.Step System.start l s) {c : ClientPtr} {h : Nat} (hmem : .offEnd c h ∈ l) :
    (Registrations.after l).Past h := by
  induction hrun with
  | start => simp at hmem
  | step hrun hstep ih =>
      rename_i l s t a
      have hafter : Registrations.after (l ++ [a]) = (Registrations.after l).act a := by
        simp [Registrations.after]
      rw [hafter]
      rcases List.mem_append.mp hmem with hmem | hmem
      · exact (ih hmem).act a
      · obtain rfl := List.mem_singleton.mp hmem
        have htracks := Tracks.run hrun
        have hlt := (htracks.pending c h hstep.1).1
        rw [htracks.holds.length, ← htracks.holds.count] at hlt
        refine ⟨hlt, ?_⟩
        intro x hx
        simpa using (List.mem_filter.mp hx).2

end

/-! ## Runs -/

namespace Bridges

variable {φ : Type} {s t : Bridges φ} {l : List (BridgeAct φ)}

/-- A step of a goroutine leaves the dispatches alone. -/
theorem step_go {a : Act φ} (h : s.Step (.go a) t) :
    s.system.Step a t.system ∧ t.running = s.running ∧
      ∀ q ∈ t.returning, q ∈ s.returning ∨ a = .offEnd q.1 q.2 := by
  obtain ⟨hen, ht⟩ := h
  obtain ⟨u, hu, rfl⟩ := Option.map_eq_some_iff.mp ht
  cases a with
  | offEnd c h =>
      refine ⟨⟨hen, hu⟩, rfl, ?_⟩
      intro q hq
      rcases List.mem_cons.mp hq with rfl | hq
      · exact Or.inr rfl
      · exact Or.inl hq
  | create c => exact ⟨⟨hen, hu⟩, rfl, fun _ hq => Or.inl hq⟩
  | on type c fn p => exact ⟨⟨hen, hu⟩, rfl, fun _ hq => Or.inl hq⟩
  | offBegin c i => exact ⟨⟨hen, hu⟩, rfl, fun _ hq => Or.inl hq⟩
  | destroyBegin c => exact ⟨⟨hen, hu⟩, rfl, fun _ hq => Or.inl hq⟩
  | destroyEnd c => exact ⟨⟨hen, hu⟩, rfl, fun _ hq => Or.inl hq⟩

/-- Without the steps of the bridges, a run is one of the goroutines. -/
theorem run_goActs (h : Run Step start l s) : Run System.Step System.start (goActs l) s.system := by
  induction h with
  | start => exact .start
  | step hrun hstep ih =>
      rename_i l s t a
      rw [goActs_append]
      cases a with
      | go a => exact ih.step (step_go hstep).1
      | copy d type c handlers =>
          obtain rfl := Option.some.inj hstep.2
          simpa [goActs] using ih
      | call d x =>
          obtain rfl := Option.some.inj hstep.2
          simpa [goActs] using ih
      | offReturn c h =>
          obtain rfl := Option.some.inj hstep.2
          simpa [goActs] using ih

/-- A `ClientOffHandler` that is about to return has had its critical section. -/
theorem offEnd_of_returning (hrun : Run Step start l s) {c : ClientPtr} {h : Nat}
    (hmem : (c, h) ∈ s.returning) : .go (.offEnd c h) ∈ l := by
  induction hrun with
  | start => simp [start] at hmem
  | step hrun hstep ih =>
      rename_i l s t a
      have hold : (c, h) ∈ s.returning → .go (.offEnd c h) ∈ l ++ [a] := fun hmem =>
        List.mem_append_left _ (ih hmem)
      cases a with
      | go a =>
          rcases (step_go hstep).2.2 _ hmem with hmem | rfl
          · exact hold hmem
          · simp
      | copy d type c' handlers =>
          obtain rfl := Option.some.inj hstep.2
          exact hold hmem
      | call d x =>
          obtain rfl := Option.some.inj hstep.2
          exact hold hmem
      | offReturn c' h' =>
          obtain rfl := Option.some.inj hstep.2
          exact hold (List.mem_of_mem_erase hmem)

/-- What a bridge copies is registered, and no `ClientOffHandler` for it has had its critical
section. -/
theorem copiedAt (hrun : Run Step start l s) {type : HandlerType} {c : ClientPtr}
    {handlers : List (Nat × φ)} (hperm : handlers.Perm (s.system.registry.goBridge type c)) :
    CopiedAt l type c handlers := by
  have hgo := run_goActs hrun
  have hholds := (System.Tracks.run hgo).holds
  have hreg : ∀ x ∈ handlers, ⟨x.1, c, type, x.2⟩ ∈ (Registrations.after (goActs l)).live :=
    fun x hx => (hholds.entries type c x.1 x.2).mp (hperm.mem_iff.mp hx)
  constructor
  · exact (hperm.map Prod.fst).nodup_iff.mpr (hholds.goBridge_perm type c).2
  · exact hreg
  · intro x hx c' h hoff
    exact (System.past_of_offEnd hgo (mem_goActs.mpr hoff)).2 _ (hreg x hx)

/-- **The invariant of a dispatch**: as long as it has not copied it has called nothing, and
then it has called a first part of what it copied. -/
structure Copies (s : Bridges φ) (l : List (BridgeAct φ)) (d : Nat) : Prop where
  idle : s.running d = none → callsOf d l = []
  busy : ∀ rest, s.running d = some rest →
    ∃ p type c q, l = p ++ .copy d type c (callsOf d l ++ rest) :: q ∧
      CopiedAt p type c (callsOf d l ++ rest)

/-- A step that the dispatch has no part in. -/
theorem Copies.other {d : Nat} (h : s.Copies l d) {a : BridgeAct φ}
    (hrunning : t.running d = s.running d) (hcalls : callsOf d (l ++ [a]) = callsOf d l) :
    t.Copies (l ++ [a]) d := by
  constructor
  · rw [hrunning, hcalls]
    exact h.idle
  · intro rest hrest
    obtain ⟨p, type, c, q, hl, hcopied⟩ := h.busy rest (hrunning ▸ hrest)
    rw [hcalls]
    refine ⟨p, type, c, q ++ [a], ?_, hcopied⟩
    rw [← List.cons_append, ← List.append_assoc, ← hl]

/-- **One step** keeps the invariant. -/
theorem Copies.step {d : Nat} (h : s.Copies l d) (hrun : Run Step start l s) {a : BridgeAct φ}
    (hstep : s.Step a t) : t.Copies (l ++ [a]) d := by
  cases a with
  | go a => exact h.other (congrFun (step_go hstep).2.1 d) (by simp [callsOf])
  | offReturn c i =>
      obtain rfl := Option.some.inj hstep.2
      exact h.other rfl (by simp [callsOf])
  | copy d' type c handlers =>
      obtain ⟨⟨hnone, hperm⟩, ht⟩ := hstep
      obtain rfl := Option.some.inj ht
      by_cases hdd : d = d'
      · obtain rfl := hdd
        have hcalls : callsOf d (l ++ [.copy d type c handlers]) = [] := by
          rw [callsOf_append, h.idle hnone]
          rfl
        have hrunning := Function.update_self d (some handlers) s.running
        constructor
        · intro _
          exact hcalls
        · intro rest hrest
          obtain rfl := Option.some.inj (hrunning.symm.trans hrest)
          rw [hcalls]
          exact ⟨l, type, c, [], rfl, copiedAt hrun hperm⟩
      · exact h.other (Function.update_of_ne hdd ..) (by simp [callsOf])
  | call d' x =>
      obtain ⟨⟨rest, hrest⟩, ht⟩ := hstep
      obtain rfl := Option.some.inj ht
      by_cases hdd : d = d'
      · obtain rfl := hdd
        have hcalls : callsOf d (l ++ [.call d x]) = callsOf d l ++ [x] := by
          rw [callsOf_append]
          simp [callsOf]
        have hrunning : Function.update s.running d ((s.running d).map List.tail) d =
            some rest := by
          rw [Function.update_self, hrest]
          rfl
        obtain ⟨p, type, c, q, hl, hcopied⟩ := h.busy _ hrest
        constructor
        · intro hnone
          exact absurd (hrunning.symm.trans hnone) (by simp)
        · -- the handler moves from what is left to what has been called
          intro rest' hrest'
          obtain rfl := Option.some.inj (hrunning.symm.trans hrest')
          rw [hcalls, List.append_assoc, List.singleton_append]
          refine ⟨p, type, c, q ++ [.call d x], ?_, hcopied⟩
          rw [← List.cons_append, ← List.append_assoc, ← hl]
      · have hne : d' ≠ d := fun heq => hdd heq.symm
        exact h.other (Function.update_of_ne hdd ..) (by simp [callsOf, hne])

/-- **Every run** keeps the invariant. -/
theorem Copies.run (h : Run Step start l s) (d : Nat) : s.Copies l d := by
  induction h with
  | start =>
      constructor
      · intro _
        rfl
      · intro rest hrest
        simp [start] at hrest
  | step hrun hstep ih => exact ih.step hrun hstep

/-- The dispatch that calls a handler has copied it. -/
theorem copied_of_call {pre post : List (BridgeAct φ)} {d : Nat} {x : Nat × φ}
    (h : Run Step start (pre ++ .call d x :: post) s) :
    ∃ p type c handlers q, pre = p ++ .copy d type c handlers :: q ∧ x ∈ handlers ∧
      CopiedAt p type c handlers := by
  obtain ⟨s', u, hrun, ⟨rest, hrest⟩, _⟩ := h.split
  obtain ⟨p, type, c, q, hpre, hcopied⟩ := (Copies.run hrun d).busy _ hrest
  exact ⟨p, type, c, _, q, hpre, by simp, hcopied⟩

/-- **The bridges that had copied a handler before it was removed, and no others, may still
call it**, each of them once, in every run. -/
theorem onlyUnderWay (h : Run Step start l s) : OnlyUnderWay l := by
  constructor
  · intro pre d x post hl
    rw [hl] at h
    exact copied_of_call h
  · intro d
    cases hrunning : s.running d with
    | none =>
        rw [(Copies.run h d).idle hrunning]
        exact List.nodup_nil
    | some rest =>
        obtain ⟨p, type, c, q, _, hcopied⟩ := (Copies.run h d).busy rest hrunning
        exact hcopied.nodup.sublist ((List.sublist_append_left _ _).map _)
  · intro p c i q d x hl hcall hid
    obtain ⟨q₁, q₂, rfl⟩ := List.append_of_mem hcall
    rw [hl] at h
    obtain ⟨s', u, hoff, hen, _⟩ := h.split
    have hend : .go (.offEnd c i) ∈ p := offEnd_of_returning hoff hen
    rw [← List.cons_append, ← List.append_assoc] at h
    obtain ⟨p', type, c', handlers, q', hpre, hx, hcopied⟩ := copied_of_call h
    have hbefore : ∀ c'', .go (.offEnd c'' i) ∉ p' := fun c'' hmem =>
      hcopied.before x hx c'' i hmem hid
    rcases List.append_eq_append_iff.mp hpre with ⟨m, rfl, _⟩ | ⟨m, rfl, hm⟩
    · -- a copy behind the critical section
      exact absurd (List.mem_append_left m hend) (hbefore c)
    · cases m with
      | nil => simp at hm
      | cons b m =>
          obtain ⟨rfl, _⟩ := List.cons.inj hm
          exact ⟨p', type, c', handlers, m, rfl, hx, hbefore⟩

/-! ## A handler that removes another one -/

/-- A bridge copies two handlers and calls the first one, whose function removes the second
one; then it calls the second one. -/
def inFlight : List (BridgeAct Nat) :=
  [.go (.create 1), .go (.on .request 1 10 5), .go (.on .request 1 20 6),
    .copy 0 .request 1 [(1, 10), (2, 20)], .call 0 (1, 10), .go (.offBegin 1 (some 1)),
    .go (.offEnd 1 1), .offReturn 1 1, .call 0 (2, 20)]

theorem exists_inFlight : ∃ s : Bridges Nat, Run Step start inFlight s := by
  have h₁ : Run Step (start : Bridges Nat) ([] ++ [.go (.create 1)]) _ :=
    Run.start.step ⟨⟨by decide, rfl⟩, rfl⟩
  have h₂ : Run Step (start : Bridges Nat) (_ ++ [.go (.on .request 1 10 5)]) _ :=
    h₁.step ⟨⟨Or.inr ⟨rfl, List.not_mem_nil⟩, fun _ => ⟨by decide, rfl⟩⟩, rfl⟩
  have h₃ : Run Step (start : Bridges Nat) (_ ++ [.go (.on .request 1 20 6)]) _ :=
    h₂.step ⟨⟨Or.inr ⟨rfl, List.not_mem_nil⟩, fun hnone => by cases hnone⟩, rfl⟩
  have h₄ : Run Step (start : Bridges Nat) (_ ++ [.copy 0 .request 1 [(1, 10), (2, 20)]]) _ :=
    h₃.step ⟨⟨rfl, List.Perm.refl _⟩, rfl⟩
  have h₅ : Run Step (start : Bridges Nat) (_ ++ [.call 0 (1, 10)]) _ :=
    h₄.step ⟨⟨_, rfl⟩, rfl⟩
  have h₆ : Run Step (start : Bridges Nat) (_ ++ [.go (.offBegin 1 (some 1))]) _ :=
    h₅.step ⟨⟨Or.inr ⟨rfl, List.not_mem_nil⟩, fun i hi => by cases hi; decide⟩, rfl⟩
  have h₇ : Run Step (start : Bridges Nat) (_ ++ [.go (.offEnd 1 1)]) _ :=
    h₆.step ⟨List.mem_cons_self, rfl⟩
  have h₈ : Run Step (start : Bridges Nat) (_ ++ [.offReturn 1 1]) _ :=
    h₇.step ⟨List.mem_cons_self, rfl⟩
  exact ⟨_, h₈.step ⟨⟨_, rfl⟩, rfl⟩⟩

theorem onlyUnderWay_inFlight : OnlyUnderWay inFlight := by
  obtain ⟨s, hrun⟩ := exists_inFlight
  exact onlyUnderWay hrun

theorem not_neverAfterOff :
    ¬∀ (l : List (BridgeAct Nat)) (s : Bridges Nat), Run Step start l s → NeverAfterOff l := by
  intro hnever
  obtain ⟨s, hrun⟩ := exists_inFlight
  exact hnever _ s hrun (inFlight.take 7) 1 1 [.call 0 (2, 20)] 0 (2, 20) rfl
    List.mem_cons_self rfl

end Bridges

end SporeClient.Go
