/-
  Go/Handlers.lean --- the handlers of the Go client: `callbacks.go`, and `ClientDestroy`
  of `spore_c.go`.

  The Go side keeps, for each kind of message and each client address, a map of handlers
  and the bridge: the one C++ handler that calls all of them.  The bridge is registered
  with the first handler and unregistered with the last one.  The kinds have a map each in
  the source; here they are one map, from the kind and the address.
-/
import SporeClient.Client.Registration
import SporeClient.Foundation.SortedMap

set_option autoImplicit false

namespace SporeClient.Go

open SporeClient.Foundation
open SporeClient.Client

/-- `Handler`; the field `client` is 0 for nil. -/
structure Handler where
  client : ClientPtr
  type_ : HandlerType
  id : Nat
  deriving DecidableEq, Repr

/-- The C++ clients, the variables of `callbacks.go`, and the handlers it has returned.
The function of a bridge is named by the kind of message it is for. -/
structure Registry (φ : Type) where
  lib : Library HandlerType
  nextHandlerID : Nat
  handlers : HandlerType × ClientPtr → Option (SortedMap Nat φ)
  bridges : HandlerType × ClientPtr → Option HandlerPtr
  returned : List Handler

namespace Registry

variable {φ : Type}

def empty : Registry φ := ⟨.empty, 0, fun _ => none, fun _ => none, []⟩

/-- What the five `ClientOn` functions have in common: `p` is the address of the bridge, when
one is made. -/
def clientOn (s : Registry φ) (type : HandlerType) (c : ClientPtr) (fn : φ) (p : HandlerPtr) :
    Registry φ :=
  let s : Registry φ :=
    match s.handlers (type, c) with
    | some _ => s
    | none =>
        let registered := s.lib.registerHandler type c (some type) p
        { s with
          lib := registered.1
          handlers := Function.update s.handlers (type, c) (some ∅)
          bridges := Function.update s.bridges (type, c) (some registered.2) }
  let id := s.nextHandlerID + 1
  { s with
    nextHandlerID := id
    handlers := Function.update s.handlers (type, c)
      ((s.handlers (type, c)).map fun handlers => handlers.insert id fn)
    returned := s.returned ++ [⟨c, type, id⟩] }

def clientOnRequest (s : Registry φ) := s.clientOn .request
def clientOnResponse (s : Registry φ) := s.clientOn .response
def clientOnWitness (s : Registry φ) := s.clientOn .witness
def clientOnPublish (s : Registry φ) := s.clientOn .publish
def clientOnParseError (s : Registry φ) := s.clientOn .parseError

/-- `ClientOffHandler` before it takes the lock: whether it goes on.  `h` says which of the
returned handlers it is given, `none` is nil. -/
def offPasses (s : Registry φ) (c : ClientPtr) (h : Option Nat) : Bool :=
  match h.bind fun h => s.returned[h]? with
  | none => false
  | some handler => handler.client == c

/-- The critical section of `ClientOffHandler` for a kind; `none` when the C++ side reads a
handler that has been deleted. -/
def offLocked (s : Registry φ) (c : ClientPtr) (type : HandlerType) (id : Nat) :
    Option (Registry φ) :=
  match s.handlers (type, c) with
  | none => some s
  | some handlers =>
      let handlers := handlers.erase id
      if handlers.entries = [] then
        (s.lib.unregisterHandler c ((s.bridges (type, c)).getD 0)).map fun lib =>
          { s with
            lib
            handlers := Function.update s.handlers (type, c) none
            bridges := Function.update s.bridges (type, c) none }
      else some { s with handlers := Function.update s.handlers (type, c) (some handlers) }

/-- The critical section of `ClientOffHandler`. -/
def clientOffHandler (s : Registry φ) (c : ClientPtr) (h : Nat) : Option (Registry φ) :=
  match s.returned[h]? with
  | none => some s
  | some handler =>
      (s.offLocked c handler.type_ handler.id).map fun s =>
        { s with returned := s.returned.set h { handler with client := 0 } }

/-- `clearClientHandlers`. -/
def clearClientHandlers (s : Registry φ) (c : ClientPtr) : Registry φ :=
  { s with
    handlers := fun slot => if slot.2 = c then none else s.handlers slot
    bridges := fun slot => if slot.2 = c then none else s.bridges slot }

/-- What a bridge copies under the lock, and calls; the order is that of a Go map, which is
none. -/
def goBridge (s : Registry φ) (type : HandlerType) (c : ClientPtr) : List (Nat × φ) :=
  match s.handlers (type, c) with
  | none => []
  | some handlers => handlers.entries

def goRequestBridge (s : Registry φ) := s.goBridge .request
def goResponseBridge (s : Registry φ) := s.goBridge .response
def goWitnessBridge (s : Registry φ) := s.goBridge .witness
def goPublishBridge (s : Registry φ) := s.goBridge .publish
def goParseErrorBridge (s : Registry φ) := s.goBridge .parseError

/-- The Go handlers that are called when a message arrives: `listen` calls the functions of
the vector, which are bridges. -/
def deliver (s : Registry φ) (type : HandlerType) (c : ClientPtr) : List (Nat × φ) :=
  (s.lib.handlersOf c type).flatMap fun p =>
    match s.lib.heap p with
    | none => []
    | some bridge => s.goBridge bridge.fn c

/-! ## What the critical sections do to the maps -/

section

variable {s : Registry φ} {c : ClientPtr} {type : HandlerType}

theorem clientOn_of_some {handlers : SortedMap Nat φ} (h : s.handlers (type, c) = some handlers)
    (fn : φ) (p : HandlerPtr) :
    s.clientOn type c fn p =
      { s with
        nextHandlerID := s.nextHandlerID + 1
        handlers := Function.update s.handlers (type, c)
          (some (handlers.insert (s.nextHandlerID + 1) fn))
        returned := s.returned ++ [⟨c, type, s.nextHandlerID + 1⟩] } := by
  simp [clientOn, h]

theorem clientOn_of_none (h : s.handlers (type, c) = none) (fn : φ) (p : HandlerPtr) :
    s.clientOn type c fn p =
      { lib := (s.lib.registerHandler type c (some type) p).1
        nextHandlerID := s.nextHandlerID + 1
        handlers := Function.update s.handlers (type, c)
          (some ((∅ : SortedMap Nat φ).insert (s.nextHandlerID + 1) fn))
        bridges := Function.update s.bridges (type, c)
          (some (s.lib.registerHandler type c (some type) p).2)
        returned := s.returned ++ [⟨c, type, s.nextHandlerID + 1⟩] } := by
  simp [clientOn, h]

@[simp] theorem nextHandlerID_clientOn (fn : φ) (p : HandlerPtr) :
    (s.clientOn type c fn p).nextHandlerID = s.nextHandlerID + 1 := by
  cases h : s.handlers (type, c) with
  | none => rw [clientOn_of_none h]
  | some handlers => rw [clientOn_of_some h]

@[simp] theorem returned_clientOn (fn : φ) (p : HandlerPtr) :
    (s.clientOn type c fn p).returned = s.returned ++ [⟨c, type, s.nextHandlerID + 1⟩] := by
  cases h : s.handlers (type, c) with
  | none => rw [clientOn_of_none h]
  | some handlers => rw [clientOn_of_some h]

/-- The new handler is added under the next id, and nothing else changes. -/
theorem mem_goBridge_clientOn {fn : φ} {p : HandlerPtr} {type' : HandlerType} {c' : ClientPtr}
    {q : Nat × φ} :
    q ∈ (s.clientOn type c fn p).goBridge type' c' ↔
      ((type', c') = (type, c) ∧ q = (s.nextHandlerID + 1, fn)) ∨
        (q ∈ s.goBridge type' c' ∧ ((type', c') = (type, c) → q.1 ≠ s.nextHandlerID + 1)) := by
  have hmap : ∀ slot, (s.clientOn type c fn p).handlers slot =
      Function.update s.handlers (type, c)
        (some (((s.handlers (type, c)).getD ∅).insert (s.nextHandlerID + 1) fn)) slot := by
    intro slot
    cases h : s.handlers (type, c) with
    | none => rw [clientOn_of_none h]; rfl
    | some handlers => rw [clientOn_of_some h]; rfl
  by_cases hslot : (type', c') = (type, c)
  · obtain ⟨rfl, rfl⟩ := Prod.mk.inj hslot
    rw [goBridge, goBridge, hmap, Function.update_self]
    cases h : s.handlers (type', c') with
    | none => simp
    | some handlers => simp
  · rw [goBridge, goBridge, hmap, Function.update_of_ne hslot]
    simp [hslot]

/-- The handler is taken out, and nothing else changes. -/
theorem mem_goBridge_offLocked {s' : Registry φ} {id : Nat}
    (h : s.offLocked c type id = some s') {type' : HandlerType} {c' : ClientPtr} {q : Nat × φ} :
    q ∈ s'.goBridge type' c' ↔
      q ∈ s.goBridge type' c' ∧ ((type', c') = (type, c) → q.1 ≠ id) := by
  unfold offLocked at h
  split at h
  · rename_i hnone
    obtain rfl := Option.some.inj h
    by_cases hslot : (type', c') = (type, c)
    · obtain ⟨rfl, rfl⟩ := Prod.mk.inj hslot
      simp [goBridge, hnone]
    · simp [hslot]
  · rename_i handlers hsome
    dsimp only at h
    split at h
    · rename_i hempty
      obtain ⟨lib, _, rfl⟩ := Option.map_eq_some_iff.mp h
      by_cases hslot : (type', c') = (type, c)
      · obtain ⟨rfl, rfl⟩ := Prod.mk.inj hslot
        have hnot := List.eq_nil_iff_forall_not_mem.mp hempty q
        simp only [SortedMap.mem_erase, not_and, not_not] at hnot
        simpa [goBridge, hsome] using hnot
      · simp [goBridge, hslot]
    · obtain rfl := Option.some.inj h
      by_cases hslot : (type', c') = (type, c)
      · obtain ⟨rfl, rfl⟩ := Prod.mk.inj hslot
        simp [goBridge, hsome]
      · simp [goBridge, hslot]

/-- Only the maps and the bridges change. -/
theorem offLocked_fields {s' : Registry φ} {id : Nat} (h : s.offLocked c type id = some s') :
    s'.nextHandlerID = s.nextHandlerID ∧ s'.returned = s.returned := by
  unfold offLocked at h
  split at h
  · obtain rfl := Option.some.inj h
    exact ⟨rfl, rfl⟩
  · dsimp only at h
    split at h
    · obtain ⟨lib, _, rfl⟩ := Option.map_eq_some_iff.mp h
      exact ⟨rfl, rfl⟩
    · obtain rfl := Option.some.inj h
      exact ⟨rfl, rfl⟩

theorem mem_goBridge_clearClientHandlers {type' : HandlerType} {c' : ClientPtr} {q : Nat × φ} :
    q ∈ (s.clearClientHandlers c).goBridge type' c' ↔ q ∈ s.goBridge type' c' ∧ c' ≠ c := by
  by_cases hc : c' = c
  · simp [goBridge, clearClientHandlers, hc]
  · simp [goBridge, clearClientHandlers, hc]

end

end Registry

end SporeClient.Go
