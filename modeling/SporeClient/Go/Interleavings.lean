/-
  Go/Interleavings.lean --- the registrations of any number of goroutines.

  WHAT THIS FILE IS FOR.  A goroutine that registers or removes a handler, or destroys a
  client, has a critical section of `handlersMu`; what it does before or after is a step of
  its own.  `System.Step` lists these steps, in any order.  Over it stands
  `Registrations`, which says what the handlers are for: which ones were registered and not
  removed, whatever the maps and the bridges are.

  `System.inStep` is the result: in every run the maps, the bridges and the vectors of a
  client stay in step, and a message reaches the registered handlers, each of them once.
  The invariant that carries it is `System.Tracks`.
-/
import SporeClient.Foundation.Runs
import SporeClient.Go.Handlers

set_option autoImplicit false

namespace SporeClient.Go

open SporeClient.Foundation
open SporeClient.Client

/-! ## What is registered -/

/-- A handler that was registered and not removed. -/
structure Registration (φ : Type) where
  id : Nat
  client : ClientPtr
  type : HandlerType
  fn : φ
  deriving DecidableEq

/-- A step of a goroutine.  `on` has the address for a new bridge; `offBegin` is
`ClientOffHandler` up to its lock, given one of the handlers returned so far or nil, and
`offEnd` its critical section; `destroyBegin` is `clearClientHandlers`, and `destroyEnd`
what `ClientDestroy` does behind it. -/
inductive Act (φ : Type) where
  | create (c : ClientPtr)
  | on (type : HandlerType) (c : ClientPtr) (fn : φ) (p : HandlerPtr)
  | offBegin (c : ClientPtr) (h : Option Nat)
  | offEnd (c : ClientPtr) (h : Nat)
  | destroyBegin (c : ClientPtr)
  | destroyEnd (c : ClientPtr)

/-- The number of registrations so far, and those that are in force. -/
structure Registrations (φ : Type) where
  count : Nat
  live : List (Registration φ)

namespace Registrations

variable {φ : Type}

/-- Registering adds a handler, with the number of the registration; the handler that the
call number `h` has returned, counted from 0, is removed by `offEnd`, and the handlers of a
client are by `destroyBegin`. -/
def act (r : Registrations φ) : Act φ → Registrations φ
  | .on type c fn _ => ⟨r.count + 1, r.live ++ [⟨r.count + 1, c, type, fn⟩]⟩
  | .offEnd _ h => { r with live := r.live.filter fun x => x.id ≠ h + 1 }
  | .destroyBegin c => { r with live := r.live.filter fun x => x.client ≠ c }
  | .create _ | .offBegin _ _ | .destroyEnd _ => r

/-- What is registered after these steps. -/
def after (l : List (Act φ)) : Registrations φ := l.foldl act ⟨0, []⟩

/-- The handlers of a client for a kind of message. -/
def handlersOf (r : Registrations φ) (type : HandlerType) (c : ClientPtr) : List (Nat × φ) :=
  (r.live.filter fun x => x.type = type ∧ x.client = c).map fun x => (x.id, x.fn)

end Registrations

/-! ## The goroutines -/

/-- The registry, the clients whose `ClientDestroy` has begun and is not over, and the calls
of `ClientOffHandler` that have passed their check and not taken the lock. -/
structure System (φ : Type) where
  registry : Registry φ
  destroying : List ClientPtr
  pending : List (ClientPtr × Nat)

namespace System

variable {φ : Type}

def start : System φ := ⟨.empty, [], []⟩

/-- A client that exists, and its `ClientDestroy` has not begun. -/
def Live (s : System φ) (c : ClientPtr) : Prop :=
  (s.registry.lib.clients c).isSome ∧ c ∉ s.destroying

/-- A client that calls may be made on; nil is one. -/
def Callable (s : System φ) (c : ClientPtr) : Prop := c = 0 ∨ s.Live c

/-- When a step is possible: a new object has an address that is not in use, and no call on
a client runs after its `ClientDestroy` has begun. -/
def Enabled (s : System φ) : Act φ → Prop
  | .create c => c ≠ 0 ∧ s.registry.lib.clients c = none
  | .on type c _ p =>
      s.Callable c ∧
        (s.registry.handlers (type, c) = none → p ≠ 0 ∧ s.registry.lib.heap p = none)
  | .offBegin c h => s.Callable c ∧ ∀ i, h = some i → i < s.registry.returned.length
  | .offEnd c h => (c, h) ∈ s.pending
  | .destroyBegin c => s.Callable c ∧ ∀ h, (c, h) ∉ s.pending
  | .destroyEnd c => c ∈ s.destroying

/-- What a step does; `none` when the C++ side reads a handler that has been deleted. -/
def act (s : System φ) : Act φ → Option (System φ)
  | .create c =>
      some { s with registry := { s.registry with lib := s.registry.lib.create c } }
  | .on type c fn p => some { s with registry := s.registry.clientOn type c fn p }
  | .offBegin c h =>
      match h with
      | none => some s
      | some i =>
          if s.registry.offPasses c (some i) then some { s with pending := (c, i) :: s.pending }
          else some s
  | .offEnd c h =>
      (s.registry.clientOffHandler c h).map fun registry =>
        { s with registry, pending := s.pending.erase (c, h) }
  | .destroyBegin c =>
      some { s with
        registry := s.registry.clearClientHandlers c
        destroying := c :: s.destroying }
  | .destroyEnd c =>
      some { s with
        registry := { s.registry with lib := s.registry.lib.destroy c }
        destroying := s.destroying.filter fun c' => c' ≠ c }

def Step (s : System φ) (a : Act φ) (t : System φ) : Prop := s.Enabled a ∧ s.act a = some t

end System

/-! ## The three stores -/

/-- The stores of a client for a kind of message: nothing in any of them, or handlers, a
bridge, and a vector with only this bridge. -/
inductive SlotState {φ : Type} (s : Registry φ) (type : HandlerType) (c : ClientPtr) : Prop
  | idle (hmap : s.handlers (type, c) = none) (hbridge : s.bridges (type, c) = none)
      (hvector : s.lib.handlersOf c type = [])
  | bridged (handlers : SortedMap Nat φ) (p : HandlerPtr) (id : Nat)
      (hmap : s.handlers (type, c) = some handlers) (hne : handlers.entries ≠ [])
      (hbridge : s.bridges (type, c) = some p) (hvector : s.lib.handlersOf c type = [p])
      (hheap : s.lib.heap p = some ⟨type, id, type⟩)

/-- Nothing in the stores of a client for a kind of message has changed. -/
structure SameStores {φ : Type} (s s' : Registry φ) (type : HandlerType) (c : ClientPtr) :
    Prop where
  map : s'.handlers (type, c) = s.handlers (type, c)
  bridge : s'.bridges (type, c) = s.bridges (type, c)
  vector : s'.lib.handlersOf c type = s.lib.handlersOf c type
  heap : ∀ p ∈ s.lib.handlersOf c type, s'.lib.heap p = s.lib.heap p

theorem SlotState.congr {φ : Type} {s s' : Registry φ} {type : HandlerType} {c : ClientPtr}
    (h : SlotState s type c) (hsame : SameStores s s' type c) : SlotState s' type c := by
  obtain ⟨hmap, hbridge, hvector, hheap⟩ := hsame
  cases h with
  | idle hm hb hv => exact .idle (hmap.trans hm) (hbridge.trans hb) (hvector.trans hv)
  | bridged handlers p id hm hne hb hv hh =>
      exact .bridged handlers p id (hmap.trans hm) hne (hbridge.trans hb) (hvector.trans hv)
        ((hheap p (by simp [hv])).trans hh)

/-- The C++ side is as it was: its clients exist, and its vectors are sound. -/
structure SameClients {φ : Type} (s s' : Registry φ) : Prop where
  sound : s'.lib.Sound
  isSome : ∀ c, (s'.lib.clients c).isSome = (s.lib.clients c).isSome

namespace Registry

variable {φ : Type} {s : Registry φ} {type : HandlerType} {c : ClientPtr}

/-- A message reaches what the bridge of its kind copies. -/
theorem deliver_eq (h : SlotState s type c) : s.deliver type c = s.goBridge type c := by
  cases h with
  | idle hmap _ hvector => simp [deliver, goBridge, hmap, hvector]
  | bridged handlers p id hmap _ _ hvector hheap => simp [deliver, hvector, hheap]

/-- **`ClientOn`** at a client that exists: the stores of this client and kind are bridged,
and the others are what they were. -/
theorem clientOn_slots (hsound : s.lib.Sound) (hc : (s.lib.clients c).isSome)
    (hslot : SlotState s type c) (fn : φ) {p : HandlerPtr}
    (hp : s.handlers (type, c) = none → p ≠ 0 ∧ s.lib.heap p = none) :
    SameClients s (s.clientOn type c fn p) ∧ SlotState (s.clientOn type c fn p) type c ∧
      ∀ type' c', (type', c') ≠ (type, c) → SameStores s (s.clientOn type c fn p) type' c' := by
  cases hslot with
  | bridged handlers p' id hmap hne hbridge hvector hheap =>
      rw [clientOn_of_some hmap]
      refine ⟨⟨hsound, fun _ => rfl⟩, ?_, fun type' c' hother => ?_⟩
      · refine .bridged _ p' id (Function.update_self ..) ?_ hbridge hvector hheap
        exact List.ne_nil_of_mem (SortedMap.mem_insert.mpr (Or.inl rfl))
      · exact ⟨Function.update_of_ne hother .., rfl, rfl, fun _ _ => rfl⟩
  | idle hmap hbridge hvector =>
      obtain ⟨hp0, hfresh⟩ := hp hmap
      rw [clientOn_of_none hmap]
      have hsound' := Library.registerHandler_sound hsound hc hp0 hfresh type type
      obtain ⟨L', id, heq, hsome, hvectors, hheap⟩ :=
        Library.registerHandler_eq hc type type p
      rw [heq] at hsound' ⊢
      refine ⟨⟨hsound', hsome⟩, ?_, fun type' c' hother => ?_⟩
      · refine .bridged _ p id (Function.update_self ..) ?_ (Function.update_self ..) ?_ ?_
        · exact List.ne_nil_of_mem (SortedMap.mem_insert.mpr (Or.inl rfl))
        · simp [hvectors, hvector]
        · exact (congrFun hheap p).trans (Function.update_self ..)
      · have hother' : ¬(c' = c ∧ type' = type) := fun h => hother (by rw [h.1, h.2])
        refine ⟨Function.update_of_ne hother .., Function.update_of_ne hother .., ?_,
          fun q hq => ?_⟩
        · exact (hvectors c' type').trans (if_neg hother')
        · exact (congrFun hheap q).trans (Function.update_of_ne (hsound.ne_fresh hfresh hq) ..)

/-- The critical section of **`ClientOffHandler`** at a client that exists: no deleted handler
is read, the stores of this client and kind are in one of their two states, and the others
are what they were. -/
theorem offLocked_slots (hsound : s.lib.Sound) (hslot : SlotState s type c) (id : Nat) :
    ∃ s', s.offLocked c type id = some s' ∧ SameClients s s' ∧ SlotState s' type c ∧
      ∀ type' c', (type', c') ≠ (type, c) → SameStores s s' type' c' := by
  cases hslot with
  | idle hmap hbridge hvector =>
      have heq : s.offLocked c type id = some s := by simp only [offLocked, hmap]
      exact ⟨s, heq, ⟨hsound, fun _ => rfl⟩, .idle hmap hbridge hvector,
        fun _ _ _ => ⟨rfl, rfl, rfl, fun _ _ => rfl⟩⟩
  | bridged handlers p bridgeId hmap hne hbridge hvector hheap =>
      by_cases hempty : (handlers.erase id).entries = []
      · -- the last handler is gone: the bridge is unregistered
        have hmem : p ∈ s.lib.handlersOf c type := by simp [hvector]
        obtain ⟨L', heq, hsome, hvectors, hheap'⟩ := Library.unregisterHandler_eq hsound hmem
        have hoff : s.offLocked c type id = some
            { s with
              lib := L'
              handlers := Function.update s.handlers (type, c) none
              bridges := Function.update s.bridges (type, c) none } := by
          simp only [offLocked, hmap, hempty, if_true, hbridge, Option.getD_some, heq,
            Option.map_some]
        refine ⟨_, hoff, ⟨Library.unregisterHandler_sound hsound hvector heq, hsome⟩, ?_, ?_⟩
        · apply SlotState.idle (Function.update_self ..) (Function.update_self ..)
          simp [hvectors, hvector]
        · intro type' c' hother
          have hother' : ¬(c' = c ∧ type' = type) := fun h => hother (by rw [h.1, h.2])
          refine ⟨Function.update_of_ne hother .., Function.update_of_ne hother .., ?_,
            fun q hq => ?_⟩
          · exact (hvectors c' type').trans (if_neg hother')
          · have hqp : q ≠ p := by
              rintro rfl
              obtain ⟨_, x, hx, htype⟩ := hsound.listed c' type' q hq
              obtain rfl := Option.some.inj (hx.symm.trans hheap)
              obtain rfl : type = type' := htype
              exact hother' ⟨hsound.disjoint c' c type q hq hmem, rfl⟩
            exact (congrFun hheap' q).trans (Function.update_of_ne hqp ..)
      · have hoff : s.offLocked c type id = some
            { s with
              handlers := Function.update s.handlers (type, c) (some (handlers.erase id)) } := by
          simp only [offLocked, hmap, hempty, if_false]
        refine ⟨_, hoff, ⟨hsound, fun _ => rfl⟩, ?_, fun type' c' hother => ?_⟩
        · exact .bridged _ p bridgeId (Function.update_self ..) hempty hbridge hvector hheap
        · exact ⟨Function.update_of_ne hother .., rfl, rfl, fun _ _ => rfl⟩

/-- With nil for a client `ClientOn` makes no bridge. -/
theorem clientOn_null (hsound : s.lib.Sound) (fn : φ) (p : HandlerPtr) :
    SameClients s (s.clientOn type 0 fn p) ∧
      ∀ type' c', (type', c') ≠ (type, 0) → SameStores s (s.clientOn type 0 fn p) type' c' := by
  cases hmap : s.handlers (type, 0) with
  | some handlers =>
      rw [clientOn_of_some hmap]
      exact ⟨⟨hsound, fun _ => rfl⟩, fun type' c' hother =>
        ⟨Function.update_of_ne hother .., rfl, rfl, fun _ _ => rfl⟩⟩
  | none =>
      rw [clientOn_of_none hmap, Library.registerHandler_null hsound]
      exact ⟨⟨hsound, fun _ => rfl⟩, fun type' c' hother =>
        ⟨Function.update_of_ne hother .., Function.update_of_ne hother .., rfl, fun _ _ => rfl⟩⟩

/-- With nil for a client `ClientOffHandler` unregisters no bridge. -/
theorem offLocked_null (hsound : s.lib.Sound) (type : HandlerType) (id : Nat) :
    ∃ s', s.offLocked 0 type id = some s' ∧ SameClients s s' ∧
      ∀ type' c', (type', c') ≠ (type, 0) → SameStores s s' type' c' := by
  cases hmap : s.handlers (type, 0) with
  | none =>
      exact ⟨s, by simp only [offLocked, hmap], ⟨hsound, fun _ => rfl⟩,
        fun _ _ _ => ⟨rfl, rfl, rfl, fun _ _ => rfl⟩⟩
  | some handlers =>
      by_cases hempty : (handlers.erase id).entries = []
      · have hoff : s.offLocked 0 type id = some
            { s with
              handlers := Function.update s.handlers (type, 0) none
              bridges := Function.update s.bridges (type, 0) none } := by
          simp only [offLocked, hmap, hempty, if_true, Library.unregisterHandler, hsound.null,
            Option.map_some]
        exact ⟨_, hoff, ⟨hsound, fun _ => rfl⟩, fun type' c' hother =>
          ⟨Function.update_of_ne hother .., Function.update_of_ne hother .., rfl, fun _ _ => rfl⟩⟩
      · have hoff : s.offLocked 0 type id = some
            { s with
              handlers := Function.update s.handlers (type, 0) (some (handlers.erase id)) } := by
          simp only [offLocked, hmap, hempty, if_false]
        exact ⟨_, hoff, ⟨hsound, fun _ => rfl⟩, fun type' c' hother =>
          ⟨Function.update_of_ne hother .., rfl, rfl, fun _ _ => rfl⟩⟩

end Registry

/-! ## The registrations and the maps -/

/-- The maps hold the handlers that are registered, under the ids of their registrations;
the returned handlers lead to them. -/
structure Registry.Holds {φ : Type} (s : Registry φ) (r : Registrations φ) : Prop where
  count : r.count = s.nextHandlerID
  length : s.returned.length = s.nextHandlerID
  ids : ∀ x ∈ r.live, 1 ≤ x.id ∧ x.id ≤ s.nextHandlerID
  nodup : (r.live.map Registration.id).Nodup
  returned_id : ∀ i h, s.returned[i]? = some h → h.id = i + 1
  owner : ∀ x ∈ r.live, ∃ h, s.returned[x.id - 1]? = some h ∧ h.type_ = x.type ∧
    h.client = x.client
  entries : ∀ type c id fn, (id, fn) ∈ s.goBridge type c ↔ ⟨id, c, type, fn⟩ ∈ r.live

namespace Registry

variable {φ : Type} {s : Registry φ} {r : Registrations φ}

theorem Holds.clientOn (h : s.Holds r) (type : HandlerType) (c : ClientPtr) (fn : φ)
    (p : HandlerPtr) : (s.clientOn type c fn p).Holds (r.act (.on type c fn p)) := by
  have hact : r.act (.on type c fn p) =
      ⟨s.nextHandlerID + 1, r.live ++ [⟨s.nextHandlerID + 1, c, type, fn⟩]⟩ := by
    rw [← h.count]
    rfl
  rw [hact]
  constructor
  · simp
  · simp [h.length]
  · intro x hx
    rw [nextHandlerID_clientOn]
    rcases List.mem_append.mp hx with hx | hx
    · have hid := h.ids x hx
      omega
    · rw [List.mem_singleton.mp hx]
      exact ⟨Nat.succ_pos _, Nat.le_refl _⟩
  · rw [List.map_append, List.nodup_append]
    refine ⟨h.nodup, by simp, fun id hid id' hid' heq => ?_⟩
    obtain ⟨x, hx, rfl⟩ := List.mem_map.mp hid
    have hle := (h.ids x hx).2
    simp only [List.map_cons, List.map_nil, List.mem_singleton] at hid'
    omega
  · intro i handler hi
    rw [returned_clientOn] at hi
    rcases Nat.lt_or_ge i s.returned.length with hlt | hge
    · rw [List.getElem?_append_left hlt] at hi
      exact h.returned_id i handler hi
    · rw [List.getElem?_append_right hge, List.getElem?_singleton] at hi
      split at hi
      · obtain rfl := Option.some.inj hi
        have hlength := h.length
        change s.nextHandlerID + 1 = i + 1
        omega
      · simp at hi
  · intro x hx
    rw [returned_clientOn]
    rcases List.mem_append.mp hx with hx | hx
    · obtain ⟨handler, hget, htype, hclient⟩ := h.owner x hx
      refine ⟨handler, ?_, htype, hclient⟩
      rw [List.getElem?_append_left (List.getElem?_eq_some_iff.mp hget).1, hget]
    · rw [List.mem_singleton.mp hx]
      refine ⟨⟨c, type, s.nextHandlerID + 1⟩, ?_, rfl, rfl⟩
      change (s.returned ++ [_])[s.nextHandlerID + 1 - 1]? = _
      rw [Nat.add_sub_cancel, ← h.length]
      simp
  · intro type' c' id f
    rw [mem_goBridge_clientOn, h.entries, List.mem_append, List.mem_singleton]
    constructor
    · rintro (⟨hslot, hid⟩ | ⟨hold, _⟩)
      · obtain ⟨rfl, rfl⟩ := Prod.mk.inj hslot
        obtain ⟨rfl, rfl⟩ := Prod.mk.inj hid
        exact Or.inr rfl
      · exact Or.inl hold
    · rintro (hold | hnew)
      · refine Or.inr ⟨hold, fun _ => ?_⟩
        have hle : id ≤ s.nextHandlerID := (h.ids _ hold).2
        change id ≠ s.nextHandlerID + 1
        omega
      · obtain ⟨rfl, rfl, rfl, rfl⟩ := Registration.mk.inj hnew
        exact Or.inl ⟨rfl, rfl⟩

/-- Removing the handler that a call has returned. -/
theorem Holds.clientOffHandler {s' : Registry φ} (h : s.Holds r) {c : ClientPtr} {i : Nat}
    (hclient : ∀ x ∈ r.live, x.id = i + 1 → x.client = c)
    (hoff : s.clientOffHandler c i = some s') : s'.Holds (r.act (.offEnd c i)) := by
  unfold Registry.clientOffHandler at hoff
  cases hget : s.returned[i]? with
  | none =>
      -- there is no such handler, and no such registration
      rw [hget] at hoff
      obtain rfl := Option.some.inj hoff
      have hact : r.act (.offEnd c i) = r := by
        have hkeep : r.live.filter (fun x => x.id ≠ i + 1) = r.live := by
          apply List.filter_eq_self.mpr
          intro x hx
          have hid := (h.ids x hx).2
          have hlength := List.getElem?_eq_none_iff.mp hget
          have hcount := h.length
          simp only [ne_eq, decide_not, Bool.not_eq_eq_eq_not, Bool.not_true,
            decide_eq_false_iff_not]
          omega
        simp only [Registrations.act, hkeep]
      rwa [hact]
  | some handler =>
      rw [hget] at hoff
      obtain ⟨s₁, hlocked, rfl⟩ := Option.map_eq_some_iff.mp hoff
      have hid : handler.id = i + 1 := h.returned_id i handler hget
      obtain ⟨hnext, hreturned⟩ := offLocked_fields hlocked
      have hmem : ∀ x, x ∈ (r.act (.offEnd c i)).live ↔ x ∈ r.live ∧ x.id ≠ i + 1 := by
        intro x
        simp [Registrations.act]
      constructor
      · exact h.count.trans hnext.symm
      · simpa [hnext, hreturned] using h.length
      · intro x hx
        have hx' := h.ids x ((hmem x).mp hx).1
        simpa [hnext] using hx'
      · exact h.nodup.sublist (List.filter_sublist.map _)
      · intro j handler' hj
        change (s₁.returned.set i _)[j]? = some handler' at hj
        rw [hreturned, List.getElem?_set] at hj
        split at hj
        · rename_i hij
          obtain rfl := hij
          split at hj
          · obtain rfl := Option.some.inj hj
            exact hid
          · simp at hj
        · exact h.returned_id j handler' hj
      · intro x hx
        obtain ⟨hx, hne⟩ := (hmem x).mp hx
        obtain ⟨handler', hget', htype, hclient'⟩ := h.owner x hx
        refine ⟨handler', ?_, htype, hclient'⟩
        have hpos := (h.ids x hx).1
        change (s₁.returned.set i _)[x.id - 1]? = _
        rw [hreturned, List.getElem?_set_ne (by omega), hget']
      · intro type' c' id f
        have hbridge : (id, f) ∈ s₁.goBridge type' c' ↔ _ := mem_goBridge_offLocked hlocked
        apply Iff.trans hbridge
        rw [h.entries, hmem, hid]
        refine and_congr_right fun hx => ⟨fun hne hid' => ?_, fun hne _ => hne⟩
        -- the registration with this id is in the slot of the handler
        obtain ⟨handler', hget', htype, _⟩ := h.owner _ hx
        have hi : id - 1 = i := by
          change id = i + 1 at hid'
          omega
        rw [hi, hget] at hget'
        obtain rfl := Option.some.inj hget'
        obtain rfl : c' = c := hclient _ hx hid'
        obtain rfl : handler.type_ = type' := htype
        exact hne rfl hid'

theorem Holds.clearClientHandlers (h : s.Holds r) (c : ClientPtr) :
    (s.clearClientHandlers c).Holds (r.act (.destroyBegin c)) := by
  have hmem : ∀ x, x ∈ (r.act (.destroyBegin c)).live ↔ x ∈ r.live ∧ x.client ≠ c := by
    intro x
    simp [Registrations.act]
  refine ⟨h.count, h.length, fun x hx => h.ids x ((hmem x).mp hx).1,
    h.nodup.sublist (List.filter_sublist.map _), h.returned_id,
    fun x hx => h.owner x ((hmem x).mp hx).1, fun type c' id f => ?_⟩
  rw [mem_goBridge_clearClientHandlers, h.entries, hmem]

/-- A client and a kind have the handlers that are registered for them. -/
theorem Holds.goBridge_perm (h : s.Holds r) (type : HandlerType) (c : ClientPtr) :
    (s.goBridge type c).Perm (r.handlersOf type c) ∧
      ((s.goBridge type c).map Prod.fst).Nodup := by
  have hnodup : ((s.goBridge type c).map Prod.fst).Nodup := by
    unfold goBridge
    split
    · exact List.nodup_nil
    · rename_i handlers _
      exact handlers.keys_nodup
  have hids : ((r.handlersOf type c).map Prod.fst).Nodup := by
    have heq : (r.handlersOf type c).map Prod.fst =
        (r.live.filter fun x => x.type = type ∧ x.client = c).map Registration.id := by
      simp [Registrations.handlersOf, Function.comp_def]
    rw [heq]
    exact h.nodup.sublist (List.filter_sublist.map _)
  refine ⟨(List.perm_ext_iff_of_nodup hnodup.of_map hids.of_map).mpr ?_, hnodup⟩
  rintro ⟨id, f⟩
  rw [h.entries]
  simp only [Registrations.handlersOf, List.mem_map, List.mem_filter, Bool.decide_and,
    Bool.and_eq_true, decide_eq_true_eq, Prod.mk.injEq]
  constructor
  · intro hx
    exact ⟨_, ⟨hx, rfl, rfl⟩, rfl, rfl⟩
  · rintro ⟨⟨id', c', type', f'⟩, ⟨hx, rfl, rfl⟩, rfl, rfl⟩
    exact hx

end Registry

/-! ## Runs -/

/-- **The invariant of the runs.**  The stores of a live client are in one of their two
states, a client that is gone has left nothing in the maps, the maps hold what is
registered, and a call that waits for the lock has a handler of its client. -/
structure System.Tracks {φ : Type} (s : System φ) (r : Registrations φ) : Prop where
  sound : s.registry.lib.Sound
  slots : ∀ c type, s.Live c → SlotState s.registry type c
  gone : ∀ c type, c ≠ 0 → ¬s.Live c →
    s.registry.handlers (type, c) = none ∧ s.registry.bridges (type, c) = none
  holds : s.registry.Holds r
  callable : ∀ c h, (c, h) ∈ s.pending → s.Callable c
  pending : ∀ c h, (c, h) ∈ s.pending → h < s.registry.returned.length ∧
    ∀ x ∈ r.live, x.id = h + 1 → x.client = c

namespace System

variable {φ : Type} {s t : System φ} {r : Registrations φ}

theorem start_tracks : (start : System φ).Tracks ⟨0, []⟩ := by
  refine ⟨Library.empty_sound, ?_, fun _ _ _ _ => ⟨rfl, rfl⟩, ?_, ?_, ?_⟩
  · rintro c type ⟨hsome, _⟩
    simp [start, Registry.empty, Library.empty] at hsome
  · refine ⟨rfl, rfl, by simp, by simp, by simp [start, Registry.empty], by simp, ?_⟩
    simp [start, Registry.empty, Registry.goBridge]
  · simp [start]
  · simp [start]

theorem not_live_zero (h : s.registry.lib.Sound) : ¬s.Live 0 := by
  rintro ⟨hsome, _⟩
  simp [h.null] at hsome

/-- A step at one slot of a client that may be called: the stores of a live client are in
one of their two states again, and the others are what they were. -/
theorem Tracks.of_slot (h : s.Tracks r) {r' : Registrations φ} {type : HandlerType}
    {c : ClientPtr} (hc : s.Callable c) (hclients : SameClients s.registry t.registry)
    (hslot : s.Live c → SlotState t.registry type c)
    (hother : ∀ type' c', (type', c') ≠ (type, c) → SameStores s.registry t.registry type' c')
    (hdestroying : t.destroying = s.destroying) (hholds : t.registry.Holds r')
    (hsub : ∀ q ∈ t.pending, q ∈ s.pending)
    (hlength : s.registry.returned.length ≤ t.registry.returned.length)
    (hpending : ∀ c' i, (c', i) ∈ s.pending → ∀ x ∈ r'.live, x.id = i + 1 → x.client = c') :
    t.Tracks r' := by
  have hlive : ∀ c', t.Live c' ↔ s.Live c' := fun c' => by
    rw [Live, Live, hclients.isSome, hdestroying]
  refine ⟨hclients.sound, fun c' type' hl => ?_, fun c' type' h0 hl => ?_, hholds,
    fun c' i hp => (h.callable c' i (hsub _ hp)).imp_right (hlive c').mpr, fun c' i hp => ?_⟩
  · have hl := (hlive c').mp hl
    by_cases heq : (type', c') = (type, c)
    · obtain ⟨rfl, rfl⟩ := Prod.mk.inj heq
      exact hslot hl
    · exact (h.slots c' type' hl).congr (hother type' c' heq)
  · have hl := mt (hlive c').mpr hl
    have hne : ((type', c') : HandlerType × ClientPtr) ≠ (type, c) := by
      intro heq
      obtain ⟨rfl, rfl⟩ := Prod.mk.inj heq
      exact hc.elim h0 hl
    obtain ⟨hmap, hbridge⟩ := h.gone c' type' h0 hl
    have hsame := hother type' c' hne
    exact ⟨hsame.map.trans hmap, hsame.bridge.trans hbridge⟩
  · exact ⟨(h.pending c' i (hsub _ hp)).1.trans_le hlength, hpending c' i (hsub _ hp)⟩

theorem Tracks.on (h : s.Tracks r) {type : HandlerType} {c : ClientPtr} {fn : φ} {p : HandlerPtr}
    (hen : s.Enabled (.on type c fn p)) (ht : s.act (.on type c fn p) = some t) :
    t.Tracks (r.act (.on type c fn p)) := by
  obtain ⟨hc, hfresh⟩ := hen
  obtain rfl := Option.some.inj ht
  have hpending : ∀ c' i, (c', i) ∈ s.pending →
      ∀ x ∈ (r.act (.on type c fn p)).live, x.id = i + 1 → x.client = c' := by
    intro c' i hp x hx hid
    obtain ⟨hlt, hold⟩ := h.pending c' i hp
    rcases List.mem_append.mp hx with hx | hx
    · exact hold x hx hid
    · -- the new registration has a number that no returned handler has
      rw [List.mem_singleton.mp hx] at hid
      have hcount := h.holds.count
      have hlength := h.holds.length
      change r.count + 1 = i + 1 at hid
      omega
  have hlength : s.registry.returned.length ≤
      (s.registry.clientOn type c fn p).returned.length := by simp
  have hholds := h.holds.clientOn type c fn p
  rcases hc with rfl | hc
  · obtain ⟨hclients, hother⟩ := Registry.clientOn_null h.sound fn p
    exact h.of_slot (Or.inl rfl) hclients (fun hl => absurd hl (not_live_zero h.sound)) hother rfl
      hholds (fun _ hq => hq) hlength hpending
  · obtain ⟨hclients, hslot, hother⟩ :=
      Registry.clientOn_slots h.sound hc.1 (h.slots c type hc) fn hfresh
    exact h.of_slot (Or.inr hc) hclients (fun _ => hslot) hother rfl hholds (fun _ hq => hq)
      hlength hpending

/-- The critical section of `ClientOffHandler` reads no deleted handler. -/
theorem Tracks.offEnd (h : s.Tracks r) {c : ClientPtr} {i : Nat}
    (hen : s.Enabled (.offEnd c i : Act φ)) :
    ∃ t, s.act (.offEnd c i) = some t ∧ t.Tracks (r.act (.offEnd c i)) := by
  have hp : (c, i) ∈ s.pending := hen
  obtain ⟨hlt, hclient⟩ := h.pending c i hp
  have hc := h.callable c i hp
  let handler := s.registry.returned[i]
  have hget : s.registry.returned[i]? = some handler := List.getElem?_eq_getElem hlt
  obtain ⟨u, hu, hclients, hslot, hother⟩ : ∃ u,
      s.registry.offLocked c handler.type_ handler.id = some u ∧ SameClients s.registry u ∧
        (s.Live c → SlotState u handler.type_ c) ∧
        ∀ type' c', (type', c') ≠ (handler.type_, c) → SameStores s.registry u type' c' := by
    rcases hc with rfl | hc
    · obtain ⟨u, hu, hclients, hother⟩ :=
        Registry.offLocked_null h.sound handler.type_ handler.id
      exact ⟨u, hu, hclients, fun hl => absurd hl (not_live_zero h.sound), hother⟩
    · obtain ⟨u, hu, hclients, hslot, hother⟩ :=
        Registry.offLocked_slots h.sound (h.slots c handler.type_ hc) handler.id
      exact ⟨u, hu, hclients, fun _ => hslot, hother⟩
  have hoff : s.registry.clientOffHandler c i =
      some { u with returned := u.returned.set i { handler with client := 0 } } := by
    simp only [Registry.clientOffHandler, hget, hu, Option.map_some]
  have hreturned := (Registry.offLocked_fields hu).2
  refine ⟨_, by simp only [act, hoff, Option.map_some]; rfl, ?_⟩
  refine h.of_slot hc ⟨hclients.sound, hclients.isSome⟩ (fun hl => (hslot hl).congr
    ⟨rfl, rfl, rfl, fun _ _ => rfl⟩) (fun type' c' hne => ?_) rfl
    (h.holds.clientOffHandler hclient hoff) (fun q hq => List.mem_of_mem_erase hq) ?_
    fun c' j hp' x hx => ?_
  · obtain ⟨hmap, hbridge, hvector, hheap⟩ := hother type' c' hne
    exact ⟨hmap, hbridge, hvector, hheap⟩
  · simp [hreturned]
  · exact (h.pending c' j hp').2 x (List.mem_of_mem_filter hx)

theorem Tracks.offBegin (h : s.Tracks r) {c : ClientPtr} {i : Option Nat}
    (hen : s.Enabled (.offBegin c i : Act φ)) (ht : s.act (.offBegin c i) = some t) :
    t.Tracks (r.act (.offBegin c i)) := by
  obtain ⟨hc, hlt⟩ := hen
  cases i with
  | none =>
      obtain rfl := Option.some.inj ht
      exact h
  | some i =>
      simp only [act] at ht
      split at ht
      · rename_i hpasses
        obtain rfl := Option.some.inj ht
        refine ⟨h.sound, h.slots, h.gone, h.holds, fun c' j hp => ?_, fun c' j hp => ?_⟩
        · rcases List.mem_cons.mp hp with heq | hp
          · obtain ⟨rfl, rfl⟩ := Prod.mk.inj heq
            exact hc
          · exact h.callable c' j hp
        · rcases List.mem_cons.mp hp with heq | hp
          · obtain ⟨rfl, rfl⟩ := Prod.mk.inj heq
            refine ⟨hlt j rfl, fun x hx hid => ?_⟩
            -- the handler of this registration has the client that was compared
            obtain ⟨handler, hget, _, hclient⟩ := h.holds.owner x hx
            rw [hid, Nat.add_sub_cancel] at hget
            rw [← hclient]
            simpa [Registry.offPasses, hget] using hpasses
          · exact h.pending c' j hp
      · obtain rfl := Option.some.inj ht
        exact h

/-- A created client has nothing in the maps, whoever had its address before. -/
theorem Tracks.create (h : s.Tracks r) {c : ClientPtr} (hen : s.Enabled (.create c : Act φ))
    (ht : s.act (.create c) = some t) : t.Tracks (r.act (.create c)) := by
  obtain ⟨hne, hnone⟩ := hen
  obtain rfl := Option.some.inj ht
  let t : System φ := { s with registry := { s.registry with lib := s.registry.lib.create c } }
  have hlive : ∀ c', c' ≠ c → (t.Live c' ↔ s.Live c') := fun c' hc => by
    simp [t, Live, Library.create, hc]
  have hnot : ¬s.Live c := fun hl => by simp [Live, hnone] at hl
  have hne' : ∀ c', s.Live c' → c' ≠ c := fun c' hl hc => hnot (hc ▸ hl)
  refine ⟨Library.create_sound h.sound hne hnone, fun c' type hl => ?_, fun c' type h0 hl => ?_,
    ⟨h.holds.count, h.holds.length, h.holds.ids, h.holds.nodup, h.holds.returned_id,
      h.holds.owner, h.holds.entries⟩, fun c' i hp => ?_, h.pending⟩
  · have hvector := Library.handlersOf_create hnone c' type
    by_cases hc : c' = c
    · subst hc
      obtain ⟨hmap, hbridge⟩ := h.gone c' type hne hnot
      refine .idle hmap hbridge (hvector.trans ?_)
      simp [Library.handlersOf, hnone]
    · exact (h.slots c' type ((hlive c' hc).mp hl)).congr ⟨rfl, rfl, hvector, fun _ _ => rfl⟩
  · exact h.gone c' type h0 fun hl' => hl ((hlive c' (hne' c' hl')).mpr hl')
  · exact (h.callable c' i hp).imp_right fun hl => (hlive c' (hne' c' hl)).mpr hl

theorem Tracks.destroyBegin (h : s.Tracks r) {c : ClientPtr}
    (hen : s.Enabled (.destroyBegin c : Act φ)) (ht : s.act (.destroyBegin c) = some t) :
    t.Tracks (r.act (.destroyBegin c)) := by
  obtain ⟨hc, hno⟩ := hen
  obtain rfl := Option.some.inj ht
  let t : System φ :=
    { s with registry := s.registry.clearClientHandlers c, destroying := c :: s.destroying }
  have hlive : ∀ c', t.Live c' ↔ s.Live c' ∧ c' ≠ c := fun c' => by
    simp only [t, Live, Registry.clearClientHandlers, List.mem_cons, not_or]
    tauto
  refine ⟨h.sound, fun c' type hl => ?_, fun c' type h0 hl => ?_, h.holds.clearClientHandlers c,
    fun c' i hp => ?_, fun c' i hp => ?_⟩
  · obtain ⟨hl, hne⟩ := (hlive c').mp hl
    exact (h.slots c' type hl).congr ⟨if_neg hne, if_neg hne, rfl, fun _ _ => rfl⟩
  · by_cases hcc : c' = c
    · exact ⟨if_pos hcc, if_pos hcc⟩
    · have hl' : ¬s.Live c' := fun hl' => hl ((hlive c').mpr ⟨hl', hcc⟩)
      obtain ⟨hmap, hbridge⟩ := h.gone c' type h0 hl'
      exact ⟨(if_neg hcc).trans hmap, (if_neg hcc).trans hbridge⟩
  · refine (h.callable c' i hp).imp_right fun hl => (hlive c').mpr ⟨hl, ?_⟩
    rintro rfl
    exact hno i hp
  · obtain ⟨hlt, hclient⟩ := h.pending c' i hp
    exact ⟨hlt, fun x hx => hclient x (List.mem_of_mem_filter hx)⟩

theorem Tracks.destroyEnd (h : s.Tracks r) {c : ClientPtr}
    (hen : s.Enabled (.destroyEnd c : Act φ)) (ht : s.act (.destroyEnd c) = some t) :
    t.Tracks (r.act (.destroyEnd c)) := by
  have hmem : c ∈ s.destroying := hen
  obtain rfl := Option.some.inj ht
  let t : System φ :=
    { s with
      registry := { s.registry with lib := s.registry.lib.destroy c }
      destroying := s.destroying.filter fun c' => c' ≠ c }
  obtain ⟨hsome, hvector, _, hheap⟩ := Library.destroy_eq (c := c) h.sound
  have hlive : ∀ c', t.Live c' ↔ s.Live c' := fun c' => by
    by_cases hc : c' = c
    · subst hc
      simp [t, Live, hsome, hmem]
    · simp [t, Live, hsome, hc]
  have hne : ∀ c', s.Live c' → c' ≠ c := by
    rintro c' ⟨_, hd⟩ rfl
    exact hd hmem
  refine ⟨Library.destroy_sound h.sound, fun c' type hl => ?_,
    fun c' type h0 hl => h.gone c' type h0 (mt (hlive c').mpr hl),
    ⟨h.holds.count, h.holds.length, h.holds.ids, h.holds.nodup, h.holds.returned_id,
      h.holds.owner, h.holds.entries⟩,
    fun c' i hp => (h.callable c' i hp).imp_right (hlive c').mpr, h.pending⟩
  have hl := (hlive c').mp hl
  exact (h.slots c' type hl).congr
    ⟨rfl, rfl, hvector c' type (hne c' hl), fun p hp => hheap c' type p (hne c' hl) hp⟩

/-- **One step** keeps the invariant. -/
theorem Tracks.step (h : s.Tracks r) {a : Act φ} (hstep : s.Step a t) : t.Tracks (r.act a) := by
  obtain ⟨hen, ht⟩ := hstep
  cases a with
  | create c => exact h.create hen ht
  | on type c fn p => exact h.on hen ht
  | offBegin c i => exact h.offBegin hen ht
  | offEnd c i =>
      obtain ⟨u, hu, htracks⟩ := h.offEnd hen
      obtain rfl := Option.some.inj (ht.symm.trans hu)
      exact htracks
  | destroyBegin c => exact h.destroyBegin hen ht
  | destroyEnd c => exact h.destroyEnd hen ht

/-- **Every run** keeps the invariant. -/
theorem Tracks.run {l : List (Act φ)} (h : Run Step start l s) :
    s.Tracks (Registrations.after l) := by
  induction h with
  | start => exact start_tracks
  | step _ hstep ih =>
      rw [Registrations.after, List.foldl_append]
      exact ih.step hstep

/-- The stores of a client for a kind of message are in step: there is an entry in the map of
handlers iff there is one in the map of bridges, and iff the vector has exactly one bridge,
the one in the map; the entry has handlers; and a message is handed to the handlers that are
registered, to each of them once. -/
structure InStep (s : System φ) (r : Registrations φ) (type : HandlerType) (c : ClientPtr) :
    Prop where
  entry_iff_bridge : (s.registry.handlers (type, c)).isSome ↔
    (s.registry.bridges (type, c)).isSome
  entry_iff_vector : (s.registry.handlers (type, c)).isSome ↔
    (s.registry.lib.handlersOf c type).length = 1
  vector_eq : s.registry.lib.handlersOf c type = (s.registry.bridges (type, c)).toList
  entry_ne_nil : ∀ handlers, s.registry.handlers (type, c) = some handlers →
    handlers.entries ≠ []
  delivered : (s.registry.deliver type c).Perm (r.handlersOf type c)
  once : ((s.registry.deliver type c).map Prod.fst).Nodup

/-- **The registry and the bridges stay in step**, in every run, for every live client and
every kind of message; and no step reads a handler that has been deleted. -/
theorem inStep {l : List (Act φ)} (h : Run Step start l s) :
    (∀ c type, s.Live c → s.InStep (Registrations.after l) type c) ∧
      ∀ a, s.Enabled a → ∃ t, s.Step a t := by
  have htracks := Tracks.run h
  refine ⟨fun c type hl => ?_, fun a hen => ?_⟩
  · have hslot := htracks.slots c type hl
    obtain ⟨hperm, hnodup⟩ := htracks.holds.goBridge_perm type c
    rw [← Registry.deliver_eq hslot] at hperm hnodup
    cases hslot with
    | idle hmap hbridge hvector =>
        exact ⟨by simp [hmap, hbridge], by simp [hmap, hvector], by simp [hbridge, hvector],
          by simp [hmap], hperm, hnodup⟩
    | bridged handlers p id hmap hne hbridge hvector _ =>
        refine ⟨by simp [hmap, hbridge], by simp [hmap, hvector], by simp [hbridge, hvector],
          fun handlers' hmap' => ?_, hperm, hnodup⟩
        obtain rfl := Option.some.inj (hmap.symm.trans hmap')
        exact hne
  · cases a with
    | create c => exact ⟨_, hen, rfl⟩
    | on type c fn p => exact ⟨_, hen, rfl⟩
    | offBegin c i =>
        cases i with
        | none => exact ⟨_, hen, rfl⟩
        | some i =>
            cases hpasses : s.registry.offPasses c (some i) with
            | false => exact ⟨_, hen, by simp only [act, hpasses]; rfl⟩
            | true => exact ⟨_, hen, by simp only [act, hpasses]; rfl⟩
    | offEnd c i =>
        obtain ⟨u, hu, _⟩ := htracks.offEnd hen
        exact ⟨u, hen, hu⟩
    | destroyBegin c => exact ⟨_, hen, rfl⟩
    | destroyEnd c => exact ⟨_, hen, rfl⟩

/-- A handler that is registered gets past the check of `ClientOffHandler`. -/
theorem offPasses_of_registered {l : List (Act φ)} (h : Run Step start l s) {x : Registration φ}
    (hx : x ∈ (Registrations.after l).live) :
    s.registry.offPasses x.client (some (x.id - 1)) = true := by
  obtain ⟨handler, hget, _, hclient⟩ := (Tracks.run h).holds.owner x hx
  simp [Registry.offPasses, hget, hclient]

/-- A client is destroyed, its address is used again, and the handler of the first one is
removed from the second one. -/
def reuse : List (Act Nat) :=
  [.create 1, .on .request 1 10 5, .destroyBegin 1, .destroyEnd 1, .create 1,
    .on .request 1 20 6, .offBegin 1 (some 0), .offEnd 1 0]

theorem inStep_reuse : ∃ s : System Nat, Run Step start reuse s ∧
    s.InStep (Registrations.after reuse) .request 1 ∧
      s.registry.deliver .request 1 = [(2, 20)] := by
  have h₁ : Run Step (start : System Nat) ([] ++ [.create 1]) _ :=
    Run.start.step ⟨⟨by decide, rfl⟩, rfl⟩
  have h₂ : Run Step (start : System Nat) (_ ++ [.on .request 1 10 5]) _ :=
    h₁.step ⟨⟨Or.inr ⟨rfl, List.not_mem_nil⟩, fun _ => ⟨by decide, rfl⟩⟩, rfl⟩
  have h₃ : Run Step (start : System Nat) (_ ++ [.destroyBegin 1]) _ :=
    h₂.step ⟨⟨Or.inr ⟨rfl, List.not_mem_nil⟩, fun _ => List.not_mem_nil⟩, rfl⟩
  have h₄ : Run Step (start : System Nat) (_ ++ [.destroyEnd 1]) _ :=
    h₃.step ⟨List.mem_cons_self, rfl⟩
  have h₅ : Run Step (start : System Nat) (_ ++ [.create 1]) _ :=
    h₄.step ⟨⟨by decide, rfl⟩, rfl⟩
  have h₆ : Run Step (start : System Nat) (_ ++ [.on .request 1 20 6]) _ :=
    h₅.step ⟨⟨Or.inr ⟨rfl, List.not_mem_nil⟩, fun _ => ⟨by decide, rfl⟩⟩, rfl⟩
  have h₇ : Run Step (start : System Nat) (_ ++ [.offBegin 1 (some 0)]) _ :=
    h₆.step ⟨⟨Or.inr ⟨rfl, List.not_mem_nil⟩, fun i hi => by cases hi; decide⟩, rfl⟩
  have h₈ : Run Step (start : System Nat) (_ ++ [.offEnd 1 0]) _ :=
    h₇.step ⟨List.mem_cons_self, rfl⟩
  exact ⟨_, h₈, (inStep h₈).1 1 .request ⟨rfl, List.not_mem_nil⟩, rfl⟩

end System

end SporeClient.Go
