/-
  Client/Registration.lean --- the handlers of the clients of `spore_c`: the functions
  `Client::register*Handler` and `Client::unregisterHandler` of `client.cpp`, reached
  through the C functions of `spore_c.cpp`.

  WHAT THIS FILE IS FOR.  A client keeps a vector of handlers for each kind of message;
  the handlers are objects of their own, allocated by `register*Handler` and deleted by
  `unregisterHandler` and the destructor.  `Library.Sound` is what keeps these deletions
  apart: a handler in a vector exists, has the kind of the vector, and is in the vectors of
  one client only.
-/
import Mathlib.Data.List.Basic
import Mathlib.Logic.Function.Basic
import Mathlib.Tactic.Common

set_option autoImplicit false

namespace SporeClient.Client

/-- `spore_handler_t::type_t`. -/
inductive HandlerType where
  | request
  | response
  | witness
  | publish
  | parseError
  deriving DecidableEq, Repr

/-- `spore_client_t*`; 0 is the null pointer. -/
abbrev ClientPtr : Type := Nat

/-- `spore_handler_t*`; 0 is the null pointer. -/
abbrev HandlerPtr : Type := Nat

/-- `spore_handler_t`, with its function. -/
structure SporeHandler (β : Type) where
  type : HandlerType
  id : Nat
  fn : β
  deriving DecidableEq, Repr

/-- The fields of `Client` that the registrations use: the five vectors, by kind. -/
structure HandlerVectors where
  nextId : Nat := 0
  handlers : HandlerType → List HandlerPtr := fun _ => []

/-- The clients that exist and the handlers that are allocated. -/
structure Library (β : Type) where
  clients : ClientPtr → Option HandlerVectors
  heap : HandlerPtr → Option (SporeHandler β)

namespace Library

variable {β : Type}

/-- Before the first client is created. -/
def empty : Library β := ⟨fun _ => none, fun _ => none⟩

/-- `spore_client_create`, with the address of the new client. -/
def create (L : Library β) (c : ClientPtr) : Library β :=
  { L with clients := Function.update L.clients c (some {}) }

/-- `spore_client_register_*_handler`, with the address of the new handler.  A client that
is not there is the null pointer. -/
def registerHandler (L : Library β) (type : HandlerType) (c : ClientPtr) (fn : Option β)
    (p : HandlerPtr) : Library β × HandlerPtr :=
  match L.clients c, fn with
  | some client, some fn =>
      let client' : HandlerVectors :=
        { nextId := client.nextId + 1
          handlers := Function.update client.handlers type (client.handlers type ++ [p]) }
      ({ clients := Function.update L.clients c (some client')
         heap := Function.update L.heap p (some ⟨type, client.nextId, fn⟩) }, p)
  | _, _ => (L, 0)

def registerRequestHandler (L : Library β) := L.registerHandler .request
def registerResponseHandler (L : Library β) := L.registerHandler .response
def registerWitnessHandler (L : Library β) := L.registerHandler .witness
def registerPublishHandler (L : Library β) := L.registerHandler .publish
def registerParseErrorHandler (L : Library β) := L.registerHandler .parseError

/-- `spore_client_unregister_handler`; `none` when it reads a handler that has been
deleted. -/
def unregisterHandler (L : Library β) (c : ClientPtr) (p : HandlerPtr) : Option (Library β) :=
  match L.clients c with
  | none => some L
  | some client =>
      if p = 0 then some L
      else
        (L.heap p).map fun h =>
          if p ∈ client.handlers h.type then
            let client' : HandlerVectors :=
              { client with
                handlers :=
                  Function.update client.handlers h.type ((client.handlers h.type).erase p) }
            { clients := Function.update L.clients c (some client')
              heap := Function.update L.heap p none }
          else L

/-- `spore_client_destroy`: the destructor deletes the handlers of all five vectors. -/
def destroy (L : Library β) (c : ClientPtr) : Library β :=
  match L.clients c with
  | none => L
  | some client =>
      { clients := Function.update L.clients c none
        heap := fun p =>
          if p ∈ client.handlers .request ∨ p ∈ client.handlers .response ∨
              p ∈ client.handlers .witness ∨ p ∈ client.handlers .publish ∨
              p ∈ client.handlers .parseError then none
          else L.heap p }

/-- The vector of a client for a kind of message. -/
def handlersOf (L : Library β) (c : ClientPtr) (type : HandlerType) : List HandlerPtr :=
  match L.clients c with
  | none => []
  | some client => client.handlers type

/-- The handlers in the vectors exist, have the kind of their vector, and are those of one
client. -/
structure Sound (L : Library β) : Prop where
  null : L.clients 0 = none
  listed : ∀ c type p, p ∈ L.handlersOf c type → p ≠ 0 ∧ ∃ h, L.heap p = some h ∧ h.type = type
  disjoint : ∀ c c' type p, p ∈ L.handlersOf c type → p ∈ L.handlersOf c' type → c = c'

theorem empty_sound : (empty : Library β).Sound :=
  ⟨rfl, fun _ _ _ h => by simp [handlersOf, empty] at h, fun _ _ _ _ h => by
    simp [handlersOf, empty] at h⟩

/-! ## What the operations do to the vectors -/

section

variable {L : Library β} {c : ClientPtr} {type : HandlerType} {p : HandlerPtr}

theorem handlersOf_create (hc : L.clients c = none) (c' : ClientPtr) (type : HandlerType) :
    (L.create c).handlersOf c' type = L.handlersOf c' type := by
  by_cases h : c' = c
  · subst h
    simp [handlersOf, create, hc]
  · simp [handlersOf, create, h]

theorem create_sound (hL : L.Sound) (hne : c ≠ 0) (hc : L.clients c = none) :
    (L.create c).Sound := by
  refine ⟨?_, fun c' type p hp => ?_, fun c₁ c₂ type p h₁ h₂ => ?_⟩
  · simp [create, hne.symm, hL.null]
  · rw [handlersOf_create hc] at hp
    exact hL.listed c' type p hp
  · rw [handlersOf_create hc] at h₁ h₂
    exact hL.disjoint c₁ c₂ type p h₁ h₂

/-- Registering at a client that exists appends the new handler to one vector. -/
theorem registerHandler_eq (hc : (L.clients c).isSome) (type : HandlerType) (fn : β)
    (p : HandlerPtr) :
    ∃ L' id, L.registerHandler type c (some fn) p = (L', p) ∧
      (∀ c', (L'.clients c').isSome = (L.clients c').isSome) ∧
      (∀ c' type', L'.handlersOf c' type' =
        if c' = c ∧ type' = type then L.handlersOf c type ++ [p] else L.handlersOf c' type') ∧
      L'.heap = Function.update L.heap p (some ⟨type, id, fn⟩) := by
  obtain ⟨client, hclient⟩ := Option.isSome_iff_exists.mp hc
  refine ⟨_, client.nextId, by simp only [registerHandler, hclient]; rfl, fun c' => ?_,
    fun c' type' => ?_, rfl⟩
  · by_cases h : c' = c
    · subst h
      simp [hclient]
    · simp [h]
  · by_cases h : c' = c
    · subst h
      by_cases ht : type' = type
      · subst ht
        simp [handlersOf, hclient]
      · simp [handlersOf, hclient, ht]
    · simp [handlersOf, h]

theorem registerHandler_null (hL : L.Sound) (fn : β) (p : HandlerPtr) :
    L.registerHandler type 0 (some fn) p = (L, 0) := by
  simp only [registerHandler, hL.null]

/-- A handler in a vector exists and is not a new one. -/
theorem Sound.ne_fresh (hL : L.Sound) (hp : L.heap p = none) {c' : ClientPtr}
    {type' : HandlerType} {q : HandlerPtr} (hq : q ∈ L.handlersOf c' type') : q ≠ p := by
  rintro rfl
  obtain ⟨_, h, hheap, _⟩ := hL.listed c' type' q hq
  simp [hp] at hheap

theorem registerHandler_sound (hL : L.Sound) (hc : (L.clients c).isSome) (hp : p ≠ 0)
    (hfresh : L.heap p = none) (type : HandlerType) (fn : β) :
    (L.registerHandler type c (some fn) p).1.Sound := by
  obtain ⟨L', id, heq, hsome, hvector, hheap⟩ := registerHandler_eq hc type fn p
  rw [heq]
  have hmem : ∀ c' type' q, q ∈ L'.handlersOf c' type' →
      q ∈ L.handlersOf c' type' ∨ (q = p ∧ c' = c ∧ type' = type) := by
    intro c' type' q hq
    rw [hvector] at hq
    split at hq
    · rename_i h
      obtain ⟨rfl, rfl⟩ := h
      rcases List.mem_append.mp hq with hq | hq
      · exact Or.inl hq
      · exact Or.inr ⟨List.mem_singleton.mp hq, rfl, rfl⟩
    · exact Or.inl hq
  refine ⟨?_, fun c' type' q hq => ?_, fun c₁ c₂ type' q h₁ h₂ => ?_⟩
  · simpa [hL.null] using hsome 0
  · rw [hheap]
    rcases hmem c' type' q hq with hq | ⟨rfl, rfl, rfl⟩
    · rw [Function.update_of_ne (hL.ne_fresh hfresh hq)]
      exact hL.listed c' type' q hq
    · exact ⟨hp, _, Function.update_self .., rfl⟩
  · rcases hmem c₁ type' q h₁ with h₁ | ⟨hq, hc₁, _⟩ <;>
      rcases hmem c₂ type' q h₂ with h₂ | ⟨hq', hc₂, _⟩
    · exact hL.disjoint c₁ c₂ type' q h₁ h₂
    · exact absurd hq' (hL.ne_fresh hfresh h₁)
    · exact absurd hq (hL.ne_fresh hfresh h₂)
    · rw [hc₁, hc₂]

/-- Unregistering a handler of a vector takes it out of this vector and deletes it. -/
theorem unregisterHandler_eq (hL : L.Sound) (hp : p ∈ L.handlersOf c type) :
    ∃ L', L.unregisterHandler c p = some L' ∧
      (∀ c', (L'.clients c').isSome = (L.clients c').isSome) ∧
      (∀ c' type', L'.handlersOf c' type' =
        if c' = c ∧ type' = type then (L.handlersOf c type).erase p
        else L.handlersOf c' type') ∧
      L'.heap = Function.update L.heap p none := by
  obtain ⟨hne, h, hheap, rfl⟩ := hL.listed c type p hp
  cases hclient : L.clients c with
  | none => simp [handlersOf, hclient] at hp
  | some client =>
      have hmem : p ∈ client.handlers h.type := by simpa [handlersOf, hclient] using hp
      refine ⟨_, by simp only [unregisterHandler, hclient, hne, if_false, hheap, Option.map_some,
        hmem, if_true]; rfl, fun c' => ?_, fun c' type' => ?_, rfl⟩
      · by_cases hc : c' = c
        · subst hc
          simp [hclient]
        · simp [hc]
      · by_cases hc : c' = c
        · subst hc
          by_cases ht : type' = h.type
          · subst ht
            simp [handlersOf, hclient]
          · simp [handlersOf, hclient, ht]
        · simp [handlersOf, hc]

/-- Taking out the only handler of a vector. -/
theorem unregisterHandler_sound {L' : Library β} (hL : L.Sound)
    (hp : L.handlersOf c type = [p]) (h : L.unregisterHandler c p = some L') : L'.Sound := by
  have hpmem : p ∈ L.handlersOf c type := by simp [hp]
  obtain ⟨L'', heq, hsome, hvector, hheap⟩ := unregisterHandler_eq hL hpmem
  obtain rfl := Option.some.inj (h.symm.trans heq)
  have hmem : ∀ c' type' q, q ∈ L'.handlersOf c' type' →
      q ∈ L.handlersOf c' type' ∧ q ≠ p := by
    intro c' type' q hq
    rw [hvector] at hq
    split at hq
    · simp [hp] at hq
    · rename_i hne
      refine ⟨hq, ?_⟩
      rintro rfl
      -- the handler has one kind and one client
      obtain ⟨_, x, hx, htype⟩ := hL.listed c' type' q hq
      obtain ⟨_, y, hy, htype'⟩ := hL.listed c type q hpmem
      obtain rfl := Option.some.inj (hx.symm.trans hy)
      obtain rfl : type' = type := htype.symm.trans htype'
      exact hne ⟨hL.disjoint c' c type' q hq hpmem, rfl⟩
  refine ⟨?_, fun c' type' q hq => ?_, fun c₁ c₂ type' q h₁ h₂ => ?_⟩
  · simpa [hL.null] using hsome 0
  · obtain ⟨hq, hqp⟩ := hmem c' type' q hq
    rw [hheap, Function.update_of_ne hqp]
    exact hL.listed c' type' q hq
  · exact hL.disjoint c₁ c₂ type' q (hmem _ _ _ h₁).1 (hmem _ _ _ h₂).1

/-- The destructor takes away one client and its handlers. -/
theorem destroy_eq (hL : L.Sound) :
    (∀ c', ((L.destroy c).clients c').isSome = (decide (c' ≠ c) && (L.clients c').isSome)) ∧
      (∀ c' type', c' ≠ c → (L.destroy c).handlersOf c' type' = L.handlersOf c' type') ∧
      (∀ type', (L.destroy c).handlersOf c type' = []) ∧
      ∀ c' type' q, c' ≠ c → q ∈ L.handlersOf c' type' → (L.destroy c).heap q = L.heap q := by
  cases hclient : L.clients c with
  | none =>
      have heq : L.destroy c = L := by rw [destroy, hclient]
      rw [heq]
      refine ⟨fun c' => ?_, fun _ _ _ => rfl, fun _ => by rw [handlersOf, hclient],
        fun _ _ _ _ _ => rfl⟩
      by_cases hc : c' = c
      · simp [hc, hclient]
      · simp [hc]
  | some client =>
      refine ⟨fun c' => ?_, fun c' type' hc => ?_, fun type' => ?_, fun c' type' q hc hq => ?_⟩
      · by_cases hc : c' = c
        · simp [destroy, hclient, hc]
        · simp [destroy, hclient, hc]
      · simp [destroy, hclient, handlersOf, hc]
      · simp [destroy, hclient, handlersOf]
      · -- a deleted handler would be in vectors of both clients
        have hother : ∀ type'', q ∉ client.handlers type'' := by
          intro type'' hq'
          have hq'' : q ∈ L.handlersOf c type'' := by simpa [handlersOf, hclient] using hq'
          obtain ⟨_, x, hx, htype⟩ := hL.listed c' type' q hq
          obtain ⟨_, y, hy, htype'⟩ := hL.listed c type'' q hq''
          obtain rfl := Option.some.inj (hx.symm.trans hy)
          obtain rfl : type' = type'' := htype.symm.trans htype'
          exact hc (hL.disjoint c' c type' q hq hq'')
        simp [destroy, hclient, hother]

theorem destroy_sound (hL : L.Sound) : (L.destroy c).Sound := by
  obtain ⟨hsome, hother, hself, hheap⟩ := destroy_eq (c := c) hL
  have hmem : ∀ c' type' q, q ∈ (L.destroy c).handlersOf c' type' →
      c' ≠ c ∧ q ∈ L.handlersOf c' type' := by
    intro c' type' q hq
    by_cases hc : c' = c
    · subst hc
      simp [hself] at hq
    · exact ⟨hc, by rwa [hother c' type' hc] at hq⟩
  refine ⟨?_, fun c' type' q hq => ?_, fun c₁ c₂ type' q h₁ h₂ => ?_⟩
  · simpa [hL.null] using hsome 0
  · obtain ⟨hc, hq⟩ := hmem c' type' q hq
    rw [hheap c' type' q hc hq]
    exact hL.listed c' type' q hq
  · exact hL.disjoint c₁ c₂ type' q (hmem _ _ _ h₁).2 (hmem _ _ _ h₂).2

end

end Library

end SporeClient.Client
