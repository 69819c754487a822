/-
  Client/HandlerRuns.lean --- runs of the registration functions of `spore_c.cpp`.

  WHAT THIS FILE IS FOR.  `Register` is what the handlers of the clients are for: a list of
  registrations, in order, from which a registration is taken back by its handle and all of
  a client's at its end.  The library keeps five vectors of pointers for each client, and
  the handlers as objects of their own.  In every run in which no deleted handle is used the
  library is the register (`Library.refines_of_run`): the vectors are its registrations in
  order, and the objects that exist are those of its registrations, none more and none less.
-/
import SporeClient.Client.Registration
import SporeClient.Foundation.Runs
import Mathlib.Data.List.Nodup

set_option autoImplicit false

namespace SporeClient.Client

open SporeClient.Foundation

/-! ## The register -/

/-- A registration that has not been taken back. -/
structure Listed (β : Type) where
  client : ClientPtr
  type : HandlerType
  ptr : HandlerPtr
  id : Nat
  fn : β
  deriving DecidableEq

/-- The clients that exist, with the number of registrations each has had, and the
registrations in order. -/
structure Register (β : Type) where
  counts : ClientPtr → Option Nat
  entries : List (Listed β)

/-- A call of the C functions, with the address that `new` returns. -/
inductive LibraryAct (β : Type) where
  | create (c : ClientPtr)
  | register (type : HandlerType) (c : ClientPtr) (fn : Option β) (p : HandlerPtr)
  | unregister (c : ClientPtr) (p : HandlerPtr)
  | destroy (c : ClientPtr)

section

variable {β : Type}

namespace Register

/-- Before the first client is created. -/
def empty : Register β := ⟨fun _ => none, []⟩

def act (a : Register β) : LibraryAct β → Register β
  | .create c => { a with counts := Function.update a.counts c (some 0) }
  | .register type c fn p =>
      match a.counts c, fn with
      | some n, some fn =>
          ⟨Function.update a.counts c (some (n + 1)), a.entries ++ [⟨c, type, p, n, fn⟩]⟩
      | _, _ => a
  | .unregister c p => { a with entries := a.entries.filter fun e => ¬(e.client = c ∧ e.ptr = p) }
  | .destroy c =>
      ⟨Function.update a.counts c none, a.entries.filter fun e => e.client ≠ c⟩

/-- The register after calls. -/
def after (l : List (LibraryAct β)) : Register β := l.foldl act empty

end Register

namespace Library

/-- `none` when a deleted handler is read. -/
def act (L : Library β) : LibraryAct β → Option (Library β)
  | .create c => some (L.create c)
  | .register type c fn p => some (L.registerHandler type c fn p).1
  | .unregister c p => L.unregisterHandler c p
  | .destroy c => some (L.destroy c)

/-- The call is made with a client that exists or a null pointer and with a handler that has
not been deleted or a null pointer, and `new` returns an address that is not in use. -/
def Enabled (L : Library β) : LibraryAct β → Prop
  | .create c => c ≠ 0 ∧ L.clients c = none
  | .register _ c _ p => (c = 0 ∨ (L.clients c).isSome) ∧ p ≠ 0 ∧ L.heap p = none
  | .unregister c p => (c = 0 ∨ (L.clients c).isSome) ∧ (p = 0 ∨ (L.heap p).isSome)
  | .destroy c => c = 0 ∨ (L.clients c).isSome

instance (L : Library β) : DecidablePred L.Enabled
  | .create c => inferInstanceAs (Decidable (c ≠ 0 ∧ L.clients c = none))
  | .register _ c _ p =>
      inferInstanceAs (Decidable ((c = 0 ∨ (L.clients c).isSome) ∧ p ≠ 0 ∧ L.heap p = none))
  | .unregister c p =>
      inferInstanceAs (Decidable ((c = 0 ∨ (L.clients c).isSome) ∧ (p = 0 ∨ (L.heap p).isSome)))
  | .destroy c => inferInstanceAs (Decidable (c = 0 ∨ (L.clients c).isSome))

/-- One call. -/
def Step (L : Library β) (a : LibraryAct β) (L' : Library β) : Prop :=
  L.Enabled a ∧ L.act a = some L'

/-- The library is the register. -/
structure Refines (L : Library β) (a : Register β) : Prop where
  null : L.clients 0 = none
  counts : ∀ c, a.counts c = (L.clients c).map HandlerVectors.nextId
  /-- A vector has the registrations of its client and kind, in order. -/
  vectors : ∀ c type, L.handlersOf c type =
    (a.entries.filter fun e => e.client = c ∧ e.type = type).map Listed.ptr
  /-- The handlers that exist are those of the registrations. -/
  heap : ∀ p h, L.heap p = some h ↔ ∃ e ∈ a.entries, e.ptr = p ∧ h = ⟨e.type, e.id, e.fn⟩
  /-- No two registrations have one handle, and none has the null pointer. -/
  distinct : (a.entries.map Listed.ptr).Nodup
  not_null : ∀ e ∈ a.entries, e.ptr ≠ 0
  /-- The ids of a client are given in order. -/
  live : ∀ e ∈ a.entries, ∃ n, a.counts e.client = some n ∧ e.id < n
  ordered : a.entries.Pairwise fun e f => e.client = f.client → e.id < f.id

theorem empty_refines : (empty : Library β).Refines Register.empty where
  null := rfl
  counts := fun _ => rfl
  vectors := fun _ _ => rfl
  heap := fun p h => by simp [empty, Register.empty]
  distinct := List.nodup_nil
  not_null := fun e he => by simp [Register.empty] at he
  live := fun e he => by simp [Register.empty] at he
  ordered := List.Pairwise.nil

variable {L L' : Library β} {a : Register β} {c : ClientPtr} {p : HandlerPtr}

/-- A client that does not exist has no registrations. -/
theorem Refines.client_ne (h : L.Refines a) (hc : L.clients c = none) :
    ∀ e ∈ a.entries, e.client ≠ c := by
  rintro e he rfl
  obtain ⟨n, hn, _⟩ := h.live e he
  simp [h.counts, hc] at hn

/-- Two registrations with one handle are the same. -/
theorem Refines.eq_of_ptr (h : L.Refines a) {e f : Listed β} (he : e ∈ a.entries)
    (hf : f ∈ a.entries) (hptr : e.ptr = f.ptr) : e = f :=
  List.inj_on_of_nodup_map h.distinct he hf hptr

theorem Refines.create (h : L.Refines a) (hne : c ≠ 0) (hc : L.clients c = none) :
    (L.create c).Refines (a.act (.create c)) where
  null := by simp [Library.create, hne.symm, h.null]
  counts := fun c' => by
    by_cases hc' : c' = c
    · simp [Library.create, Register.act, hc']
    · simp [Library.create, Register.act, hc', h.counts]
  vectors := fun c' type => by rw [handlersOf_create hc]; exact h.vectors c' type
  heap := h.heap
  distinct := h.distinct
  not_null := h.not_null
  live := fun e he => by
    obtain ⟨n, hn, hid⟩ := h.live e he
    exact ⟨n, by simpa [Register.act, h.client_ne hc e he] using hn, hid⟩
  ordered := h.ordered

/-- The vector of a client that exists. -/
theorem Refines.vector (h : L.Refines a) {client : HandlerVectors} (hc : L.clients c = some client)
    (type : HandlerType) : client.handlers type =
      (a.entries.filter fun e => e.client = c ∧ e.type = type).map Listed.ptr := by
  rw [← h.vectors, handlersOf, hc]

/-- A handler of a vector is a registration of the client and the kind. -/
theorem Refines.mem_vector (h : L.Refines a) {client : HandlerVectors}
    (hc : L.clients c = some client) {type : HandlerType} :
    p ∈ client.handlers type ↔ ∃ e ∈ a.entries, e.ptr = p ∧ e.client = c ∧ e.type = type := by
  rw [h.vector hc]
  simp only [List.mem_map, List.mem_filter, decide_eq_true_eq]
  exact ⟨fun ⟨e, ⟨he, hct⟩, hp⟩ => ⟨e, he, hp, hct⟩, fun ⟨e, he, hp, hct⟩ => ⟨e, ⟨he, hct⟩, hp⟩⟩

/-- A new handler is at none of the registrations' addresses. -/
theorem Refines.ptr_ne (h : L.Refines a) (hp : L.heap p = none) : ∀ e ∈ a.entries, e.ptr ≠ p := by
  rintro e he rfl
  have := (h.heap e.ptr _).mpr ⟨e, he, rfl, rfl⟩
  simp [hp] at this

/-- A registration at a client that exists. -/
theorem Refines.append (h : L.Refines a) (hp : p ≠ 0) (hfresh : L.heap p = none)
    {client : HandlerVectors} (hc : L.clients c = some client) (type : HandlerType) (fn : β) :
    (L.registerHandler type c (some fn) p).1.Refines
      ⟨Function.update a.counts c (some (client.nextId + 1)),
        a.entries ++ [⟨c, type, p, client.nextId, fn⟩]⟩ := by
  have hcount : a.counts c = some client.nextId := by simp [h.counts, hc]
  have hnew := h.ptr_ne hfresh
  simp only [registerHandler, hc]
  exact {
    null := by
      have hne : c ≠ 0 := by
        rintro rfl
        simp [h.null] at hc
      simp [Function.update_of_ne hne.symm, h.null]
    counts := fun c' => by
      by_cases hc' : c' = c
      · simp [hc']
      · simp [hc', h.counts]
    vectors := fun c' type' => by
      rw [List.filter_append, List.map_append, ← h.vectors c' type']
      by_cases hc' : c' = c
      · subst hc'
        by_cases ht : type' = type
        · simp [handlersOf, hc, ht]
        · simp [handlersOf, hc, ht, Ne.symm ht]
      · simp [handlersOf, hc', Ne.symm hc']
    heap := fun q x => by
      by_cases hq : q = p
      · subst hq
        simp only [Function.update_self, Option.some.injEq, List.mem_append, List.mem_singleton]
        constructor
        · rintro rfl
          exact ⟨_, Or.inr rfl, rfl, rfl⟩
        · rintro ⟨e, he | rfl, hptr, rfl⟩
          · exact absurd hptr (hnew e he)
          · rfl
      · simp only [Function.update_of_ne hq, h.heap, List.mem_append, List.mem_singleton]
        constructor
        · rintro ⟨e, he, hptr, rfl⟩
          exact ⟨e, Or.inl he, hptr, rfl⟩
        · rintro ⟨e, he | rfl, hptr, rfl⟩
          · exact ⟨e, he, hptr, rfl⟩
          · exact absurd hptr.symm hq
    distinct := by
      rw [List.map_append]
      apply h.distinct.append (List.nodup_singleton _)
      simpa [List.Disjoint] using hnew
    not_null := fun e he => by
      rcases List.mem_append.mp he with he | he
      · exact h.not_null e he
      · obtain rfl := List.mem_singleton.mp he
        exact hp
    live := fun e he => by
      rcases List.mem_append.mp he with he | he
      · obtain ⟨n, hn, hid⟩ := h.live e he
        by_cases hc' : e.client = c
        · rw [hc', hcount] at hn
          obtain rfl := Option.some.inj hn
          exact ⟨client.nextId + 1, by simp [hc'], Nat.lt_succ_of_lt hid⟩
        · exact ⟨n, by simp [hc', hn], hid⟩
      · obtain rfl := List.mem_singleton.mp he
        exact ⟨client.nextId + 1, by simp, Nat.lt_succ_self _⟩
    ordered := by
      refine List.pairwise_append.mpr ⟨h.ordered, List.pairwise_singleton .., ?_⟩
      rintro e he f hf hef
      obtain rfl := List.mem_singleton.mp hf
      -- the ids before are below the number of the client's registrations
      obtain ⟨n, hn, hid⟩ := h.live e he
      rw [hef, hcount] at hn
      obtain rfl := Option.some.inj hn
      exact hid }

theorem Refines.register (h : L.Refines a) (hp : p ≠ 0) (hfresh : L.heap p = none)
    (type : HandlerType) (fn : Option β) :
    (L.registerHandler type c fn p).1.Refines (a.act (.register type c fn p)) := by
  cases hc : L.clients c with
  | none =>
      have hcount : a.counts c = none := by simp [h.counts, hc]
      simpa only [registerHandler, hc, Register.act, hcount] using h
  | some client =>
      have hcount : a.counts c = some client.nextId := by simp [h.counts, hc]
      cases fn with
      | none => simpa only [registerHandler, hc, Register.act, hcount] using h
      | some fn => simpa only [Register.act, hcount] using h.append hp hfresh hc type fn

/-- Registrations taken out of the register: what is left of a library whose vectors and
handlers lose the same. -/
theorem Refines.keep (h : L.Refines a) {counts : ClientPtr → Option Nat} (P : Listed β → Bool)
    (hnull : L'.clients 0 = none)
    (hcounts : ∀ c, counts c = (L'.clients c).map HandlerVectors.nextId)
    (hsame : ∀ e ∈ a.entries, P e → counts e.client = a.counts e.client)
    (hvectors : ∀ c type, L'.handlersOf c type =
      ((a.entries.filter P).filter fun e => e.client = c ∧ e.type = type).map Listed.ptr)
    (hheap : ∀ p x, L'.heap p = some x ↔ L.heap p = some x ∧ ∀ e ∈ a.entries, e.ptr = p → P e) :
    L'.Refines ⟨counts, a.entries.filter P⟩ where
  null := hnull
  counts := hcounts
  vectors := hvectors
  heap := fun p x => by
    rw [hheap, h.heap]
    simp only [List.mem_filter]
    constructor
    · rintro ⟨⟨e, he, hptr, hx⟩, hP⟩
      exact ⟨e, ⟨he, hP e he hptr⟩, hptr, hx⟩
    · rintro ⟨e, ⟨he, hP⟩, hptr, hx⟩
      refine ⟨⟨e, he, hptr, hx⟩, fun f hf hfptr => ?_⟩
      rwa [h.eq_of_ptr hf he (hfptr.trans hptr.symm)]
  distinct := h.distinct.sublist (List.filter_sublist.map _)
  not_null := fun e he => h.not_null e (List.mem_filter.mp he).1
  live := fun e he => by
    obtain ⟨he, hP⟩ := List.mem_filter.mp he
    show ∃ n, counts e.client = some n ∧ e.id < n
    rw [hsame e he hP]
    exact h.live e he
  ordered := h.ordered.sublist List.filter_sublist

/-- What `erase` leaves of a vector is what the register keeps. -/
theorem Refines.erase (h : L.Refines a) (c : ClientPtr) (type : HandlerType) (p : HandlerPtr) :
    ((a.entries.filter fun e => e.client = c ∧ e.type = type).map Listed.ptr).erase p =
      ((a.entries.filter fun e => ¬(e.client = c ∧ e.ptr = p)).filter
        fun e => e.client = c ∧ e.type = type).map Listed.ptr := by
  have hnodup : ((a.entries.filter fun e => e.client = c ∧ e.type = type).map
      Listed.ptr).Nodup := h.distinct.sublist (List.filter_sublist.map _)
  rw [hnodup.erase_eq_filter, List.filter_map, List.filter_filter, List.filter_filter]
  congr 1
  apply List.filter_congr
  intro e _
  simp only [Function.comp_apply, decide_not]
  by_cases hc : e.client = c <;> simp [hc, bne, beq_eq_decide]
  grind

/-- A registration is taken out of the vector of its kind, and its handler is deleted. -/
theorem Refines.remove (h : L.Refines a) {e : Listed β} (he : e ∈ a.entries)
    {client : HandlerVectors} (hc : L.clients e.client = some client) :
    (Library.mk
      (Function.update L.clients e.client (some
        { client with handlers :=
            Function.update client.handlers e.type ((client.handlers e.type).erase e.ptr) }))
      (Function.update L.heap e.ptr none)).Refines (a.act (.unregister e.client e.ptr)) := by
  refine h.keep _ ?_ (fun c' => ?_) (fun _ _ _ => rfl) (fun c' type => ?_) (fun q x => ?_)
  case refine_1 =>
    have hne : e.client ≠ 0 := by
      intro hzero
      rw [hzero, h.null] at hc
      simp at hc
    simp [Function.update_of_ne hne.symm, h.null]
  case refine_2 =>
    by_cases hc' : c' = e.client
    · simp [hc', h.counts, hc]
    · simp [hc', h.counts]
  case refine_3 =>
    by_cases hc' : c' = e.client
    · subst hc'
      rw [← h.erase]
      by_cases ht : type = e.type
      · subst ht
        rw [← h.vector hc]
        simp [handlersOf]
      · -- in the vector of another kind there is nothing to erase
        have hno : e.ptr ∉ client.handlers type := by
          intro hmem
          obtain ⟨f, hf, hptr, _, rfl⟩ := (h.mem_vector hc).mp hmem
          exact ht (by rw [h.eq_of_ptr hf he hptr])
        rw [← h.vector hc, List.erase_of_not_mem hno]
        simp [handlersOf, ht]
    · have hsame : ∀ f ∈ a.entries, f.client = c' → ¬(f.client = e.client ∧ f.ptr = e.ptr) :=
        fun f _ hf hfe => hc' (hf.symm.trans hfe.1)
      have hvector := h.vectors c' type
      simp only [handlersOf, Function.update_of_ne hc'] at hvector ⊢
      rw [hvector, List.filter_filter]
      congr 1
      apply List.filter_congr
      intro f hf
      have := hsame f hf
      grind
  case refine_4 =>
    by_cases hq : q = e.ptr
    · subst hq
      simp only [Function.update_self, reduceCtorEq, false_iff, not_and, not_forall]
      intro _
      exact ⟨e, he, rfl, by simp⟩
    · simp only [Function.update_of_ne hq, iff_self_and]
      intro _ f hf hfq
      have : f.ptr ≠ e.ptr := fun heq => hq (hfq.symm.trans heq)
      simp [this]

/-- **A handler is taken back.**  A handler of another client is left where it is. -/
theorem Refines.unregister (h : L.Refines a) (hc : c = 0 ∨ (L.clients c).isSome)
    (hp : p = 0 ∨ (L.heap p).isSome) :
    ∃ L', L.unregisterHandler c p = some L' ∧ L'.Refines (a.act (.unregister c p)) := by
  -- nothing is listed at a null pointer
  have hkept : (∀ e ∈ a.entries, ¬(e.client = c ∧ e.ptr = p)) →
      a.act (.unregister c p) = a := by
    intro hno
    have : a.entries.filter (fun e => ¬(e.client = c ∧ e.ptr = p)) = a.entries :=
      List.filter_eq_self.mpr fun e he => decide_eq_true (hno e he)
    rw [Register.act, this]
  cases hclient : L.clients c with
  | none =>
      refine ⟨L, by rw [unregisterHandler, hclient], ?_⟩
      rwa [hkept fun e he hep => h.client_ne hclient e he hep.1]
  | some client =>
      by_cases hzero : p = 0
      · refine ⟨L, by simp only [unregisterHandler, hclient, hzero, if_true], ?_⟩
        rwa [hkept fun e he hep => h.not_null e he (hep.2.trans hzero)]
      · obtain ⟨x, hx⟩ := Option.isSome_iff_exists.mp (hp.resolve_left hzero)
        obtain ⟨e, he, hptr, rfl⟩ := (h.heap p x).mp hx
        by_cases hmem : p ∈ client.handlers e.type
        · refine ⟨_, by simp only [unregisterHandler, hclient, hzero, if_false, hx,
            Option.map_some, hmem, if_true]; rfl, ?_⟩
          obtain ⟨f, hf, hfptr, rfl, hft⟩ := (h.mem_vector hclient).mp hmem
          obtain rfl := h.eq_of_ptr hf he (hfptr.trans hptr.symm)
          exact hptr ▸ h.remove he hclient
        · refine ⟨L, by simp only [unregisterHandler, hclient, hzero, if_false, hx,
            Option.map_some, hmem], ?_⟩
          rw [hkept]
          · exact h
          rintro f hf ⟨hfc, hfptr⟩
          obtain rfl := h.eq_of_ptr hf he (hfptr.trans hptr.symm)
          exact hmem ((h.mem_vector hclient).mpr ⟨f, hf, hfptr, hfc, rfl⟩)

/-- What the destructor deletes. -/
theorem Refines.destroy_heap (h : L.Refines a) {client : HandlerVectors}
    (hc : L.clients c = some client) (p : HandlerPtr) :
    (p ∈ client.handlers .request ∨ p ∈ client.handlers .response ∨
      p ∈ client.handlers .witness ∨ p ∈ client.handlers .publish ∨
      p ∈ client.handlers .parseError) ↔ ∃ e ∈ a.entries, e.ptr = p ∧ e.client = c := by
  simp only [h.mem_vector hc]
  constructor
  · rintro (hp | hp | hp | hp | hp) <;>
    · obtain ⟨e, he, hptr, hec, _⟩ := hp
      exact ⟨e, he, hptr, hec⟩
  · rintro ⟨e, he, hptr, hec⟩
    cases ht : e.type with
    | request => exact Or.inl ⟨e, he, hptr, hec, ht⟩
    | response => exact Or.inr (Or.inl ⟨e, he, hptr, hec, ht⟩)
    | witness => exact Or.inr (Or.inr (Or.inl ⟨e, he, hptr, hec, ht⟩))
    | publish => exact Or.inr (Or.inr (Or.inr (Or.inl ⟨e, he, hptr, hec, ht⟩)))
    | parseError => exact Or.inr (Or.inr (Or.inr (Or.inr ⟨e, he, hptr, hec, ht⟩)))

theorem Refines.destroy (h : L.Refines a) (c : ClientPtr) :
    (L.destroy c).Refines (a.act (.destroy c)) := by
  cases hc : L.clients c with
  | none =>
      have hkept : a.act (.destroy c) = a := by
        have hentries : a.entries.filter (fun e => e.client ≠ c) = a.entries :=
          List.filter_eq_self.mpr fun e he => decide_eq_true (h.client_ne hc e he)
        have hcounts : Function.update a.counts c none = a.counts := by
          rw [Function.update_eq_self_iff, h.counts, hc, Option.map_none]
        rw [Register.act, hentries, hcounts]
      rwa [hkept, Library.destroy, hc]
  | some client =>
      simp only [Library.destroy, hc, h.destroy_heap hc]
      refine h.keep _ ?_ (fun c' => ?_) (fun e _ hec => ?_) (fun c' type => ?_) (fun p x => ?_)
      case refine_1 =>
        by_cases hzero : 0 = c
        · simp [hzero]
        · simp [hzero, h.null]
      case refine_2 =>
        by_cases hc' : c' = c
        · simp [hc']
        · simp [hc', h.counts]
      case refine_3 => exact Function.update_of_ne (of_decide_eq_true hec) ..
      case refine_4 =>
        rw [List.filter_filter]
        by_cases hc' : c' = c
        · subst hc'
          rw [List.filter_eq_nil_iff.mpr fun e _ => by grind]
          simp [handlersOf]
        · have hvector := h.vectors c' type
          simp only [handlersOf, Function.update_of_ne hc'] at hvector ⊢
          rw [hvector]
          congr 1
          apply List.filter_congr
          intro e _
          grind
      case refine_5 =>
        show (if ∃ e ∈ a.entries, e.ptr = p ∧ e.client = c then none else L.heap p) = some x ↔ _
        split
        · rename_i hdeleted
          obtain ⟨e, he, hptr, hec⟩ := hdeleted
          simp only [reduceCtorEq, false_iff, not_and, not_forall]
          intro _
          exact ⟨e, he, hptr, by simp [hec]⟩
        · rename_i hkept
          simp only [iff_self_and]
          intro _ e he hptr
          exact decide_eq_true fun hec => hkept ⟨e, he, hptr, hec⟩

/-! ## Runs -/

/-- A call that can be made is carried out, and the library stays the register. -/
theorem Refines.act (h : L.Refines a) {x : LibraryAct β} (hx : L.Enabled x) :
    ∃ L', L.act x = some L' ∧ L'.Refines (a.act x) := by
  cases x with
  | create c => exact ⟨_, rfl, h.create hx.1 hx.2⟩
  | register type c fn p => exact ⟨_, rfl, h.register hx.2.1 hx.2.2 type fn⟩
  | unregister c p => exact h.unregister hx.1 hx.2
  | destroy c => exact ⟨_, rfl, h.destroy c⟩

/-- **The library is the register.**  After any calls, made with clients and handlers that
exist, the vectors are the registrations that have not been taken back, in order, and the
handlers that exist are theirs: none is leaked, and no vector has one that is deleted.  The
next call is carried out. -/
theorem refines_of_run {l : List (LibraryAct β)} (h : Run Step (empty : Library β) l L) :
    L.Refines (Register.after l) ∧ ∀ x, L.Enabled x → (L.act x).isSome := by
  have hrefines : L.Refines (Register.after l) := by
    induction h with
    | start => exact empty_refines
    | step _ hstep ih =>
        obtain ⟨L', heq, href⟩ := ih.act hstep.1
        obtain rfl := Option.some.inj (hstep.2.symm.trans heq)
        rwa [Register.after, List.foldl_append]
  refine ⟨hrefines, fun x hx => ?_⟩
  obtain ⟨L', heq, _⟩ := hrefines.act hx
  rw [heq, Option.isSome_some]

/-- Two clients: a handler of each, and the first client ends. -/
theorem refines_of_run_two : ∃ L : Library Unit,
    L.Refines (Register.after [.create 1, .create 2, .register .request 1 (some ()) 1,
      .register .witness 2 (some ()) 2, .destroy 1]) ∧
      ∀ x, L.Enabled x → (L.act x).isSome := by
  have h : Run Step (empty : Library Unit) _ _ :=
    ((((Run.start.step (a := .create 1) ⟨by decide, rfl⟩).step (a := .create 2)
      ⟨by decide, rfl⟩).step (a := .register .request 1 (some ()) 1) ⟨by decide, rfl⟩).step
      (a := .register .witness 2 (some ()) 2) ⟨by decide, rfl⟩).step (a := .destroy 1)
      ⟨by decide, rfl⟩
  exact ⟨_, refines_of_run h⟩

end Library

end

end SporeClient.Client
