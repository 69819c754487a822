/-
  Client/Dispatch.lean --- how `Client::listen` of `spore_c/source/client.cpp` calls the
  handlers of a request while they unregister one another.

  WHAT THIS FILE IS FOR.  The range-for over the vector of handlers takes its two ends once
  and walks the slots between them.  A callback that unregisters a handler moves the later
  handlers one slot down under it: one of them may be passed over, and what the slots behind
  the new end still hold is called as well.  `Tolerable` says which unregistrations the loop
  survives (`tolerant_iff`).
-/
import Mathlib.Data.List.Induction
import Mathlib.Data.List.Nodup
import SporeClient.Client.Registration

set_option autoImplicit false

namespace SporeClient.Client

/-! ## The loop -/

/-- The request handlers in the middle of a dispatch: the elements of the vector, what the
slots behind its end still hold, and the handlers that have been deleted. -/
structure Dispatch where
  live : List HandlerPtr
  spare : List HandlerPtr := []
  deleted : List HandlerPtr := []
  deriving DecidableEq, Repr

namespace Dispatch

/-- `Client::unregisterHandler`.  `erase` moves the elements behind the handler one slot
down; the slot that was the last one keeps what it held. -/
def unregister (s : Dispatch) (p : HandlerPtr) : Dispatch :=
  if p ∈ s.live then
    { live := s.live.erase p
      spare := s.live.getLast?.toList ++ s.spare
      deleted := s.deleted ++ [p] }
  else s

/-- What slot `i` holds. -/
def slot (s : Dispatch) (i : Nat) : HandlerPtr := (s.live ++ s.spare)[i]?.getD 0

end Dispatch

/-- A handler that is called, and the handlers that were deleted before. -/
structure Invocation where
  handler : HandlerPtr
  deleted : List HandlerPtr
  deriving DecidableEq, Repr

/-- `for (auto* h : requestHandlers) h->onRequest(self, &req)` from slot `i` on, when `left`
slots remain to the end that was taken before the first callback.  `choice i` is what the
callback of slot `i` unregisters, in order. -/
def Dispatch.loop (choice : Nat → List HandlerPtr) (s : Dispatch) (i : Nat) :
    Nat → Dispatch × List Invocation
  | 0 => (s, [])
  | left + 1 =>
      let r := loop choice ((choice i).foldl unregister s) (i + 1) left
      (r.1, ⟨s.slot i, s.deleted⟩ :: r.2)

/-- The dispatch of one request. -/
def dispatchRequest (handlers : List HandlerPtr) (choice : Nat → List HandlerPtr) :
    Dispatch × List Invocation :=
  Dispatch.loop choice ⟨handlers, [], []⟩ 0 handlers.length

/-! ## The vector and the library -/

section
variable {β : Type} {L : Library β} {c : ClientPtr}

/-- What a callback unregisters is taken out of the client's vector and deleted. -/
theorem Dispatch.unregister_library (hL : L.Sound) {s : Dispatch} {p : HandlerPtr}
    (hlive : L.handlersOf c .request = s.live) (hp : p ∈ s.live) :
    ∃ L', L.unregisterHandler c p = some L' ∧
      L'.handlersOf c .request = (s.unregister p).live ∧ L'.heap p = none := by
  obtain ⟨L', heq, _, hvector, hheap⟩ := Library.unregisterHandler_eq hL (hlive ▸ hp)
  refine ⟨L', heq, ?_, ?_⟩
  · rw [hvector, if_pos ⟨rfl, rfl⟩, hlive, unregister, if_pos hp]
  · rw [hheap, Function.update_self]

/-- A vector has no handler twice. -/
theorem registerHandler_nodup (hL : L.Sound) (hc : (L.clients c).isSome) {p : HandlerPtr}
    (hfresh : L.heap p = none) (type : HandlerType) (fn : β) {c' : ClientPtr}
    {type' : HandlerType} (h : (L.handlersOf c' type').Nodup) :
    ((L.registerHandler type c (some fn) p).1.handlersOf c' type').Nodup := by
  obtain ⟨L', id, heq, _, hvector, _⟩ := Library.registerHandler_eq hc type fn p
  rw [heq, hvector]
  split
  · rename_i hsame
    obtain ⟨rfl, rfl⟩ := hsame
    refine List.nodup_append.mpr ⟨h, List.nodup_singleton p, fun q hq r hr => ?_⟩
    rw [List.mem_singleton.mp hr]
    exact hL.ne_fresh hfresh hq
  · exact h

end

/-! ## What it should do -/

/-- What the first `k` callbacks unregister. -/
def unregistered (choice : Nat → List HandlerPtr) (k : Nat) : List HandlerPtr :=
  (List.range k).flatMap choice

/-- The callbacks unregister handlers that are still registered. -/
structure Possible (handlers : List HandlerPtr) (choice : Nat → List HandlerPtr) : Prop where
  once : (unregistered choice handlers.length).Nodup
  registered : ∀ p ∈ unregistered choice handlers.length, p ∈ handlers

/-- No handler is called after it has been unregistered, and every handler that stays
registered is called exactly once. -/
def Tolerant (handlers : List HandlerPtr) (choice : Nat → List HandlerPtr) : Prop :=
  (∀ x ∈ (dispatchRequest handlers choice).2, x.handler ∉ x.deleted) ∧
    ∀ h ∈ handlers, h ∉ (dispatchRequest handlers choice).1.deleted →
      ((dispatchRequest handlers choice).2.map Invocation.handler).count h = 1

/-- The last handler is not unregistered before the last callback.  If it is not unregistered
at all, only the last two callbacks unregister anything.  And every other handler that is not
unregistered has, before some callback `k`, exactly `k` registered handlers in front of it. -/
def Tolerable (handlers : List HandlerPtr) (choice : Nat → List HandlerPtr) : Prop :=
  ∀ front last, handlers = front ++ [last] →
    last ∉ unregistered choice (handlers.length - 1) ∧
      (last ∉ unregistered choice handlers.length →
        unregistered choice (handlers.length - 2) = []) ∧
      ∀ a h b, front = a ++ h :: b → h ∉ unregistered choice handlers.length →
        ∃ k < handlers.length, (a.filter fun p => p ∉ unregistered choice k).length = k

/-! ## The state before a callback -/

theorem unregistered_succ (choice : Nat → List HandlerPtr) (k : Nat) :
    unregistered choice (k + 1) = unregistered choice k ++ choice k := by
  simp [unregistered, List.range_succ]

theorem unregistered_of_le (choice : Nat → List HandlerPtr) {j k : Nat} (h : j ≤ k) :
    unregistered choice j <+: unregistered choice k := by
  induction h with
  | refl => exact List.prefix_refl _
  | step _ ih => exact ih.trans (unregistered_succ choice _ ▸ List.prefix_append _ _)

/-- **The memory after some handlers are unregistered.**  The last slot holds what it always
held; as long as this handler is registered, all the slots behind the end hold it. -/
theorem Dispatch.foldl_unregister {handlers gone : List HandlerPtr} (hnodup : handlers.Nodup)
    (hgone : gone.Nodup) (hmem : ∀ p ∈ gone, p ∈ handlers) :
    ∃ spare, gone.foldl unregister ⟨handlers, [], []⟩ =
        ⟨handlers.filter fun p => p ∉ gone, spare, gone⟩ ∧
      ((handlers.filter fun p => p ∉ gone) ++ spare).length = handlers.length ∧
      ((handlers.filter fun p => p ∉ gone) ++ spare).getLast? = handlers.getLast? ∧
      ∀ front last, handlers = front ++ [last] → last ∉ gone → ∀ q ∈ spare, q = last := by
  induction gone using List.reverseRecOn with
  | nil => exact ⟨[], by simp, by simp, by simp, by simp⟩
  | append_singleton gone p ih =>
      obtain ⟨hgone, _, hp⟩ := List.nodup_append.mp hgone
      have hp : p ∉ gone := fun hmem => hp p hmem p List.mem_cons_self rfl
      obtain ⟨spare, heq, hlen, hlast, hspare⟩ :=
        ih hgone fun q hq => hmem q (List.mem_append_left [p] hq)
      have hlive : p ∈ handlers.filter fun q => q ∉ gone :=
        List.mem_filter.mpr ⟨hmem p (by simp), by simpa using hp⟩
      have herase : (handlers.filter fun q => q ∉ gone).erase p =
          handlers.filter fun q => q ∉ gone ++ [p] := by
        rw [List.Nodup.erase_eq_filter (hnodup.filter _), List.filter_filter]
        apply List.filter_congr
        intro q _
        by_cases hq : q = p <;> simp [hq]
      obtain ⟨z, hz⟩ : ∃ z, (handlers.filter fun q => q ∉ gone).getLast? = some z :=
        ⟨_, List.getLast?_eq_some_getLast (List.ne_nil_of_mem hlive)⟩
      refine ⟨z :: spare, ?_, ?_, ?_, fun front last hfront hgone => ?_⟩
      · rw [List.foldl_append, heq, List.foldl_cons, List.foldl_nil, unregister, if_pos hlive,
          herase, hz]
        rfl
      · rw [← hlen, ← herase, List.length_append, List.length_append, List.length_cons,
          List.length_erase_of_mem hlive]
        have hpos := List.length_pos_of_mem hlive
        omega
      · rw [List.getLast?_append, hz] at hlast
        rw [List.getLast?_append, List.getLast?_cons, ← hlast]
        cases spare.getLast? <;> rfl
      · have hfree : last ∉ gone := fun hmem => hgone (List.mem_append_left [p] hmem)
        have hend : last = z := by
          rw [hfront, List.filter_append, List.filter_cons_of_pos (by simpa using hfree)] at hz
          simpa using hz
        intro q hq
        rcases List.mem_cons.mp hq with rfl | hq
        · exact hend.symm
        · exact hspare front last hfront hfree q hq

/-- The state before callback `k`. -/
def Dispatch.before (handlers : List HandlerPtr) (choice : Nat → List HandlerPtr) (k : Nat) :
    Dispatch :=
  (unregistered choice k).foldl unregister ⟨handlers, [], []⟩

/-- What slot `k` holds when it is read. -/
def slotRead (handlers : List HandlerPtr) (choice : Nat → List HandlerPtr) (k : Nat) : HandlerPtr :=
  (Dispatch.before handlers choice k).slot k

theorem Dispatch.loop_eq (handlers : List HandlerPtr) (choice : Nat → List HandlerPtr)
    (i left : Nat) :
    loop choice (before handlers choice i) i left =
      (before handlers choice (i + left),
        (List.range' i left).map fun k =>
          ⟨slotRead handlers choice k, (before handlers choice k).deleted⟩) := by
  induction left generalizing i with
  | zero => rfl
  | succ left ih =>
      have hnext : (choice i).foldl unregister (before handlers choice i) =
          before handlers choice (i + 1) := by
        rw [before, before, unregistered_succ, List.foldl_append]
      rw [loop, hnext, ih, List.range'_succ, List.map_cons, Nat.add_right_comm, Nat.add_assoc]
      rfl

/-- **The dispatch**, slot by slot. -/
theorem dispatchRequest_eq (handlers : List HandlerPtr) (choice : Nat → List HandlerPtr) :
    dispatchRequest handlers choice =
      (Dispatch.before handlers choice handlers.length,
        (List.range handlers.length).map fun k =>
          ⟨slotRead handlers choice k, (Dispatch.before handlers choice k).deleted⟩) := by
  have hloop := Dispatch.loop_eq handlers choice 0 handlers.length
  rw [Nat.zero_add, ← List.range_eq_range'] at hloop
  exact hloop

/-! ## Slot by slot -/

theorem slot_eq_iff {s : Dispatch} {k : Nat} {h : HandlerPtr}
    (hk : k < (s.live ++ s.spare).length) : s.slot k = h ↔ (s.live ++ s.spare)[k]? = some h := by
  rw [Dispatch.slot, List.getElem?_eq_getElem hk]
  simp

/-- Where a handler stands that is in a list once. -/
theorem getElem?_eq_some_iff_length {l r : List HandlerPtr} {h : HandlerPtr} {k : Nat} (hl : h ∉ l)
    (hr : h ∉ r) : (l ++ h :: r)[k]? = some h ↔ l.length = k := by
  rcases Nat.lt_trichotomy k l.length with hlt | rfl | hgt
  · rw [List.getElem?_append_left hlt]
    exact iff_of_false (fun heq => hl (List.mem_of_getElem? heq)) (Nat.ne_of_gt hlt)
  · simp
  · obtain ⟨d, rfl⟩ := Nat.exists_eq_add_of_lt hgt
    have hget : (l ++ h :: r)[l.length + d + 1]? = r[d]? := by
      rw [List.getElem?_append_right (by omega), Nat.add_assoc, Nat.add_sub_cancel_left,
        List.getElem?_cons_succ]
    rw [hget]
    exact iff_of_false (fun heq => hr (List.mem_of_getElem? heq)) (Nat.ne_of_lt hgt)

section
variable {handlers front : List HandlerPtr} {last : HandlerPtr}
  {choice : Nat → List HandlerPtr}

/-- The slots before callback `k`. -/
theorem before_eq (hnodup : handlers.Nodup) (hpossible : Possible handlers choice) {k : Nat}
    (hk : k ≤ handlers.length) :
    ∃ spare, Dispatch.before handlers choice k =
        ⟨handlers.filter fun p => p ∉ unregistered choice k, spare, unregistered choice k⟩ ∧
      ((handlers.filter fun p => p ∉ unregistered choice k) ++ spare).length = handlers.length ∧
      ((handlers.filter fun p => p ∉ unregistered choice k) ++ spare).getLast? =
        handlers.getLast? ∧
      ∀ front last, handlers = front ++ [last] → last ∉ unregistered choice k →
        ∀ q ∈ spare, q = last := by
  have hinit := unregistered_of_le choice hk
  exact Dispatch.foldl_unregister hnodup (hpossible.once.sublist hinit.sublist)
    fun p hp => hpossible.registered p (hinit.subset hp)

/-- What is read in slot `k`. -/
theorem slotRead_eq_iff (hnodup : (front ++ [last]).Nodup)
    (hpossible : Possible (front ++ [last]) choice) {k : Nat} (hk : k ≤ front.length) :
    ∃ spare,
      (((front ++ [last]).filter fun p => p ∉ unregistered choice k) ++ spare)[front.length]? =
        some last ∧
      (last ∉ unregistered choice k → ∀ q ∈ spare, q = last) ∧
      ∀ h, slotRead (front ++ [last]) choice k = h ↔
        (((front ++ [last]).filter fun p => p ∉ unregistered choice k) ++ spare)[k]? = some h := by
  have hlt : k < (front ++ [last]).length := by
    rw [List.length_append, List.length_singleton]
    omega
  obtain ⟨spare, hbefore, hlen, hlast, hspare⟩ := before_eq hnodup hpossible (Nat.le_of_lt hlt)
  refine ⟨spare, ?_, hspare front last rfl, fun h => ?_⟩
  · rw [List.getLast?_eq_getElem?, hlen] at hlast
    simpa using hlast
  · rw [slotRead, hbefore, slot_eq_iff (hlen ▸ hlt)]

/-- The last slot always holds the last handler. -/
theorem slotRead_last (hnodup : (front ++ [last]).Nodup)
    (hpossible : Possible (front ++ [last]) choice) :
    slotRead (front ++ [last]) choice front.length = last := by
  obtain ⟨spare, hlast, _, hread⟩ := slotRead_eq_iff hnodup hpossible (Nat.le_refl front.length)
  exact (hread last).mpr hlast

/-- A slot holds a handler of the vector, or the last handler. -/
theorem slotRead_registered (hnodup : (front ++ [last]).Nodup)
    (hpossible : Possible (front ++ [last]) choice) {k : Nat} (hk : k ≤ front.length)
    (hlast : last ∉ unregistered choice k) :
    slotRead (front ++ [last]) choice k ∉ unregistered choice k := by
  obtain ⟨spare, _, hspare, hread⟩ := slotRead_eq_iff hnodup hpossible hk
  rcases List.mem_append.mp (List.mem_of_getElem? ((hread _).mp rfl)) with hmem | hmem
  · simpa using (List.mem_filter.mp hmem).2
  · rw [hspare hlast _ hmem]
    exact hlast

/-- A handler that is not the last one is read in the slot to which it has moved. -/
theorem slotRead_front_iff {a b : List HandlerPtr} {h : HandlerPtr}
    (hnodup : (a ++ h :: b ++ [last]).Nodup)
    (hpossible : Possible (a ++ h :: b ++ [last]) choice) {k : Nat}
    (hk : k ≤ (a ++ h :: b).length) (hlast : last ∉ unregistered choice k)
    (hh : h ∉ unregistered choice k) :
    slotRead (a ++ h :: b ++ [last]) choice k = h ↔
      (a.filter fun p => p ∉ unregistered choice k).length = k := by
  obtain ⟨spare, _, hspare, hread⟩ := slotRead_eq_iff hnodup hpossible hk
  have hne : h ∉ a ∧ h ∉ b ∧ h ≠ last := by
    rw [List.append_assoc, List.cons_append, List.nodup_middle, List.nodup_cons] at hnodup
    simpa [not_or] using hnodup.1
  have hslots : ((a ++ h :: b ++ [last]).filter fun p => p ∉ unregistered choice k) ++ spare =
      (a.filter fun p => p ∉ unregistered choice k) ++ h ::
        (((b ++ [last]).filter fun p => p ∉ unregistered choice k) ++ spare) := by
    simp [hh]
  rw [hread, hslots]
  apply getElem?_eq_some_iff_length
  · exact fun hmem => hne.1 (List.mem_filter.mp hmem).1
  · intro hmem
    rcases List.mem_append.mp hmem with hmem | hmem
    · rcases List.mem_append.mp (List.mem_filter.mp hmem).1 with hmem | hmem
      · exact hne.2.1 hmem
      · exact hne.2.2 (List.mem_singleton.mp hmem)
    · exact hne.2.2 (hspare hlast h hmem)

/-- The last handler is read in its own slot and in all slots behind it. -/
theorem slotRead_last_iff (hnodup : (front ++ [last]).Nodup)
    (hpossible : Possible (front ++ [last]) choice) {k : Nat} (hk : k ≤ front.length)
    (hlast : last ∉ unregistered choice k) :
    slotRead (front ++ [last]) choice k = last ↔
      (front.filter fun p => p ∉ unregistered choice k).length ≤ k := by
  obtain ⟨spare, _, hspare, hread⟩ := slotRead_eq_iff hnodup hpossible hk
  have hslots : ((front ++ [last]).filter fun p => p ∉ unregistered choice k) ++ spare =
      (front.filter fun p => p ∉ unregistered choice k) ++ last :: spare := by
    simp [hlast]
  rw [hslots] at hread
  constructor
  · intro hlt
    by_contra hle
    have hmem := (hread last).mp hlt
    rw [List.getElem?_append_left (by omega)] at hmem
    have hfront := (List.mem_filter.mp (List.mem_of_getElem? hmem)).1
    exact (List.nodup_append.mp hnodup).2.2 last hfront last List.mem_cons_self rfl
  · intro hle
    have hmem := (hread _).mp rfl
    rw [List.getElem?_append_right hle] at hmem
    rcases List.mem_cons.mp (List.mem_of_getElem? hmem) with heq | hmem
    · exact heq
    · exact hspare hlast _ hmem

end

/-! ## Which unregistrations are survived -/

/-- A value that a function takes once. -/
theorem count_map_range_eq_one {α : Type} [DecidableEq α] (f : Nat → α) (a : α) (n : Nat) :
    ((List.range n).map f).count a = 1 ↔ ∃ k < n, f k = a ∧ ∀ j < n, f j = a → j = k := by
  have hcount : ((List.range n).map f).count a =
      ((List.range n).filter fun k => f k = a).length := by
    rw [List.count, List.countP_map, List.countP_eq_length_filter]
    rfl
  have hmem : ∀ k, k ∈ (List.range n).filter (fun k => f k = a) ↔ k < n ∧ f k = a := by
    simp
  have hnodup : ((List.range n).filter fun k => f k = a).Nodup := List.nodup_range.filter _
  rw [hcount, List.length_eq_one_iff]
  generalize (List.range n).filter (fun k => f k = a) = s at hmem hnodup
  constructor
  · rintro ⟨k, rfl⟩
    obtain ⟨hk, hfk⟩ := (hmem k).mp List.mem_cons_self
    exact ⟨k, hk, hfk, fun j hj hfj => List.mem_singleton.mp ((hmem j).mpr ⟨hj, hfj⟩)⟩
  · rintro ⟨k, hk, hfk, hunique⟩
    refine ⟨k, ((List.perm_ext_iff_of_nodup hnodup (List.nodup_singleton k)).mpr ?_).eq_singleton⟩
    intro j
    rw [hmem, List.mem_singleton]
    exact ⟨fun ⟨hj, hfj⟩ => hunique j hj hfj, fun hj => hj ▸ ⟨hk, hfk⟩⟩

/-- What the loop does, slot by slot. -/
theorem tolerant_slots {handlers : List HandlerPtr} {choice : Nat → List HandlerPtr}
    (hnodup : handlers.Nodup) (hpossible : Possible handlers choice) :
    Tolerant handlers choice ↔
      (∀ k < handlers.length, slotRead handlers choice k ∉ unregistered choice k) ∧
        ∀ h ∈ handlers, h ∉ unregistered choice handlers.length →
          ∃ k < handlers.length, slotRead handlers choice k = h ∧
            ∀ j < handlers.length, slotRead handlers choice j = h → j = k := by
  have hdeleted : ∀ k ≤ handlers.length,
      (Dispatch.before handlers choice k).deleted = unregistered choice k := by
    intro k hk
    obtain ⟨spare, hbefore, _⟩ := before_eq hnodup hpossible hk
    rw [hbefore]
  rw [Tolerant, dispatchRequest_eq]
  apply and_congr
  · constructor
    · intro hsafe k hk
      rw [← hdeleted k (Nat.le_of_lt hk)]
      exact hsafe _ (List.mem_map_of_mem (List.mem_range.mpr hk))
    · intro hsafe x hx
      obtain ⟨k, hk, rfl⟩ := List.mem_map.mp hx
      have hk := List.mem_range.mp hk
      rw [hdeleted k (Nat.le_of_lt hk)]
      exact hsafe k hk
  · rw [hdeleted _ (Nat.le_refl _), List.map_map]
    apply forall₃_congr
    intro h _ _
    exact count_map_range_eq_one (slotRead handlers choice) h handlers.length

section
variable {front : List HandlerPtr} {last : HandlerPtr} {choice : Nat → List HandlerPtr}
  (hnodup : (front ++ [last]).Nodup) (hpossible : Possible (front ++ [last]) choice)
include hnodup hpossible

/-- No deleted handler is called iff the last one is registered until its turn. -/
theorem safe_iff :
    (∀ k < front.length + 1, slotRead (front ++ [last]) choice k ∉ unregistered choice k) ↔
      last ∉ unregistered choice front.length := by
  constructor
  · intro hsafe
    have hread := hsafe front.length (Nat.lt_succ_self _)
    rwa [slotRead_last hnodup hpossible] at hread
  · intro hlast k hk
    have hinit := unregistered_of_le choice (Nat.le_of_lt_succ hk)
    exact slotRead_registered hnodup hpossible (Nat.le_of_lt_succ hk) fun hmem =>
      hlast (hinit.subset hmem)

/-- The last handler is called once iff nothing is unregistered before the last two
callbacks. -/
theorem last_once_iff (hlast : last ∉ unregistered choice front.length) :
    (∃ k < front.length + 1, slotRead (front ++ [last]) choice k = last ∧
        ∀ j < front.length + 1, slotRead (front ++ [last]) choice j = last → j = k) ↔
      unregistered choice (front.length - 1) = [] := by
  have hread : ∀ k ≤ front.length, (slotRead (front ++ [last]) choice k = last ↔
      (front.filter fun p => p ∉ unregistered choice k).length ≤ k) := by
    intro k hk
    have hinit := unregistered_of_le choice hk
    exact slotRead_last_iff hnodup hpossible hk fun hmem => hlast (hinit.subset hmem)
  have hend := slotRead_last hnodup hpossible
  constructor
  · rintro ⟨k, hk, _, hunique⟩
    obtain rfl := hunique front.length (Nat.lt_succ_self _) hend
    rcases Nat.eq_zero_or_pos front.length with hzero | hpos
    · rw [hzero]
      rfl
    have hinit := unregistered_of_le choice (Nat.sub_le front.length 1)
    -- one slot before its own the last handler is not read yet
    have hearly : ¬slotRead (front ++ [last]) choice (front.length - 1) = last := by
      intro hlastj
      have heq := hunique _ (by omega) hlastj
      omega
    rw [hread _ (Nat.sub_le _ _)] at hearly
    have hall : ∀ p ∈ front, p ∉ unregistered choice (front.length - 1) := by
      have hle := List.length_filter_le (fun p => p ∉ unregistered choice (front.length - 1)) front
      have hlen := List.length_filter_eq_length_iff.mp (Nat.le_antisymm hle (by omega))
      simpa using hlen
    apply List.eq_nil_iff_forall_not_mem.mpr
    intro p hp
    have hmem : p ∈ front ++ [last] := hpossible.registered p
      ((unregistered_of_le choice (by simp; omega)).subset hp)
    rcases List.mem_append.mp hmem with hmem | hmem
    · exact hall p hmem hp
    · exact hlast (List.mem_singleton.mp hmem ▸ hinit.subset hp)
  · intro hnone
    refine ⟨front.length, Nat.lt_succ_self _, hend, fun j hj hlastj => ?_⟩
    by_contra hne
    have hinit := unregistered_of_le choice (show j ≤ front.length - 1 by omega)
    rw [hnone, List.prefix_nil] at hinit
    have hlen := (hread j (by omega)).mp hlastj
    simp only [hinit, List.not_mem_nil, not_false_eq_true, decide_true, List.filter_true] at hlen
    omega

/-- Another handler is called once iff it is met where it has moved to. -/
theorem front_once_iff {a b : List HandlerPtr} {h : HandlerPtr} (hfront : front = a ++ h :: b)
    (hlast : last ∉ unregistered choice front.length)
    (hh : h ∉ unregistered choice (front.length + 1)) :
    (∃ k < front.length + 1, slotRead (front ++ [last]) choice k = h ∧
        ∀ j < front.length + 1, slotRead (front ++ [last]) choice j = h → j = k) ↔
      ∃ k < front.length + 1, (a.filter fun p => p ∉ unregistered choice k).length = k := by
  subst hfront
  have hread : ∀ k < (a ++ h :: b).length + 1, (slotRead (a ++ h :: b ++ [last]) choice k = h ↔
      (a.filter fun p => p ∉ unregistered choice k).length = k) := by
    intro k hk
    have hinit := unregistered_of_le choice (Nat.le_of_lt_succ hk)
    have hinit' := unregistered_of_le choice (Nat.le_of_lt hk)
    exact slotRead_front_iff hnodup hpossible (Nat.le_of_lt_succ hk)
      (fun hmem => hlast (hinit.subset hmem)) fun hmem => hh (hinit'.subset hmem)
  have hmono : ∀ {j k : Nat}, j ≤ k →
      (a.filter fun p => p ∉ unregistered choice k).length ≤
        (a.filter fun p => p ∉ unregistered choice j).length := by
    intro j k hjk
    have hsub := (unregistered_of_le choice hjk).subset
    apply List.Sublist.length_le
    apply List.monotone_filter_right
    intro p hp
    simp only [decide_eq_true_eq] at hp ⊢
    exact fun hmem => hp (hsub hmem)
  constructor
  · rintro ⟨k, hk, hkh, _⟩
    exact ⟨k, hk, (hread k hk).mp hkh⟩
  · rintro ⟨k, hk, hkh⟩
    refine ⟨k, hk, (hread k hk).mpr hkh, fun j hj hjh => ?_⟩
    have hj' := (hread j hj).mp hjh
    -- the handlers in front only become fewer
    rcases Nat.le_total j k with hle | hle
    · have hfewer := hmono hle
      omega
    · have hfewer := hmono hle
      omega

end

/-- **The loop survives exactly the unregistrations that are tolerable.** -/
theorem tolerant_iff {handlers : List HandlerPtr} {choice : Nat → List HandlerPtr}
    (hnodup : handlers.Nodup) (hpossible : Possible handlers choice) :
    Tolerant handlers choice ↔ Tolerable handlers choice := by
  rw [tolerant_slots hnodup hpossible]
  rcases List.eq_nil_or_concat' handlers with rfl | ⟨front, last, rfl⟩
  · simp [Tolerable]
  have hlen : (front ++ [last]).length = front.length + 1 := by simp
  rw [Tolerable, hlen, Nat.add_sub_cancel, show front.length + 1 - 2 = front.length - 1 from rfl]
  constructor
  · rintro ⟨hsafe, honce⟩ front' last' heq
    obtain ⟨rfl, hend⟩ := List.append_inj' heq rfl
    obtain rfl := List.singleton_inj.mp hend
    have hlast := (safe_iff hnodup hpossible).mp hsafe
    refine ⟨hlast, fun hfree => ?_, fun a h b hfront hh => ?_⟩
    · exact (last_once_iff hnodup hpossible hlast).mp (honce last (by simp) hfree)
    · exact (front_once_iff hnodup hpossible hfront hlast hh).mp (honce h (by simp [hfront]) hh)
  · intro htolerable
    obtain ⟨hlast, hend, hmet⟩ := htolerable front last rfl
    refine ⟨(safe_iff hnodup hpossible).mpr hlast, fun h hmem hh => ?_⟩
    rcases List.mem_append.mp hmem with hmem | hmem
    · obtain ⟨a, b, hfront⟩ := List.append_of_mem hmem
      exact (front_once_iff hnodup hpossible hfront hlast hh).mpr (hmet a h b hfront hh)
    · obtain rfl := List.mem_singleton.mp hmem
      exact (last_once_iff hnodup hpossible hlast).mpr (hend hh)

/-- The second callback unregisters the first two handlers, and the loop survives it. -/
theorem tolerant_second : Tolerant [1, 2, 3] (fun k => if k = 1 then [1, 2] else []) := by
  refine (tolerant_iff (by decide) ⟨by decide, by decide⟩).mpr fun front last heq => ?_
  have hsplit : [1, 2] ++ [3] = front ++ [last] := heq
  obtain ⟨rfl, hlast⟩ := List.append_inj' hsplit rfl
  obtain rfl := List.singleton_inj.mp hlast
  refine ⟨by decide, fun _ => by decide, fun a h b hfront hh => ?_⟩
  -- the two in front are both unregistered
  have hmem : h ∈ [1, 2] := hfront ▸ by simp
  have hall : [1, 2] ⊆ unregistered (fun k => if k = 1 then [1, 2] else []) 3 := by decide
  exact absurd (hall hmem) hh

/-- **A handler that unregisters itself**: the next one is not called. -/
theorem not_tolerant_self :
    Possible [1, 2, 3] (fun k => if k = 0 then [1] else []) ∧
      ¬Tolerant [1, 2, 3] (fun k => if k = 0 then [1] else []) :=
  ⟨⟨by decide, by decide⟩, fun h => absurd (h.2 2 (by decide) (by decide)) (by decide)⟩

end SporeClient.Client
