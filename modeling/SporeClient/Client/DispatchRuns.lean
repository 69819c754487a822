/-
  Client/DispatchRuns.lean --- the dispatches of `Client::listen` among the calls that
  register and unregister handlers.

  WHAT THIS FILE IS FOR.  `listen` calls the handlers of an event through a vector that it
  reads slot by slot, up to the end it has taken before the first call.  In between, handlers
  and other threads register handlers, take them back, and create and destroy clients.  As
  long as nobody changes a vector that is walked, every dispatch calls the functions that
  were registered for its client and its kind when it began, each once and in order, and
  reads no handler that is deleted (`Dispatches.calls_due`).  `Client/Dispatch.lean` is about
  what happens when the vector itself is changed.
-/
import SporeClient.Client.HandlerRuns
import SporeClient.Client.Listen

set_option autoImplicit false

namespace SporeClient.Client

open SporeClient.Foundation

/-- The kind of the handlers that are called for an event. -/
def Event.type : Event → HandlerType
  | .request _ => .request
  | .response _ => .response
  | .responseError _ => .response
  | .witness _ => .witness
  | .publish _ => .publish
  | .parseError _ _ _ => .parseError

/-- A dispatch that is under way: the end of the vector that was taken before the first call,
and the slot that is read next. -/
structure Walk where
  client : ClientPtr
  event : Event
  stop : Nat
  next : Nat

/-- The library, and the dispatches that the calls of `listen` are in. -/
structure Dispatches (β : Type) where
  lib : Library β
  walks : Nat → Option Walk

/-- A call of `listen` begins a dispatch, calls a function or ends the dispatch, or there is a
call of a C function. -/
inductive DispatchMove (β : Type) where
  | begin (i : Nat) (c : ClientPtr) (e : Event)
  | call (i : Nat) (c : ClientPtr) (e : Event) (fn : β)
  | finish (i : Nat)
  | act (x : LibraryAct β)

section

variable {β : Type}

/-- The call does not change the vector of the client and the kind. -/
def LibraryAct.Spares (L : Library β) (c : ClientPtr) (type : HandlerType) :
    LibraryAct β → Prop
  | .create _ => True
  | .register type' c' _ _ => ¬(c' = c ∧ type' = type)
  | .unregister c' p => c' = c → ∀ h, L.heap p = some h → h.type ≠ type
  | .destroy c' => c' ≠ c

/-- The registrations of a client and a kind, in order. -/
def Register.listed (a : Register β) (c : ClientPtr) (type : HandlerType) : List (Listed β) :=
  a.entries.filter fun e => e.client = c ∧ e.type = type

namespace Dispatches

/-- No client exists. -/
def start : Dispatches β := ⟨.empty, fun _ => none⟩

/-- The dispatch that a call of `listen` is in. -/
def setWalk (s : Dispatches β) (i : Nat) (w : Option Walk) : Dispatches β :=
  { s with walks := Function.update s.walks i w }

@[simp] theorem setWalk_self (s : Dispatches β) (i : Nat) (w : Option Walk) :
    (s.setWalk i w).walks i = w := Function.update_self ..

theorem setWalk_of_ne (s : Dispatches β) {i j : Nat} (h : j ≠ i) (w : Option Walk) :
    (s.setWalk i w).walks j = s.walks j := Function.update_of_ne h ..

/-- One move.  A slot that is not there, and a handler that has been deleted, cannot be read;
the calls of C functions spare the vectors that are walked. -/
inductive Step : Dispatches β → DispatchMove β → Dispatches β → Prop
  | begin {s : Dispatches β} {i : Nat} {c : ClientPtr} (e : Event)
      (hc : (s.lib.clients c).isSome) (hidle : s.walks i = none) :
      Step s (.begin i c e) (s.setWalk i (some ⟨c, e, (s.lib.handlersOf c e.type).length, 0⟩))
  | call {s : Dispatches β} {i : Nat} {w : Walk} {p : HandlerPtr} {h : SporeHandler β}
      (hwalk : s.walks i = some w) (hnext : w.next < w.stop)
      (hslot : (s.lib.handlersOf w.client w.event.type)[w.next]? = some p)
      (hread : s.lib.heap p = some h) :
      Step s (.call i w.client w.event h.fn) (s.setWalk i (some { w with next := w.next + 1 }))
  | finish {s : Dispatches β} {i : Nat} {w : Walk} (hwalk : s.walks i = some w)
      (hstop : ¬w.next < w.stop) :
      Step s (.finish i) (s.setWalk i none)
  | act {s : Dispatches β} {x : LibraryAct β} {L : Library β} (hstep : s.lib.Step x L)
      (hspares : ∀ i w, s.walks i = some w → x.Spares s.lib w.client w.event.type) :
      Step s (.act x) { s with lib := L }

/-- The calls of C functions among moves. -/
def actsOf (l : List (DispatchMove β)) : List (LibraryAct β) :=
  l.filterMap fun
    | .act x => some x
    | _ => none

/-- The functions that a call of `listen` calls, with the clients and the events. -/
def callsOf (i : Nat) (l : List (DispatchMove β)) : List (ClientPtr × Event × β) :=
  l.filterMap fun
    | .call j c e fn => if j = i then some (c, e, fn) else none
    | _ => none

/-- What a dispatch is to call: the functions that are registered. -/
def calls (a : Register β) (c : ClientPtr) (e : Event) : List (ClientPtr × Event × β) :=
  (a.listed c e.type).map fun x => (c, e, x.fn)

/-- The functions that a call of `listen` is to call: for each event those that are registered
when its dispatch begins. -/
def due (i : Nat) : Register β → List (DispatchMove β) → List (ClientPtr × Event × β)
  | _, [] => []
  | a, .begin j c e :: l => (if j = i then calls a c e else []) ++ due i a l
  | a, .act x :: l => due i (a.act x) l
  | a, .call _ _ _ _ :: l => due i a l
  | a, .finish _ :: l => due i a l

/-! ## Moves in a row -/

theorem actsOf_append (l l' : List (DispatchMove β)) : actsOf (l ++ l') = actsOf l ++ actsOf l' :=
  List.filterMap_append

theorem callsOf_append (i : Nat) (l l' : List (DispatchMove β)) :
    callsOf i (l ++ l') = callsOf i l ++ callsOf i l' := List.filterMap_append

theorem due_append (i : Nat) (a : Register β) (l l' : List (DispatchMove β)) :
    due i a (l ++ l') = due i a l ++ due i ((actsOf l).foldl Register.act a) l' := by
  induction l generalizing a with
  | nil => rfl
  | cons m l ih =>
      cases m with
      | begin j c e => simp only [List.cons_append, due, ih, List.append_assoc]; rfl
      | call j c e fn => exact ih a
      | finish j => exact ih a
      | act x => exact ih (a.act x)

/-- What a move adds to what is due. -/
theorem due_concat (i : Nat) (l : List (DispatchMove β)) (m : DispatchMove β) :
    due i .empty (l ++ [m]) = due i .empty l ++ due i (Register.after (actsOf l)) [m] :=
  due_append i .empty l [m]

/-! ## What is spared -/

/-- A call that spares a vector leaves the registrations of it as they are. -/
theorem listed_act {L : Library β} {a : Register β} (h : L.Refines a) {x : LibraryAct β}
    {c : ClientPtr} {type : HandlerType} (hx : x.Spares L c type) :
    (a.act x).listed c type = a.listed c type := by
  cases x with
  | create c' => rfl
  | register type' c' fn p =>
      simp only [Register.act]
      split
      · have hother : ¬(c' = c ∧ type' = type) := hx
        simp [Register.listed, hother]
      · rfl
  | unregister c' p =>
      rw [Register.listed, Register.act, List.filter_filter]
      apply List.filter_congr
      intro e he
      by_cases hct : e.client = c ∧ e.type = type
      · -- a registration of the vector has another handle
        have hkept : ¬(e.client = c' ∧ e.ptr = p) := by
          rintro ⟨hc', rfl⟩
          have hread := (h.heap e.ptr _).mpr ⟨e, he, rfl, rfl⟩
          exact hx (hc'.symm.trans hct.1) _ hread hct.2
        rw [decide_eq_true hct, decide_eq_true hkept, Bool.and_self]
      · simp [hct]
  | destroy c' =>
      rw [Register.listed, Register.act, List.filter_filter]
      apply List.filter_congr
      intro e _
      have hother : c' ≠ c := hx
      by_cases hc : e.client = c
      · simp [hc, hother.symm]
      · simp [hc]

/-- What slot `i` of a vector has: the registration `i`. -/
theorem slot_eq {L : Library β} {a : Register β} (h : L.Refines a) (c : ClientPtr)
    (type : HandlerType) (i : Nat) :
    (L.handlersOf c type)[i]? = ((a.listed c type)[i]?).map Listed.ptr := by
  rw [h.vectors, List.getElem?_map]
  rfl

/-- Its handler exists. -/
theorem read_listed {L : Library β} {a : Register β} (h : L.Refines a) {c : ClientPtr}
    {type : HandlerType} {e : Listed β} (he : e ∈ a.listed c type) :
    L.heap e.ptr = some ⟨e.type, e.id, e.fn⟩ :=
  (h.heap e.ptr _).mpr ⟨e, (List.mem_filter.mp he).1, rfl, rfl⟩

/-! ## Runs -/

/-- Where a call of `listen` is: in no dispatch it has called what is due, and in a dispatch it
has the rest of the vector to call. -/
def Due (i : Nat) (a : Register β) (l : List (DispatchMove β)) : Option Walk → Prop
  | none => callsOf i l = due i .empty l
  | some w => w.stop = (a.listed w.client w.event.type).length ∧
      callsOf i l ++ (calls a w.client w.event).drop w.next = due i .empty l

/-- What is so after moves: the library is the register, and every call of `listen` is where
it is due. -/
structure Tracks (s : Dispatches β) (l : List (DispatchMove β)) : Prop where
  refines : s.lib.Refines (Register.after (actsOf l))
  walks : ∀ i, Due i (Register.after (actsOf l)) l (s.walks i)

theorem tracks_start : (start : Dispatches β).Tracks [] :=
  ⟨Library.empty_refines, fun _ => rfl⟩

section

variable {s t : Dispatches β} {l : List (DispatchMove β)} {m : DispatchMove β} {i : Nat}

/-- A call of `listen` that the move is not of, while the registrations it walks stay. -/
theorem Due.other {a a' : Register β} {w : Option Walk} (h : Due i a l w)
    (hdue : due i (Register.after (actsOf l)) [m] = []) (hcalls : callsOf i [m] = [])
    (hlisted : ∀ v, w = some v →
      a'.listed v.client v.event.type = a.listed v.client v.event.type) :
    Due i a' (l ++ [m]) w := by
  have hl : callsOf i (l ++ [m]) = callsOf i l := by
    rw [callsOf_append, hcalls, List.append_nil]
  have hd : due i .empty (l ++ [m]) = due i .empty l := by
    rw [due_concat, hdue, List.append_nil]
  cases w with
  | none => exact hl.trans (Eq.trans h hd.symm)
  | some v =>
      rw [Due, calls, hlisted v rfl, hl, hd]
      exact h

/-- A move of one dispatch. -/
theorem Tracks.setWalk (h : s.Tracks l) (hacts : actsOf [m] = [])
    (hother : ∀ j, j ≠ i →
      due j (Register.after (actsOf l)) [m] = [] ∧ callsOf j [m] = []) {w : Option Walk}
    (hi : Due i (Register.after (actsOf l)) (l ++ [m]) w) :
    (s.setWalk i w).Tracks (l ++ [m]) := by
  have hafter : Register.after (actsOf (l ++ [m])) = Register.after (actsOf l) := by
    rw [actsOf_append, hacts, List.append_nil]
  refine ⟨hafter ▸ h.refines, fun j => ?_⟩
  rw [hafter]
  by_cases hj : j = i
  · rwa [hj, setWalk_self]
  · rw [setWalk_of_ne s hj]
    exact (h.walks j).other (hother j hj).1 (hother j hj).2 fun _ _ => rfl

/-- **A move keeps every dispatch where it is due.** -/
theorem Tracks.step (h : s.Tracks l) (hstep : Step s m t) : t.Tracks (l ++ [m]) := by
  cases hstep with
  | @begin i c e hc hidle =>
      have hi : callsOf i l = due i .empty l := by simpa only [hidle, Due] using h.walks i
      refine h.setWalk rfl (fun j hj => ⟨by simp [due, hj.symm], rfl⟩) ⟨?_, ?_⟩
      · rw [h.refines.vectors, List.length_map]
        rfl
      · -- the whole vector is left to call
        rw [due_concat, callsOf_append, hi]
        simp [due, callsOf]
  | @call i w p handler hwalk hnext hslot hread =>
      have hi := h.walks i
      rw [hwalk] at hi
      obtain ⟨hstop, hcalls⟩ := hi
      refine h.setWalk rfl (fun j hj => ⟨rfl, by simp [callsOf, hj.symm]⟩) ⟨hstop, ?_⟩
      -- the function that is called is the first of the rest
      have hlt : w.next <
          ((Register.after (actsOf l)).listed w.client w.event.type).length := hstop ▸ hnext
      have hdrop : (calls (Register.after (actsOf l)) w.client w.event).drop w.next =
          (w.client, w.event, handler.fn) ::
            (calls (Register.after (actsOf l)) w.client w.event).drop (w.next + 1) := by
        rw [List.drop_eq_getElem_cons (by rwa [calls, List.length_map])]
        congr 1
        rw [slot_eq h.refines, List.getElem?_eq_getElem hlt] at hslot
        obtain rfl := Option.some.inj hslot
        rw [read_listed h.refines (List.getElem_mem hlt)] at hread
        obtain rfl := Option.some.inj hread
        simp [calls]
      rw [hdrop] at hcalls
      rw [due_concat, callsOf_append, List.append_assoc]
      simpa [due, callsOf] using hcalls
  | @finish i w hwalk hstop =>
      have hi := h.walks i
      rw [hwalk] at hi
      refine h.setWalk rfl (fun j _ => ⟨rfl, rfl⟩) ?_
      -- nothing is left to call
      have hrest : (calls (Register.after (actsOf l)) w.client w.event).drop w.next = [] := by
        apply List.drop_eq_nil_of_le
        rw [calls, List.length_map, ← hi.1]
        exact Nat.le_of_not_lt hstop
      rw [Due, due_concat, callsOf_append, ← hi.2, hrest]
      simp [due, callsOf]
  | @act x L hlib hspares =>
      obtain ⟨L', heq, href⟩ := h.refines.act hlib.1
      obtain rfl := Option.some.inj (hlib.2.symm.trans heq)
      have hafter : Register.after (actsOf (l ++ [.act x])) =
          (Register.after (actsOf l)).act x := by
        rw [actsOf_append, Register.after, List.foldl_append]
        rfl
      refine ⟨hafter ▸ href, fun j => ?_⟩
      rw [hafter]
      exact (h.walks j).other rfl rfl fun w hw => listed_act h.refines (hspares j w hw)

theorem Tracks.run (h : Run Step (start : Dispatches β) l s) : s.Tracks l := by
  induction h with
  | start => exact tracks_start
  | step _ hstep ih => exact ih.step hstep

/-- In a dispatch that has not reached its end the next handler is there. -/
theorem Tracks.call (h : s.Tracks l) {w : Walk} (hw : s.walks i = some w)
    (hnext : w.next < w.stop) : ∃ fn t, Step s (.call i w.client w.event fn) t := by
  have hi := h.walks i
  rw [hw] at hi
  have hlt : w.next <
      ((Register.after (actsOf l)).listed w.client w.event.type).length := hi.1 ▸ hnext
  have hslot := slot_eq h.refines w.client w.event.type w.next
  rw [List.getElem?_eq_getElem hlt] at hslot
  exact ⟨_, _, .call hw hnext hslot (read_listed h.refines (List.getElem_mem hlt))⟩

/-- **Every dispatch calls what was registered when it began.**  While other vectors change,
clients come and go and other dispatches run, a call of `listen` calls for each event the
functions that were registered for its client and its kind when the dispatch began, each once
and in order; and the handler that is next is always there to be read. -/
theorem calls_due (h : Run Step (start : Dispatches β) l s) (i : Nat) :
    callsOf i l <+: due i .empty l ∧
    (s.walks i = none → callsOf i l = due i .empty l) ∧
    ∀ w, s.walks i = some w → w.next < w.stop →
      ∃ fn t, Step s (.call i w.client w.event fn) t := by
  have htracks := Tracks.run h
  have hi := htracks.walks i
  refine ⟨?_, fun hidle => ?_, fun w hw hnext => htracks.call hw hnext⟩
  · cases hwalk : s.walks i with
    | none =>
        rw [hwalk] at hi
        exact hi ▸ List.prefix_rfl
    | some w =>
        rw [hwalk] at hi
        exact hi.2 ▸ List.prefix_append ..
  · rwa [hidle] at hi

end

/-- The first of two error handlers registers a handler of requests. -/
theorem calls_due_two : ∃ s : Dispatches Bool,
    let l := [.act (.create 1), .act (.register .parseError 1 (some true) 1),
      .act (.register .parseError 1 (some false) 2), .begin 0 1 (.parseError "" "" []),
      .call 0 1 (.parseError "" "" []) true, .act (.register .request 1 (some true) 3),
      .call 0 1 (.parseError "" "" []) false, .finish 0]
    Run Step start l s ∧
    callsOf 0 l = [(1, .parseError "" "" [], true), (1, .parseError "" "" [], false)] := by
  have hspares (j : Nat) (w : Walk) (L : Library Bool)
      (hw : Function.update (Function.update (fun _ => none) 0
        (some ⟨1, .parseError "" "" [], 2, 0⟩)) 0
        (some ⟨1, .parseError "" "" [], 2, 1⟩) j = some w) :
      (LibraryAct.register .request 1 (some true) 3).Spares L w.client w.event.type := by
    by_cases hj : j = 0
    · rw [hj, Function.update_self] at hw
      obtain rfl := Option.some.inj hw
      exact fun h => nomatch h.2
    · simp [hj] at hw
  have h : Run Step (start : Dispatches Bool) _ _ :=
    (((((((Run.start.step (.act (x := .create 1) ⟨by decide, rfl⟩ nofun)).step
      (.act (x := .register .parseError 1 (some true) 1) ⟨by decide, rfl⟩ nofun)).step
      (.act (x := .register .parseError 1 (some false) 2) ⟨by decide, rfl⟩ nofun)).step
      (.begin (i := 0) (c := 1) (.parseError "" "" []) rfl rfl)).step
      (.call (i := 0) rfl (by decide) rfl rfl)).step
      (.act (x := .register .request 1 (some true) 3) ⟨by decide, rfl⟩
        fun j w hw => hspares j w _ hw)).step
      (.call (i := 0) rfl (by decide) rfl rfl)).step
      (.finish (i := 0) rfl (by decide))
  exact ⟨_, h, (calls_due h 0).2.1 (setWalk_self ..)⟩

end Dispatches

end

end SporeClient.Client
