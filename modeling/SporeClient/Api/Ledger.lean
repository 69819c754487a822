/-
  Api/Ledger.lean --- runs of the functions on message objects.

  WHAT THIS FILE IS FOR.  `Ledger` is what the handles are for: each names a message, a
  value; a text that was kept is the one of a message the handle named at some time; and a
  send is a send of the message that the handle names now.  The library has objects at
  addresses, which are used again, and a text in each object that the setters do not touch.
  In every run the library is the ledger (`Program.refines_ledger`): calls return what the
  ledger says, and the only calls that go wrong are those on handles that name nothing.

  So what a program sends is a list of sends of messages, each as it was at its time
  (`Program.Refines.sends`), and for complete sends of plain messages this is what another
  client gets (`Program.delivers`).
-/
import SporeClient.Api.Objects
import SporeClient.Foundation.Runs

set_option autoImplicit false

namespace SporeClient.Api

open SporeClient.Foundation
open SporeClient.Client
open SporeClient.Parser
open SporeClient.Wire

/-! ## The ledger -/

/-- What a handle names: a message, and the message whose text is kept. -/
structure Entry where
  message : Outgoing
  kept : Option Outgoing
  deriving DecidableEq

/-- What the handles name, and the client. -/
structure Ledger where
  entries : Ptr → Option Entry
  client : Connection

/-- The send of a message of a class, `none` for a null handle. -/
def MessageKind.sendCall : MessageKind → Option Outgoing → SendCall
  | _, some m => m.call
  | .request, none => .send none
  | .response, none => .sendResponse none
  | .responseError, none => .sendResponseError none
  | .witness, none => .sendWitness none
  | .publish, none => .sendPublish none

namespace Ledger

/-- No handle names anything. -/
def start (client : Connection) : Ledger := ⟨fun _ => none, client⟩

/-- A new handle. -/
def bind (a : Ledger) (h : Ptr) (m : Outgoing) : Ledger :=
  { a with entries := Function.update a.entries h (some ⟨m, none⟩) }

/-- A change of what one handle names. -/
def change (a : Ledger) (h : Ptr) (f : Entry → Entry) : Ledger :=
  { a with entries := Function.update a.entries h ((a.entries h).map f) }

/-- A change of the message of one handle. -/
def edit (a : Ledger) (h : Ptr) (f : Outgoing → Outgoing) : Ledger :=
  a.change h fun e => { e with message := f e.message }

/-- The text of what the handle names is kept. -/
def keep (a : Ledger) (h : Ptr) : Ledger := a.change h fun e => { e with kept := some e.message }

/-- The message a handle names. -/
def message? (a : Ledger) (h : Ptr) : Option Outgoing := (a.entries h).map Entry.message

/-- The send that a call on a handle is. -/
def attempt (a : Ledger) (kind : MessageKind) (h : Ptr) (first second : WriteOutcome) :
    SendAttempt := ⟨kind.sendCall (a.message? h), first, second⟩

/-- The send that a call is, when it is one. -/
def sendOf (a : Ledger) : ApiCall → List SendAttempt
  | .send kind h first second => [a.attempt kind h first second]
  | _ => []

/-- What a call that returns this makes of the ledger. -/
def act (a : Ledger) : ApiCall → ApiResult → Ledger
  | .create kind, .handle h => a.bind h kind.empty
  | .createFromRaw kind raw, .handle h => (raw.bind kind.ofRaw).elim a (a.bind h)
  | .destroy _ h, _ => { a with entries := Function.update a.entries h none }
  | .set field h v, _ => v.elim a fun v => a.edit h (field.set (cstr v))
  | .addArg _ h (some key) (some value), _ =>
      a.edit h (update (·.addArg (cstr key) (cstr value)))
  | .addFlag _ h (some flag), _ => a.edit h (update (·.addFlag (cstr flag)))
  | .serialize _ h, _ => a.keep h
  | .send kind h first second, _ =>
      let b := if a.client.isConnected then a.keep h else a
      { b with client :=
          { a.client with toSender := a.client.toSender.attempt (a.attempt kind h first second) } }
  | .connect o, _ => { a with client := a.client.connect o }
  | .disconnect, _ => { a with client := a.client.disconnect }
  | _, _ => a

/-- The ledger after calls. -/
def after (a : Ledger) (l : List (ApiCall × ApiResult)) : Ledger :=
  l.foldl (fun a x => a.act x.1 x.2) a

/-- The handle is null, or names a message of the class. -/
def Names (a : Ledger) (kind : MessageKind) (h : Ptr) : Prop :=
  h = 0 ∨ ∃ m, a.message? h = some m ∧ kindOf m = kind

/-- The calls that do not go wrong: a handle that is used names something. -/
def Enabled (a : Ledger) : ApiCall → Prop
  | .create _ | .createFromRaw _ _ | .connect _ | .disconnect => True
  | .set field h v => v = none ∨ a.Names field.kind h
  | .addArg kind h key value => key = none ∨ value = none ∨ a.Names kind h
  | .addFlag kind h flag => flag = none ∨ a.Names kind h
  | .getArg kind h key => key = none ∨ a.Names kind h
  | .hasFlag kind h flag => flag = none ∨ a.Names kind h
  | .get field h => a.Names field.kind h
  | .send kind h _ _ => a.client.isConnected = false ∨ a.Names kind h
  | .destroy kind h | .getArgIds kind h _ | .getFlags kind h _ | .getRaw kind h
  | .serialize kind h | .getSerialized kind h => a.Names kind h

/-- What a call returns. -/
def Answers (a : Ledger) : ApiCall → ApiResult → Prop
  | .create _, r => ∃ h, h ≠ 0 ∧ a.entries h = none ∧ r = .handle h
  | .createFromRaw kind raw, r =>
      match raw.bind kind.ofRaw with
      | none => r = .handle 0
      | some _ => ∃ h, h ≠ 0 ∧ a.entries h = none ∧ r = .handle h
  | .get field h, r => r = .text ((a.message? h).bind fun m => sv (field.get m))
  | .getArg _ h key, r =>
      r = .text (key.bind fun key =>
        (a.message? h).bind fun m => sv ((messageOf m).getArg (cstr key)))
  | .hasFlag _ h flag, r =>
      r = .truth (flag.elim false fun flag =>
        (a.message? h).elim false fun m => (messageOf m).hasFlag (cstr flag))
  | .getArgIds _ h capacity, r =>
      r = .texts ((a.message? h).elim ([], 0) fun m => copyArgIds (messageOf m) capacity)
  | .getFlags _ h capacity, r =>
      r = .texts ((a.message? h).elim ([], 0) fun m => copyFlags (messageOf m) capacity)
  | .getRaw _ h, r => r = .raw ((a.message? h).elim [] fun m => (messageOf m).raw)
  | .getSerialized _ h, r =>
      r = .text ((a.entries h).bind fun e => e.kept.map Outgoing.serialize)
  | _, r => r = .nothing

/-- The sends among calls, each of the message its handle names at its time. -/
def sends (a : Ledger) : List (ApiCall × ApiResult) → List SendAttempt
  | [] => []
  | x :: l => a.sendOf x.1 ++ (a.act x.1 x.2).sends l

end Ledger

/-! ## The library is the ledger -/

/-- The object of an entry. -/
def Entry.object (e : Entry) : MessageObject := ⟨e.message, e.kept.elim [] Outgoing.serialize⟩

/-- What a getter of the message returns. -/
theorem Ledger.elim_message {β : Type} (a : Ledger) (h : Ptr) (null : β) (f : Outgoing → β) :
    ((a.entries h).elim null fun e => f e.object.message) = (a.message? h).elim null f := by
  rw [Ledger.message?]
  cases a.entries h <;> rfl

theorem Ledger.bind_message {β : Type} (a : Ledger) (h : Ptr) (f : Outgoing → Option β) :
    ((a.entries h).elim none fun e => f e.object.message) = (a.message? h).bind f := by
  rw [Ledger.message?]
  cases a.entries h <;> rfl

/-- The objects are those the handles name, and each has the text that was kept. -/
structure Program.Refines (P : Program) (a : Ledger) : Prop where
  client : P.client = a.client
  distinct : P.objects.Distinct
  objects : ∀ h, P.objects.read h = (a.entries h).map Entry.object

namespace Program

theorem start_refines (client : Connection) :
    (⟨{}, client⟩ : Program).Refines (Ledger.start client) :=
  ⟨rfl, Heap.distinct_empty, fun _ => rfl⟩

variable {A : Allocator MessageObject} {P : Program} {a : Ledger} {kind : MessageKind} {h : Ptr}

theorem Refines.null (hP : P.Refines a) : a.entries 0 = none := by
  have h := hP.objects 0
  rw [hP.distinct.not_null] at h
  exact Option.map_eq_none_iff.mp h.symm

/-- An object that is there. -/
theorem Refines.objectAt_eq (hP : P.Refines a) {m : Outgoing} (hm : a.message? h = some m)
    (hkind : kindOf m = kind) :
    ∃ e, a.entries h = some e ∧ e.message = m ∧ P.objects.objectAt kind h = some e.object := by
  obtain ⟨e, he, rfl⟩ := Option.map_eq_some_iff.mp hm
  refine ⟨e, he, rfl, ?_⟩
  rw [Objects.objectAt, hP.objects, he]
  simp [Entry.object, hkind]

/-- A handle can be used iff it is null or names a message of the class. -/
theorem Refines.objectAt_isSome_iff (hP : P.Refines a) :
    (h = 0 ∨ (P.objects.objectAt kind h).isSome) ↔ a.Names kind h := by
  refine or_congr_right ⟨fun hsome => ?_, fun ⟨m, hm, hkind⟩ => ?_⟩
  · obtain ⟨o, ho⟩ := Option.isSome_iff_exists.mp hsome
    rw [Objects.objectAt, hP.objects, Option.filter_eq_some_iff] at ho
    obtain ⟨ho, hkind⟩ := ho
    obtain ⟨e, he, rfl⟩ := Option.map_eq_some_iff.mp ho
    have hkind : kindOf e.message = kind := of_decide_eq_true hkind
    exact ⟨e.message, by rw [Ledger.message?, he, Option.map_some], hkind⟩
  · obtain ⟨e, _, _, hobject⟩ := hP.objectAt_eq hm hkind
    rw [hobject, Option.isSome_some]

/-- A new object. -/
theorem Refines.bind (hP : P.Refines a) (A : Allocator MessageObject) (m : Outgoing) :
    ∃ h, h ≠ 0 ∧ a.entries h = none ∧ (P.objects.new A ⟨m, []⟩).2 = h ∧
      ({ P with objects := (P.objects.new A ⟨m, []⟩).1 } : Program).Refines (a.bind h m) := by
  obtain ⟨hne, hfresh⟩ := A.fresh P.objects
  have hnone : a.entries (A.address P.objects) = none := by
    rw [hP.objects] at hfresh
    exact Option.map_eq_none_iff.mp hfresh
  refine ⟨A.address P.objects, hne, hnone, rfl, hP.client, hP.distinct.new A _, fun q => ?_⟩
  change (P.objects.new A ⟨m, []⟩).1.read q = _
  rw [Heap.read_new, hP.objects]
  by_cases hq : q = A.address P.objects
  · subst hq
    simp [Ledger.bind, Heap.new, Entry.object]
  · have hq' : q ≠ (P.objects.new A ⟨m, []⟩).2 := hq
    rw [if_neg hq']
    simp [Ledger.bind, hq]

/-- An object that is written. -/
theorem Refines.write (hP : P.Refines a) {e : Entry} (he : a.entries h = some e)
    (f : Entry → Entry) :
    ∃ objects, P.objects.write h (f e).object = some objects ∧
      ({ P with objects := objects } : Program).Refines (a.change h f) := by
  have hread : P.objects.read h = some e.object := by rw [hP.objects, he, Option.map_some]
  obtain ⟨objects, hwrite, hdistinct, hobjects⟩ := hP.distinct.write hread (f e).object
  refine ⟨objects, hwrite, hP.client, hdistinct, fun q => ?_⟩
  change objects.read q = _
  rw [hobjects, hP.objects]
  by_cases hq : q = h
  · subst hq
    simp [Ledger.change, he]
  · simp [Ledger.change, hq]

/-- Nothing is changed through the null handle. -/
theorem Refines.change_null (hP : P.Refines a) (f : Entry → Entry) : a.change 0 f = a := by
  rw [Ledger.change, hP.null, Option.map_none, ← hP.null, Function.update_eq_self]

/-! ## Calls -/

theorem Refines.kind_eq (hP : P.Refines a) (hnames : a.Names kind h) :
    ∀ m, a.message? h = some m → kindOf m = kind := by
  intro m hm
  rcases hnames with rfl | ⟨m', hm', hkind⟩
  · simp [Ledger.message?, hP.null] at hm
  · rwa [Option.some.inj (hm.symm.trans hm')]

/-- A call is as the ledger says: it returns what the ledger says when it is enabled, and goes
wrong when it is not. -/
structure Agrees (A : Allocator MessageObject) (P : Program) (a : Ledger) (x : ApiCall) : Prop where
  returns : a.Enabled x → ∃ Q r, P.call A x = some (Q, r) ∧ Q.Refines (a.act x r) ∧ a.Answers x r
  wrong : ¬a.Enabled x → P.call A x = none

theorem Refines.objectAt_none (hP : P.Refines a) (hnames : ¬a.Names kind h) :
    h ≠ 0 ∧ P.objects.objectAt kind h = none := by
  rw [← hP.objectAt_isSome_iff, not_or] at hnames
  exact ⟨hnames.1, Option.not_isSome_iff_eq_none.mp hnames.2⟩

/-- A handle that can be used is null, or its object is there. -/
theorem Refines.names_cases (hP : P.Refines a) (hnames : a.Names kind h) :
    (h = 0 ∧ a.entries h = none) ∨
      ∃ e, h ≠ 0 ∧ a.entries h = some e ∧ kindOf e.message = kind ∧
        P.objects.read h = some e.object ∧ P.objects.objectAt kind h = some e.object := by
  rcases hnames with rfl | ⟨m, hm, hkind⟩
  · exact Or.inl ⟨rfl, hP.null⟩
  · obtain ⟨e, he, rfl, hobject⟩ := hP.objectAt_eq hm hkind
    have hne : h ≠ 0 := by
      rintro rfl
      simp [hP.null] at he
    exact Or.inr ⟨e, hne, he, hkind, by rw [hP.objects, he, Option.map_some], hobject⟩

/-- A change of an object that is a change of its entry. -/
theorem Refines.modify (hP : P.Refines a) (kind : MessageKind) (h : Ptr) (f : Entry → Entry)
    (g : MessageObject → MessageObject) (hg : ∀ e : Entry, g e.object = (f e).object) :
    (a.Names kind h →
        ∃ objects, (if h = 0 then some P.objects
            else (P.objects.objectAt kind h).bind fun o => P.objects.write h (g o)) = some objects ∧
          ({ P with objects := objects } : Program).Refines (a.change h f)) ∧
      (¬a.Names kind h → (if h = 0 then some P.objects
        else (P.objects.objectAt kind h).bind fun o => P.objects.write h (g o)) = none) := by
  refine ⟨fun hnames => ?_, fun hnames => ?_⟩
  · rcases hP.names_cases hnames with ⟨rfl, _⟩ | ⟨e, hne, he, _, _, hobject⟩
    · exact ⟨P.objects, if_pos rfl, by rw [hP.change_null]; exact hP⟩
    · obtain ⟨objects, hwrite, hrefines⟩ := hP.write he f
      refine ⟨objects, ?_, hrefines⟩
      rw [if_neg hne, hobject, Option.bind_some, hg, hwrite]
  · obtain ⟨hne, hnone⟩ := hP.objectAt_none hnames
    rw [if_neg hne, hnone, Option.bind_none]

theorem Refines.change (hP : P.Refines a) (kind : MessageKind) (h : Ptr)
    (f : Outgoing → Outgoing) :
    (a.Names kind h → ∃ objects, P.objects.change kind h f = some objects ∧
        ({ P with objects := objects } : Program).Refines (a.edit h f)) ∧
      (¬a.Names kind h → P.objects.change kind h f = none) :=
  hP.modify kind h _ (fun o => { o with message := f o.message }) fun _ => rfl

theorem Refines.serialize (hP : P.Refines a) (kind : MessageKind) (h : Ptr) :
    (a.Names kind h → ∃ objects, P.objects.serialize kind h = some objects ∧
        ({ P with objects := objects } : Program).Refines (a.keep h)) ∧
      (¬a.Names kind h → P.objects.serialize kind h = none) :=
  hP.modify kind h _ (fun o => { o with serialized := o.message.serialize }) fun _ => rfl

/-- What a getter sees. -/
theorem Refines.look {β : Type} (hP : P.Refines a) (kind : MessageKind) (h : Ptr) (null : β)
    (f : MessageObject → β) :
    (a.Names kind h → P.objects.look kind h null f =
        some ((a.entries h).elim null fun e => f e.object)) ∧
      (¬a.Names kind h → P.objects.look kind h null f = none) := by
  refine ⟨fun hnames => ?_, fun hnames => ?_⟩
  · rcases hP.names_cases hnames with ⟨rfl, hnone⟩ | ⟨e, hne, he, _, _, hobject⟩
    · rw [Objects.look, if_pos rfl, hnone, Option.elim_none]
    · rw [Objects.look, if_neg hne, hobject, he, Option.map_some, Option.elim_some]
  · obtain ⟨hne, hnone⟩ := hP.objectAt_none hnames
    rw [Objects.look, if_neg hne, hnone, Option.map_none]

theorem Refines.destroy (hP : P.Refines a) (kind : MessageKind) (h : Ptr) :
    (a.Names kind h → ∃ objects, P.objects.destroy kind h = some objects ∧
        ({ P with objects := objects } : Program).Refines
          { a with entries := Function.update a.entries h none }) ∧
      (¬a.Names kind h → P.objects.destroy kind h = none) := by
  refine ⟨fun hnames => ?_, fun hnames => ?_⟩
  · rcases hP.names_cases hnames with ⟨rfl, hnone⟩ | ⟨e, hne, _, _, hread, hobject⟩
    · refine ⟨P.objects, if_pos rfl, ?_⟩
      rw [← hnone, Function.update_eq_self]
      exact hP
    · obtain ⟨objects, hremove, hdistinct, hobjects⟩ := hP.distinct.remove hread
      refine ⟨objects, ?_, hP.client, hdistinct, fun q => ?_⟩
      · rw [Objects.destroy, if_neg hne, hobject]
        exact hremove
      · change objects.read q = _
        rw [hobjects, hP.objects]
        by_cases hq : q = h
        · simp [hq]
        · simp [hq]
  · obtain ⟨hne, hnone⟩ := hP.objectAt_none hnames
    rw [Objects.destroy, if_neg hne, hnone, Option.bind_none]

/-! ## Sends -/

/-- A send of a message of the class, or of a null handle, is one of its text. -/
theorem attempt_sendCall (s : Sender) {m : Option Outgoing}
    (hm : ∀ m', m = some m' → kindOf m' = kind) (first second : WriteOutcome) :
    s.attempt ⟨kind.sendCall m, first, second⟩ =
      s.sendText kind.argument (m.map Outgoing.serialize) first second := by
  cases m with
  | none => cases kind <;> rfl
  | some m =>
      obtain rfl := hm m rfl
      cases m <;> rfl

theorem sendText_null {s : Sender} (hs : s.client.connected = true) (arg : String)
    (first second : WriteOutcome) :
    s.sendText arg none first second =
      { s with client := s.client.error "NullArgument" (arg ++ " is null") } := by
  simp [Sender.sendText, hs, ClientState.error]

theorem sendText_some {s : Sender} (hs : s.client.connected = true) (arg : String) {text : Bytes}
    (htext : text ≠ []) (first second : WriteOutcome) :
    s.sendText arg (some text) first second =
      ({ s with client := s.client.error "" "" } : Sender).writeRaw (cstr text) first second := by
  simp [Sender.sendText, hs, htext, ClientState.error]

/-- Without connection it does not matter what the handle names. -/
theorem attempt_not_connected {s : Sender} (hs : s.client.connected = false) (kind : MessageKind)
    (m : Option Outgoing) (first second : WriteOutcome) :
    s.attempt ⟨kind.sendCall m, first, second⟩ =
      { s with client := s.client.error "NotConnected" "client is not connected" } := by
  have htext : ∀ arg text, s.sendText arg text first second =
      { s with client := s.client.error "NotConnected" "client is not connected" } := by
    intro arg text
    simp [Sender.sendText, hs, ClientState.error]
  cases m with
  | none => rw [attempt_sendCall s (by simp), htext]
  | some m =>
      change s.attempt ⟨(kindOf m).sendCall (some m), first, second⟩ = _
      rw [attempt_sendCall s (by simp), htext]

theorem send_not_connected (hc : P.client.isConnected = false) (kind : MessageKind) (h : Ptr)
    (first second : WriteOutcome) :
    P.send kind h first second =
      some { P with client := P.client.error "NotConnected" "client is not connected" } := by
  have hc' : P.client.clearError.isConnected = false := hc
  simp [send, hc']
  rfl

theorem send_null (hc : P.client.isConnected = true) (kind : MessageKind)
    (first second : WriteOutcome) :
    P.send kind 0 first second =
      some { P with client := P.client.error "NullArgument" (kind.argument ++ " is null") } := by
  have hc' : P.client.clearError.isConnected = true := hc
  simp [send, hc']
  rfl

/-- The handle of an object: its text is kept, and written. -/
theorem send_object (hc : P.client.isConnected = true) (hne : h ≠ 0) (first second : WriteOutcome) :
    P.send kind h first second =
      (P.objects.serialize kind h).bind fun objects =>
        (objects.getSerialized kind h).map fun wire =>
          { objects := objects
            client := { P.client with
              toSender := wire.elim P.client.clearError.toSender fun wire =>
                P.client.clearError.toSender.writeRaw (cstr wire) first second } } := by
  have hc' : P.client.clearError.isConnected = true := hc
  simp only [send, hc', Bool.not_true, Bool.false_eq_true, if_false, hne]
  cases P.objects.serialize kind h with
  | none => rfl
  | some objects =>
      cases hwire : objects.getSerialized kind h with
      | none => simp [hwire]
      | some wire =>
          cases wire with
          | none =>
              simp [hwire]
              rfl
          | some wire =>
              simp [hwire]
              exact ⟨rfl, rfl, rfl, rfl, rfl⟩

/-- What a send makes of the client in the ledger. -/
theorem Refines.act_send (hP : P.Refines a) (hnames : a.Names kind h)
    (first second : WriteOutcome) (r : ApiResult) :
    (a.act (.send kind h first second) r).client = { a.client with
      toSender := a.client.toSender.sendText kind.argument
        ((a.message? h).map Outgoing.serialize) first second } := by
  rw [← attempt_sendCall a.client.toSender (hP.kind_eq hnames)]
  rfl

/-- A send of a message that is there: its text is kept, and written. -/
theorem Refines.send_entry (hP : P.Refines a) (hc : a.client.isConnected = true) {e : Entry}
    (hne : h ≠ 0) (he : a.entries h = some e) (hkind : kindOf e.message = kind)
    (first second : WriteOutcome) (r : ApiResult) :
    ∃ Q, P.send kind h first second = some Q ∧
      Q.Refines (a.act (.send kind h first second) r) := by
  have hc' : P.client.isConnected = true := by rw [hP.client, hc]
  have hmessage : a.message? h = some e.message := by rw [Ledger.message?, he, Option.map_some]
  have hnames : a.Names kind h := Or.inr ⟨e.message, hmessage, hkind⟩
  obtain ⟨objects, hserialize, hkeep⟩ := (hP.serialize kind h).1 hnames
  have hnames' : (a.keep h).Names kind h :=
    Or.inr ⟨e.message, by simp [Ledger.keep, Ledger.change, Ledger.message?, he], hkind⟩
  have hwire : objects.getSerialized kind h = some (some e.message.serialize) := by
    rw [Objects.getSerialized, (hkeep.look kind h none _).1 hnames']
    simp [Ledger.keep, Ledger.change, he, Entry.object, Wire.getSerialized, sv,
      e.message.serialize_ne_nil]
  have hsend : P.send kind h first second = _ := send_object hc' hne first second
  rw [hserialize, Option.bind_some, hwire, Option.map_some] at hsend
  refine ⟨_, hsend, ?_, hkeep.distinct, by simpa [Ledger.act, hc] using hkeep.objects⟩
  rw [hP.act_send hnames, hmessage, Option.map_some,
    sendText_some hc _ e.message.serialize_ne_nil, hP.client]
  rfl

theorem Refines.send (hP : P.Refines a) (kind : MessageKind) (h : Ptr)
    (first second : WriteOutcome) (r : ApiResult) :
    (a.Enabled (.send kind h first second) → ∃ Q, P.send kind h first second = some Q ∧
        Q.Refines (a.act (.send kind h first second) r)) ∧
      (¬a.Enabled (.send kind h first second) → P.send kind h first second = none) := by
  cases hc : a.client.isConnected with
  | false =>
      have hc' : P.client.isConnected = false := by rw [hP.client, hc]
      refine ⟨fun _ => ⟨_, send_not_connected hc' kind h first second, ?_⟩,
        fun hnot => absurd (Or.inl hc) hnot⟩
      refine ⟨?_, hP.distinct, by simpa [Ledger.act, hc] using hP.objects⟩
      simp only [Ledger.act, Ledger.attempt, hP.client,
        attempt_not_connected (s := a.client.toSender) hc]
      rfl
  | true =>
      have hc' : P.client.isConnected = true := by rw [hP.client, hc]
      refine ⟨fun henabled => ?_, fun hnot => ?_⟩
      · have hnames : a.Names kind h := henabled.resolve_left (by simp [hc])
        rcases hP.names_cases hnames with ⟨rfl, hnone⟩ | ⟨e, hne, he, hkind, _, _⟩
        · refine ⟨_, send_null hc' kind first second, ?_, hP.distinct, ?_⟩
          · rw [hP.act_send hnames, Ledger.message?, hnone, Option.map_none, Option.map_none,
              sendText_null hc, hP.client]
            rfl
          · simpa [Ledger.act, hc, Ledger.keep, hP.change_null] using hP.objects
        · exact hP.send_entry hc hne he hkind first second r
      · have hnames : ¬a.Names kind h := fun hnames => hnot (Or.inr hnames)
        obtain ⟨hne, _⟩ := hP.objectAt_none hnames
        rw [send_object hc' hne, (hP.serialize kind h).2 hnames, Option.bind_none]

/-! ## Every call -/

/-- A call that uses nothing of the program. -/
theorem agrees_of_same (hP : P.Refines a) {x : ApiCall} {r : ApiResult}
    (hcall : P.call A x = some (P, r)) (henabled : a.Enabled x) (hact : a.act x r = a)
    (hanswers : a.Answers x r) : Agrees A P a x :=
  ⟨fun _ => ⟨P, r, hcall, by rw [hact]; exact hP, hanswers⟩, fun hnot => absurd henabled hnot⟩

/-- A call that changes the objects only. -/
theorem agrees_of_objects {x : ApiCall} {objects : Option Objects}
    (hcall : P.call A x = P.onObjects objects) (henabled : a.Enabled x ↔ a.Names kind h)
    (hspec : (a.Names kind h → ∃ M, objects = some M ∧
        ({ P with objects := M } : Program).Refines (a.act x .nothing)) ∧
      (¬a.Names kind h → objects = none))
    (hanswers : a.Answers x .nothing) : Agrees A P a x where
  returns := fun hx => by
    obtain ⟨M, rfl, hrefines⟩ := hspec.1 (henabled.mp hx)
    exact ⟨_, _, hcall, hrefines, hanswers⟩
  wrong := fun hnot => by
    rw [hcall, hspec.2 fun hnames => hnot (henabled.mpr hnames)]
    rfl

/-- A call that looks at an object. -/
theorem agrees_of_look (hP : P.Refines a) {β : Type} {x : ApiCall} {null : β}
    {f : MessageObject → β} {result : β → ApiResult}
    (hcall : P.call A x = (P.objects.look kind h null f).map fun v => (P, result v))
    (henabled : a.Enabled x ↔ a.Names kind h) (hact : ∀ r, a.act x r = a)
    (hanswers : a.Answers x (result ((a.entries h).elim null fun e => f e.object))) :
    Agrees A P a x where
  returns := fun hx => by
    refine ⟨P, _, ?_, by rw [hact]; exact hP, hanswers⟩
    rw [hcall, (hP.look kind h null f).1 (henabled.mp hx), Option.map_some]
  wrong := fun hnot => by
    rw [hcall, (hP.look kind h null f).2 fun hnames => hnot (henabled.mpr hnames), Option.map_none]

/-- A call that changes the client only. -/
theorem agrees_of_client (hP : P.Refines a) {x : ApiCall} {client client' : Connection}
    (hcall : P.call A x = some ({ P with client := client }, .nothing)) (henabled : a.Enabled x)
    (hact : a.act x .nothing = { a with client := client' }) (hclient : client = client')
    (hanswers : a.Answers x .nothing) : Agrees A P a x :=
  ⟨fun _ => ⟨_, _, hcall, by rw [hact]; exact ⟨hclient, hP.distinct, hP.objects⟩, hanswers⟩,
    fun hnot => absurd henabled hnot⟩

theorem Refines.create (hP : P.Refines a) (A : Allocator MessageObject) (kind : MessageKind) :
    Agrees A P a (.create kind) := by
  refine ⟨fun _ => ?_, fun hnot => absurd trivial hnot⟩
  obtain ⟨h, hne, hnone, hhandle, hrefines⟩ := hP.bind A kind.empty
  refine ⟨_, _, rfl, ?_, h, hne, hnone, congrArg ApiResult.handle hhandle⟩
  rw [Objects.create, hhandle]
  exact hrefines

theorem Refines.createFromRaw (hP : P.Refines a) (A : Allocator MessageObject)
    (kind : MessageKind) (raw : Option Bytes) : Agrees A P a (.createFromRaw kind raw) := by
  refine ⟨fun _ => ?_, fun hnot => absurd trivial hnot⟩
  cases hraw : raw.bind kind.ofRaw with
  | none =>
      refine ⟨_, _, rfl, ?_, ?_⟩
      · simpa [Objects.createFromRaw, Ledger.act, hraw] using hP
      · simp [Ledger.Answers, Objects.createFromRaw, hraw]
  | some m =>
      obtain ⟨h, hne, hnone, hhandle, hrefines⟩ := hP.bind A m
      refine ⟨_, _, rfl, ?_, ?_⟩
      · simpa [Objects.createFromRaw, Ledger.act, hraw, hhandle] using hrefines
      · simp [Ledger.Answers, Objects.createFromRaw, hraw, hhandle, hne, hnone]

/-- **Every call is as the ledger says.** -/
theorem Refines.call (hP : P.Refines a) (A : Allocator MessageObject) (x : ApiCall) :
    Agrees A P a x := by
  cases x with
  | create kind => exact hP.create A kind
  | createFromRaw kind raw => exact hP.createFromRaw A kind raw
  | destroy kind h => exact agrees_of_objects rfl Iff.rfl (hP.destroy kind h) rfl
  | set field h v =>
      cases v with
      | none => exact agrees_of_same hP rfl (Or.inl rfl) rfl rfl
      | some v =>
          exact agrees_of_objects rfl (by simp [Ledger.Enabled])
            (hP.change field.kind h (field.set (cstr v))) rfl
  | addArg kind h key value =>
      rcases key with _ | key
      · exact agrees_of_same hP rfl (Or.inl rfl) rfl rfl
      · rcases value with _ | value
        · exact agrees_of_same hP rfl (Or.inr (Or.inl rfl)) rfl rfl
        · exact agrees_of_objects rfl (by simp [Ledger.Enabled])
            (hP.change kind h (update (·.addArg (cstr key) (cstr value)))) rfl
  | addFlag kind h flag =>
      cases flag with
      | none => exact agrees_of_same hP rfl (Or.inl rfl) rfl rfl
      | some flag =>
          exact agrees_of_objects rfl (by simp [Ledger.Enabled])
            (hP.change kind h (update (·.addFlag (cstr flag)))) rfl
  | get field h =>
      exact agrees_of_look hP rfl Iff.rfl (fun _ => rfl)
        (congrArg ApiResult.text (a.bind_message h fun m => sv (field.get m)))
  | getArg kind h key =>
      cases key with
      | none => exact agrees_of_same hP rfl (Or.inl rfl) rfl rfl
      | some key =>
          exact agrees_of_look hP rfl (by simp [Ledger.Enabled]) (fun _ => rfl)
            (congrArg ApiResult.text
              (a.bind_message h fun m => sv ((messageOf m).getArg (cstr key))))
  | hasFlag kind h flag =>
      cases flag with
      | none => exact agrees_of_same hP rfl (Or.inl rfl) rfl rfl
      | some flag =>
          exact agrees_of_look hP rfl (by simp [Ledger.Enabled]) (fun _ => rfl)
            (congrArg ApiResult.truth
              (a.elim_message h false fun m => (messageOf m).hasFlag (cstr flag)))
  | getArgIds kind h capacity =>
      exact agrees_of_look hP rfl Iff.rfl (fun _ => rfl)
        (congrArg ApiResult.texts
          (a.elim_message h ([], 0) fun m => copyArgIds (messageOf m) capacity))
  | getFlags kind h capacity =>
      exact agrees_of_look hP rfl Iff.rfl (fun _ => rfl)
        (congrArg ApiResult.texts
          (a.elim_message h ([], 0) fun m => copyFlags (messageOf m) capacity))
  | getRaw kind h =>
      exact agrees_of_look hP rfl Iff.rfl (fun _ => rfl)
        (congrArg ApiResult.raw (a.elim_message h [] fun m => (messageOf m).raw))
  | serialize kind h => exact agrees_of_objects rfl Iff.rfl (hP.serialize kind h) rfl
  | getSerialized kind h =>
      refine agrees_of_look hP rfl Iff.rfl (fun _ => rfl) ?_
      cases he : a.entries h with
      | none => simp [Ledger.Answers, he]
      | some e =>
          cases hkept : e.kept with
          | none => simp [Ledger.Answers, he, hkept, Entry.object, Wire.getSerialized, sv]
          | some m =>
              simp [Ledger.Answers, he, hkept, Entry.object, Wire.getSerialized, sv,
                m.serialize_ne_nil]
  | send kind h first second =>
      refine ⟨fun hx => ?_, fun hnot => ?_⟩
      · obtain ⟨Q, hsend, hrefines⟩ := (hP.send kind h first second .nothing).1 hx
        exact ⟨Q, .nothing, by rw [Program.call, hsend, Option.map_some], hrefines, rfl⟩
      · rw [Program.call, (hP.send kind h first second .nothing).2 hnot, Option.map_none]
  | connect o =>
      exact agrees_of_client hP rfl trivial rfl (congrArg (Connection.connect · o) hP.client) rfl
  | disconnect =>
      exact agrees_of_client hP rfl trivial rfl (congrArg Connection.disconnect hP.client) rfl

/-! ## Runs -/

theorem Refines.after (hP : P.Refines a) {l : List (ApiCall × ApiResult)} {Q : Program}
    (h : Run (Step A) P l Q) : Q.Refines (a.after l) := by
  induction h with
  | start => exact hP
  | @step l s t x _ hstep ih =>
      have hagrees := ih.call A x.1
      have henabled : (a.after l).Enabled x.1 := by
        by_contra hnot
        rw [Step, hagrees.wrong hnot] at hstep
        simp at hstep
      obtain ⟨Q, r, hcall, hrefines, _⟩ := hagrees.returns henabled
      obtain ⟨rfl, rfl⟩ := Prod.mk.inj (Option.some.inj (hcall.symm.trans hstep))
      rw [Ledger.after, List.foldl_append]
      exact hrefines

/-- **The library is the ledger.**  After any calls, wherever new objects are put, the objects
are what the handles name; a call returns what the ledger says, and it goes wrong iff it uses a
handle that names nothing, or a message of another class. -/
theorem refines_ledger {client : Connection} {l : List (ApiCall × ApiResult)}
    (h : Run (Step A) ⟨{}, client⟩ l P) :
    P.Refines ((Ledger.start client).after l) ∧
      ∀ x, (P.call A x = none ↔ ¬((Ledger.start client).after l).Enabled x) ∧
        ∀ Q r, P.call A x = some (Q, r) → ((Ledger.start client).after l).Answers x r := by
  have hrefines := (start_refines client).after h
  refine ⟨hrefines, fun x => ⟨⟨fun hnone henabled => ?_, (hrefines.call A x).wrong⟩,
    fun Q r hcall => ?_⟩⟩
  · obtain ⟨Q, r, hcall, _⟩ := (hrefines.call A x).returns henabled
    simp [hnone] at hcall
  · have henabled : ((Ledger.start client).after l).Enabled x := by
      by_contra hnot
      simp [(hrefines.call A x).wrong hnot] at hcall
    obtain ⟨Q', r', hcall', _, hanswers⟩ := (hrefines.call A x).returns henabled
    obtain ⟨rfl, rfl⟩ := Prod.mk.inj (Option.some.inj (hcall.symm.trans hcall'))
    exact hanswers

/-- The library is the ledger, behind calls that use an address twice. -/
theorem refines_ledger_one : ∃ P : Program,
    P.Refines ((Ledger.start (Connection.new .linux ['n'])).after (firstCalls ++ laterCalls)) := by
  obtain ⟨P, hlater⟩ := run_laterCalls
  exact ⟨P, (refines_ledger (run_firstCalls.append hlater)).1⟩

end Program

/-! ## What is sent -/

/-- The call neither connects nor disconnects. -/
def ApiCall.KeepsConnection (x : ApiCall) : Prop := (∀ o, x ≠ .connect o) ∧ x ≠ .disconnect

/-- A call sends what it is a send of. -/
theorem Ledger.act_client (a : Ledger) {x : ApiCall} (hx : x.KeepsConnection) (r : ApiResult) :
    (a.act x r).client = { a.client with
      toSender := (a.sendOf x).foldl Sender.attempt a.client.toSender } := by
  cases x with
  | connect o => exact absurd rfl (hx.1 o)
  | disconnect => exact absurd rfl hx.2
  | send kind h first second => rfl
  | create kind => cases r <;> rfl
  | createFromRaw kind raw =>
      cases r with
      | handle h =>
          cases hraw : raw.bind kind.ofRaw <;>
            simp [Ledger.act, hraw, Ledger.sendOf, Ledger.bind]
      | _ => rfl
  | set field h v => cases v <;> rfl
  | addArg kind h key value => cases key <;> cases value <;> rfl
  | addFlag kind h flag => cases flag <;> rfl
  | _ => rfl

theorem Ledger.after_client {a : Ledger} {l : List (ApiCall × ApiResult)}
    (hkeep : ∀ x ∈ l, x.1.KeepsConnection) :
    (a.after l).client = { a.client with
      toSender := (a.sends l).foldl Sender.attempt a.client.toSender } := by
  induction l generalizing a with
  | nil => rfl
  | cons x l ih =>
      obtain ⟨hx, hl⟩ := List.forall_mem_cons.mp hkeep
      have hafter : a.after (x :: l) = (a.act x.1 x.2).after l := rfl
      rw [hafter, ih hl, a.act_client hx, Ledger.sends, List.foldl_append]

/-- **What a program sends are messages**: each send is one of the message its handle names at
its time, whatever is done to the objects before and behind it. -/
theorem Program.Refines.sends {A : Allocator MessageObject} {P Q : Program} {a : Ledger}
    (hP : P.Refines a) {l : List (ApiCall × ApiResult)} (h : Run (Step A) P l Q)
    (hkeep : ∀ x ∈ l, x.1.KeepsConnection) :
    Q.client.toSender = (a.sends l).foldl Sender.attempt P.client.toSender := by
  rw [(hP.after h).client, Ledger.after_client hkeep, hP.client]

/-- Both writes take what they are given. -/
def IsComplete (x : SendAttempt) : Prop :=
  ∃ k j, x.first = some k ∧ x.second = some j ∧ (x.call.payload.getD []).length ≤ k ∧ 1 ≤ j

/-- The messages of sends. -/
def messagesSent (l : List SendAttempt) : List Outgoing := l.filterMap fun x => x.call.message

theorem MessageKind.payload_sendCall (kind : MessageKind) (m : Option Outgoing) :
    (kind.sendCall m).payload = m.map fun m => cstr m.serialize := by
  cases m with
  | none => cases kind <;> rfl
  | some m => cases m <;> rfl

theorem MessageKind.message_sendCall (kind : MessageKind) (m : Option Outgoing) :
    (kind.sendCall m).message = m := by
  cases m with
  | none => cases kind <;> rfl
  | some m => cases m <;> rfl

/-- The payload of a send on a handle is the text of its message. -/
theorem Ledger.payload_of_mem_sends {a : Ledger} {l : List (ApiCall × ApiResult)}
    {x : SendAttempt} (hx : x ∈ a.sends l) :
    x.call.payload = x.call.message.map fun m => cstr m.serialize := by
  induction l generalizing a with
  | nil => simp [Ledger.sends] at hx
  | cons y l ih =>
      rw [Ledger.sends, List.mem_append] at hx
      rcases hx with hx | hx
      · cases hy : y.1 <;> simp only [hy, Ledger.sendOf, List.mem_singleton, List.not_mem_nil] at hx
        rw [hx, Ledger.attempt, MessageKind.payload_sendCall, MessageKind.message_sendCall]
      · exact ih hx

/-- Complete sends put the texts of their messages on the stream. -/
theorem attempts_stream {s : Sender} (hs : s.client.connected = true) {l : List SendAttempt}
    (hcomplete : ∀ x ∈ l, IsComplete x)
    (hpayload : ∀ x ∈ l, x.call.payload = x.call.message.map fun m => cstr m.serialize) :
    (l.foldl Sender.attempt s).stream = s.stream ++ (messagesSent l).flatMap Outgoing.wire := by
  induction l generalizing s with
  | nil => simp [messagesSent]
  | cons x l ih =>
      obtain ⟨hx, hl⟩ := List.forall_mem_cons.mp hcomplete
      obtain ⟨hxp, hlp⟩ := List.forall_mem_cons.mp hpayload
      rw [List.foldl_cons, ih (s.attempt_connected hs x) hl hlp, messagesSent, messagesSent]
      cases hm : x.call.message with
      | none =>
          rw [hm, Option.map_none] at hxp
          rcases s.attempt_eq hs x with ⟨_, _, hstream, _⟩ | ⟨payload, hsome, _⟩
          · rw [hstream, List.filterMap_cons, hm]
          · simp [hxp] at hsome
      | some m =>
          rw [hm, Option.map_some] at hxp
          obtain ⟨k, j, hfirst, hsecond, hk, hj⟩ := hx
          rw [hxp, Option.getD_some] at hk
          rw [Sender.attempt_stream hs hxp, hfirst, hsecond, List.filterMap_cons, hm,
            List.flatMap_cons, wrote, List.take_of_length_le hk,
            List.take_of_length_le (by simpa using hj), Outgoing.wire]
          simp

/-- **What a program sends is what another client gets.**  A program makes any calls, until it
is connected, and then any calls that leave it connected; its sends are complete, and of
messages that are plain at their time.  Another client that reads what was sent makes the calls
for these messages, in order, as they were when they were sent. -/
theorem Program.delivers {A : Allocator MessageObject} {P Q : Program} {client : Connection}
    {before l : List (ApiCall × ApiResult)} (hbefore : Run (Step A) ⟨{}, client⟩ before P)
    (hc : P.client.isConnected = true) (h : Run (Step A) P l Q)
    (hkeep : ∀ x ∈ l, x.1.KeepsConnection)
    (hcomplete : ∀ x ∈ ((Ledger.start client).after before).sends l, IsComplete x)
    (hplain : ∀ m ∈ messagesSent (((Ledger.start client).after before).sends l), m.IsPlain)
    {listener : ClientState} (hlistener : listener.connected = true) {reads : List Chunk}
    (hreads : P.client.stream ++ (reads.map Chunk.bytes).flatten = Q.client.stream) :
    (listener.listen reads).2 =
      ((messagesSent (((Ledger.start client).after before).sends l)).map
        Outgoing.received).flatMap listener.handlers.invoke := by
  have hsends := ((start_refines client).after hbefore).sends h hkeep
  have hstream : Q.client.toSender.stream = _ := congrArg Sender.stream hsends
  rw [attempts_stream hc hcomplete fun x hx => Ledger.payload_of_mem_sends hx] at hstream
  obtain ⟨fs, hwire, hevents⟩ := exists_frames fun m hm => (hplain m hm).exists_frame
  have hframes : (reads.map Chunk.bytes).flatten = fs.flatMap Frame.segment :=
    (List.append_cancel_left (hreads.trans hstream)).trans hwire
  rw [listen_of_frames hlistener hframes, hevents]

/-- The request is delivered as it was sent. -/
theorem Program.delivers_one : ∃ (Q : Program) (reads : List Chunk),
    started.client.stream ++ (reads.map Chunk.bytes).flatten = Q.client.stream ∧
      (oneOfEach.listen reads).2 =
        ([.request pingRequest].map Outgoing.received).flatMap oneOfEach.handlers.invoke := by
  obtain ⟨Q, hlater⟩ := run_laterCalls
  let a : Ledger := (Ledger.start (Connection.new .linux ['n'])).after firstCalls
  have hsends : a.sends laterCalls = [⟨.send (some pingRequest), some 5, some 1⟩] := by decide
  have hkeep : ∀ x ∈ laterCalls, x.1.KeepsConnection := by
    simp [laterCalls, ApiCall.KeepsConnection]
  have hcomplete : ∀ x ∈ a.sends laterCalls, IsComplete x := by
    rw [hsends]
    intro x hx
    obtain rfl := List.mem_singleton.mp hx
    exact ⟨5, 1, rfl, rfl, by decide, le_rfl⟩
  have hmessages : messagesSent (a.sends laterCalls) = [.request pingRequest] := by
    rw [hsends]
    rfl
  have hplain : ∀ m ∈ messagesSent (a.sends laterCalls), m.IsPlain := by
    rw [hmessages]
    intro m hm
    obtain rfl := List.mem_singleton.mp hm
    exact pingRequest_plain
  -- the stream of the sends is behind that of the handshake
  have hsent := ((start_refines _).after run_firstCalls).sends hlater hkeep
  have hstream : Q.client.toSender.stream = _ := congrArg Sender.stream hsent
  rw [attempts_stream rfl hcomplete fun x hx => Ledger.payload_of_mem_sends hx] at hstream
  obtain ⟨reads, hreads⟩ := exists_reads ((messagesSent (a.sends laterCalls)).flatMap Outgoing.wire)
  have hall : started.client.stream ++ (reads.map Chunk.bytes).flatten = Q.client.stream := by
    rw [hreads]
    exact hstream.symm
  refine ⟨Q, reads, hall, ?_⟩
  rw [← hmessages]
  exact delivers run_firstCalls rfl hlater hkeep hcomplete hplain rfl hall

end SporeClient.Api
