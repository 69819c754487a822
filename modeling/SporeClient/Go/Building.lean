/-
  Go/Building.lean --- how a Go program builds a message, and what another one sees of it.

  WHAT THIS FILE IS FOR.  `WithArg` and `WithFlag` are chained in any order, keys may be
  given twice, and the message is kept in an ordered map and an ordered set.  So a chain
  comes to what it gave last for each key and to the set of its flags, and to no more
  (`GoMessage.build_eq_iff`): the text that is sent does not depend on the order of the calls.
  On the other side the methods of the message a handler is called with show what those of
  the message that was sent show (`GoMessage.seen_plain`).
-/
import SporeClient.Client.Plain
import SporeClient.Client.Whole
import SporeClient.Go.Messages

set_option autoImplicit false

namespace SporeClient.Wire

open SporeClient.Foundation
open SporeClient.Parser

/-! ## What the C library hands out -/

/-- `Message::hasFlag`. -/
def Message.hasFlag (m : Message) (flag : Bytes) : Bool := m.flags.toList.contains flag

/-- `copyFlags`: the flags that have room, and how many there are. -/
def copyFlags (m : Message) (capacity : Nat) : List Bytes × Nat :=
  (m.flags.toList.take capacity, m.flags.toList.length)

/-- `Message::getSerialized` after `serialize`: a null pointer for an empty text. -/
def getSerialized (serialized : Bytes) : Option Bytes := sv serialized

end SporeClient.Wire

namespace SporeClient.Go

open SporeClient.Foundation
open SporeClient.Client
open SporeClient.Parser
open SporeClient.Wire

/-! ## The methods -/

namespace GoMessage

/-- `Command` of a request or a response; the other messages have no such method. -/
def command : GoMessage → Option Bytes
  | .request h => some (goString (sv h.command))
  | .response h => some (goString (sv h.command))
  | .responseError h => some (goString (sv h.command))
  | .witness _ => none
  | .publish _ => none

/-- `Handle`. -/
def handle : GoMessage → Option Bytes
  | .request h => some (goString (sv h.handle))
  | .response h => some (goString (sv h.handle))
  | .responseError h => some (goString (sv h.handle))
  | .witness _ => none
  | .publish _ => none

/-- `Code`. -/
def code : GoMessage → Option Bytes
  | .responseError h => some (goString (sv h.code))
  | _ => none

/-- `What`. -/
def what : GoMessage → Option Bytes
  | .responseError h => some (goString (sv h.what))
  | _ => none

/-- `Body`. -/
def body : GoMessage → Option Bytes
  | .witness h => some (goString (sv h.body))
  | _ => none

/-- `Topic`. -/
def topic : GoMessage → Option Bytes
  | .publish h => some (goString (sv h.topic))
  | _ => none

/-- `Flag`. -/
def flag (x : GoMessage) (flag : Bytes) : Bool := x.message.hasFlag (cstr flag)

/-- `Flags`. -/
def flags (x : GoMessage) : List Bytes := getStrings (copyFlags x.message)

/-- `Raw`; it is copied by its length. -/
def raw (x : GoMessage) : Bytes := x.message.raw

/-- The object of the C library, to be sent. -/
def outgoing : GoMessage → Outgoing
  | .request h => .request h
  | .response h => .response h
  | .responseError h => .responseError h
  | .witness h => .witness h
  | .publish h => .publish h

/-- `Serialize`, which serializes anew each time. -/
def serialize (x : GoMessage) : Bytes := goString (getSerialized x.outgoing.serialize)

/-- The event with this message. -/
def event : GoMessage → Event
  | .request h => .request h
  | .response h => .response h
  | .responseError h => .responseError h
  | .witness h => .witness h
  | .publish h => .publish h

end GoMessage

/-- Of a list without NULs, asking twice gives the list. -/
theorem getStrings_take {l : List Bytes} (h : ∀ s ∈ l, '\x00' ∉ s) :
    getStrings (fun capacity => (l.take capacity, l.length)) = l := by
  unfold getStrings
  split
  · rename_i hzero
    exact (List.eq_nil_of_length_eq_zero hzero).symm
  · change (l.take l.length).map cstr = l
    rw [List.take_length]
    exact (List.map_congr_left fun s hs => cstr_eq_self (h s hs)).trans (List.map_id l)

/-! ## Chains of calls -/

/-- A call of a chain. -/
inductive BuildCall where
  | withArg (key value : Bytes)
  | withFlag (flag : Bytes)
  deriving DecidableEq

/-- The arguments a chain gives, in order, as C strings. -/
def argsGiven (l : List BuildCall) : List (Bytes × Bytes) :=
  l.filterMap fun
    | .withArg key value => some (cut (key, value))
    | .withFlag _ => none

/-- The flags it gives. -/
def flagsGiven (l : List BuildCall) : List Bytes :=
  l.filterMap fun
    | .withArg _ _ => none
    | .withFlag flag => some (cstr flag)

namespace GoMessage

/-- A chain of calls. -/
def build (x : GoMessage) (l : List BuildCall) : GoMessage :=
  l.foldl (fun x a =>
    match a with
    | .withArg key value => x.withArg key value
    | .withFlag flag => x.withFlag flag) x

theorem update_id (x : GoMessage) : x.update id = x := by
  cases x <;> rfl

/-- What two changes of the same message come to depends on the `Message` in it. -/
theorem update_eq_iff {f g : Message → Message} {x : GoMessage} :
    x.update f = x.update g ↔ f x.message = g x.message := by
  constructor
  · intro h
    simpa using congrArg message h
  · intro h
    cases x <;> simp only [update, message] at h ⊢ <;> rw [h]

/-- **A chain changes the arguments and the flags**, by what it gives, in order. -/
theorem build_eq (x : GoMessage) (l : List BuildCall) :
    x.build l = x.update fun m =>
      { m with
        args := (argsGiven l).foldl (fun args p => args.insert p.1 p.2) m.args
        flags := (flagsGiven l).foldl SortedSet.add m.flags } := by
  induction l generalizing x with
  | nil => exact (update_id x).symm
  | cons a l ih =>
      have hcons : x.build (a :: l) = (x.build [a]).build l := rfl
      rw [hcons, ih]
      cases a with
      | withArg key value => cases x <;> rfl
      | withFlag flag => cases x <;> rfl

/-- **What a chain comes to.**  Two chains on a message without arguments and flags build the
same message iff they give the same value last for each key and have the same flags; so do
all methods of the message and the text that is sent for it. -/
theorem build_eq_iff {x : GoMessage} (hargs : x.message.args = ∅) (hflags : x.message.flags = ∅)
    (l l' : List BuildCall) :
    x.build l = x.build l' ↔
      (∀ key, SortedMap.lastValue key (argsGiven l) = SortedMap.lastValue key (argsGiven l')) ∧
        ∀ flag, flag ∈ flagsGiven l ↔ flag ∈ flagsGiven l' := by
  have hmap : SortedMap.ofList (argsGiven l) = SortedMap.ofList (argsGiven l') ↔
      ∀ key, SortedMap.lastValue key (argsGiven l) = SortedMap.lastValue key (argsGiven l') := by
    simp only [← SortedMap.find?_ofList]
    refine ⟨fun h key => by rw [h], fun h => SortedMap.ext_mem fun p => ?_⟩
    rw [← SortedMap.find?_eq_some_iff, ← SortedMap.find?_eq_some_iff, h]
  have hset : SortedSet.ofList (flagsGiven l) = SortedSet.ofList (flagsGiven l') ↔
      ∀ flag, flag ∈ flagsGiven l ↔ flag ∈ flagsGiven l' := by
    refine ⟨fun h flag => ?_, fun h => SortedSet.ext fun flag => by simp [h]⟩
    rw [← SortedSet.mem_ofList, h, SortedSet.mem_ofList]
  rw [build_eq, build_eq, update_eq_iff, hargs, hflags, ← hmap, ← hset]
  simp [SortedMap.ofList, SortedSet.ofList]

/-- A key that is given twice, and flags in another order. -/
theorem build_eq_iff_twice :
    (newRequest ['c'] ['h']).build
        [.withArg ['k'] ['v'], .withFlag ['f'], .withFlag ['g'], .withArg ['k'] ['w']] =
      (newRequest ['c'] ['h']).build [.withFlag ['g'], .withArg ['k'] ['w'], .withFlag ['f']] := by
  refine (build_eq_iff rfl rfl _ _).mpr ⟨fun key => ?_, fun flag => ?_⟩
  · by_cases hkey : key = ['k']
    · rw [hkey]
      decide
    · simp [argsGiven, cut, cstr, SortedMap.lastValue, Ne.symm hkey]
  · simp [flagsGiven, cstr, or_comm]

/-! ## The other side -/

/-- Whether the message is an ok response, which gets the flag `ok` on its way. -/
def isOk : GoMessage → Bool
  | .response _ => true
  | _ => false

/-- What the methods of the message `x` show before it is sent, those of `y` show after it:
the same, but for the flag `ok` of a response; and the bytes `y` was read from are the
serialized text of `x`. -/
structure Seen (x y : GoMessage) : Prop where
  command : y.command = x.command
  handle : y.handle = x.handle
  topic : y.topic = x.topic
  arg : ∀ key, y.arg key = x.arg key
  argIf : ∀ key default, y.argIf key default = x.argIf key default
  args : y.args = x.args
  flag : ∀ flag, y.flag flag = (x.flag flag || (x.isOk && cstr flag == okWord))
  flags : ∀ flag, flag ∈ y.flags ↔ flag ∈ x.flags ∨ (x.isOk = true ∧ flag = okWord)
  raw : y.raw = x.serialize

theorem mem_flags_iff {x : GoMessage} (h : ∀ f ∈ x.message.flags, '\x00' ∉ f) (flag : Bytes) :
    flag ∈ x.flags ↔ flag ∈ x.message.flags := by
  have hflags : x.flags = x.message.flags.toList := getStrings_take h
  rw [hflags, SortedSet.mem_toList]

theorem flag_iff (x : GoMessage) (flag : Bytes) :
    x.flag flag = true ↔ cstr flag ∈ x.message.flags := by
  rw [GoMessage.flag, Message.hasFlag, List.contains_iff_mem, SortedSet.mem_toList]

/-- What there is to compare in two messages. -/
theorem seen_of_fields {x y : GoMessage} (hcommand : y.command = x.command)
    (hhandle : y.handle = x.handle) (htopic : y.topic = x.topic)
    (hargs : y.message.args = x.message.args)
    (hflags : ∀ f, f ∈ y.message.flags ↔ f ∈ x.message.flags ∨ (x.isOk = true ∧ f = okWord))
    (hnul : ∀ f ∈ x.message.flags, '\x00' ∉ f) (hraw : y.raw = x.serialize) : Seen x y := by
  have hget : ∀ key, y.getArg key = x.getArg key := by
    intro key
    rw [getArg, getArg, Message.getArg, Message.getArg, hargs]
  have harg : ∀ key, y.arg key = x.arg key := by
    intro key
    unfold arg
    rw [hget]
  have hids : copyArgIds y.message = copyArgIds x.message := by
    funext capacity
    rw [copyArgIds, copyArgIds, hargs]
  have hnul' : ∀ f ∈ y.message.flags, '\x00' ∉ f := by
    intro f hf
    rcases (hflags f).mp hf with hf | ⟨_, rfl⟩
    · exact hnul f hf
    · decide
  constructor
  case command => exact hcommand
  case handle => exact hhandle
  case topic => exact htopic
  case arg => exact harg
  case argIf =>
    intro key default
    unfold argIf
    rw [harg]
  case args =>
    unfold GoMessage.args
    rw [hids]
  case flag =>
    intro flag
    rw [Bool.eq_iff_iff, flag_iff, Bool.or_eq_true, flag_iff, Bool.and_eq_true, beq_iff_eq]
    exact hflags (cstr flag)
  case flags =>
    intro flag
    rw [mem_flags_iff hnul', mem_flags_iff hnul]
    exact hflags flag
  case raw => exact hraw

/-- **A plain message is seen as it was sent.** -/
theorem exists_seen {x : GoMessage} (h : x.outgoing.IsPlain) :
    ∃ y : GoMessage, y.event = x.outgoing.received ∧ Seen x y := by
  have hraw : x.serialize = x.outgoing.serialize := by
    have hne := x.outgoing.serialize_ne_nil
    simp [GoMessage.serialize, getSerialized, sv, hne, goString, cstr_eq_self (h.not_mem rfl)]
  have hnul : ∀ f, IsWord f → '\x00' ∉ f := fun f hf => hf.not_mem (by decide)
  cases x with
  | request r =>
      refine ⟨.request ⟨r.toMessage.setRaw r.serialize⟩, rfl, seen_of_fields rfl rfl rfl rfl ?_ ?_
        hraw.symm⟩
      · simp [isOk, message, Message.setRaw]
      · exact fun f hf => hnul f ((IsPlainRequest.message h).flags f hf)
  | response r =>
      refine ⟨.response ⟨{ r.toMessage with flags := r.flags.add okWord, raw := r.serialize }⟩, rfl,
        seen_of_fields rfl rfl rfl rfl ?_ ?_ hraw.symm⟩
      · simp [isOk, message, or_comm]
      · exact fun f hf => hnul f ((IsPlainResponse.message h).flags f hf)
  | publish p =>
      refine ⟨.publish ⟨{ args := p.args, flags := p.flags, raw := p.serialize }, p.topic⟩, rfl,
        seen_of_fields rfl rfl rfl rfl ?_ ?_ hraw.symm⟩
      · simp [isOk, message]
      · exact fun f hf => hnul f ((IsPlainPublish.message h).flags f hf)
  | _ => exact absurd h id

/-- **What one Go program sends is what another one sees.**  Plain messages that are sent one
after another arrive in order, none lost or doubled, and all methods of each message that
arrives show what those of the message that was sent show. -/
theorem seen_plain {c : ClientState} (hc : c.connected = true) {s : Sender}
    (hs : s.client.connected = true) (hstart : s.stream = []) {xs : List GoMessage}
    (hplain : ∀ x ∈ xs, x.outgoing.IsPlain) {reads : List Chunk}
    (hreads : (reads.map Chunk.bytes).flatten = (s.sendAll (xs.map outgoing)).stream) :
    ∃ ys : List GoMessage, List.Forall₂ Seen xs ys ∧
      (c.listen reads).2 = (ys.map event).flatMap c.handlers.invoke := by
  have hseen : ∃ ys : List GoMessage, List.Forall₂ Seen xs ys ∧
      ys.map event = (xs.map outgoing).map Outgoing.received := by
    clear hreads
    induction xs with
    | nil => exact ⟨[], .nil, rfl⟩
    | cons x xs ih =>
        obtain ⟨hx, hxs⟩ := List.forall_mem_cons.mp hplain
        obtain ⟨y, hy, hsame⟩ := exists_seen hx
        obtain ⟨ys, hall, hys⟩ := ih hxs
        exact ⟨y :: ys, .cons hsame hall, by simp [hy, hys]⟩
  obtain ⟨ys, hall, hys⟩ := hseen
  refine ⟨ys, hall, ?_⟩
  rw [hys]
  refine listen_wires hc hs hstart (fun m hm => ?_) hreads
  obtain ⟨x, hx, rfl⟩ := List.mem_map.mp hm
  exact (hplain x hx).exists_frame

/-- A request with an argument. -/
def argRequest : GoMessage := (newRequest ['c'] ['h']).withArg ['k'] ['v', ' ', 'w']

theorem argRequest_plain : argRequest.outgoing.IsPlain :=
  ⟨⟨by decide, by decide, by decide⟩, by decide, by decide, by decide, by decide⟩

/-- It is seen on the other side. -/
theorem seen_plain_one : ∃ (reads : List Chunk) (ys : List GoMessage),
    List.Forall₂ Seen [argRequest] ys ∧
      (oneOfEach.listen reads).2 = (ys.map event).flatMap oneOfEach.handlers.invoke := by
  let s : Sender := { client := oneOfEach, stream := [] }
  obtain ⟨reads, hreads⟩ := exists_reads (s.sendAll ([argRequest].map outgoing)).stream
  have hplain : ∀ x ∈ [argRequest], x.outgoing.IsPlain := by
    intro x hx
    obtain rfl := List.mem_singleton.mp hx
    exact argRequest_plain
  exact ⟨reads, seen_plain rfl (s := s) rfl rfl hplain hreads⟩

end GoMessage

end SporeClient.Go
