/-
  Client/RawRelay.lean --- programs that pass on the bytes of the messages they get.

  WHAT THIS FILE IS FOR.  A handler can get the bytes its message was read from, with their
  length, and give them to `spore_client_send_raw`.  Nothing is parsed or serialized on this
  way.  A message that is made from its text and serialized again can change, or be lost;
  bytes that are passed on are the frame they were: behind any number of such relays a
  client makes the calls it would make on the first stream, whatever the stream has in it,
  but for those of the parse errors, which are not passed on (`listen_relayed`).
-/
import SporeClient.Client.Channel

set_option autoImplicit false

namespace SporeClient.Client

open SporeClient.Foundation
open SporeClient.Parser

/-- The event of a message, and no parse error. -/
def Event.isMessage (e : Event) : Bool := e.getRaw.isSome

/-- What a handler of a relay does: the bytes of the message are sent, by their length.  A
parse error is not passed on. -/
def Sender.passOn (s : Sender) (call : Callback) : Sender :=
  match call.event.getRaw with
  | some raw => s.sendRaw raw (some raw.length) (some 1)
  | none => s

/-- A program that listens on one client and passes on what it gets on another one, with a
handler for each kind of message. -/
structure RawRelay where
  listener : ClientState
  sender : Sender
  listens : listener.connected = true
  sends : sender.client.connected = true
  one_handler : ∀ e : Event, e.isMessage = true → ∃ h, listener.handlers.forEvent e = [h]

/-- What a relay sends for what its reads return, behind what it has sent before. -/
def RawRelay.relay (r : RawRelay) (reads : List Chunk) : Bytes :=
  ((r.listener.listen reads).2.foldl Sender.passOn r.sender).stream.drop r.sender.stream.length

/-- The relays, one behind the other, make the second stream of the first one.  Each may
read its stream in any pieces. -/
inductive RelayedBy : List RawRelay → Bytes → Bytes → Prop
  | nil (stream : Bytes) : RelayedBy [] stream stream
  | cons {r : RawRelay} {rs : List RawRelay} {stream out : Bytes} (reads : List Chunk)
      (hreads : (reads.map Chunk.bytes).flatten = stream)
      (hrest : RelayedBy rs (r.relay reads) out) : RelayedBy (r :: rs) stream out

/-! ## One relay -/

/-- The events of a stream are those of frames. -/
theorem exists_frames_of_reads (reads : List Chunk) :
    ∃ fs : List Frame, eventsOf (reads.map Chunk.bytes) = fs.filterMap Frame.event := by
  obtain ⟨fs, _, _, _, _, hcalls⟩ := listen_frames (c := oneOfEach) rfl reads
  have hlisten : (oneOfEach.listen reads).2 =
      (eventsOf (reads.map Chunk.bytes)).flatMap oneOfEach.handlers.invoke := rfl
  refine ⟨fs, ?_⟩
  rw [← events_of_oneOfEach (eventsOf (reads.map Chunk.bytes)), ← hlisten, hcalls,
    events_of_oneOfEach]

/-- The message of a frame has the bytes of the frame. -/
theorem Frame.getRaw_of_event {f : Frame} {e : Event} (h : f.event = some e)
    (hmessage : e.isMessage = true) : e.getRaw = some f.segment := by
  obtain ⟨raw, hraw⟩ := Option.isSome_iff_exists.mp hmessage
  have hne : f.text ≠ [] := by
    intro hnil
    simp [Frame.event, hnil] at h
  rw [Frame.event, if_neg hne] at h
  rw [hraw, dispatch_getRaw h hraw]

theorem Sender.passOn_eq {s : Sender} (hs : s.client.connected = true) (call : Callback) :
    (s.passOn call).client.connected = true ∧
      (s.passOn call).stream = s.stream ++ (call.event.getRaw.elim [] (· ++ ['\n'])) := by
  unfold passOn
  cases call.event.getRaw with
  | none => exact ⟨hs, by simp⟩
  | some raw => simp [sendRaw, writeRaw, hs]

/-- What calls pass on. -/
theorem Sender.foldl_passOn {s : Sender} (hs : s.client.connected = true)
    (calls : List Callback) :
    (calls.foldl passOn s).stream =
      s.stream ++ calls.flatMap fun call => call.event.getRaw.elim [] (· ++ ['\n']) := by
  induction calls generalizing s with
  | nil => simp
  | cons call calls ih =>
      obtain ⟨hconnected, hstream⟩ := s.passOn_eq hs call
      rw [List.foldl_cons, ih hconnected, hstream, List.flatMap_cons, List.append_assoc]

/-- The calls for an event pass on its bytes once. -/
theorem RawRelay.invoke_eq (r : RawRelay) (e : Event) :
    ((r.listener.handlers.invoke e).flatMap fun call =>
        call.event.getRaw.elim [] (· ++ ['\n'])) = e.getRaw.elim [] (· ++ ['\n']) := by
  cases hmessage : e.isMessage with
  | true =>
      obtain ⟨h, hone⟩ := r.one_handler e hmessage
      simp [Handlers.invoke, hone]
  | false =>
      have hraw : e.getRaw = none := by simpa [Event.isMessage] using hmessage
      simp [Handlers.invoke, List.flatMap_map, hraw]

/-- **A relay sends frames**: of each frame with a message its bytes, and a blank line. -/
theorem RawRelay.relay_eq (r : RawRelay) {reads : List Chunk} {fs : List Frame}
    (h : eventsOf (reads.map Chunk.bytes) = fs.filterMap Frame.event) :
    ∃ sent : List Frame, r.relay reads = sent.flatMap Frame.segment ∧
      sent.filterMap Frame.event = (fs.filterMap Frame.event).filter Event.isMessage := by
  have hrelay : r.relay reads =
      (fs.filterMap Frame.event).flatMap fun e => e.getRaw.elim [] (· ++ ['\n']) := by
    rw [relay, Sender.foldl_passOn r.sends, List.drop_left]
    simp only [ClientState.listen, r.listens, if_true, h, List.flatMap_assoc, r.invoke_eq]
  rw [hrelay]
  clear h hrelay
  have hblank : blankFrame.event = none := rfl
  have hnewline : blankFrame.segment = ['\n'] := rfl
  induction fs with
  | nil => exact ⟨[], rfl, rfl⟩
  | cons f fs ih =>
      obtain ⟨sent, hsent, hevents⟩ := ih
      cases hevent : f.event with
      | none => exact ⟨sent, by simpa [hevent] using hsent, by simpa [hevent] using hevents⟩
      | some e =>
          cases hmessage : e.isMessage with
          | false =>
              have hraw : e.getRaw = none := by simpa [Event.isMessage] using hmessage
              refine ⟨sent, ?_, ?_⟩
              · simpa [hevent, hraw] using hsent
              · simpa [hevent, hmessage] using hevents
          | true =>
              refine ⟨f :: blankFrame :: sent, ?_, ?_⟩
              · rw [List.filterMap_cons, hevent, List.flatMap_cons, hsent,
                  Frame.getRaw_of_event hevent hmessage, List.flatMap_cons, List.flatMap_cons,
                  hnewline]
                simp
              · simp [hevent, hblank, hmessage, hevents]

/-- **What is read behind a relay** are the messages it read, with their bytes. -/
theorem RawRelay.eventsOf_relay (r : RawRelay) {reads next : List Chunk}
    (hnext : (next.map Chunk.bytes).flatten = r.relay reads) :
    eventsOf (next.map Chunk.bytes) =
      (eventsOf (reads.map Chunk.bytes)).filter Event.isMessage := by
  obtain ⟨fs, hfs⟩ := exists_frames_of_reads reads
  obtain ⟨sent, hrelay, hevents⟩ := r.relay_eq hfs
  rw [eventsOf_frames (hnext.trans hrelay), hevents, hfs]

/-! ## Any number of relays -/

theorem RelayedBy.eventsOf_eq {rs : List RawRelay} {stream out : Bytes}
    (h : RelayedBy rs stream out) (hne : rs ≠ []) {first last : List Chunk}
    (hfirst : (first.map Chunk.bytes).flatten = stream)
    (hlast : (last.map Chunk.bytes).flatten = out) :
    eventsOf (last.map Chunk.bytes) =
      (eventsOf (first.map Chunk.bytes)).filter Event.isMessage := by
  induction h generalizing first with
  | nil => exact absurd rfl hne
  | @cons r rs stream out reads hreads hrest ih =>
      have hsame : eventsOf (first.map Chunk.bytes) = eventsOf (reads.map Chunk.bytes) := by
        rw [eventsOf_eq_scan, eventsOf_eq_scan, hfirst, hreads]
      rw [hsame]
      cases rs with
      | nil =>
          cases hrest
          exact r.eventsOf_relay hlast
      | cons r' rs =>
          obtain ⟨next, hnext⟩ := exists_reads (r.relay reads)
          rw [ih (by simp) hnext hlast, r.eventsOf_relay hnext, List.filter_filter]
          simp

/-- **Relays of bytes are transparent.**  Behind one or more of them a client makes the calls
it would make on the first stream, in order, each message with all its fields and the bytes it
was first read from, but for the calls of parse errors.  The stream may be any bytes, and each
client may read its stream in any pieces. -/
theorem listen_relayed {c : ClientState} {rs : List RawRelay} (hne : rs ≠ [])
    {stream out : Bytes} (h : RelayedBy rs stream out) {first last : List Chunk}
    (hfirst : (first.map Chunk.bytes).flatten = stream)
    (hlast : (last.map Chunk.bytes).flatten = out) :
    (c.listen last).2 = (c.listen first).2.filter fun call => call.event.isMessage := by
  have hinvoke : ∀ e, (c.handlers.invoke e).filter (fun call => call.event.isMessage) =
      if e.isMessage then c.handlers.invoke e else [] := by
    intro e
    cases hmessage : e.isMessage <;> simp [Handlers.invoke, hmessage]
  cases hc : c.connected with
  | false => simp [ClientState.listen, hc]
  | true =>
      simp only [ClientState.listen, hc, if_true, h.eventsOf_eq hne hfirst hlast]
      generalize eventsOf (first.map Chunk.bytes) = es
      induction es with
      | nil => rfl
      | cons e es ih =>
          rw [List.flatMap_cons, List.filter_append, hinvoke, ← ih, List.filter_cons]
          split <;> simp

/-- A relay with one handler of each kind. -/
def plainRelay : RawRelay where
  listener := oneOfEach
  sender := { client := oneOfEach, stream := ['n', '\n'] }
  listens := rfl
  sends := rfl
  one_handler := fun e _ => by cases e <;> exact ⟨_, rfl⟩

/-- Two of them, for a line that is no message and a request. -/
theorem listen_relayed_two :
    let first : List Chunk := [⟨['c', '\n', 'c', ' ', '~', 'h', '\r', '\n'], by decide, by decide⟩]
    ∃ last : List Chunk, (oneOfEach.listen last).2 =
      (oneOfEach.listen first).2.filter fun call => call.event.isMessage := by
  intro first
  obtain ⟨middle, hmiddle⟩ := exists_reads (plainRelay.relay first)
  obtain ⟨last, hlast⟩ := exists_reads (plainRelay.relay middle)
  have h : RelayedBy [plainRelay, plainRelay] _ _ := .cons first rfl (.cons middle hmiddle (.nil _))
  exact ⟨last, listen_relayed (by simp) h rfl hlast⟩

end SporeClient.Client
