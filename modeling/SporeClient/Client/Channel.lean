/-
  Client/Channel.lean --- threads that send on one client, and another client that listens.

  WHAT THIS FILE IS FOR.  `Client/Plain.lean` is about messages that are all sent before
  they are read.  Here the threads of one client send while the other client is in `listen`,
  so its reads end anywhere, also in the middle of a message.  At every time the messages
  that have been delivered are the first ones of those that were sent, in the order of
  `writeMu` (`Channel.listen_queue`): the two clients and the stream are a queue of messages.
-/
import SporeClient.Client.Plain
import SporeClient.Client.Senders
import SporeClient.Client.Whole
import SporeClient.Foundation.Pipe

set_option autoImplicit false

namespace SporeClient.Client

open SporeClient.Foundation
open SporeClient.Parser
open SporeClient.Wire

/-! ## Events of a stream -/

/-- The events of a stream of whole frames are those of the frames. -/
theorem eventsOf_frames {reads : List Chunk} {fs : List Frame}
    (h : (reads.map Chunk.bytes).flatten = fs.flatMap Frame.segment) :
    eventsOf (reads.map Chunk.bytes) = fs.filterMap Frame.event := by
  have hcalls := listen_of_frames (c := oneOfEach) rfl h
  have hlisten : (oneOfEach.listen reads).2 =
      (eventsOf (reads.map Chunk.bytes)).flatMap oneOfEach.handlers.invoke := rfl
  rw [← events_of_oneOfEach (eventsOf (reads.map Chunk.bytes)), ← hlisten, hcalls,
    events_of_oneOfEach]

/-- **What has been read of whole frames** has made the first of their events. -/
theorem eventsOf_begins {reads : List Chunk} {fs : List Frame}
    (h : (reads.map Chunk.bytes).flatten <+: fs.flatMap Frame.segment) :
    eventsOf (reads.map Chunk.bytes) <+: fs.filterMap Frame.event := by
  obtain ⟨all, hall⟩ := exists_reads (fs.flatMap Frame.segment)
  rw [← eventsOf_frames hall, eventsOf_eq_scan, eventsOf_eq_scan, hall]
  exact (listenReader.scan_begins _ h).filterMap _

/-- **The texts of plain messages are told apart.**  When the texts of some messages begin
with those of others, the messages begin with them: where one ends and which fields it has
can be seen in the stream. -/
theorem wires_begin {ms ms' : List Outgoing} (hplain : ∀ m ∈ ms, m.IsPlain)
    (hplain' : ∀ m ∈ ms', m.IsPlain)
    (h : ms.flatMap Outgoing.wire <+: ms'.flatMap Outgoing.wire) :
    ms.map Outgoing.received <+: ms'.map Outgoing.received := by
  obtain ⟨fs, hwire, hevents⟩ := exists_frames fun m hm => (hplain m hm).exists_frame
  obtain ⟨fs', hwire', hevents'⟩ := exists_frames fun m hm => (hplain' m hm).exists_frame
  obtain ⟨reads, hreads⟩ := exists_reads (fs.flatMap Frame.segment)
  have hbegins : (reads.map Chunk.bytes).flatten <+: fs'.flatMap Frame.segment := by
    rw [hreads, ← hwire, ← hwire']
    exact h
  rw [← hevents, ← hevents', ← eventsOf_frames hreads]
  exact eventsOf_begins hbegins

/-! ## Messages that are sent -/

/-- The call that sends a message. -/
def Outgoing.call : Outgoing → SendCall
  | .request r => .send (some r)
  | .response r => .sendResponse (some r)
  | .responseError e => .sendResponseError (some e)
  | .witness w => .sendWitness (some w)
  | .publish p => .sendPublish (some p)

/-- The message of a call. -/
def SendCall.message : SendCall → Option Outgoing
  | .send r => r.map .request
  | .sendResponse r => r.map .response
  | .sendResponseError e => e.map .responseError
  | .sendWitness w => w.map .witness
  | .sendPublish p => p.map .publish
  | .sendRaw _ => none

@[simp] theorem Outgoing.message_call (m : Outgoing) : m.call.message = some m := by
  cases m <;> rfl

@[simp] theorem Outgoing.payload_call (m : Outgoing) :
    m.call.payload = some (cstr m.serialize) := by
  cases m <;> rfl

/-- A send that took the lock. -/
abbrev Sent (ι : Type) : Type := Threads.Served ι SendCall WriteOutcome

section

variable {ι : Type}

/-- The first write has returned a count. -/
def Sent.written (x : Sent ι) : Bool :=
  match x.results with
  | some _ :: _ => true
  | _ => false

/-- The first write fails or takes the whole text. -/
def Sent.AllOrNothing (x : Sent ι) : Prop :=
  ∀ k rest, x.results = some k :: rest → (x.job.payload.getD []).length ≤ k

/-- The messages whose texts have been written in a run, in the order of the lock. -/
def messagesOf (moves : List (SendMove ι)) : List Outgoing :=
  ((Threads.served moves).filter Sent.written).filterMap fun x => x.job.message

/-- What a send of a framed message writes: nothing, or its frame and perhaps a blank line. -/
theorem Sent.wrote_eq {x : Sent ι} (hall : x.AllOrNothing) {m : Outgoing} (hm : x.job = m.call)
    {f : Frame} (hf : m.wire = f.segment ++ ['\n']) :
    ∃ blank : List Frame, (∀ b ∈ blank, b = blankFrame) ∧
      wrote (x.job.payload.getD []) x.results =
        if x.written then f.segment ++ blank.flatMap Frame.segment else [] := by
  have hpayload : x.job.payload.getD [] = f.segment := by
    rw [hm, Outgoing.payload_call]
    exact List.append_cancel_right hf
  have hblank : blankFrame.segment = ['\n'] := rfl
  obtain ⟨i, call, results⟩ := x
  rw [hpayload]
  rcases results with _ | ⟨_ | k, rest⟩
  · exact ⟨[], by simp, rfl⟩
  · exact ⟨[], by simp, rfl⟩
  · have htake : f.segment.take k = f.segment := by
      rw [← hpayload]
      exact List.take_of_length_le (hall k rest rfl)
    rcases rest with _ | ⟨_ | _ | j, rest⟩
    · exact ⟨[], by simp, by simp [wrote, written, htake]⟩
    · exact ⟨[], by simp, by simp [wrote, written, htake]⟩
    · exact ⟨[], by simp, by simp [wrote, written, htake]⟩
    · exact ⟨[blankFrame], by simp, by simp [wrote, written, htake, hblank]⟩

/-- **Sends are frames**: what they write is whole frames, which make the events of the
messages whose texts were written. -/
theorem exists_frames_of_sent {done : List (Sent ι)} {received : Outgoing → Event}
    (h : ∀ x ∈ done, x.AllOrNothing ∧ ∃ m : Outgoing, x.job = m.call ∧
      ∃ f : Frame, m.wire = f.segment ++ ['\n'] ∧ f.event = some (received m)) :
    ∃ fs : List Frame,
      (done.flatMap fun x => wrote (x.job.payload.getD []) x.results) =
        fs.flatMap Frame.segment ∧
      fs.filterMap Frame.event =
        ((done.filter Sent.written).filterMap fun x => x.job.message).map received := by
  induction done with
  | nil => exact ⟨[], rfl, rfl⟩
  | cons x done ih =>
      obtain ⟨fs, hstream, hevents⟩ := ih fun y hy => h y (List.mem_cons_of_mem _ hy)
      obtain ⟨hall, m, hm, f, hf, hevent⟩ := h x List.mem_cons_self
      obtain ⟨blank, hblank, hwrote⟩ := Sent.wrote_eq hall hm hf
      have hnone : blank.filterMap Frame.event = [] := by
        rw [List.filterMap_eq_nil_iff]
        intro b hb
        rw [hblank b hb]
        rfl
      rw [List.flatMap_cons, hstream, hwrote, List.filter_cons]
      cases x.written with
      | false => exact ⟨fs, rfl, by simpa using hevents⟩
      | true =>
          refine ⟨f :: blank ++ fs, by simp, ?_⟩
          rw [List.filterMap_append, List.filterMap_cons, hevent, hnone, hevents, if_pos rfl,
            List.filterMap_cons, hm, Outgoing.message_call]
          rfl

end

/-! ## The channel -/

/-- The threads that send on one client, and what the `listen` of the other one has read. -/
abbrev Channel (ι : Type) : Type := Piped (Senders ι) Chunk

/-- A move of a sending thread, or a read. -/
abbrev ChannelMove (ι : Type) : Type := PipeMove (SendMove ι) Chunk

section

variable {ι : Type} [DecidableEq ι] {connected : Bool}

/-- The moves of the threads and the reads, in any order. -/
abbrev Channel.Step (connected : Bool) : Channel ι → ChannelMove ι → Channel ι → Prop :=
  Piped.Step (Senders.Step connected) Threads.shared Chunk.bytes

/-- Nothing has been sent, and nothing read. -/
abbrev Channel.start : Channel ι := ⟨Threads.start [], []⟩

/-- The events `listen` has made calls for. -/
def Channel.delivered (ch : Channel ι) : List Event := eventsOf (ch.taken.map Chunk.bytes)

/-- The stream only grows. -/
theorem Senders.Step.grows {t u : Senders ι} {a : SendMove ι}
    (h : Senders.Step connected t a u) : t.shared <+: u.shared := by
  have hlock : Threads.Step writeCode t a u → t.shared <+: u.shared := by
    intro hstep
    cases hstep with
    | call _ => exact List.prefix_refl _
    | lock _ _ => exact List.prefix_refl _
    | @act i call place _ o =>
        cases place <;> cases o <;>
          first | exact List.prefix_refl _ | exact List.prefix_append _ _
    | unlock _ => exact List.prefix_refl _
  cases h with
  | refused _ _ => exact List.prefix_refl _
  | passed _ hstep => exact hlock hstep
  | goesOn _ hstep => exact hlock hstep

/-- The stream is what the sends have written. -/
theorem Senders.shared_eq {t : Senders ι} {stream : Bytes} {moves : List (SendMove ι)}
    (h : Run (Senders.Step connected) (Threads.start stream) moves t) :
    t.shared = stream ++ (Threads.served moves).flatMap fun x =>
      wrote (x.job.payload.getD []) x.results := by
  rw [(Threads.serialized_of_run (Senders.run_enters h)).shared, served_enters, runServed_eq]

/-- Every send is of a message whose text is a frame that delivers it, and its text is
written as a whole or not at all. -/
def Framed (moves : List (SendMove ι)) : Prop :=
  ∀ x ∈ Threads.served moves, Sent.AllOrNothing x ∧ ∃ m : Outgoing, x.job = m.call ∧
    ∃ f : Frame, m.wire = f.segment ++ ['\n'] ∧ f.event = some m.received

/-- Every send is of a plain message, and its text is written as a whole or not at all. -/
def PlainSends (moves : List (SendMove ι)) : Prop :=
  ∀ x ∈ Threads.served moves, Sent.AllOrNothing x ∧ ∃ m : Outgoing, x.job = m.call ∧ m.IsPlain

omit [DecidableEq ι] in
theorem PlainSends.framed {moves : List (SendMove ι)} (h : PlainSends moves) : Framed moves := by
  intro x hx
  obtain ⟨hall, m, hm, hplain⟩ := h x hx
  exact ⟨hall, m, hm, hplain.exists_frame⟩

/-- What has been delivered are the first messages that were sent, and all of them when
everything has been read. -/
theorem Channel.delivered_begins {moves : List (ChannelMove ι)} {ch : Channel ι}
    (h : Run (Channel.Step connected) Channel.start moves ch)
    (hframed : Framed (sourceMoves moves)) :
    ch.delivered <+: (messagesOf (sourceMoves moves)).map Outgoing.received ∧
      (ch.got Chunk.bytes = ch.source.shared →
        ch.delivered = (messagesOf (sourceMoves moves)).map Outgoing.received) := by
  have hgot : ch.got Chunk.bytes <+: ch.source.shared :=
    Piped.taken_begins (fun _ _ _ hstep => hstep.grows) h
  obtain ⟨fs, hstream, hevents⟩ := exists_frames_of_sent hframed
  have hshared : ch.source.shared = fs.flatMap Frame.segment := by
    rw [Senders.shared_eq (Piped.run_source h), List.nil_append, hstream]
  rw [hshared] at hgot ⊢
  rw [messagesOf, ← hevents]
  exact ⟨eventsOf_begins hgot, fun hall => eventsOf_frames hall⟩

/-- **Two clients and their stream are a queue.**  Any number of threads send plain
messages while the other client listens.  At every time its calls are those of the first
messages that were sent, in the order of `writeMu`, each once and as it was sent; and when
everything that was written has been read, they are those of all messages. -/
theorem Channel.listen_queue {c : ClientState} (hc : c.connected = true)
    {moves : List (ChannelMove ι)} {ch : Channel ι}
    (h : Run (Channel.Step connected) Channel.start moves ch)
    (hplain : PlainSends (sourceMoves moves)) :
    ∃ now later, messagesOf (sourceMoves moves) = now ++ later ∧
      (c.listen ch.taken).2 = (now.map Outgoing.received).flatMap c.handlers.invoke ∧
      (ch.got Chunk.bytes = ch.source.shared → later = []) := by
  obtain ⟨⟨rest, hrest⟩, hall⟩ := Channel.delivered_begins h hplain.framed
  have hlisten : (c.listen ch.taken).2 = ch.delivered.flatMap c.handlers.invoke := by
    simp [ClientState.listen, hc, delivered]
  obtain ⟨now, later, hsplit, hnow, hlater⟩ := List.map_eq_append_iff.mp hrest.symm
  refine ⟨now, later, hsplit, by rw [hlisten, hnow], fun hdrained => ?_⟩
  have heq := hall hdrained
  rw [hsplit, List.map_append, hnow] at heq
  simpa using heq

end

/-- A request is sent, and read before its thread has let the lock go: at first a part of
it, then the rest. -/
def sendAndRead : List (ChannelMove Unit) :=
  [.source (.call () (.send (some pingRequest))), .source (.lock () (.send (some pingRequest))),
    .source (.act () (some 5)), .take ⟨['c', ' '], by decide, by decide⟩,
    .take ⟨['~', 'h', '\n'], by decide, by decide⟩]

theorem run_sendAndRead : ∃ ch : Channel Unit,
    ch.taken = [⟨['c', ' '], by decide, by decide⟩, ⟨['~', 'h', '\n'], by decide, by decide⟩] ∧
      Run (Channel.Step true) Channel.start sendAndRead ch := by
  have hwritten : Run (Channel.Step true) Channel.start (sendAndRead.take 3) _ :=
    .step (.step (.step .start (.source (.passed rfl (.call rfl))))
      (.source (.goesOn (by simp [Move.GoesOn]) (.lock rfl rfl))))
      (.source (.goesOn (by simp [Move.GoesOn]) (.act rfl _)))
  exact ⟨_, rfl, .step (.step hwritten (.take (by decide))) (.take (by decide))⟩

theorem pingRequest_plain : (Outgoing.request pingRequest).IsPlain :=
  ⟨⟨by decide, by decide, by decide⟩, by decide, by decide, by decide, by decide⟩

/-- One request, and the same one twice. -/
theorem wires_begin_twice :
    [Outgoing.request pingRequest].map Outgoing.received <+:
      [Outgoing.request pingRequest, .request pingRequest].map Outgoing.received := by
  have hplain : ∀ n, ∀ m ∈ List.replicate n (Outgoing.request pingRequest), m.IsPlain := by
    intro n m hm
    obtain rfl := List.eq_of_mem_replicate hm
    exact pingRequest_plain
  exact wires_begin (hplain 1) (hplain 2) (List.prefix_append _ _)

/-- A thread has sent it. -/
theorem plainSends_ping {ι : Type} {moves : List (SendMove ι)} {i : ι}
    (h : Threads.served moves = [⟨i, .send (some pingRequest), [some 5]⟩]) :
    PlainSends moves := by
  intro x hx
  obtain rfl := List.mem_singleton.mp (h ▸ hx)
  refine ⟨fun k rest hk => ?_, .request pingRequest, rfl, pingRequest_plain⟩
  obtain rfl := Option.some.inj (List.cons.inj hk).1
  exact show ((SendCall.send (some pingRequest)).payload.getD []).length ≤ 5 by decide

/-- It is delivered by then. -/
theorem Channel.listen_queue_one : ∃ (ch : Channel Unit) (now later : List Outgoing),
    messagesOf (sourceMoves sendAndRead) = now ++ later ∧
      (oneOfEach.listen ch.taken).2 =
        (now.map Outgoing.received).flatMap oneOfEach.handlers.invoke := by
  obtain ⟨ch, _, hrun⟩ := run_sendAndRead
  obtain ⟨now, later, hsplit, hcalls, _⟩ :=
    Channel.listen_queue (c := oneOfEach) rfl hrun (plainSends_ping (i := ()) rfl)
  exact ⟨ch, now, later, hsplit, hcalls⟩

end SporeClient.Client
