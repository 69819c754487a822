/-
  Client/Delivery.lean --- messages that are sent and what is delivered.

  WHAT THIS FILE IS FOR.  A sender puts the text of each message and a newline on the wire.
  When the text of a message is one frame, `listen` reads the frame and a blank line, and
  delivers what is dispatched for the frame (`listen_wires`).  When the frame is tidy, that
  is the message that `create_from_raw` makes of the text.  So all messages that come back
  from their own texts and are valid are delivered, if each is one tidy frame
  (`listen_sendAll`).
-/
import SporeClient.Client.OneShot
import SporeClient.Client.Send
import SporeClient.Wire.ReadBack

set_option autoImplicit false

namespace SporeClient.Client

open SporeClient.Foundation
open SporeClient.Parser
open SporeClient.Wire

/-! ## Frames on the wire -/

/-- Messages whose texts are frames are the frames on the wire, with a blank line behind
each. -/
theorem exists_frames {ms : List Outgoing} {received : Outgoing → Event}
    (h : ∀ m ∈ ms, ∃ f : Frame, m.wire = f.segment ++ ['\n'] ∧ f.event = some (received m)) :
    ∃ fs : List Frame, ms.flatMap Outgoing.wire = fs.flatMap Frame.segment ∧
      fs.filterMap Frame.event = ms.map received := by
  induction ms with
  | nil => exact ⟨[], rfl, rfl⟩
  | cons m rest ih =>
      obtain ⟨fs, hwire, hevents⟩ := ih fun a ha => h a (List.mem_cons_of_mem _ ha)
      obtain ⟨f, hsegment, hevent⟩ := h m List.mem_cons_self
      have hblank : blankFrame.segment = ['\n'] := rfl
      have hnone : blankFrame.event = none := rfl
      refine ⟨f :: blankFrame :: fs, ?_, ?_⟩
      · rw [List.flatMap_cons, hwire, hsegment, List.flatMap_cons, List.flatMap_cons, hblank,
          List.append_assoc]
      · rw [List.filterMap_cons, hevent, List.filterMap_cons, hnone, hevents, List.map_cons]

/-- **What is sent is what is delivered**, when each text is a frame that delivers its
message. -/
theorem listen_wires {c : ClientState} (hc : c.connected = true) {s : Sender}
    (hs : s.client.connected = true) (hstart : s.stream = []) {ms : List Outgoing}
    {received : Outgoing → Event}
    (h : ∀ m ∈ ms, ∃ f : Frame, m.wire = f.segment ++ ['\n'] ∧ f.event = some (received m))
    {reads : List Chunk} (hreads : (reads.map Chunk.bytes).flatten = (s.sendAll ms).stream) :
    (c.listen reads).2 = (ms.map received).flatMap c.handlers.invoke := by
  obtain ⟨fs, hwire, hevents⟩ := exists_frames h
  rw [Sender.sendAll_stream hs, hstart, List.nil_append, hwire] at hreads
  rw [listen_of_frames hc hreads, hevents]

/-! ## Tidy frames -/

/-- The text is one frame, and the frame is tidy. -/
def OneTidyFrame (text : Bytes) : Prop :=
  ∃ f : Frame, f.segment = text ∧ TidyHeld (f.held.map stripCR)

/-- A tidy frame delivers what is parsed from its bytes at once, when that is accepted. -/
theorem Frame.event_of_accepts {f : Frame} (htidy : TidyHeld (f.held.map stripCR))
    {type : MessageType} (h : Accepts (rawInput f.segment) type) :
    f.event = deliver f.segment type (parseRaw f.segment).2 := by
  have hbuild := f.build_segment htidy {} {}
  obtain ⟨htype, hvalid⟩ := (accepts_iff _ _).mp h
  have htext : Accepts f.text type := by
    rw [accepts_iff, parseNew_eq, ← hbuild]
    rw [parseNew_eq] at htype hvalid
    exact ⟨htype, hvalid⟩
  have hmsg : (parseNew f.text).2 = (parseRaw f.segment).2 := by
    rw [parseRaw, parseNew_eq, parseNew_eq (rawInput f.segment), hbuild]
  rw [Frame.event_of_text htext, hmsg]

/-! ## Messages that come back -/

/-- The message comes back from its own text.  Only requests and publishes are considered. -/
def Outgoing.ComesBack : Outgoing → Prop
  | .request r => r.ComesBack
  | .publish p => p.ComesBack
  | _ => False

/-- What is delivered for a message: what of it is sent, with the bytes it was read from.  An
ok response has the flag `ok`; a publish has no command and no handle. -/
def Outgoing.received : Outgoing → Event
  | .request r => .request ⟨r.toMessage.setRaw r.serialize⟩
  | .response r => .response ⟨{ r.toMessage with flags := r.flags.add okWord, raw := r.serialize }⟩
  | .responseError e => .responseError { e with raw := e.serialize }
  | .witness w => .witness { w with raw := w.serialize }
  | .publish p => .publish ⟨{ args := p.args, flags := p.flags, raw := p.serialize }, p.topic⟩

/-- A valid message that comes back and is one tidy frame is delivered by that frame. -/
theorem Outgoing.ComesBack.exists_frame {m : Outgoing} (hback : m.ComesBack)
    (haccepted : IsAccepted m.serialize) (hframe : OneTidyFrame m.serialize) :
    ∃ f : Frame, m.wire = f.segment ++ ['\n'] ∧ f.event = some m.received := by
  obtain ⟨f, hsegment, htidy⟩ := hframe
  refine ⟨f, ?_, ?_⟩
  · rw [wire, hsegment]
    cases m with
    | request r => rw [serialize, cstr_eq_self (Request.ComesBack.nul_not_mem hback)]
    | publish p => rw [serialize, cstr_eq_self (Publish.ComesBack.nul_not_mem hback)]
    | _ => exact absurd hback id
  · cases m with
    | request r =>
        have haccepts := Request.ComesBack.accepts_rawInput hback haccepted
        rw [serialize] at hsegment
        rw [← hsegment] at haccepts
        rw [Frame.event_of_accepts htidy haccepts, hsegment]
        obtain ⟨⟨⟨command, handle, args, flags, raw⟩⟩, hcreate, hsame⟩ := hback
        unfold Request.createFromRaw at hcreate
        split at hcreate
        · have hr := Option.some.inj hcreate
          obtain ⟨rfl, rfl, rfl, rfl⟩ := hsame
          rw [deliver, listenRequest_eq, hr, received]
          have hraw : raw = r.serialize := by
            rw [Request.ofParsed_eq] at hr
            simpa using congrArg (fun r : Request => r.raw) hr.symm
          rw [hraw]
          rfl
        · simp at hcreate
    | publish p =>
        have haccepts := Publish.ComesBack.accepts_rawInput hback haccepted
        rw [serialize] at hsegment
        rw [← hsegment] at haccepts
        rw [Frame.event_of_accepts htidy haccepts, hsegment]
        obtain ⟨⟨⟨command, handle, args, flags, raw⟩, topic⟩, hcreate, hsame, htopic⟩ := hback
        unfold Publish.createFromRaw at hcreate
        split at hcreate
        · have hp := Option.some.inj hcreate
          obtain ⟨rfl, rfl, rfl, rfl⟩ := hsame
          subst htopic
          rw [deliver, listenPublish_eq, hp, received]
          rw [Publish.ofParsed_eq] at hp
          have hcommand := congrArg (fun p : Publish => p.command) hp
          have hhandle := congrArg (fun p : Publish => p.handle) hp
          have hraw := congrArg (fun p : Publish => p.raw) hp
          simp only at hcommand hhandle hraw
          rw [← hcommand, ← hhandle, ← hraw]
        · simp at hcreate
    | _ => exact absurd hback id

/-- **Framing keeps every message that survives serialization and is one tidy frame.**
Requests and publishes sent one after another are delivered in order, each once, as they
were, and no parse error is reported. -/
theorem listen_sendAll {c : ClientState} (hc : c.connected = true) {s : Sender}
    (hs : s.client.connected = true) (hstart : s.stream = []) {ms : List Outgoing}
    (hback : ∀ m ∈ ms, m.ComesBack) (haccepted : ∀ m ∈ ms, IsAccepted m.serialize)
    (hframe : ∀ m ∈ ms, OneTidyFrame m.serialize) {reads : List Chunk}
    (hreads : (reads.map Chunk.bytes).flatten = (s.sendAll ms).stream) :
    (c.listen reads).2 = (ms.map Outgoing.received).flatMap c.handlers.invoke :=
  listen_wires hc hs hstart
    (fun m hm => (hback m hm).exists_frame (haccepted m hm) (hframe m hm)) hreads

/-- A request with two values that are written in blocks. -/
def blocksRequest : Request :=
  ⟨{ command := ['c'], handle := ['h']
     args := SortedMap.ofList [(['a'], ['x', '\n', '1']), (['b'], ['y', '\n', '2'])] }⟩

/-- A publish without arguments. -/
def topicPublish : Publish := { topic := ['t'] }

theorem blocksRequest_tidy : OneTidyFrame (Outgoing.request blocksRequest).serialize := by
  refine ⟨⟨["c ~h a=<<".toList, ['x'], ['1'], ">> b=<<".toList, ['y'], ['2']], closeMark,
    by decide, by decide, by decide⟩, by decide, ?_⟩
  have hheld : ["c ~h a=<<".toList, ['x'], ['1'], ">> b=<<".toList, ['y'], ['2']].map stripCR =
      ["c ~h a=<<".toList, ['x'], ['1'], closeMark ++ ' ' :: ['b'] ++ '=' :: openMark,
        ['y'], ['2']] := by
    decide
  rw [hheld, TidyHeld, TidyRest, if_neg (by decide), TidyRest, if_neg (by decide), TidyRest,
    if_pos (by decide), TidyRest, if_neg (by decide), TidyRest, if_neg (by decide)]
  exact ⟨⟨closeMark, ['b'], rfl, by decide, by decide⟩, by decide, trivial⟩

theorem topicPublish_tidy : OneTidyFrame (Outgoing.publish topicPublish).serialize :=
  ⟨⟨[], "publish t".toList, by decide, by decide, by decide⟩, by decide, trivial⟩

theorem topicPublish_comesBack : (Outgoing.publish topicPublish).ComesBack :=
  ⟨({ topicPublish with raw := topicPublish.serialize } : Publish), by decide, by decide, by decide⟩

/-- Both are delivered. -/
theorem listen_sendAll_two :
    let ms : List Outgoing := [.request blocksRequest, .publish topicPublish]
    let s : Sender := { client := oneOfEach, stream := [] }
    ∃ chunk : Chunk, chunk.bytes = (s.sendAll ms).stream ∧
      (oneOfEach.listen [chunk]).2 =
        (ms.map Outgoing.received).flatMap oneOfEach.handlers.invoke := by
  refine ⟨⟨(Sender.sendAll { client := oneOfEach, stream := [] }
    [.request blocksRequest, .publish topicPublish]).stream, by decide, by decide⟩, rfl, ?_⟩
  refine listen_sendAll rfl (s := { client := oneOfEach, stream := [] }) rfl rfl ?_ ?_ ?_ (by simp)
  · simp only [List.forall_mem_cons, List.not_mem_nil, false_implies, implies_true, and_true]
    exact ⟨⟨⟨blocksRequest.toMessage.setRaw blocksRequest.serialize⟩, by decide, by decide⟩,
      topicPublish_comesBack⟩
  · decide
  · simp only [List.forall_mem_cons, List.not_mem_nil, false_implies, implies_true, and_true]
    exact ⟨blocksRequest_tidy, topicPublish_tidy⟩

/-- A request whose value has a `<<` in it, and is written in quotes. -/
def quotedMarkRequest : Request :=
  ⟨{ command := ['c'], handle := ['h']
     args := SortedMap.ofList [(['k'], ['a', ' ', '<', '<', ' ', 'b'])] }⟩

/-- It comes back from its own text and is valid; but `listen` takes it for the start of a
frame of several lines, and delivers neither it nor the publish behind it. -/
theorem not_all_delivered :
    ¬∀ (c : ClientState) (s : Sender) (ms : List Outgoing) (reads : List Chunk),
      c.connected = true → s.client.connected = true → s.stream = [] →
      (∀ m ∈ ms, m.ComesBack) → (∀ m ∈ ms, IsAccepted m.serialize) →
      (reads.map Chunk.bytes).flatten = (s.sendAll ms).stream →
      (c.listen reads).2 = (ms.map Outgoing.received).flatMap c.handlers.invoke := by
  intro h
  have hcalls := h oneOfEach { client := oneOfEach, stream := [] }
    [.request quotedMarkRequest, .publish topicPublish]
    [⟨(Sender.sendAll { client := oneOfEach, stream := [] }
      [.request quotedMarkRequest, .publish topicPublish]).stream, by decide, by decide⟩]
    rfl rfl rfl
    (by
      simp only [List.forall_mem_cons, List.not_mem_nil, false_implies, implies_true, and_true]
      exact ⟨⟨⟨quotedMarkRequest.toMessage.setRaw quotedMarkRequest.serialize⟩,
        by decide, by decide⟩,
        topicPublish_comesBack⟩)
    (by decide) (by decide)
  exact absurd hcalls (by decide)

end SporeClient.Client
