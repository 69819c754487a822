/-
  Client/LineEndings.lean --- newlines and Windows line endings.

  WHAT THIS FILE IS FOR.  `listen` drops the `\r` at the end of each line it cuts off,
  `create_from_raw` drops each `\r` before a `\n` in the whole text.  For a stream without
  carriage returns both read the same, whether its lines end in `\n` or in `\r\n`; only
  what `getRaw` returns differs.
-/
import SporeClient.Client.Frames
import SporeClient.Wire.RoundTrip

set_option autoImplicit false

namespace SporeClient.Wire

open SporeClient.Foundation
open SporeClient.Parser

/-! ## Objects without their raw bytes -/

/-- A request, but for `getRaw`. -/
def Request.withoutRaw (r : Request) : Request := { r with raw := [] }

/-- An ok response, but for `getRaw`. -/
def Response.withoutRaw (r : Response) : Response := { r with raw := [] }

/-- An error response, but for `getRaw`. -/
def ResponseError.withoutRaw (e : ResponseError) : ResponseError := { e with raw := [] }

/-- A witness, but for `getRaw`. -/
def Witness.withoutRaw (w : Witness) : Witness := { w with raw := [] }

/-- A publish, but for `getRaw`. -/
def Publish.withoutRaw (p : Publish) : Publish := { p with raw := [] }

section

variable (m : ParsedMessage) (raw : Bytes)

theorem Request.ofParsed_withoutRaw :
    (Request.ofParsed m raw).withoutRaw = Request.ofParsed m [] := by
  rw [ofParsed_eq, ofParsed_eq]
  rfl

theorem Response.ofParsed_withoutRaw :
    (Response.ofParsed m raw).withoutRaw = Response.ofParsed m [] := by
  rw [ofParsed_eq, ofParsed_eq]
  rfl

theorem Publish.ofParsed_withoutRaw :
    (Publish.ofParsed m raw).withoutRaw = Publish.ofParsed m [] := by
  rw [ofParsed_eq, ofParsed_eq]
  rfl

theorem ResponseError.ofParsed_withoutRaw :
    (ResponseError.ofParsed m raw).withoutRaw = ResponseError.ofParsed m [] := by
  have hfields : ∀ msg : Message, takeFields ⟨msg, [], []⟩ m.args =
      ⟨msg, (takeFields {} m.args).code, (takeFields {} m.args).what⟩ := fun msg =>
    takeFields_mk {} msg m.args
  have hparsed : ∀ raw, ofParsed m raw =
      takeFields ⟨(populateMessage {} m true).setRaw raw, [], []⟩ m.args := fun _ => rfl
  rw [hparsed, hparsed, hfields ((populateMessage {} m true).setRaw raw),
    hfields ((populateMessage {} m true).setRaw [])]
  rfl

/-- The raw bytes of a witness have no part in copying its arguments. -/
theorem Witness.takeArgs_withoutRaw (w : Witness) (l : List (Bytes × Bytes)) :
    (takeArgs w l).withoutRaw = takeArgs w.withoutRaw l := by
  induction l generalizing w with
  | nil => rfl
  | cons p rest ih =>
      rw [takeArgs, takeArgs]
      split
      · exact ih { w with body := p.2 }
      · exact ih { w with toMessage := w.toMessage.addArg p.1 p.2 }

theorem Witness.ofParsed_withoutRaw :
    (Witness.ofParsed m raw).withoutRaw = Witness.ofParsed m [] := by
  have htake := Witness.takeArgs_withoutRaw ⟨({} : Message).setRaw raw, []⟩ m.args
  have hstart : (⟨({} : Message).setRaw raw, []⟩ : Witness).withoutRaw =
      ⟨({} : Message).setRaw [], []⟩ := rfl
  rw [hstart] at htake
  rw [ofParsed, ofParsed, ← htake]
  simp only [withoutRaw, Message.addFlags_eq]

end

end SporeClient.Wire

namespace SporeClient.Client

open SporeClient.Foundation
open SporeClient.Parser
open SporeClient.Wire

/-! ## Calls without their raw bytes -/

/-- A call, but for `getRaw` of its message. -/
def Event.withoutRaw : Event → Event
  | .request r => .request r.withoutRaw
  | .response r => .response r.withoutRaw
  | .responseError e => .responseError e.withoutRaw
  | .witness w => .witness w.withoutRaw
  | .publish p => .publish p.withoutRaw
  | .parseError code what raw => .parseError code what raw

/-- A call of a handler, but for `getRaw` of its message. -/
def Callback.withoutRaw (call : Callback) : Callback := { call with event := call.event.withoutRaw }

theorem Handlers.invoke_withoutRaw (hs : Handlers) (e : Event) :
    (hs.invoke e).map Callback.withoutRaw = hs.invoke e.withoutRaw := by
  cases e <;> simp [invoke, forEvent, Event.withoutRaw, Callback.withoutRaw]

/-- What is delivered does not depend on the raw bytes, but for `getRaw`. -/
theorem deliver_withoutRaw (rawLine : Bytes) (type : MessageType) (m : ParsedMessage) :
    (deliver rawLine type m).map Event.withoutRaw = deliver [] type m := by
  cases type with
  | unknown => rfl
  | request =>
      simp [deliver, Event.withoutRaw, listenRequest_eq, Request.ofParsed_withoutRaw]
  | response =>
      simp only [deliver, listenResponse_eq, listenResponseError_eq]
      split
      · simp [Event.withoutRaw, ResponseError.ofParsed_withoutRaw]
      · simp [Event.withoutRaw, Response.ofParsed_withoutRaw]
  | witness =>
      simp [deliver, Event.withoutRaw, listenWitness_eq, Witness.ofParsed_withoutRaw]
  | publish =>
      simp [deliver, Event.withoutRaw, listenPublish_eq, Publish.ofParsed_withoutRaw]

theorem dispatch_withoutRaw (rawLine line : Bytes) :
    (dispatch rawLine line).map Event.withoutRaw = dispatch [] line := by
  simp only [dispatch]
  split
  · rfl
  · exact deliver_withoutRaw _ _ _

/-! ## Lines -/

/-- Replace every newline by `\r\n`. -/
def crlf (text : Bytes) : Bytes := text.flatMap fun c => if c = '\n' then ['\r', '\n'] else [c]

theorem crlf_of_not_mem {text : Bytes} (h : '\n' ∉ text) : crlf text = text := by
  induction text with
  | nil => rfl
  | cons c rest ih =>
      have hc : c ≠ '\n' := fun heq => h (heq ▸ List.mem_cons_self)
      have hrest := ih fun hmem => h (List.mem_cons_of_mem c hmem)
      rw [crlf] at hrest
      rw [crlf, List.flatMap_cons, if_neg hc, hrest]
      rfl

theorem crlf_append (a b : Bytes) : crlf (a ++ b) = crlf a ++ crlf b := by
  simp [crlf]

/-- Each line has a `\r` at its end. -/
theorem crlf_unlines {ls : List Bytes} (h : ∀ l ∈ ls, '\n' ∉ l) :
    crlf (unlines '\n' ls) = unlines '\n' (ls.map (· ++ ['\r'])) := by
  induction ls with
  | nil => rfl
  | cons l ls ih =>
      have hnewline : crlf ['\n'] = ['\r', '\n'] := rfl
      rw [unlines_cons, List.map_cons, unlines_cons, crlf_append,
        crlf_of_not_mem (h l List.mem_cons_self), ← List.singleton_append, crlf_append, hnewline,
        ih fun a ha => h a (List.mem_cons_of_mem l ha)]
      simp

/-- `parseRaw` takes the carriage returns away again. -/
theorem dropCR_crlf {text : Bytes} (h : '\r' ∉ text) : dropCR (crlf text) = text := by
  induction text with
  | nil => rfl
  | cons c rest ih =>
      have hc : c ≠ '\r' := fun heq => h (heq ▸ List.mem_cons_self)
      have hrest := ih fun hmem => h (List.mem_cons_of_mem c hmem)
      have hcons : crlf (c :: rest) = (if c = '\n' then ['\r', '\n'] else [c]) ++ crlf rest := rfl
      rw [hcons]
      split
      · rename_i hnl
        rw [List.cons_append, List.singleton_append, dropCR, if_pos ⟨rfl, rfl⟩, dropCR,
          if_neg (by simp), hrest, hnl]
      · rw [List.singleton_append, dropCR, if_neg (fun hand => hc hand.1), hrest]

/-! ## The loop of `listen` -/

/-- Two states of the loop that have read the same text. -/
structure FrameState.SameText (s t : FrameState) : Prop where
  line : s.line = t.line
  multiline : s.multiline = t.multiline

theorem stripCR_of_not_mem {l : Bytes} (h : '\r' ∉ l) : stripCR l = l := by
  unfold stripCR
  split
  · rename_i hlast
    exact absurd (List.mem_of_getLast? hlast) h
  · rfl

theorem stripCR_concat (l : Bytes) : stripCR (l ++ ['\r']) = l := by
  simp [stripCR]

/-- What a line puts out, but for `getRaw`. -/
def eventsWithoutRaw (rs : List Released) : List Event :=
  (rs.filterMap Released.event).map Event.withoutRaw

/-- A line has the same effect with a `\r` at its end. -/
theorem onLine_crlf {s t : FrameState} (h : s.SameText t) {l : Bytes} (hl : '\r' ∉ l) :
    (onLine s (l ++ ['\r'])).1.SameText (onLine t l).1 ∧
      eventsWithoutRaw (onLine s (l ++ ['\r'])).2.toList =
        eventsWithoutRaw (onLine t l).2.toList := by
  have hstrip : stripCR (l ++ ['\r']) = stripCR l := by
    rw [stripCR_concat, stripCR_of_not_mem hl]
  have hhold : ∀ line, (s.hold (l ++ ['\r']) line).1.SameText (t.hold l line).1 ∧
      eventsWithoutRaw (s.hold (l ++ ['\r']) line).2.toList =
        eventsWithoutRaw (t.hold l line).2.toList := fun line =>
    ⟨⟨rfl, rfl⟩, rfl⟩
  have hfinish : ∀ line, (s.finish (l ++ ['\r']) line).1.SameText (t.finish l line).1 ∧
      eventsWithoutRaw (s.finish (l ++ ['\r']) line).2.toList =
        eventsWithoutRaw (t.finish l line).2.toList := by
    intro line
    have hline : ∀ (s : FrameState) (l : Bytes), (s.finish l line).1.line = line := by
      intro s l
      unfold FrameState.finish endFrame
      split <;> rfl
    refine ⟨⟨(hline s _).trans (hline t _).symm, by simp [FrameState.finish]⟩, ?_⟩
    have hout : ∀ (s : FrameState) (l : Bytes),
        eventsWithoutRaw (s.finish l line).2.toList =
          (if line = [] then none else dispatch [] line).toList := by
      intro s l
      rw [FrameState.finish_out]
      split
      · rfl
      · rw [← dispatch_withoutRaw (s.rawLine ++ l ++ ['\n'])]
        cases hd : dispatch (s.rawLine ++ l ++ ['\n']) line <;> simp [eventsWithoutRaw]
    rw [hout, hout]
  cases hm : t.multiline with
  | false =>
      rw [onLine_first hm, onLine_first (h.multiline.trans hm), hstrip]
      split
      · exact hhold _
      · exact hfinish _
  | true =>
      rw [onLine_block hm, onLine_block (h.multiline.trans hm), hstrip, h.line]
      split
      · split
        · exact hhold _
        · exact hfinish _
      · exact hhold _

/-- Lines have the same effect with a `\r` at the end of each. -/
theorem onLines_crlf {s t : FrameState} (h : s.SameText t) {ls : List Bytes}
    (hls : ∀ l ∈ ls, '\r' ∉ l) :
    eventsWithoutRaw (listenReader.onLines s (ls.map (· ++ ['\r']))).2 =
      eventsWithoutRaw (listenReader.onLines t ls).2 := by
  induction ls generalizing s t with
  | nil => rfl
  | cons l ls ih =>
      obtain ⟨hnext, hout⟩ := onLine_crlf h (hls l List.mem_cons_self)
      have hrest := ih hnext fun a ha => hls a (List.mem_cons_of_mem l ha)
      have happend : ∀ a b, eventsWithoutRaw (a ++ b) = eventsWithoutRaw a ++ eventsWithoutRaw b :=
        fun a b => by simp [eventsWithoutRaw]
      rw [List.map_cons, LineReader.onLines, LineReader.onLines, happend, happend]
      exact congrArg₂ (· ++ ·) hout hrest

/-- **`listen` makes the same calls.** -/
theorem ClientState.listen_crlf {text : Bytes} (h : '\r' ∉ text) (c : ClientState)
    {reads reads' : List Chunk} (hreads : (reads.map Chunk.bytes).flatten = text)
    (hreads' : (reads'.map Chunk.bytes).flatten = crlf text) :
    (c.listen reads').1 = (c.listen reads).1 ∧
      (c.listen reads').2.map Callback.withoutRaw = (c.listen reads).2.map Callback.withoutRaw := by
  obtain ⟨ls, tail, hstream, hls, htail⟩ := exists_unlines '\n' text
  have hcr : ∀ l ∈ ls, '\r' ∉ l := fun l hl hmem => h (by
    rw [hstream, unlines]
    exact List.mem_append_left _ (List.mem_flatMap.mpr ⟨l, hl, List.mem_append_left _ hmem⟩))
  have hevents : (eventsOf (reads'.map Chunk.bytes)).map Event.withoutRaw =
      (eventsOf (reads.map Chunk.bytes)).map Event.withoutRaw := by
    have hlines : ∀ l ∈ ls.map (· ++ ['\r']), '\n' ∉ l := by
      intro l hl
      obtain ⟨a, ha, rfl⟩ := List.mem_map.mp hl
      simpa using hls a ha
    have hstream' : (reads'.map Chunk.bytes).flatten =
        unlines '\n' (ls.map (· ++ ['\r'])) ++ tail := by
      rw [hreads', hstream, crlf_append, crlf_unlines hls, crlf_of_not_mem htail]
    rw [eventsOf, eventsOf, releasedOf_eq hlines htail hstream',
      releasedOf_eq hls htail (hreads.trans hstream)]
    exact onLines_crlf ⟨rfl, rfl⟩ hcr
  have hcalls : ∀ events : List Event, (events.flatMap c.handlers.invoke).map Callback.withoutRaw =
      (events.map Event.withoutRaw).flatMap c.handlers.invoke := by
    intro events
    rw [List.map_flatMap, List.flatMap_map]
    exact congrArg (events.flatMap ·) (funext c.handlers.invoke_withoutRaw)
  cases hc : c.connected with
  | false => simp [ClientState.listen, hc]
  | true =>
      simp only [ClientState.listen, hc, if_true, true_and]
      rw [hcalls, hcalls, hevents]

/-- **The style of the line endings does not matter**: not to `listen`, and not to the
`create_from_raw` functions. -/
theorem lineEndings {text : Bytes} (h : '\r' ∉ text) :
    (∀ (c : ClientState) (reads reads' : List Chunk),
      (reads.map Chunk.bytes).flatten = text → (reads'.map Chunk.bytes).flatten = crlf text →
        (c.listen reads').1 = (c.listen reads).1 ∧
          (c.listen reads').2.map Callback.withoutRaw =
            (c.listen reads).2.map Callback.withoutRaw) ∧
      (Request.createFromRaw (crlf text)).map Request.withoutRaw =
        (Request.createFromRaw text).map Request.withoutRaw ∧
      (Response.createFromRaw (crlf text)).map Response.withoutRaw =
        (Response.createFromRaw text).map Response.withoutRaw ∧
      (ResponseError.createFromRaw (crlf text)).map ResponseError.withoutRaw =
        (ResponseError.createFromRaw text).map ResponseError.withoutRaw ∧
      (Witness.createFromRaw (crlf text)).map Witness.withoutRaw =
        (Witness.createFromRaw text).map Witness.withoutRaw ∧
      (Publish.createFromRaw (crlf text)).map Publish.withoutRaw =
        (Publish.createFromRaw text).map Publish.withoutRaw := by
  have hraw : parseRaw (crlf text) = parseRaw text := by
    rw [parseRaw, parseRaw, rawInput, rawInput, dropCR_crlf h, dropCR_eq_self (noCRLF_of_not_mem h)]
  refine ⟨fun c reads reads' => c.listen_crlf h, ?_, ?_, ?_, ?_, ?_⟩
  · rw [Request.createFromRaw, Request.createFromRaw, hraw]
    split <;> simp [Request.ofParsed_withoutRaw]
  · rw [Response.createFromRaw, Response.createFromRaw, hraw]
    split <;> simp [Response.ofParsed_withoutRaw]
  · rw [ResponseError.createFromRaw, ResponseError.createFromRaw, hraw]
    split <;> simp [ResponseError.ofParsed_withoutRaw]
  · rw [Witness.createFromRaw, Witness.createFromRaw, hraw]
    split <;> simp [Witness.ofParsed_withoutRaw]
  · rw [Publish.createFromRaw, Publish.createFromRaw, hraw]
    split <;> simp [Publish.ofParsed_withoutRaw]

/-- A frame of three lines and a message of one line. -/
def blockThenOk : Bytes := "c ~h b=<<\nx\n>>\n~h:c ok\n".toList

theorem lineEndings_block :
    let c : ClientState := { connected := true, handlers := ⟨[1], [2], [3], [4], [5]⟩ }
    (c.listen [⟨crlf blockThenOk, by decide, by decide⟩]).2.map Callback.withoutRaw =
      (c.listen [⟨blockThenOk, by decide, by decide⟩]).2.map Callback.withoutRaw :=
  have hcr : '\r' ∉ blockThenOk := by decide
  ((lineEndings hcr).1 _ [⟨blockThenOk, by decide, by decide⟩]
    [⟨crlf blockThenOk, by decide, by decide⟩] (by decide) (by decide)).2

end SporeClient.Client
