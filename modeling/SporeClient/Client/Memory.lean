/-
  Client/Memory.lean --- the parsers and messages of `Client::listen` and of the
  `spore_*_create_from_raw`, as objects behind pointers.

  WHAT THIS FILE IS FOR.  `Listen.lean` and `FromRaw.lean` work with values.  The source
  works with a parser and a message behind pointers: it makes them with `new`, reads them
  through getters that give null pointers for empty texts, and deletes them.  Here the same
  functions are given with the pointers, and have no result when they use an object that has
  been deleted, delete one twice, or make a string of a null pointer.  They always have a
  result, it is that of the functions on values, and when they are done the heap is as it
  was before (`listenIn_eq`, `createFromRawIn_eq`).
-/
import SporeClient.Client.Objects
import SporeClient.Parser.Handles

set_option autoImplicit false

namespace SporeClient.Client

open SporeClient.Foundation
open SporeClient.Parser
open SporeClient.Wire

/-! ## The switch over the type -/

/-- The `switch` of `listen`, reading the message through the getters. -/
def deliverIn (M : Memory) (rawLine : Bytes) (parser msg : Ptr) : Option (Option Event) := do
  match ← M.parserGetType parser with
  | .request =>
      let command ← M.messageGetCapability msg
      let handle ← M.messageGetHandle msg
      let args ← M.messageGetArgs msg
      let flags ← M.messageGetFlags msg
      some (some (.request
        ⟨((((({} : Message).setRaw rawLine).setCommand (command.getD [])).setHandle
          (handle.getD [])).addArgs args).addFlags flags⟩))
  | .response =>
      let flags ← M.messageGetFlags msg
      if flags.contains errorWord then
        -- the pointers are not compared with null here
        let command ← ← M.messageGetCapability msg
        let handle ← ← M.messageGetHandle msg
        let args ← M.messageGetArgs msg
        let e : ResponseError :=
          { ((({} : Message).setRaw rawLine).setCommand command).setHandle handle with }
        let e := listenErrorArgs e args
        some (some (.responseError { e with toMessage := e.toMessage.addFlags flags }))
      else
        let command ← M.messageGetCapability msg
        let handle ← M.messageGetHandle msg
        let args ← M.messageGetArgs msg
        some (some (.response
          ⟨((((({} : Message).setRaw rawLine).setCommand (command.getD [])).setHandle
            (handle.getD [])).addArgs args).addFlags flags⟩))
  | .witness =>
      let args ← M.messageGetArgs msg
      let w := listenWitnessArgs { ({} : Message).setRaw rawLine with } args
      let flags ← M.messageGetFlags msg
      some (some (.witness { w with toMessage := w.toMessage.addFlags flags }))
  | .publish =>
      let topic ← M.messageGetCapability msg
      let args ← M.messageGetArgs msg
      let flags ← M.messageGetFlags msg
      some (some (.publish
        { ((({} : Message).setRaw rawLine).addArgs args).addFlags flags with
          topic := topic.getD [] }))
  | .unknown => some none

/-- What becomes of a frame that has been parsed and validated; a handler is not called with
a null pointer for the text of a fault. -/
def dispatchIn (M : Memory) (rawLine line : Bytes) (parser msg : Ptr) : Option (Option Event) := do
  if ← M.parserHasError parser then
    let code ← ← M.parserGetErrorCode parser
    let what ← ← M.parserGetErrorWhat parser
    some (some (.parseError code what (cstr line)))
  else deliverIn M rawLine parser msg

section

variable {start M : Memory} {parser msg : Ptr} {p : ParserState} {m : ParsedMessage}

/-- The message is read as it is.  Only the command and the handle of an error response must
not be empty. -/
theorem deliverIn_eq (h : start.Owns M parser msg (some p) (some m)) (rawLine : Bytes)
    (herror : p.type = .response → errorWord ∈ m.flags → m.capability ≠ [] ∧ m.handle ≠ []) :
    deliverIn M rawLine parser msg = some (deliver rawLine p.type m) := by
  cases htype : p.type with
  | request =>
      simp [deliverIn, h.parserGetType, htype, h.messageGetCapability, h.messageGetHandle,
        h.messageGetArgs, h.messageGetFlags, deliver, listenRequest]
  | response =>
      by_cases hflag : errorWord ∈ m.flags
      · obtain ⟨hcommand, hhandle⟩ := herror htype hflag
        simp [deliverIn, h.parserGetType, htype, h.messageGetFlags, hflag, h.messageGetCapability,
          h.messageGetHandle, Memory.data_of_ne hcommand, Memory.data_of_ne hhandle,
          h.messageGetArgs, deliver, listenResponseError]
      · simp [deliverIn, h.parserGetType, htype, h.messageGetFlags, hflag, h.messageGetCapability,
          h.messageGetHandle, h.messageGetArgs, deliver, listenResponse]
  | witness =>
      simp [deliverIn, h.parserGetType, htype, h.messageGetArgs, h.messageGetFlags, deliver,
        listenWitness]
  | publish =>
      simp [deliverIn, h.parserGetType, htype, h.messageGetCapability, h.messageGetArgs,
        h.messageGetFlags, deliver, listenPublish]
  | unknown => simp [deliverIn, h.parserGetType, htype, deliver]

/-- A frame that has been validated is dispatched: what is read through a pointer that is
not compared with null is not empty. -/
theorem dispatchIn_eq {line : Bytes}
    (h : start.Owns M parser msg (some (parseAndValidate line).1)
      (some (parseAndValidate line).2)) (rawLine : Bytes) :
    dispatchIn M rawLine line parser msg = some (dispatch rawLine line) := by
  cases herror : (parseAndValidate line).1.hasError with
  | true =>
      have hcode : (parseAndValidate line).1.errorCode ≠ "" := by
        simpa [ParserState.hasError] using herror
      have hwhat : (parseAndValidate line).1.errorWhat ≠ "" := errorWhat_ne_empty _ _ herror
      simp [dispatchIn, h.parserHasError, h.parserGetErrorCode herror,
        h.parserGetErrorWhat herror, Memory.data_of_ne hcode, Memory.data_of_ne hwhat, dispatch,
        herror]
  | false =>
      have hdeliver := deliverIn_eq h rawLine fun htype _ => by
        have hvalid := ((accepts_iff line .response).mp ⟨herror, htype⟩).2
        exact ⟨ValidResponse.command hvalid, ValidResponse.handle hvalid⟩
      simp [dispatchIn, h.parserHasError, herror, hdeliver, dispatch]

end

/-! ## The loop of `listen` -/

/-- The variables of `listen` that live from one line to the next, with its two pointers. -/
structure PointerState where
  memory : Memory
  line : Bytes := []
  rawLine : Bytes := []
  multiline : Bool := false
  parser : Ptr := 0
  msg : Ptr := 0

/-- `endFrame`, with the pointers. -/
def endFrameIn (A : Placement) (s : PointerState) : Option (PointerState × Option Released) :=
  if s.line = [] then
    some ({ s with rawLine := [], multiline := false }, some ⟨s.rawLine, none⟩)
  else do
    let M ← s.memory.parserDestroy s.parser
    let M ← M.messageDestroy s.msg
    let (M, parser) := M.parserCreate A
    let (M, msg) := M.messageCreate A
    let M ← M.parse parser s.line msg
    let M ← M.validate parser msg
    let e ← dispatchIn M s.rawLine s.line parser msg
    some (⟨M, s.line, [], false, parser, msg⟩, some ⟨s.rawLine, e⟩)

/-- `onFirstLine`, with the pointers. -/
def onFirstLineIn (A : Placement) (s : PointerState) (currentLine : Bytes) :
    Option (PointerState × Option Released) :=
  if opensBlock currentLine then
    some ({ s with multiline := true, line := currentLine ++ ['\n'] }, none)
  else endFrameIn A { s with line := currentLine }

/-- `onBlockLine`, with the pointers. -/
def onBlockLineIn (A : Placement) (s : PointerState) (currentLine : Bytes) :
    Option (PointerState × Option Released) :=
  if isClose currentLine then
    if (find openMark currentLine).isSome then
      some ({ s with line := s.line ++ currentLine }, none)
    else endFrameIn A { s with line := s.line ++ currentLine }
  else some ({ s with line := s.line ++ currentLine ++ ['\n'] }, none)

/-- `onLine`, with the pointers. -/
def onLineIn (A : Placement) (s : PointerState) (l : Bytes) :
    Option (PointerState × Option Released) :=
  let s : PointerState := { s with rawLine := s.rawLine ++ l ++ ['\n'] }
  if s.multiline then onBlockLineIn A s (stripCR l) else onFirstLineIn A s (stripCR l)

/-- `Client::listen` as a reader of lines; `none` once a line had no result. -/
def pointerReader (A : Placement) : LineReader Char (Option PointerState) Released :=
  ⟨'\n', fun s l =>
    match s.bind fun s => onLineIn A s l with
    | none => (none, none)
    | some (s', o) => (some s', o)⟩

/-- The events of `Client::listen`, and the memory it leaves. -/
def listenIn (A : Placement) (M : Memory) (reads : List Bytes) : Option (Memory × List Event) := do
  let result := (pointerReader A).feedAll ⟨[], some { memory := M }⟩ reads
  let s ← result.1.state
  let M ← s.memory.messageDestroy s.msg
  let M ← M.parserDestroy s.parser
  some (M, result.2.filterMap Released.event)

/-- The pointers are those of the parser and the message of the last frame. -/
structure PointsTo (start : Memory) (s : FrameState) (v : PointerState) : Prop where
  line : v.line = s.line
  rawLine : v.rawLine = s.rawLine
  multiline : v.multiline = s.multiline
  owns : start.Owns v.memory v.parser v.msg s.parser s.msg

section

variable {start : Memory} {s : FrameState} {v : PointerState}

/-- The old parser and message are deleted and new ones are made. -/
theorem PointsTo.endFrame (A : Placement) (h : PointsTo start s v) :
    ∃ v', endFrameIn A v = some (v', (endFrame s).2) ∧ PointsTo start (endFrame s).1 v' := by
  obtain ⟨hline, hraw, hmulti, howns⟩ := h
  by_cases hempty : s.line = []
  · refine ⟨{ v with rawLine := [], multiline := false }, ?_, ?_⟩
    · rw [endFrameIn, if_pos (hline.trans hempty), hraw, Client.endFrame, if_pos hempty]
    · rw [Client.endFrame, if_pos hempty]
      exact ⟨hline, rfl, rfl, howns⟩
  · obtain ⟨M₁, hdestroy, h₁⟩ := howns.parserDestroy
    obtain ⟨M₂, hdestroy', h₂⟩ := h₁.messageDestroy
    obtain ⟨M₃, hparse, h₃⟩ := ((h₂.parserCreate A).messageCreate A).parse v.line
    obtain ⟨M₄, hvalidate, h₄⟩ := h₃.validate
    rw [hline] at h₄
    have hdispatch := dispatchIn_eq h₄ s.rawLine
    refine ⟨⟨M₄, s.line, [], false, (M₂.parserCreate A).2,
      ((M₂.parserCreate A).1.messageCreate A).2⟩, ?_, ?_⟩
    · rw [hline] at hparse
      simp [endFrameIn, hline, hempty, hdestroy, hdestroy', hparse, hvalidate, hdispatch, hraw,
        Client.endFrame]
    · rw [Client.endFrame, if_neg hempty]
      exact ⟨rfl, rfl, rfl, h₄⟩

theorem PointsTo.onLine (A : Placement) (h : PointsTo start s v) (l : Bytes) :
    ∃ v', onLineIn A v l = some (v', (onLine s l).2) ∧ PointsTo start (onLine s l).1 v' := by
  obtain ⟨hline, hraw, hmulti, howns⟩ := h
  simp only [onLineIn, Client.onLine, hmulti, hraw]
  split
  · simp only [onBlockLineIn, onBlockLine, hline]
    split
    · split
      · exact ⟨_, rfl, rfl, rfl, rfl, howns⟩
      · exact PointsTo.endFrame A ⟨rfl, rfl, rfl, howns⟩
    · exact ⟨_, rfl, rfl, rfl, rfl, howns⟩
  · simp only [onFirstLineIn, onFirstLine]
    split
    · exact ⟨_, rfl, rfl, rfl, rfl, howns⟩
    · exact PointsTo.endFrame A ⟨rfl, rfl, rfl, howns⟩

end

theorem pointsTo_start (start : Memory) : PointsTo start {} { memory := start } :=
  ⟨rfl, rfl, rfl, Heap.owns_start, Heap.owns_start⟩

/-- **`listen` uses its pointers well.**  Whatever arrives and wherever its parsers and
messages are put, it never uses one that has been deleted, deletes one twice or makes a
string of a null pointer; the memory it leaves has the parsers and messages that were there
before, and no others. -/
theorem listenIn_eq (A : Placement) (start : Memory) (reads : List Bytes) :
    ∃ M, listenIn A start reads = some (M, eventsOf reads) ∧ start.Owns M 0 0 none none := by
  obtain ⟨hstate, hout⟩ := LineReader.feedAll_simulates listenReader (pointerReader A) rfl
    (fun s v => ∃ v', v = some v' ∧ PointsTo start s v')
    (by
      rintro s v l ⟨v', rfl, hv'⟩
      obtain ⟨w, hw, hpoints⟩ := hv'.onLine A l
      simp only [pointerReader, Option.bind_some, hw]
      exact ⟨⟨w, rfl, hpoints⟩, rfl⟩)
    ⟨_, rfl, pointsTo_start start⟩ reads
  obtain ⟨v, hv, hpoints⟩ := hstate
  obtain ⟨M₁, hdestroy, h₁⟩ := hpoints.owns.messageDestroy
  obtain ⟨M₂, hdestroy', h₂⟩ := h₁.parserDestroy
  refine ⟨M₂, ?_, h₂⟩
  simp [listenIn, hv, hdestroy, hdestroy', hout, eventsOf, releasedOf]

-- Two frames: the first parser and message are deleted before the second ones are made.
example : (listenIn ⟨Heap.behind _, Heap.behind _⟩ {}
      [['a', ' ', '~', 'h', '\n', 'b'], ['\n']]).map
    (fun r => (r.1.parsers.objects.length, r.1.parsers.made, r.2.length)) = some (0, 2, 2) := by
  decide

/-! ## From raw text -/

/-- `populateMessage`, reading the message through the getters. -/
def populateMessageIn (msg : Message) (M : Memory) (m : Ptr) (skipErrorFields : Bool) :
    Option Message := do
  let command ← M.messageGetCapability m
  let handle ← M.messageGetHandle m
  let args ← M.messageGetArgs m
  let flags ← M.messageGetFlags m
  some ((((msg.setCommand (command.getD [])).setHandle (handle.getD [])).addArgs
    (args.filter fun p => !skipErrorFields || (p.1 != codeWord && p.1 != whatWord))).addFlags
      flags)

/-- What the five `spore_*_create_from_raw` do around the object they fill; a text that is
`none` is the null pointer. -/
def createFromRawIn {β : Type} (type : MessageType) (fill : Memory → Ptr → Bytes → Option β)
    (A : Placement) (M : Memory) : Option Bytes → Option (Memory × Option β)
  | none => some (M, none)
  | some raw => do
      let (M, p) := M.parserCreate A
      let (M, m) := M.messageCreate A
      let M ← M.parse p (rawInput raw) m
      let result ← if (← M.parserGetType p) = type then (fill M m raw).map some else some none
      let M ← M.messageDestroy m
      let M ← M.parserDestroy p
      some (M, result)

/-- `spore_request_create_from_raw`. -/
def requestFromRawIn : Placement → Memory → Option Bytes → Option (Memory × Option Request) :=
  createFromRawIn .request fun M m raw => do
    let msg ← populateMessageIn {} M m false
    some ⟨msg.setRaw raw⟩

/-- `spore_response_create_from_raw`. -/
def responseFromRawIn : Placement → Memory → Option Bytes → Option (Memory × Option Response) :=
  createFromRawIn .response fun M m raw => do
    let msg ← populateMessageIn {} M m false
    some ⟨msg.setRaw raw⟩

/-- `spore_response_error_create_from_raw`. -/
def responseErrorFromRawIn :
    Placement → Memory → Option Bytes → Option (Memory × Option ResponseError) :=
  createFromRawIn .response fun M m raw => do
    let msg ← populateMessageIn {} M m true
    let args ← M.messageGetArgs m
    some (ResponseError.takeFields { msg.setRaw raw with } args)

/-- `spore_witness_create_from_raw`. -/
def witnessFromRawIn : Placement → Memory → Option Bytes → Option (Memory × Option Witness) :=
  createFromRawIn .witness fun M m raw => do
    let args ← M.messageGetArgs m
    let w := Witness.takeArgs { ({} : Message).setRaw raw with } args
    let flags ← M.messageGetFlags m
    some { w with toMessage := w.toMessage.addFlags flags }

/-- `spore_publish_create_from_raw`. -/
def publishFromRawIn : Placement → Memory → Option Bytes → Option (Memory × Option Publish) :=
  createFromRawIn .publish fun M m raw => do
    let topic ← M.messageGetCapability m
    let args ← M.messageGetArgs m
    let flags ← M.messageGetFlags m
    some { ((({} : Message).setRaw raw).addArgs args).addFlags flags with topic := topic.getD [] }

section

variable {start M : Memory} {parser msg : Ptr} {p : ParserState} {m : ParsedMessage}

theorem populateMessageIn_eq (h : start.Owns M parser msg (some p) (some m)) (skip : Bool) :
    populateMessageIn {} M msg skip = some (populateMessage {} m skip) := by
  simp [populateMessageIn, h.messageGetCapability, h.messageGetHandle, h.messageGetArgs,
    h.messageGetFlags, populateMessage]

/-- The parser and the message are made, used and deleted again. -/
theorem createFromRawIn_eq {β : Type} {type : MessageType}
    {fill : Memory → Ptr → Bytes → Option β} {ofParsed : ParsedMessage → Bytes → β}
    (hfill : ∀ {M parser msg p m}, start.Owns M parser msg (some p) (some m) →
      ∀ raw, fill M msg raw = some (ofParsed m raw))
    (A : Placement) (raw : Bytes) :
    ∃ M, createFromRawIn type fill A start (some raw) = some (M,
        if (parseRaw raw).1.type = type then some (ofParsed (parseRaw raw).2 raw) else none) ∧
      start.Owns M 0 0 none none := by
  have h₀ : start.Owns start 0 0 none none := ⟨Heap.owns_start, Heap.owns_start⟩
  obtain ⟨M₁, hparse, h₁⟩ := ((h₀.parserCreate A).messageCreate A).parse (rawInput raw)
  obtain ⟨M₂, hdestroy, h₂⟩ := h₁.messageDestroy
  obtain ⟨M₃, hdestroy', h₃⟩ := h₂.parserDestroy
  have hresult : fill M₁ ((start.parserCreate A).1.messageCreate A).2 raw =
      some (ofParsed (parseRaw raw).2 raw) := hfill h₁ raw
  have htype : M₁.parserGetType (start.parserCreate A).2 = some (parseRaw raw).1.type :=
    h₁.parserGetType
  refine ⟨M₃, ?_, h₃⟩
  simp only [createFromRawIn, Option.bind_eq_bind, hparse, htype, hresult, Option.bind_some,
    Option.map_some]
  split <;> simp [hdestroy, hdestroy']

end

/-- **The `create_from_raw` use their pointers well.**  For any text, wherever the parser
and the message are put, each has the result of the function on values, and the memory it
leaves has the parsers and messages that were there before, and no others. -/
theorem fromRawIn_eq (A : Placement) (start : Memory) (raw : Bytes) :
    (∃ M, requestFromRawIn A start (some raw) = some (M, Request.createFromRaw raw) ∧
      start.Owns M 0 0 none none) ∧
    (∃ M, responseFromRawIn A start (some raw) = some (M, Response.createFromRaw raw) ∧
      start.Owns M 0 0 none none) ∧
    (∃ M, responseErrorFromRawIn A start (some raw) =
        some (M, ResponseError.createFromRaw raw) ∧ start.Owns M 0 0 none none) ∧
    (∃ M, witnessFromRawIn A start (some raw) = some (M, Witness.createFromRaw raw) ∧
      start.Owns M 0 0 none none) ∧
    ∃ M, publishFromRawIn A start (some raw) = some (M, Publish.createFromRaw raw) ∧
      start.Owns M 0 0 none none := by
  refine ⟨?_, ?_, ?_, ?_, ?_⟩
  · refine createFromRawIn_eq (fun h raw => ?_) A raw
    simp [populateMessageIn_eq h, Request.ofParsed]
  · refine createFromRawIn_eq (fun h raw => ?_) A raw
    simp [populateMessageIn_eq h, Response.ofParsed]
  · refine createFromRawIn_eq (fun h raw => ?_) A raw
    simp [populateMessageIn_eq h, h.messageGetArgs, ResponseError.ofParsed]
  · refine createFromRawIn_eq (fun h raw => ?_) A raw
    simp [h.messageGetArgs, h.messageGetFlags, Witness.ofParsed]
  · refine createFromRawIn_eq (fun h raw => ?_) A raw
    simp [h.messageGetCapability, h.messageGetArgs, h.messageGetFlags, Publish.ofParsed]

end SporeClient.Client
