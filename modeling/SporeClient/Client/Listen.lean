/-
  Client/Listen.lean --- `Client::listen` of `spore_c/source/client.cpp`.

  `listen` reads the socket in pieces of at most 1024 bytes, cuts what it has into lines,
  and joins lines into frames.  A line with a `<<` that no `>>` follows opens a frame of
  several lines; such a frame goes on until a line whose first word is `>>` and that has
  no `<<`.  A finished frame is parsed and validated with a new parser and goes to the
  handlers of its kind, together with the bytes it was read from.

  The loop is `Foundation.LineReader` with `onLine` for what the source does between one
  `buf.find('\n')` and the next.
-/
import SporeClient.Foundation.LineReader
import SporeClient.Parser.Blocks
import SporeClient.Wire.FromRaw

set_option autoImplicit false

namespace SporeClient.Client

open SporeClient.Foundation
open SporeClient.Parser
open SporeClient.Wire

/-! ## Callbacks -/

/-- What a handler is called with. -/
inductive Event where
  | request (r : Request)
  /-- `onResponse(self, &resp, nullptr)`. -/
  | response (r : Response)
  /-- `onResponse(self, nullptr, &err)`. -/
  | responseError (e : ResponseError)
  | witness (w : Witness)
  | publish (p : Publish)
  | parseError (code what : String) (raw : Bytes)
  deriving DecidableEq

/-- The number `register*Handler` gave a handler. -/
abbrev HandlerId : Type := Nat

/-- The five handler vectors of a client. -/
structure Handlers where
  requestHandlers : List HandlerId := []
  responseHandlers : List HandlerId := []
  witnessHandlers : List HandlerId := []
  publishHandlers : List HandlerId := []
  parseErrorHandlers : List HandlerId := []
  deriving DecidableEq, Repr, Inhabited

/-- The vector that is walked for an event. -/
def Handlers.forEvent (hs : Handlers) : Event → List HandlerId
  | .request _ => hs.requestHandlers
  | .response _ => hs.responseHandlers
  | .responseError _ => hs.responseHandlers
  | .witness _ => hs.witnessHandlers
  | .publish _ => hs.publishHandlers
  | .parseError _ _ _ => hs.parseErrorHandlers

/-- One call of one handler. -/
structure Callback where
  handler : HandlerId
  event : Event
  deriving DecidableEq

/-- `for (auto* h : handlers) h->on…(…)`. -/
def Handlers.invoke (hs : Handlers) (e : Event) : List Callback :=
  (hs.forEvent e).map fun h => ⟨h, e⟩

/-! ## Dispatch -/

/-- The request `listen` fills from a parsed message. -/
def listenRequest (rawLine : Bytes) (m : ParsedMessage) : Request :=
  ⟨((((({} : Message).setRaw rawLine).setCommand m.capability).setHandle m.handle).addArgs
    m.args).addFlags m.flags⟩

/-- The ok response `listen` fills from a parsed message. -/
def listenResponse (rawLine : Bytes) (m : ParsedMessage) : Response :=
  ⟨((((({} : Message).setRaw rawLine).setCommand m.capability).setHandle m.handle).addArgs
    m.args).addFlags m.flags⟩

/-- The loop over the arguments of an error response. -/
def listenErrorArgs (e : ResponseError) : List (Bytes × Bytes) → ResponseError
  | [] => e
  | p :: rest =>
      if p.1 = codeWord then listenErrorArgs { e with code := p.2 } rest
      else if p.1 = whatWord then listenErrorArgs { e with what := p.2 } rest
      else listenErrorArgs { e with toMessage := e.toMessage.addArg p.1 p.2 } rest

/-- The error response `listen` fills from a parsed message. -/
def listenResponseError (rawLine : Bytes) (m : ParsedMessage) : ResponseError :=
  let e : ResponseError :=
    { ((({} : Message).setRaw rawLine).setCommand m.capability).setHandle m.handle with }
  let e := listenErrorArgs e m.args
  { e with toMessage := e.toMessage.addFlags m.flags }

/-- The loop over the arguments of a witness. -/
def listenWitnessArgs (w : Witness) : List (Bytes × Bytes) → Witness
  | [] => w
  | p :: rest =>
      if p.1 = bodyWord then listenWitnessArgs { w with body := p.2 } rest
      else listenWitnessArgs { w with toMessage := w.toMessage.addArg p.1 p.2 } rest

/-- The witness `listen` fills from a parsed message. -/
def listenWitness (rawLine : Bytes) (m : ParsedMessage) : Witness :=
  let w := listenWitnessArgs { ({} : Message).setRaw rawLine with } m.args
  { w with toMessage := w.toMessage.addFlags m.flags }

/-- The publish `listen` fills from a parsed message. -/
def listenPublish (rawLine : Bytes) (m : ParsedMessage) : Publish :=
  { ((({} : Message).setRaw rawLine).addArgs m.args).addFlags m.flags with
    topic := m.capability }

/-- The `switch` over the type of a message without fault. -/
def deliver (rawLine : Bytes) (type : MessageType) (m : ParsedMessage) : Option Event :=
  match type with
  | .request => some (.request (listenRequest rawLine m))
  | .response =>
      if errorWord ∈ m.flags then some (.responseError (listenResponseError rawLine m))
      else some (.response (listenResponse rawLine m))
  | .witness => some (.witness (listenWitness rawLine m))
  | .publish => some (.publish (listenPublish rawLine m))
  | .unknown => none

/-- What becomes of a frame: `line` is its text, `rawLine` the bytes it was read from. -/
def dispatch (rawLine line : Bytes) : Option Event :=
  let p := (parseAndValidate line).1
  if p.hasError then some (.parseError p.errorCode p.errorWhat (cstr line))
  else deliver rawLine p.type (parseAndValidate line).2

/-! ## Framing -/

/-- The variables of `listen` that live from one line to the next.  `parser` and `msg` are
those of the last frame, `none` for the null pointer. -/
structure FrameState where
  line : Bytes := []
  rawLine : Bytes := []
  multiline : Bool := false
  parser : Option ParserState := none
  msg : Option ParsedMessage := none
  deriving DecidableEq, Repr, Inhabited

/-- A frame, or a blank line, that is done with: its bytes, and its callback when it has
one. -/
structure Released where
  segment : Bytes
  event : Option Event
  deriving DecidableEq

/-- `std::string::find`: where `pat` first stands in a text. -/
def find (pat : Bytes) : Bytes → Option Nat
  | [] => if pat = [] then some 0 else none
  | c :: rest => if pat.isPrefixOf (c :: rest) then some 0 else (find pat rest).map (· + 1)

/-- A line opens a frame of several lines: it has a `<<` and no `>>` after the first one. -/
def opensBlock (currentLine : Bytes) : Bool :=
  match find openMark currentLine with
  | none => false
  | some openPos => (find closeMark (currentLine.drop (openPos + 2))).isNone

/-- `isClose`: the first word of the line is `>>`. -/
def isClose (currentLine : Bytes) : Bool :=
  currentLine == closeMark || currentLine.take 3 == ['>', '>', ' ']

/-- Strip the `\r` of a Windows line ending. -/
def stripCR (l : Bytes) : Bytes := if l.getLast? = some '\r' then l.dropLast else l

/-- What follows `multiline = false`: a blank line is skipped, a frame is dispatched; both
clear `rawLine`. -/
def endFrame (s : FrameState) : FrameState × Option Released :=
  if s.line = [] then ({ s with rawLine := [], multiline := false }, some ⟨s.rawLine, none⟩)
  else
    -- the parser and the message of the last frame are destroyed, new ones are made
    ({ s with
        rawLine := []
        multiline := false
        parser := some (parseAndValidate s.line).1
        msg := some (parseAndValidate s.line).2 },
      some ⟨s.rawLine, dispatch s.rawLine s.line⟩)

/-- A line outside a frame of several lines. -/
def onFirstLine (s : FrameState) (currentLine : Bytes) : FrameState × Option Released :=
  if opensBlock currentLine then
    ({ s with multiline := true, line := currentLine ++ ['\n'] }, none)
  else endFrame { s with line := currentLine }

/-- A line inside a frame of several lines. -/
def onBlockLine (s : FrameState) (currentLine : Bytes) : FrameState × Option Released :=
  if isClose currentLine then
    -- a closing line is appended without a newline, also when it opens another block
    if (find openMark currentLine).isSome then ({ s with line := s.line ++ currentLine }, none)
    else endFrame { s with line := s.line ++ currentLine }
  else ({ s with line := s.line ++ currentLine ++ ['\n'] }, none)

/-- The body of the inner loop for one line, given without its newline. -/
def onLine (s : FrameState) (l : Bytes) : FrameState × Option Released :=
  let s : FrameState := { s with rawLine := s.rawLine ++ l ++ ['\n'] }
  if s.multiline then onBlockLine s (stripCR l) else onFirstLine s (stripCR l)

/-- `Client::listen` as a reader of lines. -/
def listenReader : LineReader Char FrameState Released := ⟨'\n', onLine⟩

/-! ## The client -/

/-- What one successful read of the socket returns. -/
structure Chunk where
  bytes : Bytes
  nonempty : bytes ≠ []
  le_buffer : bytes.length ≤ 1024

/-- The fields of `Client` that `listen` and the send functions use. -/
structure ClientState where
  connected : Bool := false
  errorCode : String := ""
  errorWhat : String := ""
  handlers : Handlers := {}
  deriving DecidableEq, Repr, Inhabited

/-- `Client::error`. -/
def ClientState.error (c : ClientState) (code what : String) : ClientState :=
  { c with errorCode := code, errorWhat := what }

/-- The frames and blank lines `listen` is done with when the reads have returned these
pieces. -/
def releasedOf (reads : List Bytes) : List Released :=
  (listenReader.feedAll ⟨[], {}⟩ reads).2

/-- The events among them, in order. -/
def eventsOf (reads : List Bytes) : List Event := (releasedOf reads).filterMap Released.event

/-- `Client::listen` until a read returns nothing more: the client it leaves, and the
calls it makes, in order. -/
def ClientState.listen (c : ClientState) (reads : List Chunk) : ClientState × List Callback :=
  let c : ClientState := { c with errorCode := "", errorWhat := "" }
  if c.connected then (c, (eventsOf (reads.map Chunk.bytes)).flatMap c.handlers.invoke)
  else (c.error "NotConnected" "client is not connected", [])

end SporeClient.Client
