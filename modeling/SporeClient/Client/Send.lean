/-
  Client/Send.lean --- `Client::writeRaw` and the send functions of
  `spore_c/source/client.cpp`.

  A send serializes its message and writes the text up to its first NUL, then a newline.
  Each of the two writes may fail, or write only a part; the outcome of a write is `none`
  for a negative return value and `some k` for `k` bytes written.
-/
import SporeClient.Client.Listen

set_option autoImplicit false

namespace SporeClient.Client

open SporeClient.Parser
open SporeClient.Wire

/-- What a call of `write` returns. -/
abbrev WriteOutcome : Type := Option Nat

/-- A client and the bytes its socket has taken. -/
structure Sender where
  client : ClientState
  stream : Bytes
  deriving DecidableEq, Repr, Inhabited

/-- `Client::writeRaw`, with the outcomes of its two writes. -/
def Sender.writeRaw (s : Sender) (data : Bytes) (o₁ o₂ : WriteOutcome) : Sender :=
  match o₁ with
  | none => { s with client := s.client.error "SendFailed" "failed to write to socket" }
  | some k =>
      match o₂ with
      | none =>
          { client := s.client.error "SendFailed" "failed to write newline terminator"
            stream := s.stream ++ data.take k }
      | some j => { s with stream := s.stream ++ data.take k ++ ['\n'].take j }

/-- What the five send functions have in common: `text` is the serialized message, `none`
for a null handle, which is reported under the name `arg`. -/
def Sender.sendText (s : Sender) (arg : String) (text : Option Bytes)
    (o₁ o₂ : WriteOutcome) : Sender :=
  let s : Sender := { s with client := { s.client with errorCode := "", errorWhat := "" } }
  if !s.client.connected then
    { s with client := s.client.error "NotConnected" "client is not connected" }
  else
    match text with
    | none => { s with client := s.client.error "NullArgument" (arg ++ " is null") }
    | some text => if text = [] then s else s.writeRaw (cstr text) o₁ o₂

/-- `Client::send`. -/
def Sender.send (s : Sender) (r : Option Request) (o₁ o₂ : WriteOutcome) : Sender :=
  s.sendText "hRequest" (r.map Request.serialize) o₁ o₂

/-- `Client::sendResponse`. -/
def Sender.sendResponse (s : Sender) (r : Option Response) (o₁ o₂ : WriteOutcome) : Sender :=
  s.sendText "hResponse" (r.map Response.serialize) o₁ o₂

/-- `Client::sendResponseError`. -/
def Sender.sendResponseError (s : Sender) (e : Option ResponseError)
    (o₁ o₂ : WriteOutcome) : Sender :=
  s.sendText "hError" (e.map ResponseError.serialize) o₁ o₂

/-- `Client::sendWitness`. -/
def Sender.sendWitness (s : Sender) (w : Option Witness) (o₁ o₂ : WriteOutcome) : Sender :=
  s.sendText "hWitness" (w.map Witness.serialize) o₁ o₂

/-- `Client::sendPublish`. -/
def Sender.sendPublish (s : Sender) (p : Option Publish) (o₁ o₂ : WriteOutcome) : Sender :=
  s.sendText "hPublish" (p.map Publish.serialize) o₁ o₂

/-! ## Complete writes -/

/-- A message of any kind, ready to be sent. -/
inductive Outgoing where
  | request (r : Request)
  | response (r : Response)
  | responseError (e : ResponseError)
  | witness (w : Witness)
  | publish (p : Publish)
  deriving DecidableEq

/-- The serialized text of a message. -/
def Outgoing.serialize : Outgoing → Bytes
  | .request r => r.serialize
  | .response r => r.serialize
  | .responseError e => e.serialize
  | .witness w => w.serialize
  | .publish p => p.serialize

/-- Send a message with the function of its kind; both writes are complete. -/
def Sender.sendWhole (s : Sender) (m : Outgoing) : Sender :=
  let full : WriteOutcome := some (cstr m.serialize).length
  match m with
  | .request r => s.send (some r) full (some 1)
  | .response r => s.sendResponse (some r) full (some 1)
  | .responseError e => s.sendResponseError (some e) full (some 1)
  | .witness w => s.sendWitness (some w) full (some 1)
  | .publish p => s.sendPublish (some p) full (some 1)

/-- Send messages one after another. -/
def Sender.sendAll (s : Sender) (ms : List Outgoing) : Sender := ms.foldl Sender.sendWhole s

/-- What one complete send puts on the wire. -/
def Outgoing.wire (m : Outgoing) : Bytes := cstr m.serialize ++ ['\n']

theorem Outgoing.serialize_ne_nil (m : Outgoing) : m.serialize ≠ [] := by
  cases m <;>
    simp [Outgoing.serialize, Request.serialize, Response.serialize, ResponseError.serialize,
      Witness.serialize, Publish.serialize]

/-- A complete send on a connected client appends the text and a newline, and sets no
error. -/
theorem Sender.sendWhole_eq {s : Sender} (h : s.client.connected = true) (m : Outgoing) :
    s.sendWhole m =
      { client := { s.client with errorCode := "", errorWhat := "" }
        stream := s.stream ++ m.wire } := by
  have hne := m.serialize_ne_nil
  cases m <;>
    simp [sendWhole, send, sendResponse, sendResponseError, sendWitness, sendPublish, sendText,
      writeRaw, h, Outgoing.wire, Outgoing.serialize] at hne ⊢ <;> simp [hne]

/-- Complete sends put the texts on the wire in order. -/
theorem Sender.sendAll_stream {s : Sender} (h : s.client.connected = true)
    (ms : List Outgoing) :
    (s.sendAll ms).stream = s.stream ++ ms.flatMap Outgoing.wire := by
  induction ms generalizing s with
  | nil => simp [sendAll]
  | cons m rest ih =>
      have hrest := ih (s := s.sendWhole m) (by rw [s.sendWhole_eq h]; exact h)
      rw [sendAll, List.foldl_cons, ← sendAll, hrest, s.sendWhole_eq h]
      simp

end SporeClient.Client
