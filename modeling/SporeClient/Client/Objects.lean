/-
  Client/Objects.lean --- the objects `Client::listen` fills are those the
  `spore_*_create_from_raw` fill.

  Both sides copy a parsed message into an object field by field, in code of their own:
  `listen` with one loop for each kind, `create_from_raw` partly through
  `populateMessage`, which leaves the fields of an error out of the arguments by a filter.
  Given the same parsed message and the same raw bytes the results are equal, for each of
  the five kinds.
-/
import SporeClient.Client.Listen
import SporeClient.Parser.Validate

set_option autoImplicit false

namespace SporeClient.Client

open SporeClient.Foundation
open SporeClient.Parser
open SporeClient.Wire

/-! ## Requests, ok responses and publishes -/

theorem listenRequest_eq (rawLine : Bytes) (m : ParsedMessage) :
    listenRequest rawLine m = Request.ofParsed m rawLine := by
  simp [listenRequest, Request.ofParsed, populateMessage, Message.addArgs_eq, Message.addFlags_eq,
    Message.setRaw, Message.setCommand, Message.setHandle]

theorem listenResponse_eq (rawLine : Bytes) (m : ParsedMessage) :
    listenResponse rawLine m = Response.ofParsed m rawLine := by
  simp [listenResponse, Response.ofParsed, populateMessage, Message.addArgs_eq,
    Message.addFlags_eq, Message.setRaw, Message.setCommand, Message.setHandle]

theorem listenPublish_eq (rawLine : Bytes) (m : ParsedMessage) :
    listenPublish rawLine m = Publish.ofParsed m rawLine := rfl

/-! ## Error responses and witnesses -/

/-- The one loop of `listen` does what the filter and the loop of `create_from_raw` do. -/
theorem listenErrorArgs_eq (e : ResponseError) (l : List (Bytes × Bytes)) :
    listenErrorArgs e l =
      ResponseError.takeFields
        ⟨e.toMessage.addArgs (l.filter fun p => p.1 != codeWord && p.1 != whatWord),
          e.code, e.what⟩ l := by
  induction l generalizing e with
  | nil => rfl
  | cons p rest ih =>
      simp only [listenErrorArgs, ResponseError.takeFields]
      by_cases hcode : p.1 = codeWord
      · simp [hcode, ih]
      · by_cases hwhat : p.1 = whatWord
        · simp [hwhat, ih, show whatWord ≠ codeWord by decide]
        · simp [hcode, hwhat, ih, Message.addArgs]

theorem listenResponseError_eq (rawLine : Bytes) (m : ParsedMessage) :
    listenResponseError rawLine m = ResponseError.ofParsed m rawLine := by
  have hflags : ∀ e : ResponseError,
      (⟨(ResponseError.takeFields e m.args).toMessage.addFlags m.flags,
        (ResponseError.takeFields e m.args).code,
        (ResponseError.takeFields e m.args).what⟩ : ResponseError) =
        ResponseError.takeFields ⟨e.toMessage.addFlags m.flags, e.code, e.what⟩ m.args := by
    intro e
    rw [takeFields_toMessage]
    exact (takeFields_mk e _ m.args).symm
  simp only [listenResponseError, listenErrorArgs_eq]
  apply (hflags _).trans
  simp [ResponseError.ofParsed, populateMessage, Message.addArgs_eq, Message.addFlags_eq,
    Message.setRaw, Message.setCommand, Message.setHandle]

theorem listenWitnessArgs_eq (w : Witness) (l : List (Bytes × Bytes)) :
    listenWitnessArgs w l = Witness.takeArgs w l := by
  induction l generalizing w with
  | nil => rfl
  | cons p rest ih =>
      simp only [listenWitnessArgs, Witness.takeArgs]
      split <;> rw [ih]

theorem listenWitness_eq (rawLine : Bytes) (m : ParsedMessage) :
    listenWitness rawLine m = Witness.ofParsed m rawLine := by
  simp only [listenWitness, Witness.ofParsed, listenWitnessArgs_eq]

/-! ## Raw bytes -/

/-- The bytes a delivered message was read from: `getRaw` of its object. -/
def Event.getRaw : Event → Option Bytes
  | .request r => some r.raw
  | .response r => some r.raw
  | .responseError e => some e.raw
  | .witness w => some w.raw
  | .publish p => some p.raw
  | .parseError _ _ _ => none

theorem takeArgs_raw (w : Witness) (l : List (Bytes × Bytes)) :
    (Witness.takeArgs w l).raw = w.raw := by
  induction l generalizing w with
  | nil => rfl
  | cons p rest ih =>
      simp only [Witness.takeArgs]
      split
      · rw [ih]
      · rw [ih]
        rfl

/-- A delivered message carries the bytes it was read from. -/
theorem deliver_getRaw {rawLine : Bytes} {type : MessageType} {m : ParsedMessage} {e : Event}
    (h : deliver rawLine type m = some e) : e.getRaw = some rawLine := by
  unfold deliver at h
  split at h
  · obtain rfl := Option.some.inj h
    simp [Event.getRaw, listenRequest, Message.addArgs_eq, Message.addFlags_eq, Message.setRaw,
      Message.setCommand, Message.setHandle]
  · split at h
    · obtain rfl := Option.some.inj h
      simp [Event.getRaw, listenResponseError_eq, ResponseError.ofParsed, takeFields_toMessage,
        Message.setRaw]
    · obtain rfl := Option.some.inj h
      simp [Event.getRaw, listenResponse, Message.addArgs_eq, Message.addFlags_eq,
        Message.setRaw, Message.setCommand, Message.setHandle]
  · obtain rfl := Option.some.inj h
    simp [Event.getRaw, listenWitness_eq, Witness.ofParsed, Message.addFlags_eq, takeArgs_raw,
      Message.setRaw]
  · obtain rfl := Option.some.inj h
    simp [Event.getRaw, listenPublish, Message.addArgs_eq, Message.addFlags_eq, Message.setRaw]
  · simp at h

/-- Only a request is delivered as a request. -/
theorem deliver_request {rawLine : Bytes} {type : MessageType} {m : ParsedMessage} {r : Request}
    (h : deliver rawLine type m = some (.request r)) :
    type = .request ∧ r = Request.ofParsed m rawLine := by
  unfold deliver at h
  split at h
  · rw [listenRequest_eq] at h
    exact ⟨rfl, by simpa using h.symm⟩
  · split at h <;> simp at h
  · simp at h
  · simp at h
  · simp at h

/-- Only a response without the flag `error` is delivered as an ok response. -/
theorem deliver_response {rawLine : Bytes} {type : MessageType} {m : ParsedMessage} {r : Response}
    (h : deliver rawLine type m = some (.response r)) :
    type = .response ∧ errorWord ∉ m.flags ∧ r = Response.ofParsed m rawLine := by
  unfold deliver at h
  split at h
  · simp at h
  · split at h
    · simp at h
    · rename_i herror
      rw [listenResponse_eq] at h
      exact ⟨rfl, herror, by simpa using h.symm⟩
  · simp at h
  · simp at h
  · simp at h

/-- Only a response with the flag `error` is delivered as an error response. -/
theorem deliver_responseError {rawLine : Bytes} {type : MessageType} {m : ParsedMessage}
    {e : ResponseError} (h : deliver rawLine type m = some (.responseError e)) :
    type = .response ∧ errorWord ∈ m.flags ∧ e = ResponseError.ofParsed m rawLine := by
  unfold deliver at h
  split at h
  · simp at h
  · split at h
    · rename_i herror
      rw [listenResponseError_eq] at h
      exact ⟨rfl, herror, by simpa using h.symm⟩
    · simp at h
  · simp at h
  · simp at h
  · simp at h

/-- Only a witness is delivered as a witness. -/
theorem deliver_witness {rawLine : Bytes} {type : MessageType} {m : ParsedMessage} {w : Witness}
    (h : deliver rawLine type m = some (.witness w)) :
    type = .witness ∧ w = Witness.ofParsed m rawLine := by
  unfold deliver at h
  split at h
  · simp at h
  · split at h <;> simp at h
  · rw [listenWitness_eq] at h
    exact ⟨rfl, by simpa using h.symm⟩
  · simp at h
  · simp at h

/-- Every frame has a callback. -/
theorem dispatch_isSome (rawLine line : Bytes) : (dispatch rawLine line).isSome = true := by
  simp only [dispatch]
  split
  · rfl
  · rename_i herr
    cases htype : (parseAndValidate line).1.type with
    | request => rfl
    | response => simp only [deliver]; split <;> rfl
    | witness => rfl
    | publish => rfl
    | unknown =>
        have haccepted : IsAccepted line := (Bool.not_eq_true _).mp herr
        exact absurd htype haccepted.type_ne_unknown

/-- What a frame delivers carries the bytes of the frame. -/
theorem dispatch_getRaw {rawLine line raw : Bytes} {e : Event}
    (h : dispatch rawLine line = some e) (hraw : e.getRaw = some raw) : raw = rawLine := by
  simp only [dispatch] at h
  split at h
  · obtain rfl := Option.some.inj h
    simp [Event.getRaw] at hraw
  · rw [deliver_getRaw h] at hraw
    exact (Option.some.inj hraw).symm

end SporeClient.Client
