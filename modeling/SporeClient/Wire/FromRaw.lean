/-
  Wire/FromRaw.lean --- `parseRaw`, `populateMessage` and the five
  `spore_*_create_from_raw` of `spore_c/source/spore_c.cpp`.

  Each reads a text at once: carriage returns before a newline and one final newline are
  taken away, the rest is parsed with a new parser, and an object is made when the parser
  saw the right type.  Nothing here calls `validate`.
-/
import SporeClient.Wire.Message

set_option autoImplicit false

namespace SporeClient.Wire

open SporeClient.Foundation
open SporeClient.Parser

/-- The first loop of `parseRaw`: leave out each `\r` that stands before a `\n`. -/
def dropCR : Bytes → Bytes
  | [] => []
  | c :: rest => if c = '\r' ∧ rest.head? = some '\n' then dropCR rest else c :: dropCR rest

/-- The text `parseRaw` hands to the parser. -/
def rawInput (raw : Bytes) : Bytes := trimBack (dropCR raw)

/-- `parseRaw`, with a new parser and a new message. -/
def parseRaw (raw : Bytes) : ParserState × ParsedMessage := parseNew (rawInput raw)

/-- `populateMessage`; the error fields are the arguments `code` and `what`. -/
def populateMessage (msg : Message) (m : ParsedMessage) (skipErrorFields : Bool) : Message :=
  (((msg.setCommand m.capability).setHandle m.handle).addArgs
    (m.args.filter fun p => !skipErrorFields || (p.1 != codeWord && p.1 != whatWord))).addFlags
      m.flags

/-- The object `spore_request_create_from_raw` fills from a parsed message. -/
def Request.ofParsed (m : ParsedMessage) (raw : Bytes) : Request :=
  ⟨(populateMessage {} m false).setRaw raw⟩

/-- The object `spore_response_create_from_raw` fills from a parsed message. -/
def Response.ofParsed (m : ParsedMessage) (raw : Bytes) : Response :=
  ⟨(populateMessage {} m false).setRaw raw⟩

/-- The loop that copies `code` and `what` into their own fields. -/
def ResponseError.takeFields (r : ResponseError) : List (Bytes × Bytes) → ResponseError
  | [] => r
  | p :: rest =>
      if p.1 = codeWord then takeFields { r with code := p.2 } rest
      else if p.1 = whatWord then takeFields { r with what := p.2 } rest
      else takeFields r rest

/-- The object `spore_response_error_create_from_raw` fills from a parsed message. -/
def ResponseError.ofParsed (m : ParsedMessage) (raw : Bytes) : ResponseError :=
  ResponseError.takeFields { (populateMessage {} m true).setRaw raw with } m.args

/-- The loop that copies `body` into its own field and the other arguments to the map. -/
def Witness.takeArgs (w : Witness) : List (Bytes × Bytes) → Witness
  | [] => w
  | p :: rest =>
      if p.1 = bodyWord then takeArgs { w with body := p.2 } rest
      else takeArgs { w with toMessage := w.toMessage.addArg p.1 p.2 } rest

/-- The object `spore_witness_create_from_raw` fills from a parsed message. -/
def Witness.ofParsed (m : ParsedMessage) (raw : Bytes) : Witness :=
  let w := Witness.takeArgs { ({} : Message).setRaw raw with } m.args
  { w with toMessage := w.toMessage.addFlags m.flags }

/-- The object `spore_publish_create_from_raw` fills from a parsed message. -/
def Publish.ofParsed (m : ParsedMessage) (raw : Bytes) : Publish :=
  { ((({} : Message).setRaw raw).addArgs m.args).addFlags m.flags with topic := m.capability }

/-! ## The objects in closed form -/

/-- `populateMessage` with an empty message and all arguments. -/
theorem populateMessage_eq (m : ParsedMessage) :
    populateMessage {} m false =
      ⟨m.capability, m.handle, SortedMap.ofList m.args, SortedSet.ofList m.flags, []⟩ := by
  simp [populateMessage, Message.addArgs_eq, Message.addFlags_eq, Message.setCommand,
    Message.setHandle, SortedMap.ofList, SortedSet.ofList]

theorem Request.ofParsed_eq (m : ParsedMessage) (raw : Bytes) :
    Request.ofParsed m raw =
      ⟨⟨m.capability, m.handle, SortedMap.ofList m.args, SortedSet.ofList m.flags, raw⟩⟩ := by
  rw [Request.ofParsed, populateMessage_eq]
  rfl

theorem Response.ofParsed_eq (m : ParsedMessage) (raw : Bytes) :
    Response.ofParsed m raw =
      ⟨⟨m.capability, m.handle, SortedMap.ofList m.args, SortedSet.ofList m.flags, raw⟩⟩ := by
  rw [Response.ofParsed, populateMessage_eq]
  rfl

theorem Publish.ofParsed_eq (m : ParsedMessage) (raw : Bytes) :
    Publish.ofParsed m raw =
      ⟨⟨[], [], SortedMap.ofList m.args, SortedSet.ofList m.flags, raw⟩, m.capability⟩ := by
  simp [Publish.ofParsed, Message.addArgs_eq, Message.addFlags_eq, Message.setRaw,
    SortedMap.ofList, SortedSet.ofList]

/-- Copying the fields of an error leaves what all messages have as it is. -/
theorem takeFields_toMessage (e : ResponseError) (l : List (Bytes × Bytes)) :
    (ResponseError.takeFields e l).toMessage = e.toMessage := by
  induction l generalizing e with
  | nil => rfl
  | cons p rest ih =>
      simp only [ResponseError.takeFields]
      split
      · rw [ih]
      · split <;> rw [ih]

/-- The fields of an error do not depend on what all messages have. -/
theorem takeFields_mk (e : ResponseError) (msg : Message) (l : List (Bytes × Bytes)) :
    ResponseError.takeFields ⟨msg, e.code, e.what⟩ l =
      ⟨msg, (ResponseError.takeFields e l).code, (ResponseError.takeFields e l).what⟩ := by
  induction l generalizing e with
  | nil => rfl
  | cons p rest ih =>
      simp only [ResponseError.takeFields]
      split
      · exact ih { e with code := p.2 }
      · split
        · exact ih { e with what := p.2 }
        · exact ih e

/-- What an error response has as every message: the map does not get its own fields. -/
theorem ResponseError.ofParsed_toMessage (m : ParsedMessage) (raw : Bytes) :
    (ResponseError.ofParsed m raw).toMessage =
      ⟨m.capability, m.handle,
        SortedMap.ofList (m.args.filter fun p => p.1 != codeWord && p.1 != whatWord),
        SortedSet.ofList m.flags, raw⟩ := by
  rw [ResponseError.ofParsed, takeFields_toMessage]
  simp [populateMessage, Message.addFlags_eq, Message.addArgs_eq, Message.setRaw,
    Message.setCommand, Message.setHandle, SortedMap.ofList, SortedSet.ofList]

/-- What a witness has as every message: the map does not get the body. -/
theorem Witness.ofParsed_toMessage (m : ParsedMessage) (raw : Bytes) :
    (Witness.ofParsed m raw).toMessage =
      ⟨[], [], SortedMap.ofList (m.args.filter fun p => p.1 != bodyWord),
        SortedSet.ofList m.flags, raw⟩ := by
  have htake : ∀ (l : List (Bytes × Bytes)) (w : Witness),
      (Witness.takeArgs w l).toMessage =
        w.toMessage.addArgs (l.filter fun p => p.1 != bodyWord) := by
    intro l
    induction l with
    | nil => exact fun _ => rfl
    | cons p rest ih =>
        intro w
        unfold Witness.takeArgs
        by_cases hp : p.1 = bodyWord
        · rw [if_pos hp, ih, List.filter_cons_of_neg (by simp [hp])]
        · rw [if_neg hp, ih, List.filter_cons_of_pos (by simp [hp])]
          rfl
  have hparsed : (Witness.ofParsed m raw).toMessage =
      (Witness.takeArgs ⟨({} : Message).setRaw raw, []⟩ m.args).toMessage.addFlags m.flags := rfl
  rw [hparsed, htake]
  simp [Message.addArgs_eq, Message.addFlags_eq, Message.setRaw, SortedMap.ofList, SortedSet.ofList]

/-! ## From raw text -/

/-- `spore_request_create_from_raw`. -/
def Request.createFromRaw (raw : Bytes) : Option Request :=
  if (parseRaw raw).1.type = .request then some (.ofParsed (parseRaw raw).2 raw) else none

/-- `spore_response_create_from_raw`. -/
def Response.createFromRaw (raw : Bytes) : Option Response :=
  if (parseRaw raw).1.type = .response then some (.ofParsed (parseRaw raw).2 raw) else none

/-- `spore_response_error_create_from_raw`. -/
def ResponseError.createFromRaw (raw : Bytes) : Option ResponseError :=
  if (parseRaw raw).1.type = .response then some (.ofParsed (parseRaw raw).2 raw) else none

/-- `spore_witness_create_from_raw`. -/
def Witness.createFromRaw (raw : Bytes) : Option Witness :=
  if (parseRaw raw).1.type = .witness then some (.ofParsed (parseRaw raw).2 raw) else none

/-- `spore_publish_create_from_raw`. -/
def Publish.createFromRaw (raw : Bytes) : Option Publish :=
  if (parseRaw raw).1.type = .publish then some (.ofParsed (parseRaw raw).2 raw) else none

end SporeClient.Wire
