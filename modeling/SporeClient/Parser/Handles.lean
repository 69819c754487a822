/-
  Parser/Handles.lean --- the C functions of `parser/source/spore_parser.cpp`.

  A parser and a message are objects behind pointers.  Each function takes null pointers
  for nothing to do; a pointer to an object that has been deleted has no result.  A getter
  gives the null pointer for an empty text.

  `Memory.Owns` is what a piece of code has of both kinds.  While a parser and a message
  are owned, each function here does what the function of `Parse.lean` does.
-/
import SporeClient.Foundation.Heap
import SporeClient.Parser.Validate

set_option autoImplicit false

namespace SporeClient.Parser

open SporeClient.Foundation

/-- The parsers and the messages that exist. -/
structure Memory where
  parsers : Heap ParserState := {}
  messages : Heap ParsedMessage := {}

/-- Where new parsers and messages are put. -/
structure Placement where
  parsers : Allocator ParserState
  messages : Allocator ParsedMessage

namespace Memory

/-! ## The functions -/

/-- `spore_parser_create`. -/
def parserCreate (A : Placement) (M : Memory) : Memory × Ptr :=
  ({ M with parsers := (M.parsers.new A.parsers {}).1 }, (M.parsers.new A.parsers {}).2)

/-- `spore_parser_destroy`. -/
def parserDestroy (M : Memory) (parser : Ptr) : Option Memory :=
  (M.parsers.delete parser).map fun H => { M with parsers := H }

/-- `spore_parser_get_type`. -/
def parserGetType (M : Memory) (parser : Ptr) : Option MessageType :=
  if parser = 0 then some .unknown else (M.parsers.read parser).map ParserState.type

/-- `spore_parser_has_error`. -/
def parserHasError (M : Memory) (parser : Ptr) : Option Bool :=
  if parser = 0 then some false else (M.parsers.read parser).map ParserState.hasError

/-- `data()` of a text, but the null pointer for an empty one. -/
def data {α : Type} [DecidableEq α] (empty text : α) : Option α :=
  if text = empty then none else some text

/-- `spore_parser_get_error_code`. -/
def parserGetErrorCode (M : Memory) (parser : Ptr) : Option (Option String) :=
  if parser = 0 then some none
  else
    (M.parsers.read parser).map fun p => if p.hasError then data "" p.errorCode else none

/-- `spore_parser_get_error_what`. -/
def parserGetErrorWhat (M : Memory) (parser : Ptr) : Option (Option String) :=
  if parser = 0 then some none
  else
    (M.parsers.read parser).map fun p => if p.hasError then data "" p.errorWhat else none

/-- `spore_message_create`. -/
def messageCreate (A : Placement) (M : Memory) : Memory × Ptr :=
  ({ M with messages := (M.messages.new A.messages {}).1 }, (M.messages.new A.messages {}).2)

/-- `spore_message_destroy`. -/
def messageDestroy (M : Memory) (msg : Ptr) : Option Memory :=
  (M.messages.delete msg).map fun H => { M with messages := H }

/-- `spore_message_get_capability`. -/
def messageGetCapability (M : Memory) (msg : Ptr) : Option (Option Bytes) :=
  if msg = 0 then some none else (M.messages.read msg).map fun m => data [] m.capability

/-- `spore_message_get_handle`. -/
def messageGetHandle (M : Memory) (msg : Ptr) : Option (Option Bytes) :=
  if msg = 0 then some none else (M.messages.read msg).map fun m => data [] m.handle

/-- `spore_message_get_args`, with the number it stores. -/
def messageGetArgs (M : Memory) (msg : Ptr) : Option (List (Bytes × Bytes)) :=
  if msg = 0 then some [] else (M.messages.read msg).map ParsedMessage.args

/-- `spore_message_get_flags`, with the number it stores. -/
def messageGetFlags (M : Memory) (msg : Ptr) : Option (List Bytes) :=
  if msg = 0 then some [] else (M.messages.read msg).map ParsedMessage.flags

/-- `spore_parse`. -/
def parse (M : Memory) (parser : Ptr) (message : Bytes) (msg : Ptr) : Option Memory :=
  if parser = 0 ∨ msg = 0 then some M
  else do
    let p ← M.parsers.read parser
    let m ← M.messages.read msg
    let parsers ← M.parsers.write parser (p.parse message m).1
    let messages ← M.messages.write msg (p.parse message m).2
    some ⟨parsers, messages⟩

/-- `spore_validate`. -/
def validate (M : Memory) (parser msg : Ptr) : Option Memory :=
  if parser = 0 then some M
  else do
    let p ← M.parsers.read parser
    let m ← if msg = 0 then some none else (M.messages.read msg).map some
    let parsers ← M.parsers.write parser (p.validate m)
    some { M with parsers := parsers }

/-! ## What is owned -/

/-- Beside the parsers and messages of `start` there are these. -/
def Owns (start M : Memory) (parser msg : Ptr) (p : Option ParserState)
    (m : Option ParsedMessage) : Prop :=
  start.parsers.Owns M.parsers parser p ∧ start.messages.Owns M.messages msg m

section

variable {start M : Memory} {parser msg : Ptr} {p : Option ParserState} {m : Option ParsedMessage}

theorem Owns.parserCreate (A : Placement) (h : start.Owns M 0 msg none m) :
    start.Owns (M.parserCreate A).1 (M.parserCreate A).2 msg (some {}) m :=
  ⟨h.1.new A.parsers {}, h.2⟩

theorem Owns.messageCreate (A : Placement) (h : start.Owns M parser 0 p none) :
    start.Owns (M.messageCreate A).1 parser (M.messageCreate A).2 p (some {}) :=
  ⟨h.1, h.2.new A.messages {}⟩

theorem Owns.parserDestroy (h : start.Owns M parser msg p m) :
    ∃ M', M.parserDestroy parser = some M' ∧ start.Owns M' 0 msg none m := by
  obtain ⟨H, hdelete, howns⟩ := h.1.delete
  exact ⟨{ M with parsers := H }, by rw [Memory.parserDestroy, hdelete, Option.map_some],
    howns, h.2⟩

theorem Owns.messageDestroy (h : start.Owns M parser msg p m) :
    ∃ M', M.messageDestroy msg = some M' ∧ start.Owns M' parser 0 p none := by
  obtain ⟨H, hdelete, howns⟩ := h.2.delete
  exact ⟨{ M with messages := H }, by rw [Memory.messageDestroy, hdelete, Option.map_some],
    h.1, howns⟩

end

section

variable {start M : Memory} {parser msg : Ptr} {p : ParserState} {m : ParsedMessage}

theorem Owns.parserHasError (h : start.Owns M parser msg (some p) (some m)) :
    M.parserHasError parser = some p.hasError := by
  simp [Memory.parserHasError, h.1.ne_null, h.1.read]

theorem Owns.parserGetType (h : start.Owns M parser msg (some p) (some m)) :
    M.parserGetType parser = some p.type := by
  simp [Memory.parserGetType, h.1.ne_null, h.1.read]

theorem Owns.parserGetErrorCode (h : start.Owns M parser msg (some p) (some m))
    (hp : p.hasError = true) : M.parserGetErrorCode parser = some (data "" p.errorCode) := by
  simp [Memory.parserGetErrorCode, h.1.ne_null, h.1.read, hp]

theorem Owns.parserGetErrorWhat (h : start.Owns M parser msg (some p) (some m))
    (hp : p.hasError = true) : M.parserGetErrorWhat parser = some (data "" p.errorWhat) := by
  simp [Memory.parserGetErrorWhat, h.1.ne_null, h.1.read, hp]

theorem Owns.messageGetCapability (h : start.Owns M parser msg (some p) (some m)) :
    M.messageGetCapability msg = some (data [] m.capability) := by
  simp [Memory.messageGetCapability, h.2.ne_null, h.2.read]

theorem Owns.messageGetHandle (h : start.Owns M parser msg (some p) (some m)) :
    M.messageGetHandle msg = some (data [] m.handle) := by
  simp [Memory.messageGetHandle, h.2.ne_null, h.2.read]

theorem Owns.messageGetArgs (h : start.Owns M parser msg (some p) (some m)) :
    M.messageGetArgs msg = some m.args := by
  simp [Memory.messageGetArgs, h.2.ne_null, h.2.read]

theorem Owns.messageGetFlags (h : start.Owns M parser msg (some p) (some m)) :
    M.messageGetFlags msg = some m.flags := by
  simp [Memory.messageGetFlags, h.2.ne_null, h.2.read]

theorem Owns.parse (h : start.Owns M parser msg (some p) (some m)) (message : Bytes) :
    ∃ M', M.parse parser message msg = some M' ∧
      start.Owns M' parser msg (some (p.parse message m).1) (some (p.parse message m).2) := by
  obtain ⟨parsers, hparsers, hp⟩ := h.1.write (p.parse message m).1
  obtain ⟨messages, hmessages, hm⟩ := h.2.write (p.parse message m).2
  refine ⟨⟨parsers, messages⟩, ?_, hp, hm⟩
  simp [Memory.parse, h.1.ne_null, h.2.ne_null, h.1.read, h.2.read, hparsers, hmessages]

theorem Owns.validate (h : start.Owns M parser msg (some p) (some m)) :
    ∃ M', M.validate parser msg = some M' ∧
      start.Owns M' parser msg (some (p.validate (some m))) (some m) := by
  obtain ⟨parsers, hparsers, hp⟩ := h.1.write (p.validate (some m))
  refine ⟨{ M with parsers := parsers }, ?_, hp, h.2⟩
  simp [Memory.validate, h.1.ne_null, h.2.ne_null, h.1.read, h.2.read, hparsers]

end

@[simp] theorem data_getD (text : Bytes) : (data [] text).getD [] = text := by
  unfold data
  split
  · simp [*]
  · rfl

theorem data_of_ne {α : Type} [DecidableEq α] {empty text : α} (h : text ≠ empty) :
    data empty text = some text := if_neg h

end Memory

/-! ## Faults -/

/-- A fault has a text. -/
theorem errorWhat_ne_empty (p : ParserState) (m : Option ParsedMessage)
    (h : (p.validate m).hasError = true) : (p.validate m).errorWhat ≠ "" := by
  have hclean : ∀ q : ParserState, q.errorCode = "" → q.hasError = true → q.errorWhat ≠ "" := by
    intro q hq herror
    simp [ParserState.hasError, hq] at herror
  cases m with
  | none => simp [ParserState.validate, ParserState.error]
  | some m =>
      revert h
      simp only [ParserState.validate]
      cases p.type <;>
        simp only [ParserState.checkRequest, ParserState.checkResponse, ParserState.checkWitness,
          ParserState.checkPublish] <;> (repeat' split) <;>
        first | exact hclean _ rfl | simp [ParserState.error]

end SporeClient.Parser
