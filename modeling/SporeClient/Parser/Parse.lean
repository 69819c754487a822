/-
  Parser/Parse.lean --- `parser::build`, `parser::validate` and `parser::parse` of
  `parser/source/parser.cpp`, and `spore::message` of `parser/source/message.cpp`.

  `build` walks the tokens of a message in order.  The first token decides the type of
  the message; every later one is an argument, a handle or a flag by its own type,
  except that the second token of a publish is its topic.  Everything is stored through
  `c_str()`, so it is cut at the first NUL, while the flags of `props` and the words
  `witness` and `publish` are compared before that cut.  `validate` looks at what was
  stored and at `props`, and records the first fault it finds.
-/
import SporeClient.Parser.Tokenize
import Mathlib.Data.List.TakeWhile

set_option autoImplicit false

namespace SporeClient.Parser

open SporeClient.Foundation

/-- A string rebuilt from its `c_str()`: the bytes before the first NUL. -/
def cstr (s : Bytes) : Bytes := s.takeWhile (· ≠ '\x00')

theorem cstr_eq_self {s : Bytes} (h : '\x00' ∉ s) : cstr s = s := by
  apply List.takeWhile_eq_self_iff.mpr
  intro c hc
  have hne : c ≠ '\x00' := fun heq => h (heq ▸ hc)
  simpa using hne

theorem nul_not_mem_cstr (s : Bytes) : '\x00' ∉ cstr s := fun h => by
  simpa using List.mem_takeWhile_imp h

/-! ## Words of the protocol -/

/-- `"witness"`. -/
def witnessWord : Bytes := ['w', 'i', 't', 'n', 'e', 's', 's']
/-- `"publish"`. -/
def publishWord : Bytes := ['p', 'u', 'b', 'l', 'i', 's', 'h']
/-- `"ok"`. -/
def okWord : Bytes := ['o', 'k']
/-- `"error"`. -/
def errorWord : Bytes := ['e', 'r', 'r', 'o', 'r']
/-- `"code"`. -/
def codeWord : Bytes := ['c', 'o', 'd', 'e']
/-- `"what"`. -/
def whatWord : Bytes := ['w', 'h', 'a', 't']
/-- `"body"`. -/
def bodyWord : Bytes := ['b', 'o', 'd', 'y']

/-! ## The parsed message -/

/-- `spore::message`: arguments and flags in the order they were added. -/
structure ParsedMessage where
  capability : Bytes := []
  handle : Bytes := []
  args : List (Bytes × Bytes) := []
  flags : List Bytes := []
  deriving DecidableEq, Repr, Inhabited

/-- `spore_parser_type_t`. -/
inductive MessageType where
  | unknown
  | request
  | response
  | witness
  | publish
  deriving DecidableEq, Repr, Inhabited

/-- `parser::props_t`. -/
structure Props where
  hasFlagOk : Bool := false
  hasFlagError : Bool := false
  hasArgCode : Bool := false
  hasArgWhat : Bool := false
  hasArgBody : Bool := false
  deriving DecidableEq, Repr, Inhabited

/-- `spore::parser`. -/
structure ParserState where
  raw : Bytes := []
  type : MessageType := .unknown
  errorCode : String := ""
  errorWhat : String := ""
  props : Props := {}
  deriving DecidableEq, Repr, Inhabited

/-! ## Build -/

/-- A value of the form `<<…>>`, long enough to hold both marks. -/
def isBlock (value : Bytes) : Bool :=
  decide (4 ≤ value.length) && value.take 2 == ['<', '<'] &&
    value.drop (value.length - 2) == ['>', '>']

/-- Erase a newline at the front. -/
def trimFront (s : Bytes) : Bytes := if s.head? = some '\n' then s.tail else s

/-- Pop a newline at the back. -/
def trimBack (s : Bytes) : Bytes := if s.getLast? = some '\n' then s.dropLast else s

/-- Strip the block delimiters and trim one boundary newline on each side. -/
def stripBlock (value : Bytes) : Bytes :=
  if isBlock value then trimBack (trimFront ((value.drop 2).take (value.length - 4))) else value

/-- Key and value of an argument token: `find('=')` and the two `substr`. -/
def argOf (value : Bytes) : Bytes × Bytes :=
  match splitFirst '=' value with
  | some (key, val) => (key, stripBlock val)
  | none => (value, stripBlock value)

/-- The first token of a message: it decides the type. -/
def buildFirst (p : ParserState) (m : ParsedMessage) (t : Token) : ParserState × ParsedMessage :=
  match t.type with
  | .arg => ({ p with type := .request }, { m with capability := cstr t.value })
  | .handle =>
      match splitFirst ':' (t.value.drop 1) with
      | none => ({ p with type := .response }, { m with handle := cstr (t.value.drop 1) })
      | some (handle, capability) =>
          ({ p with type := .response },
            { m with handle := cstr handle, capability := cstr capability })
  | .none =>
      if t.value = witnessWord then
        ({ p with type := .witness }, { m with capability := cstr t.value })
      else if t.value = publishWord then ({ p with type := .publish }, m)
      else ({ p with type := .request }, { m with capability := cstr t.value })

/-- What an argument says about `props`. -/
def Props.noteArg (props : Props) (key : Bytes) : Props :=
  if key = codeWord then { props with hasArgCode := true }
  else if key = whatWord then { props with hasArgWhat := true }
  else if key = bodyWord then { props with hasArgBody := true }
  else props

/-- What a flag says about `props`. -/
def Props.noteFlag (props : Props) (flag : Bytes) : Props :=
  if flag = okWord then { props with hasFlagOk := true }
  else if flag = errorWord then { props with hasFlagError := true }
  else props

/-- A later token that is not the topic of a publish. -/
def buildRest (p : ParserState) (m : ParsedMessage) (t : Token) : ParserState × ParsedMessage :=
  match t.type with
  | .arg =>
      ({ p with props := p.props.noteArg (argOf t.value).1 },
        { m with args := m.args ++ [(cstr (argOf t.value).1, cstr (argOf t.value).2)] })
  | .handle => (p, { m with handle := cstr (t.value.drop 1) })
  | .none =>
      ({ p with props := p.props.noteFlag t.value }, { m with flags := m.flags ++ [cstr t.value] })

/-- One round of the loop of `build`: the token number `i`. -/
def buildStep (i : Nat) (p : ParserState) (m : ParsedMessage) (t : Token) :
    ParserState × ParsedMessage :=
  if i = 0 then buildFirst p m t
  else if p.type = .publish ∧ i = 1 then (p, { m with capability := cstr t.value })
  else buildRest p m t

/-- The loop of `build`, from token number `i` on. -/
def buildLoop (i : Nat) (p : ParserState) (m : ParsedMessage) :
    List Token → ParserState × ParsedMessage
  | [] => (p, m)
  | t :: rest => buildLoop (i + 1) (buildStep i p m t).1 (buildStep i p m t).2 rest

/-- `parser::build`. -/
def build (p : ParserState) (m : ParsedMessage) (tokens : List Token) :
    ParserState × ParsedMessage :=
  buildLoop 0 p m tokens

/-! ## Parse and validate -/

namespace ParserState

/-- `parser::error`. -/
def error (p : ParserState) (code what : String) : ParserState :=
  { p with errorCode := code, errorWhat := what }

/-- `parser::hasError`. -/
def hasError (p : ParserState) : Bool := p.errorCode != ""

/-- `parser::parse`, on a message that is not null.  The type is left as it was until
`build` sees a first token. -/
def parse (p : ParserState) (message : Bytes) (m : ParsedMessage) : ParserState × ParsedMessage :=
  build { p with raw := message, errorCode := "", errorWhat := "", props := {} } m
    (tokenize message)

/-- The fault of a request. -/
def checkRequest (p : ParserState) (m : ParsedMessage) : ParserState :=
  if m.capability = [] then p.error "Malformed" "request missing command"
  else if '=' ∈ m.capability then p.error "Malformed" "first token cannot be argument"
  else if m.handle = [] then p.error "Malformed" "request missing handle"
  else p

/-- The fault of a response. -/
def checkResponse (p : ParserState) (m : ParsedMessage) : ParserState :=
  if m.capability = [] then
    p.error "Malformed" "response missing command; [ ~h ] should be [ ~h:c ]"
  else if m.handle = [] then p.error "Malformed" "response missing handle"
  else if !p.props.hasFlagOk && !p.props.hasFlagError then
    p.error "Malformed" "response missing ok or error flag"
  else if p.props.hasFlagOk && p.props.hasFlagError then
    p.error "Malformed" "response has both ok and error flags"
  else if p.props.hasFlagError && !p.props.hasArgCode then
    p.error "Malformed" "error response missing code"
  else if p.props.hasFlagError && !p.props.hasArgWhat then
    p.error "Malformed" "error response missing what"
  else p

/-- The fault of a witness. -/
def checkWitness (p : ParserState) : ParserState :=
  if !p.props.hasArgBody then p.error "Malformed" "witness missing body" else p

/-- The fault of a publish. -/
def checkPublish (p : ParserState) (m : ParsedMessage) : ParserState :=
  if m.capability = [] then p.error "Malformed" "publish missing topic"
  else if '=' ∈ m.capability then
    p.error "Malformed" "publish missing topic; cannot be argument; [ k=v ] should be [ t ]"
  else if m.capability.head? = some '~' then
    p.error "Malformed" "publish missing topic; cannot be handle; [ ~h ] should be [ t ]"
  else p

/-- `parser::validate`; `none` is the null message handle. -/
def validate (p : ParserState) : Option ParsedMessage → ParserState
  | none => { p with errorCode := "", errorWhat := "" }.error "Missing" "message handle is null"
  | some m =>
      let p : ParserState := { p with errorCode := "", errorWhat := "" }
      match p.type with
      | .request => p.checkRequest m
      | .response => p.checkResponse m
      | .witness => p.checkWitness
      | .publish => p.checkPublish m
      | .unknown => p.error "Malformed" "unknown message type"

end ParserState

/-- `spore_parse` with a new parser into a new message. -/
def parseNew (message : Bytes) : ParserState × ParsedMessage := ParserState.parse {} message {}

/-- `spore_parse` with a new parser into a new message, then `spore_validate`. -/
def parseAndValidate (message : Bytes) : ParserState × ParsedMessage :=
  ((parseNew message).1.validate (some (parseNew message).2), (parseNew message).2)

/-- `spore_parse` and `spore_validate` find no fault in the text. -/
def IsAccepted (message : Bytes) : Prop := (parseAndValidate message).1.hasError = false

instance (message : Bytes) : Decidable (IsAccepted message) :=
  inferInstanceAs (Decidable (_ = _))

/-- `spore_parse` and `spore_validate` accept the text, and this is its type. -/
def Accepts (message : Bytes) (type : MessageType) : Prop :=
  IsAccepted message ∧ (parseAndValidate message).1.type = type

instance (message : Bytes) (type : MessageType) : Decidable (Accepts message type) :=
  inferInstanceAs (Decidable (_ ∧ _))

end SporeClient.Parser
