/-
  Parser/History.lean --- a parser that is used for one message after another.

  WHAT THIS FILE IS FOR.  `parse` takes back what an earlier message left in the parser:
  the raw text, the error and `props`.  It does not take back the type, which `build` sets
  at the first token.  So a message without tokens is judged by the type of an earlier
  one.  `sameResults_iff` says for which histories and messages the results are those of a
  new parser.
-/
import SporeClient.Parser.Validate

set_option autoImplicit false

namespace SporeClient.Parser

open SporeClient.Foundation

/-! ## Calls on one parser -/

/-- A call of the C interface on a parser; `none` is a null pointer. -/
inductive ParserCall where
  | parse (message : Option Bytes) (hParsed : Option ParsedMessage)
  | validate (hMessage : Option ParsedMessage)
  deriving DecidableEq, Repr

/-- `spore_parse` and `spore_validate`: what a call makes of the parser. -/
def ParserState.call (p : ParserState) : ParserCall → ParserState
  | .parse message hParsed =>
      match message, hParsed with
      | some message, some m => (p.parse message m).1
      | _, _ => p
  | .validate hMessage => p.validate hMessage

/-- The parser after these calls, in order. -/
def ParserState.calls (p : ParserState) (l : List ParserCall) : ParserState := l.foldl call p

/-- Parsing the text into a new message and validating it gives what a new parser gives:
type, error and message. -/
structure SameResults (p : ParserState) (message : Bytes) : Prop where
  type : ((p.parse message {}).1.validate (some (p.parse message {}).2)).type =
    (parseAndValidate message).1.type
  errorCode : ((p.parse message {}).1.validate (some (p.parse message {}).2)).errorCode =
    (parseAndValidate message).1.errorCode
  errorWhat : ((p.parse message {}).1.validate (some (p.parse message {}).2)).errorWhat =
    (parseAndValidate message).1.errorWhat
  message : (p.parse message {}).2 = (parseAndValidate message).2

/-- The call parses a text that has a token. -/
def ParserCall.HasTokens : ParserCall → Prop
  | .parse (some message) (some _) => tokenize message ≠ []
  | _ => False

/-! ## The type -/

/-- The first token sets the type, whatever it was. -/
theorem buildFirst_type (p : ParserState) (type : MessageType) (m : ParsedMessage) (t : Token) :
    buildFirst { p with type := type } m t = buildFirst p m t := by
  unfold buildFirst
  cases t.type <;> rfl

theorem buildFirst_type_ne (p : ParserState) (m : ParsedMessage) (t : Token) :
    (buildFirst p m t).1.type ≠ .unknown := by
  unfold buildFirst
  cases t.type with
  | arg => simp
  | handle =>
      simp only
      split <;> simp
  | none =>
      simp only
      split
      · simp
      · split <;> simp

/-- Everything but the type is taken back. -/
theorem parse_eq (p : ParserState) (message : Bytes) (m : ParsedMessage) :
    p.parse message m =
      build { raw := message, type := p.type } m (tokenize message) := rfl

/-- A message without tokens leaves the type as it was. -/
theorem parse_blank {p : ParserState} {message : Bytes} (h : tokenize message = [])
    (m : ParsedMessage) : p.parse message m = ({ raw := message, type := p.type }, m) := by
  rw [parse_eq, h]
  rfl

/-- A message with a token is parsed as by a new parser. -/
theorem parse_of_tokens {p : ParserState} {message : Bytes} (h : tokenize message ≠ [])
    (m : ParsedMessage) : p.parse message m = ParserState.parse {} message m := by
  obtain ⟨t, rest, htokens⟩ := List.exists_cons_of_ne_nil h
  have hfirst := buildFirst_type { raw := message } p.type m t
  rw [parse_eq, parse_eq, htokens, build, build, buildLoop, buildLoop]
  simp only [buildStep, if_pos, hfirst]

/-- `validate` keeps the type, and a parse changes it when the text has a token. -/
theorem call_type (p : ParserState) (c : ParserCall) :
    (p.call c).type = .unknown ↔ p.type = .unknown ∧ ¬c.HasTokens := by
  cases c with
  | validate hMessage => simp [ParserState.call, ParserCall.HasTokens, validate_type]
  | parse message hParsed =>
      cases message with
      | none => simp [ParserState.call, ParserCall.HasTokens]
      | some message =>
          cases hParsed with
          | none => simp [ParserState.call, ParserCall.HasTokens]
          | some m =>
              by_cases htokens : tokenize message = []
              · simp [ParserState.call, ParserCall.HasTokens, htokens, parse_blank htokens]
              · obtain ⟨t, rest, hcons⟩ := List.exists_cons_of_ne_nil htokens
                have hne : (p.parse message m).1.type ≠ .unknown := by
                  rw [parse_eq, hcons, build, buildLoop, buildLoop_type (by omega)]
                  exact buildFirst_type_ne _ _ _
                simp [ParserState.call, ParserCall.HasTokens, htokens, hne]

/-- The type is unknown as long as no text had a token. -/
theorem calls_type (p : ParserState) (l : List ParserCall) :
    (p.calls l).type = .unknown ↔ p.type = .unknown ∧ ∀ c ∈ l, ¬c.HasTokens := by
  induction l generalizing p with
  | nil => simp [ParserState.calls]
  | cons c rest ih =>
      have hcons : p.calls (c :: rest) = (p.call c).calls rest := rfl
      rw [hcons, ih, call_type]
      simp [and_assoc]

/-! ## Results -/

theorem sameResults_iff_type (p : ParserState) (message : Bytes) :
    SameResults p message ↔ tokenize message ≠ [] ∨ p.type = .unknown := by
  by_cases htokens : tokenize message = []
  · have hold : p.parse message {} = ({ raw := message, type := p.type }, {}) :=
      parse_blank htokens {}
    have hnew : parseNew message = ({ raw := message }, {}) := parse_blank htokens {}
    constructor
    · intro h
      have htype := h.type
      rw [parseAndValidate, validate_type, validate_type, hold, hnew] at htype
      exact Or.inr htype
    · intro h
      have htype : p.type = .unknown := h.resolve_left (by simp [htokens])
      constructor <;> rw [parseAndValidate, hold, hnew, htype]
  · have hold : p.parse message {} = parseNew message := parse_of_tokens htokens {}
    refine iff_of_true ?_ (Or.inl htokens)
    constructor <;> rw [parseAndValidate, hold]

/-- **The results for a text do not depend on the calls before, if and only if the text has
a token or no text before had one.** -/
theorem sameResults_iff (l : List ParserCall) (message : Bytes) :
    SameResults (ParserState.calls {} l) message ↔
      tokenize message ≠ [] ∨ ∀ c ∈ l, ¬c.HasTokens := by
  rw [sameResults_iff_type, calls_type]
  exact or_congr_right (and_iff_right rfl)

/-- **A text without tokens is judged by the message before.** -/
theorem not_sameResults :
    ¬∀ (l : List ParserCall) (message : Bytes), SameResults (ParserState.calls {} l) message := by
  intro h
  have htype := (h [.parse (some "c ~h".toList) (some {})] []).type
  exact absurd htype (by decide)

end SporeClient.Parser
