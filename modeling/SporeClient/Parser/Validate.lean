/-
  Parser/Validate.lean --- what `validate` accepts.

  WHAT THIS FILE IS FOR.  `validate` looks for faults in order and records the first one.
  `Valid` says for each type what a message without fault is, and `isAccepted_iff` that a
  text is accepted when what is parsed from it is valid.
-/
import SporeClient.Parser.BuildSpec

set_option autoImplicit false

namespace SporeClient.Parser

/-! ## Valid messages -/

/-- A request without fault. -/
structure ValidRequest (m : ParsedMessage) : Prop where
  command : m.capability ≠ []
  no_arg : '=' ∉ m.capability
  handle : m.handle ≠ []

/-- A response without fault. -/
structure ValidResponse (props : Props) (m : ParsedMessage) : Prop where
  command : m.capability ≠ []
  handle : m.handle ≠ []
  ok_or_error : props.hasFlagOk = true ∨ props.hasFlagError = true
  not_both : ¬(props.hasFlagOk = true ∧ props.hasFlagError = true)
  code : props.hasFlagError = true → props.hasArgCode = true
  what : props.hasFlagError = true → props.hasArgWhat = true

/-- A publish without fault. -/
structure ValidPublish (m : ParsedMessage) : Prop where
  topic : m.capability ≠ []
  no_arg : '=' ∉ m.capability
  no_handle : m.capability.head? ≠ some '~'

/-- A message without fault, by its type. -/
def Valid (type : MessageType) (props : Props) (m : ParsedMessage) : Prop :=
  match type with
  | .request => ValidRequest m
  | .response => ValidResponse props m
  | .witness => props.hasArgBody = true
  | .publish => ValidPublish m
  | .unknown => False

/-! ## The checks -/

section

variable {p : ParserState} {m : ParsedMessage}

theorem hasError_error (code what : String) (h : code ≠ "") :
    (p.error code what).hasError = true := by
  simp [ParserState.error, ParserState.hasError, h]

theorem checkRequest_iff (hp : p.hasError = false) :
    (p.checkRequest m).hasError = false ↔ ValidRequest m := by
  have hbad : ∀ what, (p.error "Malformed" what).hasError = true := fun what =>
    hasError_error _ _ (by decide)
  unfold ParserState.checkRequest
  split
  · exact iff_of_false (by simp [hbad]) fun h => h.command ‹_›
  · split
    · exact iff_of_false (by simp [hbad]) fun h => h.no_arg ‹_›
    · split
      · exact iff_of_false (by simp [hbad]) fun h => h.handle ‹_›
      · exact iff_of_true hp ⟨‹_›, ‹_›, ‹_›⟩

theorem checkResponse_iff (hp : p.hasError = false) :
    (p.checkResponse m).hasError = false ↔ ValidResponse p.props m := by
  have hbad : ∀ what, (p.error "Malformed" what).hasError = true := fun what =>
    hasError_error _ _ (by decide)
  unfold ParserState.checkResponse
  split
  · exact iff_of_false (by simp [hbad]) fun h => h.command ‹_›
  · split
    · exact iff_of_false (by simp [hbad]) fun h => h.handle ‹_›
    · rename_i hcommand hhandle
      split
      · rename_i hnone
        apply iff_of_false (by simp [hbad])
        intro h
        rcases h.ok_or_error with h | h <;> simp [h] at hnone
      · rename_i hone
        split
        · rename_i hboth
          exact iff_of_false (by simp [hbad]) fun h => h.not_both (by simpa using hboth)
        · rename_i hnotboth
          split
          · rename_i hcode
            apply iff_of_false (by simp [hbad])
            intro h
            simp only [Bool.and_eq_true, Bool.not_eq_true'] at hcode
            simp [h.code hcode.1] at hcode
          · rename_i hcode
            split
            · rename_i hwhat
              apply iff_of_false (by simp [hbad])
              intro h
              simp only [Bool.and_eq_true, Bool.not_eq_true'] at hwhat
              simp [h.what hwhat.1] at hwhat
            · rename_i hwhat
              refine iff_of_true hp ⟨hcommand, hhandle, ?_, by simpa using hnotboth, ?_, ?_⟩
              · by_contra hno
                rw [not_or] at hno
                simp [hno.1, hno.2] at hone
              · intro herr
                simpa [herr] using hcode
              · intro herr
                simpa [herr] using hwhat

theorem checkWitness_iff (hp : p.hasError = false) :
    p.checkWitness.hasError = false ↔ p.props.hasArgBody = true := by
  unfold ParserState.checkWitness
  split
  · rename_i hbody
    apply iff_of_false (by simp [hasError_error])
    intro h
    simp [h] at hbody
  · rename_i hbody
    exact iff_of_true hp (by simpa using hbody)

theorem checkPublish_iff (hp : p.hasError = false) :
    (p.checkPublish m).hasError = false ↔ ValidPublish m := by
  have hbad : ∀ what, (p.error "Malformed" what).hasError = true := fun what =>
    hasError_error _ _ (by decide)
  unfold ParserState.checkPublish
  split
  · exact iff_of_false (by simp [hbad]) fun h => h.topic ‹_›
  · split
    · exact iff_of_false (by simp [hbad]) fun h => h.no_arg ‹_›
    · split
      · exact iff_of_false (by simp [hbad]) fun h => h.no_handle ‹_›
      · exact iff_of_true hp ⟨‹_›, ‹_›, ‹_›⟩

end

/-! ## Accepted texts -/

/-- `validate` does not change the type. -/
@[simp] theorem validate_type (p : ParserState) (m : Option ParsedMessage) :
    (p.validate m).type = p.type := by
  cases m with
  | none => rfl
  | some m =>
      simp only [ParserState.validate]
      cases p.type <;>
        simp only [ParserState.checkRequest, ParserState.checkResponse, ParserState.checkWitness,
          ParserState.checkPublish] <;> (repeat' split) <;> rfl

/-- **A text is accepted when what is parsed from it is valid.** -/
theorem isAccepted_iff (message : Bytes) :
    IsAccepted message ↔
      Valid (parseNew message).1.type (parseNew message).1.props (parseNew message).2 := by
  rw [IsAccepted, parseAndValidate]
  generalize (parseNew message).1 = p
  generalize (parseNew message).2 = m
  have hp : ({ p with errorCode := "", errorWhat := "" } : ParserState).hasError = false := rfl
  simp only [ParserState.validate, Valid]
  cases p.type with
  | unknown => exact iff_of_false (by simp [hasError_error]) id
  | request => exact checkRequest_iff hp
  | response => exact checkResponse_iff hp
  | witness => exact checkWitness_iff hp
  | publish => exact checkPublish_iff hp

theorem accepts_iff (message : Bytes) (type : MessageType) :
    Accepts message type ↔ (parseNew message).1.type = type ∧
      Valid type (parseNew message).1.props (parseNew message).2 := by
  have htype : (parseAndValidate message).1.type = (parseNew message).1.type := by
    rw [parseAndValidate, validate_type]
  rw [Accepts, htype, isAccepted_iff]
  constructor
  · rintro ⟨hvalid, rfl⟩
    exact ⟨rfl, hvalid⟩
  · rintro ⟨rfl, hvalid⟩
    exact ⟨hvalid, rfl⟩

/-- No message of unknown type is accepted. -/
theorem IsAccepted.type_ne_unknown {message : Bytes} (h : IsAccepted message) :
    (parseAndValidate message).1.type ≠ .unknown := by
  intro htype
  rw [parseAndValidate, validate_type] at htype
  rw [isAccepted_iff, htype] at h
  exact h

end SporeClient.Parser
