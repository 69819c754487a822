/-
  Wire/OwnFields.lean --- error responses and witnesses, which have fields of their own.

  WHAT THIS FILE IS FOR.  The fields `code`, `what` and `body` are sent as arguments, but
  not through `serializeArg`: a code is written as it is, the other two always in double
  quotes, and an empty one is left out.  `create_from_raw` takes them out of the arguments
  again.  When the fields are fit for this (`Sendable`), both kinds come back as they were,
  an error response with two more flags.
-/
import SporeClient.Wire.RoundTrip

set_option autoImplicit false

namespace SporeClient.Wire

open SporeClient.Foundation
open SporeClient.Parser

/-! ## Fields that are sent as arguments -/

/-- The token of such a field. -/
def fieldToken (k v : Bytes) : Token := ⟨k ++ '=' :: v, .arg⟩

/-- The token of a field that is left out when it is empty. -/
def fieldTokens (k v : Bytes) : List Token := if v ≠ [] then [fieldToken k v] else []

/-- The argument such a field is read to. -/
def ownField (k v : Bytes) : List (Bytes × Bytes) := if v ≠ [] then [(k, v)] else []

theorem exists_row_field {k v text : Bytes} (hkey : IsKey k) (h : Carries text v) :
    ∃ pieces, row pieces = (if v ≠ [] then ' ' :: k ++ '=' :: text else []) ∧
      pieces.map Piece.token = fieldTokens k v := by
  by_cases hv : v = []
  · exact ⟨[], by simp [hv], by simp [fieldTokens, hv]⟩
  · refine ⟨[⟨k ++ '=' :: text, fieldToken k v, lexes_arg hkey.solid h, by simp [fieldToken]⟩],
      ?_, ?_⟩
    · simp [hv]
    · simp [fieldTokens, hv]

/-- What the token of a field adds to a parsed message. -/
theorem addTokens_field {k v : Bytes} (hkey : IsKey k) (hblock : isBlock v = false)
    (hnul : '\x00' ∉ v) (m : ParsedMessage) :
    m.addTokens (fieldTokens k v) = { m with args := m.args ++ ownField k v } := by
  have hargOf : argOf (k ++ '=' :: v) = (k, v) := by
    rw [argOf_append hkey.no_eq, stripBlock_of_not hblock]
  unfold fieldTokens ownField
  split
  · simp [ParsedMessage.addTokens, handleOf, argsOf, flagsOf, fieldToken, hargOf,
      cstr_eq_self hkey.no_nul, cstr_eq_self hnul]
  · simp [ParsedMessage.addTokens, handleOf, argsOf, flagsOf]

/-! ## Error responses -/

/-- `"node_error"`. -/
def nodeErrorWord : Bytes := ['n', 'o', 'd', 'e', '_', 'e', 'r', 'r', 'o', 'r']

theorem isWord_errorWord : IsWord errorWord := by decide
theorem isWord_nodeErrorWord : IsWord nodeErrorWord := by decide
theorem isWord_codeWord : IsWord codeWord := by decide
theorem isWord_whatWord : IsWord whatWord := by decide

/-- The serialized text without the newline at its end. -/
def ResponseError.text (e : ResponseError) : Bytes :=
  responseHead e.handle e.command ++ ' ' :: errorWord ++
    (if e.code ≠ [] then ' ' :: codeWord ++ '=' :: e.code else []) ++
    (if e.what ≠ [] then ' ' :: whatWord ++ ['=', '"'] ++ e.what ++ ['"'] else []) ++
    serializeArgs e.args ++ serializeFlags e.flags.toList ++ ' ' :: nodeErrorWord

theorem ResponseError.serialize_eq (e : ResponseError) : e.serialize = e.text ++ ['\n'] := by
  simp [serialize, text, nodeErrorWord]

/-- An error response that can be written as it is. -/
structure ResponseError.Sendable (e : ResponseError) : Prop where
  message : e.toMessage.Sendable
  handle_ne_nil : e.handle ≠ []
  no_colon : ':' ∉ e.handle
  solid : solid headBad .outside (e.handle ++ ':' :: e.command) = true
  handle_no_nul : '\x00' ∉ e.handle
  command_no_nul : '\x00' ∉ e.command
  code : Parser.solid isGap .outside e.code = true ∧ isBlock e.code = false
  code_no_nul : '\x00' ∉ e.code
  what : '"' ∉ e.what ∧ isBlock e.what = false
  what_no_nul : '\x00' ∉ e.what
  own : ∀ p ∈ e.args.entries, p.1 ≠ codeWord ∧ p.1 ≠ whatWord

/-- The tokens behind the head. -/
def ResponseError.tail (e : ResponseError) : List Token :=
  flagToken errorWord :: (fieldTokens codeWord e.code ++ (fieldTokens whatWord e.what ++
    (e.args.entries.map argToken ++ (e.flags.toList ++ [nodeErrorWord]).map flagToken)))

/-- The text of such an error response is a row. -/
theorem ResponseError.isRow_text {e : ResponseError} (h : e.Sendable) :
    IsRow e.text (handleToken (e.handle ++ ':' :: e.command) :: e.tail) := by
  obtain ⟨args, hargs, hargTokens⟩ := exists_row_args h.message.args
  have hbare : ∀ f ∈ e.flags.toList ++ [nodeErrorWord], IsBare f := by
    intro f hf
    rcases List.mem_append.mp hf with hf | hf
    · exact h.message.flags f hf
    · rw [List.mem_singleton.mp hf]
      exact isWord_nodeErrorWord.isBare
  obtain ⟨flags, hflags, hflagTokens⟩ := exists_row_flags hbare
  obtain ⟨code, hcode, hcodeTokens⟩ :=
    exists_row_field isWord_codeWord.isKey (carries_solid h.code.1)
  obtain ⟨what, hwhat, hwhatTokens⟩ :=
    exists_row_field isWord_whatWord.isKey (carries_quoted (Or.inl rfl) h.what.1)
  let head : Piece := ⟨'~' :: (e.handle ++ ':' :: e.command),
    handleToken (e.handle ++ ':' :: e.command), lexes_handle h.solid, by simp [handleToken]⟩
  let error : Piece := ⟨errorWord, flagToken errorWord, isWord_errorWord.lexes,
    isWord_errorWord.ne_nil⟩
  have hfinal : serializeFlags (e.flags.toList ++ [nodeErrorWord]) =
      serializeFlags e.flags.toList ++ ' ' :: nodeErrorWord := by simp [serializeFlags]
  refine ⟨head, error :: (code ++ (what ++ (args ++ flags))), ?_, ?_⟩
  · have hquoted : (if e.what ≠ [] then ' ' :: whatWord ++ ['=', '"'] ++ e.what ++ ['"'] else []) =
        if e.what ≠ [] then ' ' :: whatWord ++ '=' :: ('"' :: e.what ++ ['"']) else [] := by simp
    rw [text, hquoted, ← hcode, ← hwhat]
    simp [head, error, responseHead, h.handle_ne_nil, row_append, hargs, hflags, hfinal,
      serializeArgs]
  · simp [head, error, hcodeTokens, hwhatTokens, hargTokens, hflagTokens, tail]

/-- The flags that are written. -/
def ResponseError.sentFlags (e : ResponseError) : List Bytes :=
  errorWord :: (e.flags.toList ++ [nodeErrorWord])

/-- What is parsed from the text of such an error response. -/
theorem ResponseError.parse_text {e : ResponseError} (h : e.Sendable) :
    (parseNew e.text).1.type = .response ∧
      (parseNew e.text).2 = ⟨e.command, e.handle, ownField codeWord e.code ++
        (ownField whatWord e.what ++ e.args.entries), e.sentFlags⟩ := by
  have hnul : ∀ f ∈ e.flags.toList ++ [nodeErrorWord], '\x00' ∉ f := by
    intro f hf
    rcases List.mem_append.mp hf with hf | hf
    · exact (h.message.flags f hf).no_nul
    · rw [List.mem_singleton.mp hf]
      decide
  have hfirst := buildFirst_response h.no_colon h.handle_no_nul h.command_no_nul
  have hword : ∀ f ∈ [errorWord], '\x00' ∉ f := by decide
  have herror : ∀ m : ParsedMessage, m.addTokens [flagToken errorWord] =
      { m with flags := m.flags ++ [errorWord] } := addTokens_flags hword
  have hbuild := build_eq (p := { raw := e.text }) (m := {})
    (t := handleToken (e.handle ++ ':' :: e.command)) e.tail (by rw [hfirst]; simp)
  rw [hfirst, tail, ParsedMessage.addTokens_cons, herror, ParsedMessage.addTokens_append,
    addTokens_field isWord_codeWord.isKey h.code.2 h.code_no_nul, ParsedMessage.addTokens_append,
    addTokens_field isWord_whatWord.isKey h.what.2 h.what_no_nul, ParsedMessage.addTokens_append,
    addTokens_args h.message.args, addTokens_flags hnul] at hbuild
  have hparse : parseNew e.text = build { raw := e.text } {} (tokenize e.text) := rfl
  rw [hparse, (ResponseError.isRow_text h).tokenize, tail, hbuild]
  exact ⟨rfl, by simp [sentFlags]⟩

/-- Arguments that are no fields of an error are not taken. -/
theorem takeFields_others {l : List (Bytes × Bytes)}
    (h : ∀ p ∈ l, p.1 ≠ codeWord ∧ p.1 ≠ whatWord) (e : ResponseError) :
    ResponseError.takeFields e l = e := by
  induction l with
  | nil => rfl
  | cons p rest ih =>
      have hp := h p List.mem_cons_self
      rw [ResponseError.takeFields, if_neg hp.1, if_neg hp.2]
      exact ih fun q hq => h q (List.mem_cons_of_mem p hq)

/-- The fields of an error are taken out of the arguments again. -/
theorem takeFields_ownFields {l : List (Bytes × Bytes)}
    (h : ∀ p ∈ l, p.1 ≠ codeWord ∧ p.1 ≠ whatWord) (msg : Message) (code what : Bytes) :
    ResponseError.takeFields ⟨msg, [], []⟩
      (ownField codeWord code ++ (ownField whatWord what ++ l)) =
      ⟨msg, code, what⟩ := by
  have hne : whatWord ≠ codeWord := by decide
  by_cases hcode : code = []
  · by_cases hwhat : what = []
    · simp [ownField, hcode, hwhat, takeFields_others h]
    · simp [ownField, hcode, hwhat, ResponseError.takeFields, hne, takeFields_others h]
  · by_cases hwhat : what = []
    · simp [ownField, hcode, hwhat, ResponseError.takeFields, takeFields_others h]
    · simp [ownField, hcode, hwhat, ResponseError.takeFields, hne, takeFields_others h]

theorem ResponseError.ofParsed_eq {l : List (Bytes × Bytes)}
    (h : ∀ p ∈ l, p.1 ≠ codeWord ∧ p.1 ≠ whatWord) (command handle code what raw : Bytes)
    (flags : List Bytes) :
    ResponseError.ofParsed ⟨command, handle,
        ownField codeWord code ++ (ownField whatWord what ++ l),
        flags⟩ raw =
      ⟨⟨command, handle, SortedMap.ofList l, SortedSet.ofList flags, raw⟩, code, what⟩ := by
  have hfield : ∀ k v, k = codeWord ∨ k = whatWord →
      (ownField k v).filter (fun p => !true || (p.1 != codeWord && p.1 != whatWord)) = [] := by
    intro k v hk
    rcases hk with rfl | rfl <;> (unfold ownField; split <;> simp)
  have hl : l.filter (fun p => !true || (p.1 != codeWord && p.1 != whatWord)) = l := by
    apply List.filter_eq_self.mpr
    intro p hp
    simp [h p hp]
  have hpopulate : populateMessage {} ⟨command, handle,
      ownField codeWord code ++ (ownField whatWord what ++ l), flags⟩ true =
        ⟨command, handle, SortedMap.ofList l, SortedSet.ofList flags, []⟩ := by
    simp only [populateMessage, List.filter_append, hfield _ _ (Or.inl rfl),
      hfield _ _ (Or.inr rfl), hl, List.nil_append, Message.addArgs_eq, Message.addFlags_eq,
      Message.setCommand, Message.setHandle, SortedMap.ofList, SortedSet.ofList]
  rw [ofParsed, hpopulate]
  exact takeFields_ownFields h _ code what

/-- **An error response that can be written as it is comes back with the flags `error` and
`node_error`.** -/
theorem ResponseError.createFromRaw_serialize {e : ResponseError} (h : e.Sendable)
    (hline : NoCRLF e.serialize) :
    ResponseError.createFromRaw e.serialize =
      some ⟨⟨e.command, e.handle, e.args, SortedSet.ofList e.sentFlags, e.serialize⟩, e.code,
        e.what⟩ := by
  obtain ⟨htype, hmsg⟩ := ResponseError.parse_text h
  have hraw : parseRaw e.serialize = parseNew e.text := by
    rw [e.serialize_eq] at hline
    rw [parseRaw, e.serialize_eq, rawInput_line hline]
  rw [createFromRaw, hraw, if_pos htype, hmsg, ofParsed_eq h.own, SortedMap.ofList_entries]

/-- The map of an error response does not have its own fields. -/
theorem ResponseError.createFromRaw_own {raw : Bytes} {e : ResponseError}
    (h : ResponseError.createFromRaw raw = some e) :
    ∀ p ∈ e.args.entries, p.1 ≠ codeWord ∧ p.1 ≠ whatWord := by
  obtain ⟨_, he⟩ := Option.ite_none_right_eq_some.mp h
  intro p hp
  rw [← Option.some.inj he, ResponseError.ofParsed_toMessage] at hp
  simpa using (List.mem_filter.mp (SortedMap.mem_of_mem_ofList hp)).2

/-! ## Witnesses -/

theorem isWord_witnessWord : IsWord witnessWord := by decide
theorem isWord_bodyWord : IsWord bodyWord := by decide

/-- The serialized text without the newline at its end. -/
def Witness.text (w : Witness) : Bytes :=
  witnessWord ++
    (if w.body ≠ [] then ' ' :: bodyWord ++ ['=', '"'] ++ w.body ++ ['"'] else []) ++
    serializeArgs w.args ++ serializeFlags w.flags.toList

theorem Witness.serialize_eq (w : Witness) : w.serialize = w.text ++ ['\n'] := rfl

/-- A witness that can be written as it is. -/
structure Witness.Sendable (w : Witness) : Prop where
  message : w.toMessage.Sendable
  body : '"' ∉ w.body ∧ isBlock w.body = false
  body_no_nul : '\x00' ∉ w.body
  own : ∀ p ∈ w.args.entries, p.1 ≠ bodyWord

/-- The tokens behind the word `witness`. -/
def Witness.tail (w : Witness) : List Token :=
  fieldTokens bodyWord w.body ++ (w.args.entries.map argToken ++ w.flags.toList.map flagToken)

/-- The text of such a witness is a row. -/
theorem Witness.isRow_text {w : Witness} (h : w.Sendable) :
    IsRow w.text (flagToken witnessWord :: w.tail) := by
  obtain ⟨args, hargs, hargTokens⟩ := exists_row_args h.message.args
  obtain ⟨flags, hflags, hflagTokens⟩ := exists_row_flags h.message.flags
  obtain ⟨body, hbody, hbodyTokens⟩ :=
    exists_row_field isWord_bodyWord.isKey (carries_quoted (Or.inl rfl) h.body.1)
  let head : Piece := ⟨witnessWord, flagToken witnessWord, isWord_witnessWord.lexes,
    isWord_witnessWord.ne_nil⟩
  refine ⟨head, body ++ (args ++ flags), ?_, ?_⟩
  · have hquoted : (if w.body ≠ [] then ' ' :: bodyWord ++ ['=', '"'] ++ w.body ++ ['"'] else []) =
        if w.body ≠ [] then ' ' :: bodyWord ++ '=' :: ('"' :: w.body ++ ['"']) else [] := by simp
    rw [text, hquoted, ← hbody]
    simp [head, row_append, hargs, hflags, serializeArgs]
  · simp [head, hbodyTokens, hargTokens, hflagTokens, tail]

/-- What is parsed from the text of such a witness. -/
theorem Witness.parse_text {w : Witness} (h : w.Sendable) :
    (parseNew w.text).1.type = .witness ∧
      (parseNew w.text).2 =
        ⟨witnessWord, [], ownField bodyWord w.body ++ w.args.entries, w.flags.toList⟩ := by
  have hnul : ∀ f ∈ w.flags.toList, '\x00' ∉ f := fun f hf => (h.message.flags f hf).no_nul
  have hfirst : ∀ p m, buildFirst p m (flagToken witnessWord) =
      ({ p with type := .witness }, { m with capability := witnessWord }) := fun _ _ => rfl
  have hbuild := build_eq (p := { raw := w.text }) (m := {}) (t := flagToken witnessWord) w.tail
    (by rw [hfirst]; simp)
  rw [hfirst, tail, ParsedMessage.addTokens_append,
    addTokens_field isWord_bodyWord.isKey h.body.2 h.body_no_nul, ParsedMessage.addTokens_append,
    addTokens_args h.message.args, addTokens_flags hnul] at hbuild
  have hparse : parseNew w.text = build { raw := w.text } {} (tokenize w.text) := rfl
  rw [hparse, (Witness.isRow_text h).tokenize, tail, hbuild]
  exact ⟨rfl, by simp⟩

/-- Arguments that are not the body stay arguments. -/
theorem takeArgs_others {l : List (Bytes × Bytes)} (h : ∀ p ∈ l, p.1 ≠ bodyWord) (w : Witness) :
    Witness.takeArgs w l = { w with toMessage := w.toMessage.addArgs l } := by
  induction l generalizing w with
  | nil => rfl
  | cons p rest ih =>
      rw [Witness.takeArgs, if_neg (h p List.mem_cons_self),
        ih fun q hq => h q (List.mem_cons_of_mem p hq)]
      rfl

theorem Witness.ofParsed_eq {l : List (Bytes × Bytes)} (h : ∀ p ∈ l, p.1 ≠ bodyWord)
    (command handle body raw : Bytes) (flags : List Bytes) :
    Witness.ofParsed ⟨command, handle, ownField bodyWord body ++ l, flags⟩ raw =
      ⟨⟨[], [], SortedMap.ofList l, SortedSet.ofList flags, raw⟩, body⟩ := by
  have htake : Witness.takeArgs ⟨({} : Message).setRaw raw, []⟩ (ownField bodyWord body ++ l) =
      ⟨(({} : Message).setRaw raw).addArgs l, body⟩ := by
    by_cases hbody : body = []
    · simp [ownField, hbody, takeArgs_others h]
    · simp [ownField, hbody, takeArgs, takeArgs_others h]
  have hparsed : Witness.ofParsed ⟨command, handle, ownField bodyWord body ++ l, flags⟩ raw =
      let w := Witness.takeArgs ⟨({} : Message).setRaw raw, []⟩ (ownField bodyWord body ++ l)
      { w with toMessage := w.toMessage.addFlags flags } := rfl
  rw [hparsed, htake]
  simp [Message.addArgs_eq, Message.addFlags_eq, Message.setRaw, SortedMap.ofList, SortedSet.ofList]

/-- **A witness that can be written as it is comes back as it was**, but for a command or a
handle, which a witness does not send. -/
theorem Witness.createFromRaw_serialize {w : Witness} (h : w.Sendable)
    (hline : NoCRLF w.serialize) :
    Witness.createFromRaw w.serialize =
      some ⟨{ args := w.args, flags := w.flags, raw := w.serialize }, w.body⟩ := by
  obtain ⟨htype, hmsg⟩ := Witness.parse_text h
  have hraw : parseRaw w.serialize = parseNew w.text := by
    rw [w.serialize_eq] at hline
    rw [parseRaw, w.serialize_eq, rawInput_line hline]
  rw [createFromRaw, hraw, if_pos htype, hmsg, ofParsed_eq h.own, SortedMap.ofList_entries,
    SortedSet.ofList_toList]

/-- The map of a witness does not have its body. -/
theorem Witness.createFromRaw_own {raw : Bytes} {w : Witness}
    (h : Witness.createFromRaw raw = some w) : ∀ p ∈ w.args.entries, p.1 ≠ bodyWord := by
  obtain ⟨_, hw⟩ := Option.ite_none_right_eq_some.mp h
  intro p hp
  rw [← Option.some.inj hw, Witness.ofParsed_toMessage] at hp
  simpa using (List.mem_filter.mp (SortedMap.mem_of_mem_ofList hp)).2

end SporeClient.Wire
