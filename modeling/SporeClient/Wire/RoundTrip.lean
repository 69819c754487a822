/-
  Wire/RoundTrip.lean --- reading back what `serialize` writes.

  WHAT THIS FILE IS FOR.  The text of a message is a head, a row of pieces and a newline.
  When its parts are fit to be written as they are (`IsBare`, `Message.Sendable`), it is
  tokenized piece by piece, `build` puts the pieces back into the same fields, and
  `create_from_raw` returns the message.  This is done once for the arguments and flags,
  which all kinds share, and then for the head of each kind.
-/
import SporeClient.Parser.Validate
import SporeClient.Wire.Encoding

set_option autoImplicit false

namespace SporeClient.Wire

open SporeClient.Foundation
open SporeClient.Parser

/-! ## Lines without carriage returns -/

theorem noCRLF_of_not_mem {text : Bytes} (h : '\r' ∉ text) : NoCRLF text := fun hin =>
  h (hin.subset List.mem_cons_self)

theorem noCRLF_append {a b : Bytes} :
    NoCRLF (a ++ b) ↔
      NoCRLF a ∧ NoCRLF b ∧ ¬(a.getLast? = some '\r' ∧ b.head? = some '\n') := by
  simp only [NoCRLF, pair_infix_append, not_or]

theorem dropCR_eq_self {text : Bytes} (h : NoCRLF text) : dropCR text = text := by
  induction text with
  | nil => rfl
  | cons c rest ih =>
      rw [NoCRLF, pair_infix_cons, not_or] at h
      rw [dropCR, if_neg h.1, ih h.2]

/-- A line ending in a newline only is parsed without it. -/
theorem rawInput_line {text : Bytes} (h : NoCRLF (text ++ ['\n'])) :
    rawInput (text ++ ['\n']) = text := by
  simp [rawInput, dropCR_eq_self h, trimBack]

/-! ## Parts that are written as they are -/

/-- A text that can be written as an argument value. -/
structure IsValue (v : Bytes) : Prop where
  encodable : IsEncodable v
  no_nul : '\x00' ∉ v

instance (v : Bytes) : Decidable (IsValue v) :=
  decidable_of_iff (IsEncodable v ∧ '\x00' ∉ v) ⟨fun h => ⟨h.1, h.2⟩, fun h => ⟨h.1, h.2⟩⟩

/-- `serializeArg` puts the value in quotes. -/
def IsQuoted (v : Bytes) : Prop := '\n' ∉ v ∧ ('"' ∈ v ∨ ' ' ∈ v ∨ '\t' ∈ v)

instance (v : Bytes) : Decidable (IsQuoted v) := inferInstanceAs (Decidable (_ ∧ _))

/-- An argument that can be written.  When the value is put in quotes, the key is read to
itself and the quotes hold the value.  When it is not, the key, the `=` and the encoded value
are read to themselves together: a bracket that the key opens may be closed by the value, if
there is an `=` outside brackets and blocks. -/
structure IsArg (k v : Bytes) : Prop where
  no_eq : '=' ∉ k
  key_no_nul : '\x00' ∉ k
  no_nul : '\x00' ∉ v
  quoted : IsQuoted v → solid headBad .outside k = true ∧ ('"' ∈ v → '\'' ∉ v)
  bare : ¬IsQuoted v → solid isGap .outside (k ++ '=' :: encodeValue v) = true ∧
    solid headBad .outside (k ++ '=' :: encodeValue v) = false
  not_block : '\n' ∉ v → isBlock v = false

instance (k v : Bytes) : Decidable (IsArg k v) :=
  decidable_of_iff
    ('=' ∉ k ∧ '\x00' ∉ k ∧ '\x00' ∉ v ∧
      (IsQuoted v → solid headBad .outside k = true ∧ ('"' ∈ v → '\'' ∉ v)) ∧
      (¬IsQuoted v → solid isGap .outside (k ++ '=' :: encodeValue v) = true ∧
        solid headBad .outside (k ++ '=' :: encodeValue v) = false) ∧
      ('\n' ∉ v → isBlock v = false))
    ⟨fun h => ⟨h.1, h.2.1, h.2.2.1, h.2.2.2.1, h.2.2.2.2.1, h.2.2.2.2.2⟩,
      fun h => ⟨h.1, h.2, h.3, h.4, h.5, h.6⟩⟩

-- the key of `k[=]=` opens a bracket that its value closes
example : IsArg ['k', '['] [']', '='] := by decide

/-- A value that is not put in quotes is read to itself. -/
theorem IsEncodable.solid {v : Bytes} (h : IsEncodable v) (hv : ¬IsQuoted v) :
    solid isGap .outside (encodeValue v) = true := by
  unfold IsEncodable at h
  by_cases hnl : '\n' ∈ v
  · rw [if_pos hnl] at h
    rw [encodeValue_of_newline hnl]
    exact h.1
  · have hplain : '"' ∉ v ∧ ¬(' ' ∈ v ∨ '\t' ∈ v) := by
      simpa only [IsQuoted, hnl, not_false_eq_true, true_and, not_or] using hv
    rw [if_neg hnl, if_neg hplain.1, if_neg hplain.2] at h
    rw [encodeValue, if_neg hnl, if_neg hplain.1, if_neg hplain.2]
    exact h.1

/-- A key and a value that can be written apart can be written together. -/
theorem IsArg.of_isKey {k v : Bytes} (hk : IsKey k) (hv : IsValue v) : IsArg k v where
  no_eq := hk.no_eq
  key_no_nul := hk.no_nul
  no_nul := hv.no_nul
  quoted := fun h => ⟨hk.solid, fun hq => by
    have henc := hv.encodable
    rw [IsEncodable, if_neg h.1, if_pos hq] at henc
    exact henc.1⟩
  bare := fun h => by
    have hnext : Neutral ('=' :: encodeValue v).head? := show Neutral (some '=') by decide
    rw [solid_append headBad_of_isGap hk.solid hnext, solid_append (fun _ h => h) hk.solid hnext]
    exact ⟨by simpa [Parser.solid, isGap, Mode.step] using hv.encodable.solid h,
      by simp [Parser.solid, headBad]⟩
  not_block := hv.encodable.not_block

/-- The arguments and flags of a message can be written as they are. -/
structure Message.Sendable (m : Message) : Prop where
  args : ∀ p ∈ m.args.entries, IsArg p.1 p.2
  flags : ∀ f ∈ m.flags.toList, IsBare f

/-! ## The row of arguments and flags -/

/-- The token of an argument. -/
def argToken (p : Bytes × Bytes) : Token := ⟨p.1 ++ '=' :: carried p.2, .arg⟩

/-- The token of a flag. -/
def flagToken (f : Bytes) : Token := ⟨f, .none⟩

theorem IsArg.argOf_argToken {p : Bytes × Bytes} (h : IsArg p.1 p.2) :
    argOf (argToken p).value = p := by
  rw [argToken, argOf_append h.no_eq]
  exact Prod.ext rfl (stripBlock_carried h.not_block)

theorem argsOf_args {l : List (Bytes × Bytes)} (h : ∀ p ∈ l, IsArg p.1 p.2) :
    argsOf (l.map argToken) = l := by
  induction l with
  | nil => rfl
  | cons p rest ih =>
      have hp := h p List.mem_cons_self
      have hrest := ih fun q hq => h q (List.mem_cons_of_mem _ hq)
      have hargOf : (cstr (argOf (argToken p).value).1, cstr (argOf (argToken p).value).2) = p := by
        rw [hp.argOf_argToken, cstr_eq_self hp.key_no_nul, cstr_eq_self hp.no_nul]
      rw [List.map_cons, argsOf_cons, if_pos (by rfl), hargOf, hrest]

theorem flagsOf_args (l : List (Bytes × Bytes)) : flagsOf (l.map argToken) = [] := by
  simp [flagsOf, argToken]

theorem handleOf_args (h : Bytes) (l : List (Bytes × Bytes)) :
    handleOf h (l.map argToken) = h := by
  induction l with
  | nil => rfl
  | cons p rest ih => exact ih

theorem argsOf_flags (l : List Bytes) : argsOf (l.map flagToken) = [] := by
  simp [argsOf, flagToken]

theorem flagsOf_flags {l : List Bytes} (h : ∀ f ∈ l, '\x00' ∉ f) :
    flagsOf (l.map flagToken) = l := by
  induction l with
  | nil => rfl
  | cons f rest ih =>
      have hrest := ih fun g hg => h g (List.mem_cons_of_mem _ hg)
      have hf : cstr (flagToken f).value = f := cstr_eq_self (h f List.mem_cons_self)
      rw [List.map_cons, flagsOf_cons, if_pos (by rfl), hf, hrest]

theorem handleOf_flags (h : Bytes) (l : List Bytes) : handleOf h (l.map flagToken) = h := by
  induction l with
  | nil => rfl
  | cons f rest ih => exact ih

/-- What the tokens of arguments add to a parsed message. -/
theorem addTokens_args {args : List (Bytes × Bytes)} (h : ∀ p ∈ args, IsArg p.1 p.2)
    (m : ParsedMessage) : m.addTokens (args.map argToken) = { m with args := m.args ++ args } := by
  simp only [ParsedMessage.addTokens, handleOf_args, argsOf_args h, flagsOf_args, List.append_nil]

/-- What the tokens of flags add to a parsed message. -/
theorem addTokens_flags {flags : List Bytes} (h : ∀ f ∈ flags, '\x00' ∉ f) (m : ParsedMessage) :
    m.addTokens (flags.map flagToken) = { m with flags := m.flags ++ flags } := by
  simp only [ParsedMessage.addTokens, handleOf_flags, argsOf_flags, flagsOf_flags h,
    List.append_nil]

theorem row_append (a b : List Piece) : row (a ++ b) = row a ++ row b := by
  simp [row]

/-- A written argument is read to its token. -/
theorem IsArg.lexes {k v : Bytes} (h : IsArg k v) :
    Lexes (k ++ '=' :: encodeValue v) (argToken (k, v)) := by
  by_cases hq : IsQuoted v
  · obtain ⟨hkey, hvalue⟩ := h.quoted hq
    refine lexes_arg hkey ?_
    rw [carried, if_neg hq.1, encodeValue, if_neg hq.1]
    split
    · rename_i hdouble
      exact carries_quoted (Or.inr rfl) (hvalue hdouble)
    · rename_i hdouble
      rw [if_pos (hq.2.resolve_left hdouble)]
      exact carries_quoted (Or.inl rfl) hdouble
  · have hcarried : encodeValue v = carried v := by
      by_cases hnl : '\n' ∈ v
      · rw [encodeValue_of_newline hnl, carried, if_pos hnl]
      · have hplain : '"' ∉ v ∧ ¬(' ' ∈ v ∨ '\t' ∈ v) := by
          simpa only [IsQuoted, hnl, not_false_eq_true, true_and, not_or] using hq
        rw [encodeValue, if_neg hnl, if_neg hplain.1, if_neg hplain.2, carried, if_neg hnl]
    have hlexes := lexes_solid_arg (h.bare hq).1 (h.bare hq).2
    rwa [argToken, ← hcarried]

/-- The arguments are a row of pieces. -/
theorem exists_row_args {l : List (Bytes × Bytes)} (h : ∀ p ∈ l, IsArg p.1 p.2) :
    ∃ pieces, row pieces = (l.flatMap fun p => serializeArg p.1 p.2) ∧
      pieces.map Piece.token = l.map argToken := by
  induction l with
  | nil => exact ⟨[], rfl, rfl⟩
  | cons p rest ih =>
      obtain ⟨pieces, hrow, htokens⟩ := ih fun q hq => h q (List.mem_cons_of_mem _ hq)
      refine ⟨⟨p.1 ++ '=' :: encodeValue p.2, argToken p, (h p List.mem_cons_self).lexes,
        by simp [argToken]⟩ :: pieces, ?_, ?_⟩
      · simp [hrow, serializeArg]
      · simp [htokens]

/-- The flags are a row of pieces. -/
theorem exists_row_flags {l : List Bytes} (h : ∀ f ∈ l, IsBare f) :
    ∃ pieces, row pieces = serializeFlags l ∧ pieces.map Piece.token = l.map flagToken := by
  induction l with
  | nil => exact ⟨[], rfl, rfl⟩
  | cons f rest ih =>
      obtain ⟨pieces, hrow, htokens⟩ := ih fun g hg => h g (List.mem_cons_of_mem _ hg)
      have hf := h f List.mem_cons_self
      refine ⟨⟨f, flagToken f, lexes_solid hf.solid hf.front, hf.ne_nil⟩ :: pieces, ?_, ?_⟩
      · simp [hrow, serializeFlags]
      · simp [htokens]

/-! ## The same fields -/

/-- Two messages have the same fields; where they were read from does not count. -/
structure Message.SameFields (a b : Message) : Prop where
  command : a.command = b.command
  handle : a.handle = b.handle
  args : a.args = b.args
  flags : a.flags = b.flags

instance (a b : Message) : Decidable (a.SameFields b) :=
  decidable_of_iff
    (a.command = b.command ∧ a.handle = b.handle ∧ a.args = b.args ∧ a.flags = b.flags)
    ⟨fun h => ⟨h.1, h.2.1, h.2.2.1, h.2.2.2⟩, fun h => ⟨h.1, h.2, h.3, h.4⟩⟩

/-! ## Requests -/

/-- The token of a handle. -/
def handleToken (h : Bytes) : Token := ⟨'~' :: h, .handle⟩

/-- The serialized text without the newline at its end. -/
def Request.text (r : Request) : Bytes :=
  r.command ++ (if r.handle ≠ [] then [' ', '~'] ++ r.handle else []) ++
    serializeArgs r.args ++ serializeFlags r.flags.toList

theorem Request.serialize_eq (r : Request) : r.serialize = r.text ++ ['\n'] := rfl

/-- A request that can be written as it is. -/
structure Request.Sendable (r : Request) : Prop where
  message : r.toMessage.Sendable
  command : IsBare r.command
  not_witness : r.command ≠ witnessWord
  not_publish : r.command ≠ publishWord
  handle : IsHandle r.handle

/-- The text of such a request is a row. -/
theorem Request.isRow_text {r : Request} (h : r.Sendable) :
    IsRow r.text (flagToken r.command :: handleToken r.handle ::
      (r.args.entries.map argToken ++ r.flags.toList.map flagToken)) := by
  obtain ⟨args, hargs, hargTokens⟩ := exists_row_args h.message.args
  obtain ⟨flags, hflags, hflagTokens⟩ := exists_row_flags h.message.flags
  let command : Piece := ⟨r.command, flagToken r.command,
    lexes_solid h.command.solid h.command.front, h.command.ne_nil⟩
  let handle : Piece := ⟨'~' :: r.handle, handleToken r.handle, lexes_handle h.handle.solid,
    by simp [handleToken]⟩
  refine ⟨command, handle :: (args ++ flags), ?_, ?_⟩
  · simp [text, command, handle, h.handle.ne_nil, row_append, hargs, hflags, serializeArgs]
  · simp [command, handle, hargTokens, hflagTokens]

/-- What the token of a handle adds to a parsed message. -/
theorem addTokens_handle {h : Bytes} (hnul : '\x00' ∉ h) (m : ParsedMessage) :
    m.addTokens [handleToken h] = { m with handle := h } := by
  simp [ParsedMessage.addTokens, handleOf, handleToken, argsOf, flagsOf, cstr_eq_self hnul]

/-- What is parsed from the text of such a request. -/
theorem Request.parse_text {r : Request} (h : r.Sendable) :
    (parseNew r.text).1.type = .request ∧
      (parseNew r.text).2 = ⟨r.command, r.handle, r.args.entries, r.flags.toList⟩ := by
  have hnul : ∀ f ∈ r.flags.toList, '\x00' ∉ f := fun f hf => (h.message.flags f hf).no_nul
  have hfirst : ∀ p m, buildFirst p m (flagToken r.command) =
      ({ p with type := .request }, { m with capability := r.command }) := fun p m => by
    simp [buildFirst, flagToken, h.not_witness, h.not_publish, cstr_eq_self h.command.no_nul]
  have hbuild := build_eq (p := { raw := r.text }) (m := {}) (t := flagToken r.command)
    (handleToken r.handle :: (r.args.entries.map argToken ++ r.flags.toList.map flagToken))
    (by rw [hfirst]; simp)
  rw [hfirst, ParsedMessage.addTokens_cons, addTokens_handle h.handle.no_nul,
    ParsedMessage.addTokens_append, addTokens_args h.message.args,
    addTokens_flags hnul] at hbuild
  have hparse : parseNew r.text = build { raw := r.text } {} (tokenize r.text) := rfl
  rw [hparse, (Request.isRow_text h).tokenize, hbuild]
  exact ⟨rfl, rfl⟩

/-- Such a request passes `validate` when its command has no `=` in brackets. -/
theorem Request.accepts_text {r : Request} (h : r.Sendable) (heq : '=' ∉ r.command) :
    Accepts r.text .request := by
  obtain ⟨htype, hmsg⟩ := Request.parse_text h
  rw [accepts_iff, hmsg]
  exact ⟨htype, h.command.ne_nil, heq, h.handle.ne_nil⟩

/-- **A request that can be written as it is comes back as it was.** -/
theorem Request.createFromRaw_serialize {r : Request} (h : r.Sendable)
    (hline : NoCRLF r.serialize) :
    Request.createFromRaw r.serialize = some ⟨r.toMessage.setRaw r.serialize⟩ := by
  obtain ⟨htype, hmsg⟩ := Request.parse_text h
  have hraw : parseRaw r.serialize = parseNew r.text := by
    rw [r.serialize_eq] at hline
    rw [parseRaw, r.serialize_eq, rawInput_line hline]
  rw [createFromRaw, hraw, if_pos htype, hmsg, ofParsed_eq, SortedMap.ofList_entries,
    SortedSet.ofList_toList]
  rfl

/-! ## Ok responses -/

/-- The serialized text without the newline at its end. -/
def Response.text (r : Response) : Bytes :=
  responseHead r.handle r.command ++ ' ' :: okWord ++
    serializeFlags (r.flags.toList.filter (· ≠ okWord)) ++ serializeArgs r.args

theorem Response.serialize_eq (r : Response) : r.serialize = r.text ++ ['\n'] := rfl

/-- A response that can be written as it is: its handle ends at the first colon. -/
structure Response.Sendable (r : Response) : Prop where
  message : r.toMessage.Sendable
  handle_ne_nil : r.handle ≠ []
  no_colon : ':' ∉ r.handle
  solid : solid headBad .outside (r.handle ++ ':' :: r.command) = true
  handle_no_nul : '\x00' ∉ r.handle
  command_no_nul : '\x00' ∉ r.command

/-- The other flags of a response. -/
def otherFlags (flags : FlagSet) : List Bytes := flags.toList.filter (· ≠ okWord)

theorem isWord_okWord : IsWord okWord := by decide

/-- The text of such a response is a row. -/
theorem Response.isRow_text {r : Response} (h : r.Sendable) :
    IsRow r.text (handleToken (r.handle ++ ':' :: r.command) ::
      (((okWord :: otherFlags r.flags).map flagToken) ++ r.args.entries.map argToken)) := by
  obtain ⟨args, hargs, hargTokens⟩ := exists_row_args h.message.args
  have hbare : ∀ f ∈ okWord :: otherFlags r.flags, IsBare f := by
    intro f hf
    rcases List.mem_cons.mp hf with rfl | hf
    · exact isWord_okWord.isBare
    · exact h.message.flags f (List.mem_of_mem_filter hf)
  obtain ⟨flags, hflags, hflagTokens⟩ := exists_row_flags hbare
  let head : Piece := ⟨'~' :: (r.handle ++ ':' :: r.command),
    handleToken (r.handle ++ ':' :: r.command), lexes_handle h.solid, by simp [handleToken]⟩
  have hok : serializeFlags (okWord :: otherFlags r.flags) =
      ' ' :: okWord ++ serializeFlags (r.flags.toList.filter (· ≠ okWord)) := rfl
  refine ⟨head, flags ++ args, ?_, ?_⟩
  · simp [text, head, responseHead, h.handle_ne_nil, row_append, hargs, hflags, hok, serializeArgs]
  · simp [head, hargTokens, hflagTokens]

theorem buildFirst_response {handle command : Bytes} (hcolon : ':' ∉ handle)
    (hhandle : '\x00' ∉ handle) (hcommand : '\x00' ∉ command) (p : ParserState)
    (m : ParsedMessage) :
    buildFirst p m (handleToken (handle ++ ':' :: command)) =
      ({ p with type := .response }, { m with handle := handle, capability := command }) := by
  simp [buildFirst, handleToken, splitFirst_append command hcolon, cstr_eq_self hhandle,
    cstr_eq_self hcommand]

/-- What is parsed from the text of such a response. -/
theorem Response.parse_text {r : Response} (h : r.Sendable) :
    (parseNew r.text).1.type = .response ∧
      (parseNew r.text).1.props = propsOf {} (((okWord :: otherFlags r.flags).map flagToken) ++
        r.args.entries.map argToken) ∧
      (parseNew r.text).2 =
        ⟨r.command, r.handle, r.args.entries, okWord :: otherFlags r.flags⟩ := by
  have hnul : ∀ f ∈ okWord :: otherFlags r.flags, '\x00' ∉ f := by
    intro f hf
    rcases List.mem_cons.mp hf with rfl | hf
    · decide
    · exact (h.message.flags f (List.mem_of_mem_filter hf)).no_nul
  have hfirst := buildFirst_response h.no_colon h.handle_no_nul h.command_no_nul
  have hbuild := build_eq (p := { raw := r.text }) (m := {})
    (t := handleToken (r.handle ++ ':' :: r.command))
    (((okWord :: otherFlags r.flags).map flagToken) ++ r.args.entries.map argToken)
    (by rw [hfirst]; simp)
  rw [hfirst, ParsedMessage.addTokens_append, addTokens_flags hnul,
    addTokens_args h.message.args] at hbuild
  have hparse : parseNew r.text = build { raw := r.text } {} (tokenize r.text) := rfl
  rw [hparse, (Response.isRow_text h).tokenize, hbuild]
  exact ⟨rfl, rfl, rfl⟩

/-- Such a response passes `validate` when it has a command and no flag `error`. -/
theorem Response.accepts_text {r : Response} (h : r.Sendable) (hcommand : r.command ≠ [])
    (herror : errorWord ∉ r.flags) : Accepts r.text .response := by
  obtain ⟨htype, hprops, hmsg⟩ := Response.parse_text h
  have hok : (parseNew r.text).1.props.hasFlagOk = true := by
    rw [hprops, propsOf_mark note_hasFlagOk]
    simp [flagToken]
  have hnot : (parseNew r.text).1.props.hasFlagError = false := by
    rw [hprops, propsOf_mark note_hasFlagError, Bool.false_or, List.any_eq_false]
    intro t ht
    rw [List.mem_append, List.mem_map, List.mem_map] at ht
    rcases ht with ⟨f, hf, rfl⟩ | ⟨q, _, rfl⟩
    · rw [List.mem_cons] at hf
      have hne : f ≠ errorWord := by
        rintro rfl
        rcases hf with hf | hf
        · exact absurd hf (by decide)
        · exact herror (SortedSet.mem_toList.mp (List.mem_of_mem_filter hf))
      simp [flagToken, hne]
    · simp [argToken]
  rw [accepts_iff, hmsg]
  refine ⟨htype, hcommand, h.handle_ne_nil, Or.inl hok, ?_, ?_, ?_⟩ <;> simp [hnot]

/-- The flags that come back: `ok` is added. -/
theorem ofList_okFlags (flags : FlagSet) :
    SortedSet.ofList (okWord :: otherFlags flags) = flags.add okWord := by
  apply SortedSet.ext
  intro a
  rw [SortedSet.mem_ofList, SortedSet.mem_add, List.mem_cons, otherFlags, List.mem_filter,
    SortedSet.mem_toList]
  by_cases ha : a = okWord <;> simp [ha]

/-- **An ok response that can be written as it is comes back with the flag `ok`.** -/
theorem Response.createFromRaw_serialize {r : Response} (h : r.Sendable)
    (hline : NoCRLF r.serialize) :
    Response.createFromRaw r.serialize =
      some ⟨{ r.toMessage with flags := r.flags.add okWord, raw := r.serialize }⟩ := by
  obtain ⟨htype, _, hmsg⟩ := Response.parse_text h
  have hraw : parseRaw r.serialize = parseNew r.text := by
    rw [r.serialize_eq] at hline
    rw [parseRaw, r.serialize_eq, rawInput_line hline]
  rw [createFromRaw, hraw, if_pos htype, hmsg, ofParsed_eq, SortedMap.ofList_entries,
    ofList_okFlags]

/-! ## Publishes -/

/-- The serialized text without the newline at its end. -/
def Publish.text (p : Publish) : Bytes :=
  publishWord ++ (if p.topic ≠ [] then ' ' :: p.topic else []) ++
    serializeArgs p.args ++ serializeFlags p.flags.toList

theorem Publish.serialize_eq (p : Publish) : p.serialize = p.text ++ ['\n'] := rfl

/-- A publish that can be written as it is. -/
structure Publish.Sendable (p : Publish) : Prop where
  message : p.toMessage.Sendable
  topic : IsBare p.topic

theorem isWord_publishWord : IsWord publishWord := by decide

/-- The text of such a publish is a row. -/
theorem Publish.isRow_text {p : Publish} (h : p.Sendable) :
    IsRow p.text (flagToken publishWord :: flagToken p.topic ::
      (p.args.entries.map argToken ++ p.flags.toList.map flagToken)) := by
  obtain ⟨args, hargs, hargTokens⟩ := exists_row_args h.message.args
  obtain ⟨flags, hflags, hflagTokens⟩ := exists_row_flags h.message.flags
  let head : Piece := ⟨publishWord, flagToken publishWord, isWord_publishWord.lexes,
    isWord_publishWord.ne_nil⟩
  let topic : Piece := ⟨p.topic, flagToken p.topic, lexes_solid h.topic.solid h.topic.front,
    h.topic.ne_nil⟩
  refine ⟨head, topic :: (args ++ flags), ?_, ?_⟩
  · simp [text, head, topic, h.topic.ne_nil, row_append, hargs, hflags, serializeArgs]
  · simp [head, topic, hargTokens, hflagTokens]

/-- What is parsed from the text of such a publish. -/
theorem Publish.parse_text {p : Publish} (h : p.Sendable) :
    (parseNew p.text).1.type = .publish ∧
      (parseNew p.text).2 = ⟨p.topic, [], p.args.entries, p.flags.toList⟩ := by
  have hnul : ∀ f ∈ p.flags.toList, '\x00' ∉ f := fun f hf => (h.message.flags f hf).no_nul
  have hbuild := build_publish { raw := p.text } {} (flagToken p.topic)
    (p.args.entries.map argToken ++ p.flags.toList.map flagToken)
  rw [ParsedMessage.addTokens_append, addTokens_args h.message.args,
    addTokens_flags hnul] at hbuild
  have hparse : parseNew p.text = build { raw := p.text } {} (tokenize p.text) := rfl
  have htopic : cstr (flagToken p.topic).value = p.topic := cstr_eq_self h.topic.no_nul
  rw [htopic] at hbuild
  rw [hparse, (Publish.isRow_text h).tokenize]
  exact ⟨congrArg (fun r => r.1.type) hbuild, congrArg Prod.snd hbuild⟩

/-- Such a publish passes `validate` when its topic has no `=` in brackets. -/
theorem Publish.accepts_text {p : Publish} (h : p.Sendable) (heq : '=' ∉ p.topic) :
    Accepts p.text .publish := by
  obtain ⟨htype, hmsg⟩ := Publish.parse_text h
  rw [accepts_iff, hmsg]
  exact ⟨htype, h.topic.ne_nil, heq, h.topic.front⟩

/-- **A publish that can be written as it is comes back as it was**, but for a command or
a handle, which a publish does not send. -/
theorem Publish.createFromRaw_serialize {p : Publish} (h : p.Sendable)
    (hline : NoCRLF p.serialize) :
    Publish.createFromRaw p.serialize =
      some ⟨{ args := p.args, flags := p.flags, raw := p.serialize }, p.topic⟩ := by
  obtain ⟨htype, hmsg⟩ := Publish.parse_text h
  have hraw : parseRaw p.serialize = parseNew p.text := by
    rw [p.serialize_eq] at hline
    rw [parseRaw, p.serialize_eq, rawInput_line hline]
  rw [createFromRaw, hraw, if_pos htype, hmsg, ofParsed_eq, SortedMap.ofList_entries,
    SortedSet.ofList_toList]

end SporeClient.Wire
