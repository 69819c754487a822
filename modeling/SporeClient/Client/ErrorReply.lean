/-
  Client/ErrorReply.lean --- an error response, at the other end.

  WHAT THIS FILE IS FOR.  `ResponseError::serialize` writes the code as it is, puts the text
  always in double quotes, and leaves out what is empty.  `Reportable` says which codes and
  texts survive this, the framing and the parser; `isReported_iff` that they do then and only
  then.

  That they do only then is shown by counting, first the `=` of the two arguments, then the
  newlines: the tokens of the frame that is delivered use them all up.
-/
import SporeClient.Client.Whole
import SporeClient.Wire.Accepting
import SporeClient.Wire.TakenFields

set_option autoImplicit false

namespace SporeClient.Client

open SporeClient.Foundation
open SporeClient.Parser
open SporeClient.Wire

/-- Sent to any client, the error response is delivered as one error response with the same
command, handle, code and text, and nothing else is. -/
def IsReported (e : ResponseError) : Prop :=
  ∃ err : ResponseError, err.command = e.command ∧ err.handle = e.handle ∧ err.code = e.code ∧
    err.what = e.what ∧
    ∀ (c : ClientState) (s : Sender) (reads : List Chunk), c.connected = true →
      s.client.connected = true → s.stream = [] →
      (reads.map Chunk.bytes).flatten = (s.sendAll [.responseError e]).stream →
      (c.listen reads).2 = c.handlers.invoke (.responseError err)

/-- Behind the head: the flag, the code and the text, and the flag at the end. -/
def errorText (handle command code what : Bytes) : Bytes :=
  '~' :: (handle ++ ':' :: command) ++ ' ' :: errorWord ++ ' ' :: (codeWord ++ '=' :: code) ++
    ' ' :: (whatWord ++ '=' :: ('"' :: what ++ ['"'] ++ ' ' :: nodeErrorWord))

/-- The code can be written as it is, the text in double quotes, neither is empty or taken
for a block, and the text of the error response is one whole frame. -/
structure Reportable (handle command code what : Bytes) : Prop where
  code_ne_nil : code ≠ []
  what_ne_nil : what ≠ []
  code_solid : solid isGap .outside code = true
  code_not_block : isBlock code = false
  what_no_quote : '"' ∉ what
  what_not_block : isBlock what = false
  whole : OneWholeFrame (errorText handle command code what)

/-! ## The error response on the wire -/

section

variable {e : ResponseError}

theorem responseError_text (hhandle : e.handle ≠ []) (hargs : e.args = ∅) (hflags : e.flags = ∅) :
    e.text = '~' :: (e.handle ++ ':' :: e.command) ++ ' ' :: errorWord ++
      (if e.code ≠ [] then ' ' :: (codeWord ++ '=' :: e.code) else []) ++
      (if e.what ≠ [] then ' ' :: (whatWord ++ '=' :: ('"' :: e.what ++ ['"'])) else []) ++
      ' ' :: nodeErrorWord := by
  have hno : serializeArgs ∅ = [] := rfl
  have hnone : serializeFlags (∅ : FlagSet).toList = [] := rfl
  rw [ResponseError.text, responseHead, if_pos hhandle, hargs, hflags, hno, hnone]
  simp

/-- With a code and a text. -/
theorem responseError_text_eq (hhandle : e.handle ≠ []) (hargs : e.args = ∅)
    (hflags : e.flags = ∅) (hcode : e.code ≠ []) (hwhat : e.what ≠ []) :
    e.text = errorText e.handle e.command e.code e.what := by
  rw [responseError_text hhandle hargs hflags, if_pos hcode, if_pos hwhat, errorText]
  simp

/-- How often a byte stands in the text. -/
theorem count_responseError_text (hhandle : e.handle ≠ []) (hargs : e.args = ∅)
    (hflags : e.flags = ∅) (x : Char) :
    e.text.count x = e.handle.count x + e.command.count x + e.code.count x + e.what.count x +
      (if e.code ≠ [] then (' ' :: codeWord ++ ['=']).count x else 0) +
      (if e.what ≠ [] then (' ' :: whatWord ++ ['=', '"', '"']).count x else 0) +
      (['~', ':', ' ', ' '] ++ errorWord ++ nodeErrorWord).count x := by
  have hfield : ∀ k q v : Bytes,
      (if v ≠ [] then ' ' :: (k ++ '=' :: (q ++ v ++ q)) else []).count x =
      v.count x + if v ≠ [] then (' ' :: k ++ '=' :: (q ++ q)).count x else 0 := by
    intro k q v
    split
    · simp only [List.cons_append, List.count_append, List.count_cons]
      omega
    · rename_i hv
      rw [of_not_not hv]
      rfl
  have hcode := hfield codeWord [] e.code
  have hwhat := hfield whatWord ['"'] e.what
  simp only [List.nil_append, List.append_nil, List.singleton_append] at hcode hwhat
  rw [responseError_text hhandle hargs hflags]
  simp only [List.cons_append, List.count_append, List.count_cons, List.count_nil] at hcode hwhat ⊢
  omega

theorem nul_not_mem_responseError_text (hhandle : e.handle ≠ []) (hargs : e.args = ∅)
    (hflags : e.flags = ∅) (hwords : '\x00' ∉ e.handle ∧ '\x00' ∉ e.command)
    (hcode : '\x00' ∉ e.code) (hwhat : '\x00' ∉ e.what) : '\x00' ∉ e.text := by
  apply List.count_eq_zero.mp
  rw [count_responseError_text hhandle hargs hflags, List.count_eq_zero.mpr hwords.1,
    List.count_eq_zero.mpr hwords.2, List.count_eq_zero.mpr hcode, List.count_eq_zero.mpr hwhat]
  split <;> split <;> rfl

end

/-! ## What is reportable is reported -/

section

variable {e : ResponseError}

/-- The handle and the command of words are one token. -/
theorem solid_of_words {handle command : Bytes} (hhandle : IsWord handle)
    (hcommand : IsWord command) : solid headBad .outside (handle ++ ':' :: command) = true := by
  apply solid_of_wordChars
  intro c hc
  rcases List.mem_append.mp hc with hc | hc
  · exact hhandle.chars c hc
  · rcases List.mem_cons.mp hc with rfl | hc
    · rfl
    · exact hcommand.chars c hc

/-- **A reportable error is reported.** -/
theorem isReported_of_reportable (hcommand : IsWord e.command) (hhandle : IsWord e.handle)
    (hcolon : ':' ∉ e.handle) (hargs : e.args = ∅) (hflags : e.flags = ∅)
    (hcode : '\x00' ∉ e.code) (hwhat : '\x00' ∉ e.what)
    (h : Reportable e.handle e.command e.code e.what) : IsReported e := by
  have hsolid := solid_of_words hhandle hcommand
  have hsendable : e.Sendable := by
    refine ⟨⟨?_, ?_⟩, hhandle.ne_nil, hcolon, hsolid, hhandle.not_mem rfl, hcommand.not_mem rfl,
      ⟨h.code_solid, h.code_not_block⟩, hcode, ⟨h.what_no_quote, h.what_not_block⟩, hwhat, ?_⟩
    all_goals simp [hargs, hflags]
  have htext := responseError_text_eq hhandle.ne_nil hargs hflags h.code_ne_nil h.what_ne_nil
  obtain ⟨f, hsegment, hf⟩ := h.whole.exists_frame
  rw [← htext] at hf hsegment
  have haccepts : Accepts f.text .response := by
    rw [hf]
    exact ResponseError.accepts_text hsendable hcommand.ne_nil h.code_ne_nil h.what_ne_nil
      (by simp [hflags])
  have hmsg := (ResponseError.parse_text hsendable).2
  rw [← hf] at hmsg
  have herror : errorWord ∈ (parseNew f.text).2.flags := by
    rw [hmsg]
    exact List.mem_cons_self
  have hevent : f.event =
      some (.responseError (ResponseError.ofParsed (parseNew f.text).2 f.segment)) := by
    rw [Frame.event_of_text haccepts, deliver, if_pos herror, listenResponseError_eq]
  have hfields := ResponseError.ofParsed_eq hsendable.own e.command e.handle e.code e.what f.segment
    e.sentFlags
  rw [← hmsg] at hfields
  refine ⟨ResponseError.ofParsed (parseNew f.text).2 f.segment, ?_, ?_, ?_, ?_, ?_⟩
  · rw [hfields]
  · rw [hfields]
  · rw [hfields]
  · rw [hfields]
  · exact Outgoing.deliveredAs_of_whole (m := .responseError e) e.serialize_eq
      (nul_not_mem_responseError_text hhandle.ne_nil hargs hflags
        ⟨hhandle.not_mem rfl, hcommand.not_mem rfl⟩ hcode hwhat) hsegment hevent

end

/-! ## What is reported is reportable -/

/-- The code and the text of a delivered error response are the values of two of its tokens. -/
theorem Frame.tokens_of_responseError {f : Frame} (hnul : '\x00' ∉ f.text) {e : ResponseError}
    (h : f.event = some (.responseError e)) :
    ∃ t rest y z, tokenize f.text = t :: rest ∧
      (⟨codeWord ++ '=' :: y, .arg⟩ ∈ rest ∧ stripBlock y = e.code) ∧
      (⟨whatWord ++ '=' :: z, .arg⟩ ∈ rest ∧ stripBlock z = e.what) := by
  obtain ⟨type, haccepts, hdeliver⟩ := Frame.deliver_of_event h (by simp [Event.getRaw])
  obtain ⟨rfl, hflag, he⟩ := deliver_responseError hdeliver
  obtain ⟨htype, hvalid⟩ := (accepts_iff _ _).mp haccepts
  have hresponse : ValidResponse (parseNew f.text).1.props (parseNew f.text).2 := hvalid
  obtain ⟨t, rest, a, b, htokens, _, _, _, hprops, hmsg⟩ := parse_response htype hresponse.command
  have herror : (parseNew f.text).1.props.hasFlagError = true := by
    rw [hmsg] at hflag
    obtain ⟨u, hu, heq⟩ := List.mem_filterMap.mp (show errorWord ∈ flagsOf rest from hflag)
    split at heq
    · rename_i htype
      have hno : '\x00' ∉ u.value :=
        not_mem_of_tokenize rfl rfl hnul (htokens ▸ List.mem_cons_of_mem t hu)
      have hvalue : u.value = errorWord := by
        rw [← Option.some.inj heq, cstr_eq_self hno]
      rw [hprops, flag_mark_iff note_hasFlagError rfl]
      rwa [show u = ⟨errorWord, .none⟩ by rw [← hvalue, ← htype]] at hu
    · simp at heq
  have hcode := hresponse.code herror
  have hwhat := hresponse.what herror
  rw [hprops, arg_mark_iff note_hasArgCode rfl] at hcode
  rw [hprops, arg_mark_iff note_hasArgWhat rfl] at hwhat
  obtain ⟨y, hy, hstripY⟩ := exists_token_of_key hnul htokens (by decide) hcode []
  obtain ⟨z, hz, hstripZ⟩ := exists_token_of_key hnul htokens (by decide) hwhat []
  have hargs : (parseNew f.text).2.args = argsOf rest := by rw [hmsg]; rfl
  refine ⟨t, rest, y, z, htokens, ⟨hy, hstripY.trans ?_⟩, ⟨hz, hstripZ.trans ?_⟩⟩
  · rw [he, ResponseError.ofParsed, ResponseError.takeFields_code, hargs]
  · rw [he, ResponseError.ofParsed, ResponseError.takeFields_what, hargs]

section

variable {f : Frame} {e : ResponseError} {t : Token} {rest : List Token} {y z : Bytes}

/-- The tokens of the code and of the text are two, and what they hold was in these fields. -/
theorem count_two_tokens_le (htokens : tokenize f.text = t :: rest)
    (hy : ⟨codeWord ++ '=' :: y, .arg⟩ ∈ rest) (hstripY : stripBlock y = e.code)
    (hz : ⟨whatWord ++ '=' :: z, .arg⟩ ∈ rest) (hstripZ : stripBlock z = e.what) {x : Char}
    (hgap : isGap x = false) (hcloser : isCloser x = false) :
    e.code.count x + e.what.count x + (['=', '='] : Bytes).count x ≤ f.text.count x := by
  have hne : (⟨codeWord ++ '=' :: y, .arg⟩ : Token) ≠ ⟨whatWord ++ '=' :: z, .arg⟩ := by
    simp [codeWord, whatWord]
  have hpair := count_pair_le (x := x) hy hz hne
  have hall := count_tokenize hgap hcloser f.text
  have hcode : e.code.count x ≤ y.count x := hstripY ▸ (stripBlock_sublist y).count_le x
  have hwhat : e.what.count x ≤ z.count x := hstripZ ▸ (stripBlock_sublist z).count_le x
  rw [htokens, countIn_cons] at hall
  simp only [List.count_append, List.count_cons, List.count_nil] at hpair ⊢
  omega

end

section

variable {handle command code what y z : Bytes} {t : Token} {rest : List Token}

/-- What stands before the code is a row. -/
theorem isRow_errorHead (hhandle : IsWord handle) (hcommand : IsWord command) :
    IsRow ('~' :: (handle ++ ':' :: command) ++ ' ' :: errorWord)
      [handleToken (handle ++ ':' :: command), flagToken errorWord] := by
  let head : Piece := ⟨'~' :: (handle ++ ':' :: command), handleToken (handle ++ ':' :: command),
    lexes_handle (solid_of_words hhandle hcommand), by simp [handleToken]⟩
  let error : Piece := ⟨errorWord, flagToken errorWord, isWord_errorWord.lexes,
    isWord_errorWord.ne_nil⟩
  exact ⟨head, [error], by simp [head, error], rfl⟩

/-- **The code from the tokens.**  Behind the head the lexer is in step, so the first
argument begins with the code; it is the one whose value came back, since there is no `=`
for an argument before it. -/
theorem code_of_tokens (hhandle : IsWord handle) (hcommand : IsWord command)
    (htokens : tokenize (errorText handle command code what) = t :: rest)
    (htotal : countIn '=' (t :: rest) = code.count '=' + what.count '=' + 2)
    (hy : ⟨codeWord ++ '=' :: y, .arg⟩ ∈ rest) (hstripY : stripBlock y = code)
    (hz : ⟨whatWord ++ '=' :: z, .arg⟩ ∈ rest) (hstripZ : stripBlock z = what) :
    solid isGap .outside code = true ∧ isBlock code = false := by
  have hcode : code.count '=' ≤ y.count '=' := hstripY ▸ (stripBlock_sublist y).count_le _
  have hwhat : what.count '=' ≤ z.count '=' := hstripZ ▸ (stripBlock_sublist z).count_le _
  have hne : (⟨codeWord ++ '=' :: y, .arg⟩ : Token) ≠ ⟨whatWord ++ '=' :: z, .arg⟩ := by
    simp [codeWord, whatWord]
  obtain ⟨more, hmore⟩ := (isRow_errorHead hhandle hcommand).tokenize_arg isWord_codeWord.isKey
    (code ++ ' ' :: (whatWord ++ '=' :: ('"' :: what ++ ['"'] ++ ' ' :: nodeErrorWord)))
  have htext : '~' :: (handle ++ ':' :: command) ++ ' ' :: errorWord ++ ' ' :: (codeWord ++ '=' ::
      (code ++ ' ' :: (whatWord ++ '=' :: ('"' :: what ++ ['"'] ++ ' ' :: nodeErrorWord)))) =
      errorText handle command code what := by simp [errorText]
  rw [htext, htokens, List.cons_append, List.singleton_append] at hmore
  obtain rfl := (List.cons.inj hmore).2
  have hsep : Separated (' ' :: (whatWord ++ '=' :: ('"' :: what ++ ['"'] ++
    ' ' :: nodeErrorWord))) := Or.inr rfl
  apply solid_of_plain hsep
  have hlater : ⟨whatWord ++ '=' :: z, .arg⟩ ∈ more := by
    simpa [flagToken, codeWord, whatWord] using hz
  rcases List.mem_cons.mp ((List.mem_cons.mp hy).resolve_left (by simp [flagToken]))
    with heq | hin
  · have hvalue := (List.cons.inj (List.append_cancel_left (congrArg Token.value heq))).2
    rwa [hvalue] at hstripY
  · exfalso
    have hpair := count_pair_le (x := '=') hin hlater hne
    simp only [countIn_cons, List.count_append, List.count_cons, beq_self_eq_true, if_true]
      at htotal hpair
    omega

/-- **The text from the tokens.**  When the code comes back, the lexer is in step behind it,
and the second argument is the text for the same reason. -/
theorem what_of_tokens (hhandle : IsWord handle) (hcommand : IsWord command)
    (hcode : solid isGap .outside code = true)
    (htokens : tokenize (errorText handle command code what) = t :: rest)
    (htotal : countIn '=' (t :: rest) = code.count '=' + what.count '=' + 2)
    (hz : ⟨whatWord ++ '=' :: z, .arg⟩ ∈ rest) (hstripZ : stripBlock z = what) :
    '"' ∉ what ∧ isBlock what = false := by
  have hwhat : what.count '=' ≤ z.count '=' := hstripZ ▸ (stripBlock_sublist z).count_le _
  let piece : Piece := ⟨codeWord ++ '=' :: code, fieldToken codeWord code,
    lexes_arg isWord_codeWord.solid (carries_solid hcode), by simp [fieldToken]⟩
  obtain ⟨more, hmore⟩ := ((isRow_errorHead hhandle hcommand).concat piece).tokenize_arg
    isWord_whatWord.isKey ('"' :: what ++ ['"'] ++ ' ' :: nodeErrorWord)
  rw [show piece.text = codeWord ++ '=' :: code from rfl, ← errorText, htokens, List.append_assoc,
    List.cons_append] at hmore
  obtain rfl := (List.cons.inj hmore).2
  have hsep : Separated (' ' :: nodeErrorWord) := Or.inr rfl
  apply quoted_of_tokenText hsep
  have hz' : ⟨whatWord ++ '=' :: z, .arg⟩ ∈ (⟨whatWord ++ '=' :: tokenText .outside
      ('"' :: what ++ ['"'] ++ ' ' :: nodeErrorWord), .arg⟩ : Token) :: more := by
    simpa [flagToken, piece, fieldToken, codeWord, whatWord] using hz
  rcases List.mem_cons.mp hz' with heq | hin
  · have hvalue := (List.cons.inj (List.append_cancel_left (congrArg Token.value heq))).2
    rwa [hvalue] at hstripZ
  · exfalso
    have hle : (whatWord ++ '=' :: z).count '=' ≤ countIn '=' more :=
      List.single_le_sum (by simp) _ (List.mem_map.mpr ⟨_, hin, rfl⟩)
    simp only [piece, fieldToken, countIn_cons, List.count_append, List.count_cons,
      beq_self_eq_true, if_true, List.cons_append, List.nil_append]
      at htotal hle
    omega

end

/-- **A reported error is reportable.** -/
theorem reportable_of_isReported {e : ResponseError} (hcommand : IsWord e.command)
    (hhandle : IsWord e.handle) (hargs : e.args = ∅) (hflags : e.flags = ∅)
    (hcode : '\x00' ∉ e.code) (hwhat : '\x00' ∉ e.what) (h : IsReported e) :
    Reportable e.handle e.command e.code e.what := by
  obtain ⟨err, _, _, hsameCode, hsameWhat, hcalls⟩ := h
  have hno := nul_not_mem_responseError_text hhandle.ne_nil hargs hflags
    ⟨hhandle.not_mem rfl, hcommand.not_mem rfl⟩ hcode hwhat
  have hdelivered : (Outgoing.responseError e).DeliveredAs (.responseError err) := hcalls
  have hfront : e.text.head? = some '~' := by
    rw [responseError_text hhandle.ne_nil hargs hflags]
    rfl
  obtain ⟨f, hevent, hbegins⟩ := hdelivered.exists_frame e.serialize_eq hno
    ⟨'~', hfront, by decide, by decide⟩
  have hfnul := Frame.not_mem_of_begins hbegins (by decide) hno
  obtain ⟨t, rest, y, z, htokens, ⟨hy, hstripY⟩, ⟨hz, hstripZ⟩⟩ :=
    Frame.tokens_of_responseError hfnul hevent
  rw [hsameCode] at hstripY
  rw [hsameWhat] at hstripZ
  have htwo := fun x => count_two_tokens_le (x := x) htokens hy hstripY hz hstripZ
  have htext := fun x => count_responseError_text hhandle.ne_nil hargs hflags x
  -- both arguments are there: there are two `=` more than in the fields
  have heq := htext '='
  rw [List.count_eq_zero.mpr (hhandle.not_mem rfl), List.count_eq_zero.mpr (hcommand.not_mem rfl)]
    at heq
  have hcodeWord : (' ' :: codeWord ++ ['=']).count '=' = 1 := rfl
  have hwhatWord : (' ' :: whatWord ++ ['=', '"', '"']).count '=' = 1 := rfl
  have hwords : (['~', ':', ' ', ' '] ++ errorWord ++ nodeErrorWord).count '=' = 0 := rfl
  rw [hcodeWord, hwhatWord, hwords] at heq
  have hmany := (htwo '=' rfl rfl).trans (Frame.count_le_of_begins hbegins (by decide))
  simp only [List.count_cons, List.count_nil, beq_self_eq_true, if_true] at hmany
  have hfields : e.code ≠ [] ∧ e.what ≠ [] := by
    constructor
    · intro hnil
      rw [if_neg (not_not.mpr hnil)] at heq
      split at heq <;> omega
    · intro hnil
      rw [if_neg (c := e.what ≠ []) (not_not.mpr hnil)] at heq
      split at heq <;> omega
  rw [if_pos hfields.1, if_pos hfields.2] at heq
  have hsame := responseError_text_eq hhandle.ne_nil hargs hflags hfields.1 hfields.2
  rw [hsame] at hbegins
  have hcount : ∀ x, isGap x = false → isCloser x = false → wordChar x = false →
      (' ' :: codeWord ++ ['=']).count x + (' ' :: whatWord ++ ['=', '"', '"']).count x +
        (['~', ':', ' ', ' '] ++ errorWord ++ nodeErrorWord).count x = 0 →
      (errorText e.handle e.command e.code e.what).count x ≤ f.text.count x := by
    intro x hgap hcloser hword hx
    have hin := htwo x hgap hcloser
    have hall := htext x
    rw [if_pos hfields.1, if_pos hfields.2, List.count_eq_zero.mpr (hhandle.not_mem hword),
      List.count_eq_zero.mpr (hcommand.not_mem hword), hsame] at hall
    omega
  obtain ⟨hf, hwhole⟩ := f.whole_of_counts hbegins (hcount '\n' rfl rfl rfl rfl)
    (hcount '\r' rfl rfl rfl rfl)
  rw [hf] at htokens
  rw [hsame] at heq
  have htotal : countIn '=' (t :: rest) = e.code.count '=' + e.what.count '=' + 2 := by
    rw [← htokens, count_tokenize rfl rfl]
    omega
  obtain ⟨hsolid, hblock⟩ := code_of_tokens hhandle hcommand htokens htotal hy hstripY hz hstripZ
  obtain ⟨hquote, hblock'⟩ := what_of_tokens hhandle hcommand hsolid htokens htotal hz hstripZ
  exact ⟨hfields.1, hfields.2, hsolid, hblock, hquote, hblock', hwhole⟩

/-- **An error response is reported if and only if its code and its text are reportable.** -/
theorem isReported_iff {e : ResponseError} (hcommand : IsWord e.command) (hhandle : IsWord e.handle)
    (hcolon : ':' ∉ e.handle) (hargs : e.args = ∅) (hflags : e.flags = ∅)
    (hcode : '\x00' ∉ e.code) (hwhat : '\x00' ∉ e.what) :
    IsReported e ↔ Reportable e.handle e.command e.code e.what :=
  ⟨reportable_of_isReported hcommand hhandle hargs hflags hcode hwhat,
    isReported_of_reportable hcommand hhandle hcolon hargs hflags hcode hwhat⟩

/-- The handle `h`, the command `c`, the code `NOT_FOUND` and the text `no such file`. -/
def noSuchFile : ResponseError :=
  ⟨{ command := ['c'], handle := ['h'] }, "NOT_FOUND".toList, "no such file".toList⟩

/-- It is reported. -/
theorem isReported_noSuchFile : IsReported noSuchFile := by
  refine (isReported_iff (by decide) (by decide) (by decide) rfl rfl (by decide) (by decide)).mpr
    ⟨by decide, by decide, by decide, by decide, by decide, by decide, [], ?_⟩
  refine ⟨errorText ['h'] ['c'] noSuchFile.code noSuchFile.what, rfl, ?_⟩
  exact ⟨by decide, by decide, rfl, by decide, by decide⟩

/-- The code `E` and a text that quotes a word. -/
def quotingError : ResponseError :=
  ⟨{ command := ['c'], handle := ['h'] }, ['E'], "no \"x\"".toList⟩

/-- Its text is delivered without the quotes. -/
theorem not_all_reported :
    ¬∀ e : ResponseError, IsWord e.command → IsWord e.handle → ':' ∉ e.handle → e.args = ∅ →
      e.flags = ∅ → '\x00' ∉ e.code → '\x00' ∉ e.what → IsReported e := by
  intro h
  obtain ⟨err, _, _, _, hwhat, hcalls⟩ :=
    h quotingError (by decide) (by decide) (by decide) rfl rfl (by decide) (by decide)
  have hcall := hcalls oneOfEach ⟨oneOfEach, []⟩
    [⟨"~h:c error code=E what=\"no \"x\"\" node_error\n\n".toList, by decide, by decide⟩]
    rfl rfl rfl (by decide)
  have hlisten : (oneOfEach.listen
      [⟨"~h:c error code=E what=\"no \"x\"\" node_error\n\n".toList, by decide, by decide⟩]).2 =
      [⟨2, .responseError ⟨{ command := ['c'], handle := ['h']
                             flags := SortedSet.ofList [errorWord, nodeErrorWord]
                             raw := "~h:c error code=E what=\"no \"x\"\" node_error\n".toList },
        ['E'], "no x".toList⟩⟩] := by
    decide
  rw [hlisten] at hcall
  have herr : err.what = "no x".toList := by
    have hevent := congrArg (List.map fun c => c.event) hcall
    simp only [List.map_cons, List.map_nil, Handlers.invoke, Handlers.forEvent, oneOfEach,
      List.cons.injEq, Event.responseError.injEq, and_true] at hevent
    rw [← hevent]
  rw [herr] at hwhat
  exact absurd hwhat (by decide)

end SporeClient.Client
