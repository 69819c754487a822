/-
  Client/ResponseKind.lean --- an ok response or an error response.

  WHAT THIS FILE IS FOR.  `validate` judges a response by `props`, which `build` sets from
  the whole text of each token.  `listen` decides by the stored flags, which are cut at
  their first NUL.  The two agree unless a flag is `error` only after this cut; then an ok
  response is delivered as an error that nobody validated (`CutError`).
-/
import SporeClient.Client.Whole
import SporeClient.Parser.Grammar

set_option autoImplicit false

namespace SporeClient.Client

open SporeClient.Foundation
open SporeClient.Parser
open SporeClient.Wire

/-! ## What a response handler is called with -/

/-- The two pointers of `onResponse`. -/
def Event.onResponse : Event → Option (Option Response × Option ResponseError)
  | .response r => some (some r, none)
  | .responseError e => some (none, some e)
  | _ => none

/-- The call agrees with what validation saw: one pointer is set; the error only when a
flag `error`, a code and a text were seen, and then it has a command and a handle; the
response only when a flag `ok` was seen, and then it has no flag `error`. -/
structure KindValidated (text : Bytes) (resp : Option Response) (err : Option ResponseError) :
    Prop where
  one : resp.isSome ≠ err.isSome
  error : ∀ e, err = some e →
    (parseNew text).1.props.hasFlagError = true ∧ (parseNew text).1.props.hasArgCode = true ∧
      (parseNew text).1.props.hasArgWhat = true ∧ e.command ≠ [] ∧ e.handle ≠ []
  response : ∀ r, resp = some r →
    (parseNew text).1.props.hasFlagOk = true ∧ errorWord ∉ r.flags

/-- A response without the flag `error` that has a flag which is `error` up to its first
NUL. -/
def CutError (text : Bytes) : Prop :=
  Accepts text .response ∧ ¬HasFlag errorWord (tokenize text).tail ∧
    ∃ t ∈ (tokenize text).tail, t.type = .none ∧ cstr t.value = errorWord

/-! ## Frames -/

/-- An accepted response: what was seen and what is stored. -/
theorem response_props {text : Bytes} (h : Accepts text .response) :
    ValidResponse (parseNew text).1.props (parseNew text).2 ∧
      (parseNew text).1.props = propsOf {} (tokenize text).tail ∧
      (parseNew text).2.flags = flagsOf (tokenize text).tail := by
  obtain ⟨htype, hvalid⟩ := (accepts_iff text .response).mp h
  have hvalid : ValidResponse _ _ := hvalid
  obtain ⟨t, rest, a, b, htokens, _, _, _, hprops, hmsg⟩ := parse_response htype hvalid.command
  rw [htokens]
  refine ⟨hvalid, hprops, ?_⟩
  rw [hmsg]
  rfl

theorem mem_flagsOf {w : Bytes} {tokens : List Token} :
    w ∈ flagsOf tokens ↔ ∃ t ∈ tokens, t.type = .none ∧ cstr t.value = w := by
  simp only [flagsOf, List.mem_filterMap]
  refine exists_congr fun t => and_congr_right fun _ => ?_
  split
  · rename_i htype
    simp [htype]
  · rename_i htype
    simp [htype]

/-- A flag that was seen is stored. -/
theorem mem_flagsOf_of_hasFlag {w : Bytes} (hw : '\x00' ∉ w) {tokens : List Token}
    (h : HasFlag w tokens) : w ∈ flagsOf tokens :=
  mem_flagsOf.mpr ⟨_, h, rfl, cstr_eq_self hw⟩

/-- The command and the handle of an error are those that were parsed. -/
theorem listenResponseError_head (rawLine : Bytes) (m : ParsedMessage) :
    (listenResponseError rawLine m).command = m.capability ∧
      (listenResponseError rawLine m).handle = m.handle := by
  rw [listenResponseError_eq, ResponseError.ofParsed, takeFields_toMessage]
  simp [populateMessage, Message.addArgs_eq, Message.addFlags_eq, Message.setRaw,
    Message.setCommand, Message.setHandle]

/-- **What an accepted response is delivered as**: an error exactly when a stored flag is
`error`. -/
theorem Frame.event_of_response {f : Frame} (h : Accepts f.text .response) :
    (errorWord ∈ flagsOf (tokenize f.text).tail →
        f.event = some (.responseError (listenResponseError f.segment (parseNew f.text).2))) ∧
      (errorWord ∉ flagsOf (tokenize f.text).tail →
        f.event = some (.response (listenResponse f.segment (parseNew f.text).2))) := by
  obtain ⟨_, _, hflags⟩ := response_props h
  rw [Frame.event_of_text h, deliver, hflags]
  exact ⟨fun hmem => if_pos hmem, fun hmem => if_neg hmem⟩

/-- The response handlers are called for an accepted response. -/
theorem Frame.accepts_of_onResponse {f : Frame} {e : Event} (he : f.event = some e)
    (hresponse : e.onResponse ≠ none) : Accepts f.text .response := by
  have hraw : e.getRaw ≠ none := by
    cases e <;> simp [Event.onResponse, Event.getRaw] at hresponse ⊢
  obtain ⟨type, haccepts, hdeliver⟩ := Frame.deliver_of_event he hraw
  cases type with
  | response => exact haccepts
  | request =>
      obtain rfl := Option.some.inj hdeliver
      simp [Event.onResponse] at hresponse
  | witness =>
      obtain rfl := Option.some.inj hdeliver
      simp [Event.onResponse] at hresponse
  | publish =>
      obtain rfl := Option.some.inj hdeliver
      simp [Event.onResponse] at hresponse
  | unknown => simp [deliver] at hdeliver

/-- **One frame**: its call agrees with what validation saw unless a flag was cut. -/
theorem Frame.kindValidated_iff (f : Frame) :
    (∀ e resp err, f.event = some e → e.onResponse = some (resp, err) →
      KindValidated f.text resp err) ↔ ¬CutError f.text := by
  constructor
  · rintro h ⟨haccepts, hno, hcut⟩
    have hevent := (Frame.event_of_response haccepts).1 (mem_flagsOf.mpr hcut)
    obtain ⟨_, hprops, _⟩ := response_props haccepts
    have hseen := ((h _ _ _ hevent rfl).error _ rfl).1
    rw [hprops, flag_mark_iff note_hasFlagError rfl] at hseen
    exact hno hseen
  · intro hno e resp err he honResponse
    have haccepts := Frame.accepts_of_onResponse he (by simp [honResponse])
    obtain ⟨hvalid, hprops, hflags⟩ := response_props haccepts
    have hseen : (parseNew f.text).1.props.hasFlagError = true ↔
        HasFlag errorWord (tokenize f.text).tail := by
      rw [hprops, flag_mark_iff note_hasFlagError rfl]
      rfl
    by_cases herror : errorWord ∈ flagsOf (tokenize f.text).tail
    · -- delivered as an error, so the flag was seen as a whole
      have hflag : (parseNew f.text).1.props.hasFlagError = true := by
        by_contra hnot
        exact hno ⟨haccepts, fun hflag => hnot (hseen.mpr hflag), mem_flagsOf.mp herror⟩
      rw [(Frame.event_of_response haccepts).1 herror] at he
      obtain rfl := Option.some.inj he
      obtain ⟨rfl, rfl⟩ : none = resp ∧ some _ = err := by
        simpa [Event.onResponse] using honResponse
      obtain ⟨hcommand, hhandle⟩ := listenResponseError_head f.segment (parseNew f.text).2
      refine ⟨by simp, ?_, by simp⟩
      intro e he
      obtain rfl := Option.some.inj he
      exact ⟨hflag, hvalid.code hflag, hvalid.what hflag, hcommand ▸ hvalid.command,
        hhandle ▸ hvalid.handle⟩
    · have hnot : ¬(parseNew f.text).1.props.hasFlagError = true := fun hflag =>
        herror (mem_flagsOf_of_hasFlag (by decide) (hseen.mp hflag))
      rw [(Frame.event_of_response haccepts).2 herror] at he
      obtain rfl := Option.some.inj he
      obtain ⟨rfl, rfl⟩ : some _ = resp ∧ none = err := by
        simpa [Event.onResponse] using honResponse
      refine ⟨by simp, by simp, ?_⟩
      intro r hr
      obtain rfl := Option.some.inj hr
      refine ⟨hvalid.ok_or_error.resolve_right hnot, ?_⟩
      rwa [listenResponse_eq, Response.ofParsed_eq, SortedSet.mem_ofList, hflags]

/-! ## Streams -/

/-- **The kind delivered is the kind validated.**  In every stream, the calls of the
response handlers all agree with what validation saw if and only if no frame has an
`error` that is one only after the cut. -/
theorem ClientState.listen_kindValidated_iff {c : ClientState} (hc : c.connected = true)
    (reads : List Chunk) :
    ∃ (fs : List Frame) (rest : List Bytes) (tail : Bytes),
      (reads.map Chunk.bytes).flatten = fs.flatMap Frame.segment ++ unlines '\n' rest ++ tail ∧
        isHeld (rest.map stripCR) = true ∧
        (c.listen reads).2 = (fs.filterMap Frame.event).flatMap c.handlers.invoke ∧
        ((∀ f ∈ fs, ∀ e resp err, f.event = some e → e.onResponse = some (resp, err) →
            KindValidated f.text resp err) ↔ ∀ f ∈ fs, ¬CutError f.text) := by
  obtain ⟨fs, rest, tail, hstream, hrest, hcalls⟩ := listen_frames hc reads
  refine ⟨fs, rest, tail, hstream, hrest, hcalls, ?_⟩
  exact forall_congr' fun f => forall_congr' fun _ => f.kindValidated_iff

/-- Nothing is cut in a frame without a NUL. -/
theorem Frame.not_cutError {f : Frame} (h : '\x00' ∉ f.segment) : ¬CutError f.text := by
  rintro ⟨_, hno, t, hmem, htype, hcut⟩
  have htext : '\x00' ∉ f.text := by
    have hle := f.count_text_le '\x00'
    rw [List.count_eq_zero.mpr h] at hle
    exact List.count_eq_zero.mp (Nat.le_zero.mp hle)
  rw [cstr_eq_self (not_mem_of_tokenize rfl rfl htext (List.mem_of_mem_tail hmem))] at hcut
  refine hno ?_
  rwa [HasFlag, ← hcut, ← htype]

/-- A stream of one ok response. -/
theorem ClientState.listen_kindValidated_ok :
    let c : ClientState := { connected := true, handlers := ⟨[1], [2], [3], [4], [5]⟩ }
    ∃ (fs : List Frame) (rest : List Bytes) (tail : Bytes),
      "~h:c ok\n".toList = fs.flatMap Frame.segment ++ unlines '\n' rest ++ tail ∧
        isHeld (rest.map stripCR) = true ∧
        (c.listen [⟨"~h:c ok\n".toList, by decide, by decide⟩]).2 =
          (fs.filterMap Frame.event).flatMap c.handlers.invoke ∧
        ∀ f ∈ fs, ∀ e resp err, f.event = some e → e.onResponse = some (resp, err) →
          KindValidated f.text resp err := by
  intro c
  obtain ⟨fs, rest, tail, hstream, hrest, hcalls, hiff⟩ :=
    ClientState.listen_kindValidated_iff (c := c) rfl
      [⟨"~h:c ok\n".toList, by decide, by decide⟩]
  refine ⟨fs, rest, tail, hstream, hrest, hcalls, hiff.mpr fun f hf => Frame.not_cutError ?_⟩
  intro hnul
  have hmem : '\x00' ∈ fs.flatMap Frame.segment := List.mem_flatMap.mpr ⟨f, hf, hnul⟩
  have hread : '\x00' ∈ "~h:c ok\n".toList := by
    have hbytes : "~h:c ok\n".toList = _ := hstream
    rw [hbytes]
    simp only [List.mem_append, hmem, true_or]
  exact absurd hread (by decide)

/-- An ok response with a flag that is `error` up to a NUL. -/
def cutErrorText : Bytes := "~h:c ok error\x00x".toList

/-- **The kind delivered is not always the kind validated**: an ok response is delivered as
an error without code and text. -/
theorem not_all_kindValidated :
    let c : ClientState := { connected := true, handlers := ⟨[1], [2], [3], [4], [5]⟩ }
    ∃ e : ResponseError,
      (c.listen [⟨cutErrorText ++ ['\n'], by decide, by decide⟩]).2 = [⟨2, .responseError e⟩] ∧
        ¬KindValidated cutErrorText none (some e) := by
  refine ⟨listenResponseError (cutErrorText ++ ['\n']) (parseNew cutErrorText).2, by decide, ?_⟩
  intro h
  exact absurd (h.error _ rfl).1 (by decide)

end SporeClient.Client
