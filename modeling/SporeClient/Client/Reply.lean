/-
  Client/Reply.lean --- the ok response to a request, at the other end.

  WHAT THIS FILE IS FOR.  A request spells its handle `~handle` and its command by itself;
  a response spells both `~handle:command`.  So the ok response to a delivered request need
  not come back with the same handle and command.  `Answerable` says when it does, and
  `isAnswered_iff` that it does then and only then.

  That it does only then is shown by counting.  The text of the response has the bytes of
  the handle and the command and little else; when both come back, the tokens of one frame
  use up these bytes, so the frame is the whole text, no byte of it was stripped, and its
  first token repeats what was written.
-/
import SporeClient.Client.Delivery
import SporeClient.Client.Whole
import SporeClient.Parser.TokenText

set_option autoImplicit false

namespace SporeClient.Client

open SporeClient.Foundation
open SporeClient.Parser
open SporeClient.Wire

/-! ## Answers -/

/-- The ok response that a handler makes for a request: its command and its handle. -/
def answer (r : Request) : Response := ⟨{ command := r.command, handle := r.handle }⟩

/-- The text of it, without the newline at its end. -/
def answerText (handle command : Bytes) : Bytes :=
  '~' :: (handle ++ ':' :: command) ++ ' ' :: okWord

/-- Sent to any client, the answer is delivered as one ok response with the handle and the
command of the request, and nothing else is. -/
def IsAnswered (r : Request) : Prop :=
  ∃ resp : Response, resp.handle = r.handle ∧ resp.command = r.command ∧
    ∀ (c : ClientState) (s : Sender) (reads : List Chunk), c.connected = true →
      s.client.connected = true → s.stream = [] →
      (reads.map Chunk.bytes).flatten = (s.sendAll [.response (answer r)]).stream →
      (c.listen reads).2 = c.handlers.invoke (.response resp)

/-- The handle and the command can be written in one token, and the text of the answer is
one frame. -/
structure Answerable (handle command : Bytes) : Prop where
  no_colon : ':' ∉ handle
  solid : solid headBad .outside (handle ++ ':' :: command) = true
  whole : ∃ held last, unlines '\n' (held ++ [last]) = answerText handle command ++ ['\n'] ∧
    IsWhole held last

/-! ## The answer on the wire -/

section

variable {r : Request}

theorem answer_serialize (hhandle : r.handle ≠ []) :
    (answer r).serialize = answerText r.handle r.command ++ ['\n'] := by
  have hargs : serializeArgs ∅ = [] := rfl
  have hflags : serializeFlags (otherFlags ∅) = [] := rfl
  have hserialize : (answer r).serialize = responseHead r.handle r.command ++ ' ' :: okWord ++
      serializeFlags (otherFlags ∅) ++ serializeArgs ∅ ++ ['\n'] := rfl
  rw [hserialize, hargs, hflags, responseHead, if_pos hhandle, answerText]
  simp

theorem nul_not_mem_answerText {handle command : Bytes} (hhandle : '\x00' ∉ handle)
    (hcommand : '\x00' ∉ command) : '\x00' ∉ answerText handle command := by
  simp [answerText, okWord, hhandle, hcommand]

/-- **An answerable request is answered.** -/
theorem isAnswered_of_answerable (hcommand : r.command ≠ []) (hhandle : r.handle ≠ [])
    (hnul : '\x00' ∉ r.handle) (hnul' : '\x00' ∉ r.command)
    (h : Answerable r.handle r.command) : IsAnswered r := by
  obtain ⟨f, hsegment, htext⟩ := OneWholeFrame.exists_frame h.whole
  have hsendable : (answer r).Sendable :=
    ⟨⟨by simp [answer], by simp [answer]⟩, hhandle, h.no_colon, h.solid,
      hnul, hnul'⟩
  have htexts : (answer r).text = answerText r.handle r.command := by
    have hserialize := answer_serialize hhandle
    rw [Response.serialize_eq] at hserialize
    exact List.append_cancel_right hserialize
  have hf : f.text = (answer r).text := htext.trans htexts.symm
  have haccepts : Accepts f.text .response := by
    rw [hf]
    exact Response.accepts_text hsendable hcommand (SortedSet.not_mem_empty _)
  have hmsg := (Response.parse_text hsendable).2.2
  rw [← hf] at hmsg
  have hflags : (parseNew f.text).2.flags = [okWord] := by
    rw [hmsg]
    rfl
  have herror : errorWord ∉ (parseNew f.text).2.flags := by
    rw [hflags]
    decide
  have hevent : f.event = some (.response (Response.ofParsed (parseNew f.text).2 f.segment)) := by
    rw [Frame.event_of_text haccepts, deliver, if_neg herror, listenResponse_eq]
  refine ⟨Response.ofParsed (parseNew f.text).2 f.segment, ?_, ?_, ?_⟩
  · rw [hmsg, Response.ofParsed_eq]
    rfl
  · rw [hmsg, Response.ofParsed_eq]
    rfl
  · exact Outgoing.deliveredAs_of_whole (m := .response (answer r)) (answer_serialize hhandle)
      (nul_not_mem_answerText hnul hnul') hsegment hevent

end

/-! ## What a delivered response was read from -/

/-- The first token of a delivered ok response is its handle and command, unless another
handle follows. -/
theorem Frame.tokens_of_response {f : Frame} {resp : Response}
    (h : f.event = some (.response resp)) :
    ∃ t rest a b, tokenize f.text = t :: rest ∧ t = ⟨'~' :: (a ++ ':' :: b), .handle⟩ ∧ ':' ∉ a ∧
      resp.command = cstr b ∧ resp.handle = handleOf (cstr a) rest := by
  obtain ⟨type, haccepts, hdeliver⟩ := Frame.deliver_of_event h (by simp [Event.getRaw])
  obtain ⟨rfl, herror, hresp⟩ := deliver_response hdeliver
  obtain ⟨htype, hvalid⟩ := (accepts_iff _ _).mp haccepts
  have hresponse : ValidResponse (parseNew f.text).1.props (parseNew f.text).2 := hvalid
  obtain ⟨t, rest, a, b, htokens, hhandle, hvalue, ha, hprops, hmsg⟩ :=
    parse_response htype hresponse.command
  rw [Response.ofParsed_eq, hmsg] at hresp
  refine ⟨t, rest, a, b, htokens, ?_, ha, by rw [hresp]; rfl, by rw [hresp]; rfl⟩
  have hmem : t ∈ tokenize f.text := htokens ▸ List.mem_cons_self
  obtain ⟨v, hv⟩ := List.head?_eq_some_iff.mp (tilde_front_of_handle hmem hhandle)
  obtain ⟨value, type⟩ := t
  subst hhandle hv
  rw [← hvalue]
  rfl

/-- How often a byte stands in the text of an answer. -/
theorem count_answerText (handle command : Bytes) (x : Char) :
    (answerText handle command).count x =
      handle.count x + command.count x + ['~', ':', ' ', 'o', 'k'].count x := by
  simp only [answerText, okWord, List.count_append, List.count_cons, List.count_nil]
  omega

section

variable {handle command : Bytes} {f : Frame} {resp : Response} {t : Token} {rest : List Token}

/-- No byte is made up: the tokens of a frame that begins the text of an answer have no
more of it than the text. -/
theorem count_tokens_le (htokens : tokenize f.text = t :: rest)
    (hbegins : f.segment <+: answerText handle command ++ ['\n'] ++ ['\n']) {x : Char}
    (hgap : isGap x = false) (hcloser : isCloser x = false) :
    t.value.count x + countIn x rest = f.text.count x ∧
      f.text.count x ≤ (answerText handle command ++ ['\n'] ++ ['\n']).count x := by
  refine ⟨?_, (f.count_text_le x).trans (hbegins.sublist.count_le x)⟩
  rw [← countIn_cons, ← htokens, count_tokenize hgap hcloser]

/-- The first token repeats the handle and the command. -/
theorem eq_of_counts {a b : Bytes} (hnul : '\x00' ∉ handle) (hnul' : '\x00' ∉ command)
    (htokens : tokenize f.text = ⟨'~' :: (a ++ ':' :: b), .handle⟩ :: rest)
    (hbegins : f.segment <+: answerText handle command ++ ['\n'] ++ ['\n'])
    (hcommand : command = cstr b) (hhandle : handle = handleOf (cstr a) rest) :
    a = handle ∧ b = command := by
  have hcount := fun x => count_tokens_le (x := x) htokens hbegins
  simp only [List.count_append, count_answerText, List.count_cons, List.count_nil] at hcount
  have hnone : '\x00' ∉ a ∧ '\x00' ∉ b := by
    obtain ⟨heq, hle⟩ := hcount '\x00' rfl rfl
    rw [List.count_eq_zero.mpr hnul, List.count_eq_zero.mpr hnul'] at hle
    simp only [Char.reduceBEq, Bool.false_eq_true, if_false] at heq hle
    exact ⟨List.count_eq_zero.mp (by omega), List.count_eq_zero.mp (by omega)⟩
  rw [cstr_eq_self hnone.2] at hcommand
  refine ⟨?_, hcommand.symm⟩
  rcases handleOf_cases (cstr a) rest with ⟨_, heq⟩ | ⟨v, hv, heq⟩
  · rw [hhandle, heq, cstr_eq_self hnone.1]
  · -- a second handle would need a second `~`
    exfalso
    have hmem : ∀ u ∈ rest, u ∈ tokenize f.text := fun u hu => htokens ▸ List.mem_cons_of_mem _ hu
    obtain ⟨w, rfl⟩ := List.head?_eq_some_iff.mp (tilde_mem_handlesIn hmem hv)
    have hw : handle.count '~' ≤ w.count '~' := by
      rw [hhandle, heq]
      exact (List.takeWhile_sublist _).count_le '~'
    have hin : ('~' :: w).count '~' ≤ countAll '~' (handlesIn rest) :=
      List.single_le_sum (by simp) _ (List.mem_map.mpr ⟨_, hv, rfl⟩)
    have hparts := count_parts_le (x := '~') fun u hu => eq_mem_of_arg (hmem u hu)
    obtain ⟨heq, hle⟩ := hcount '~' rfl rfl
    rw [List.count_cons] at hin
    simp only [Char.reduceBEq, Bool.false_eq_true, if_false, beq_self_eq_true, if_true]
      at heq hle hin
    rw [hcommand] at hle
    omega

/-- **The frame that delivers the answer is whole**, and its first token is the handle and
the command as they were written. -/
theorem answerable_of_counts (hcolon : ':' ∉ handle)
    (htokens : tokenize f.text = ⟨'~' :: (handle ++ ':' :: command), .handle⟩ :: rest)
    (hbegins : f.segment <+: answerText handle command ++ ['\n'] ++ ['\n']) :
    Answerable handle command := by
  have hcount : ∀ x, isGap x = false → isCloser x = false → ['~', ':', ' ', 'o', 'k'].count x = 0 →
      (answerText handle command).count x ≤ f.text.count x := by
    intro x hgap hcloser hx
    have heq := (count_tokens_le (x := x) htokens hbegins hgap hcloser).1
    rw [count_answerText, hx, ← heq]
    simp only [List.count_append, List.count_cons]
    omega
  obtain ⟨htext, hwhole⟩ := f.whole_of_counts hbegins (hcount '\n' rfl rfl rfl)
    (hcount '\r' rfl rfl rfl)
  rw [htext, answerText] at htokens
  exact ⟨hcolon, solid_of_handle htokens, hwhole⟩

end

/-! ## Answered requests -/

/-- A delivered request has a command and a handle, both without NUL. -/
theorem Frame.request_of_event {f : Frame} {r : Request} (h : f.event = some (.request r)) :
    (r.command ≠ [] ∧ '\x00' ∉ r.command) ∧ r.handle ≠ [] ∧ '\x00' ∉ r.handle := by
  obtain ⟨type, haccepts, hdeliver⟩ := Frame.deliver_of_event h (by simp [Event.getRaw])
  obtain ⟨rfl, hr⟩ := deliver_request hdeliver
  obtain ⟨htype, hvalid⟩ := (accepts_iff _ _).mp haccepts
  have hrequest : ValidRequest (parseNew f.text).2 := hvalid
  have hparse : parseNew f.text = build { raw := f.text } {} (tokenize f.text) := rfl
  rw [hparse] at htype
  obtain ⟨t, rest, _, hfirst, hmsg⟩ := build_of_type (p := { raw := f.text }) (m := {})
    (by rw [htype]; simp) (by rw [htype]; simp)
  rw [(buildFirst_request (hfirst.trans htype)).2, ← hparse] at hmsg
  have hcommand : '\x00' ∉ (parseNew f.text).2.capability := by
    rw [hmsg]
    exact nul_not_mem_cstr _
  have hhandle : '\x00' ∉ (parseNew f.text).2.handle := by
    rw [hmsg]
    exact nul_not_mem_handleOf (by simp) rest
  rw [hr, Request.ofParsed_eq]
  exact ⟨⟨hrequest.command, hcommand⟩, hrequest.handle, hhandle⟩

/-- **An answered request is answerable.** -/
theorem answerable_of_isAnswered {r : Request} (hhandle : r.handle ≠ [])
    (hnul : '\x00' ∉ r.handle) (hnul' : '\x00' ∉ r.command) (h : IsAnswered r) :
    Answerable r.handle r.command := by
  obtain ⟨resp, hsame, hsame', hcalls⟩ := h
  have hdelivered : (Outgoing.response (answer r)).DeliveredAs (.response resp) := hcalls
  obtain ⟨f, hevent, hbegins⟩ := hdelivered.exists_frame (answer_serialize hhandle)
    (nul_not_mem_answerText hnul hnul') ⟨'~', rfl, by decide, by decide⟩
  obtain ⟨t, rest, a, b, htokens, rfl, hcolon, hcommand, hhdl⟩ := Frame.tokens_of_response hevent
  obtain ⟨rfl, rfl⟩ := eq_of_counts hnul hnul' htokens hbegins (hsame'.symm.trans hcommand)
    (hsame.symm.trans hhdl)
  exact answerable_of_counts hcolon htokens hbegins

/-- **The ok response to a delivered request is delivered with its handle and command if and
only if the request is answerable.** -/
theorem isAnswered_iff {c : ClientState} {reads : List Chunk} {call : Callback}
    (hcall : call ∈ (c.listen reads).2) {r : Request} (hr : call.event = .request r) :
    IsAnswered r ↔ Answerable r.handle r.command := by
  obtain ⟨f, hf⟩ := exists_frame_of_call hcall
  rw [hr] at hf
  obtain ⟨⟨hcommand, hnul'⟩, hhandle, hnul⟩ := Frame.request_of_event hf
  exact ⟨answerable_of_isAnswered hhandle hnul hnul',
    isAnswered_of_answerable hcommand hhandle hnul hnul'⟩

/-- The request `c ~h`, as it is delivered. -/
def plainRequest : Request := ⟨{ command := ['c'], handle := ['h'], raw := "c ~h\n".toList }⟩

/-- It is answered. -/
theorem isAnswered_plain : IsAnswered plainRequest := by
  have hcall : (⟨1, .request plainRequest⟩ : Callback) ∈
      (oneOfEach.listen [⟨"c ~h\n".toList, by decide, by decide⟩]).2 := by decide
  refine (isAnswered_iff hcall rfl).mpr ⟨by decide, by decide, [], answerText ['h'] ['c'], ?_, ?_⟩
  · decide
  · exact ⟨by decide, by decide, by decide, by decide, by decide⟩

/-- The request `c ~a:b`, as it is delivered. -/
def colonRequest : Request :=
  ⟨{ command := ['c'], handle := ['a', ':', 'b'], raw := "c ~a:b\n".toList }⟩

/-- Its answer `~a:b:c ok` is delivered with the handle `a` and the command `b:c`. -/
theorem not_all_answered :
    ¬∀ (c : ClientState) (reads : List Chunk), ∀ call ∈ (c.listen reads).2, ∀ r : Request,
      call.event = .request r → IsAnswered r := by
  intro h
  obtain ⟨resp, hhandle, _, hcalls⟩ := h oneOfEach [⟨"c ~a:b\n".toList, by decide, by decide⟩]
    ⟨1, .request colonRequest⟩ (by decide) colonRequest rfl
  have hcall := hcalls oneOfEach ⟨oneOfEach, []⟩
    [⟨"~a:b:c ok\n\n".toList, by decide, by decide⟩] rfl rfl rfl (by decide)
  have hlisten : (oneOfEach.listen [⟨"~a:b:c ok\n\n".toList, by decide, by decide⟩]).2 =
      [⟨2, .response ⟨{ command := "b:c".toList, handle := ['a'], flags := SortedSet.ofList [okWord]
                        raw := "~a:b:c ok\n".toList }⟩⟩] := by decide
  rw [hlisten] at hcall
  have hresp : resp = ⟨{ command := "b:c".toList, handle := ['a']
                         flags := SortedSet.ofList [okWord]
                         raw := "~a:b:c ok\n".toList }⟩ := by
    simpa [Handlers.invoke, Handlers.forEvent, oneOfEach] using hcall.symm
  rw [hresp] at hhandle
  exact absurd hhandle (by decide)

end SporeClient.Client
