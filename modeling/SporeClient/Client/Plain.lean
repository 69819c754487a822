/-
  Client/Plain.lean --- plain messages are delivered as they are sent.

  WHAT THIS FILE IS FOR.  A plain message has words for its names and flags, and values
  that either fit on a line and have no quote, opening bracket or `<`, or are written in a
  block and have neither mark in them.  Such a message is encoded by `serializeArg` without
  loss, its text is one tidy frame, and it is read back and accepted; so a sequence of
  plain requests, ok responses and publishes is delivered message by message
  (`listen_plain`).
-/
import SporeClient.Client.Rows

set_option autoImplicit false

namespace SporeClient.Client

open SporeClient.Foundation
open SporeClient.Parser
open SporeClient.Wire

/-! ## Plain values -/

/-- The bytes a plain value on one line does not have. -/
def plainChar (c : Char) : Bool := !(['\x00', '\n', '\r', '\'', '"', '[', '{', '<'].contains c)

/-- A plain value in a block. -/
structure IsPlainBlock (v : Bytes) : Prop where
  newline : '\n' ∈ v
  no_nul : '\x00' ∉ v
  no_cr : '\r' ∉ v
  no_open : ¬openMark <:+: v
  no_close : ¬closeMark <:+: v
  front : v.head? ≠ some '\n'

instance (v : Bytes) : Decidable (IsPlainBlock v) :=
  decidable_of_iff
    ('\n' ∈ v ∧ '\x00' ∉ v ∧ '\r' ∉ v ∧ ¬openMark <:+: v ∧ ¬closeMark <:+: v ∧ v.head? ≠ some '\n')
    ⟨fun h => ⟨h.1, h.2.1, h.2.2.1, h.2.2.2.1, h.2.2.2.2.1, h.2.2.2.2.2⟩,
      fun h => ⟨h.1, h.2, h.3, h.4, h.5, h.6⟩⟩

/-- A plain value: on one line, or in a block. -/
def IsPlainValue (v : Bytes) : Prop := (∀ c ∈ v, plainChar c = true) ∨ IsPlainBlock v

instance (v : Bytes) : Decidable (IsPlainValue v) :=
  decidable_of_iff (v.all plainChar = true ∨ IsPlainBlock v) (or_congr List.all_eq_true Iff.rfl)

theorem plainChar_iff {c : Char} :
    plainChar c = true ↔ c ≠ '\x00' ∧ c ≠ '\n' ∧ c ≠ '\r' ∧ c ≠ '\'' ∧ c ≠ '"' ∧ c ≠ '[' ∧
      c ≠ '{' ∧ c ≠ '<' := by
  simp [plainChar]

theorem plainChar_not_mem {v : Bytes} (h : ∀ c ∈ v, plainChar c = true) {x : Char}
    (hx : plainChar x = false) : x ∉ v := fun hmem => by
  rw [h x hmem] at hx
  simp at hx

theorem isBlock_eq_false {v : Bytes} (h : '<' ∉ v) : isBlock v = false := by
  rw [← Bool.not_eq_true, isBlock_iff]
  rintro ⟨body, rfl⟩
  exact h (by simp [block, openMark])

/-- A plain value on one line, without spaces, is a solid text. -/
theorem solid_of_plainChars {v : Bytes} (h : ∀ c ∈ v, plainChar c = true) (hspace : ' ' ∉ v) :
    solid isGap .outside v = true := by
  induction v with
  | nil => rfl
  | cons c v ih =>
      have hc := plainChar_iff.mp (h c List.mem_cons_self)
      have hne : c ≠ ' ' := fun heq => hspace (heq ▸ List.mem_cons_self)
      have hgap : isGap c = false := by simp [isGap, hne, hc.2.2.2.2.1, hc.2.2.2.1]
      have hstep : Mode.outside.step c v.head? = (.outside, .keep) := by
        simp [Mode.step, hne, hc.2.2.2.1, hc.2.2.2.2.1, hc.2.2.2.2.2.1, hc.2.2.2.2.2.2.1,
          hc.2.2.2.2.2.2.2]
      rw [solid, hgap, hstep, ih (fun a ha => h a (List.mem_cons_of_mem _ ha))
        fun hmem => hspace (List.mem_cons_of_mem _ hmem)]
      rfl

theorem IsPlainBlock.isBody {v : Bytes} (h : IsPlainBlock v) : IsBody v where
  no_close := h.no_close
  front := h.front
  ne_nil := fun hnil => by simpa [hnil] using h.newline
  no_cr := h.no_cr

/-- **A plain value is encodable.** -/
theorem IsPlainValue.isValue {v : Bytes} (h : IsPlainValue v) : IsValue v := by
  rcases h with h | h
  · refine ⟨?_, plainChar_not_mem h rfl⟩
    have hblock := isBlock_eq_false (plainChar_not_mem h (x := '<') rfl)
    rw [IsEncodable, if_neg (plainChar_not_mem h rfl), if_neg (plainChar_not_mem h rfl)]
    by_cases hspace : ' ' ∈ v ∨ '\t' ∈ v
    · rw [if_pos hspace]
      exact hblock
    · rw [if_neg hspace]
      exact ⟨solid_of_plainChars h fun hmem => hspace (Or.inl hmem), hblock⟩
  · refine ⟨?_, h.no_nul⟩
    rw [IsEncodable, if_pos h.newline]
    refine ⟨?_, noCRLF_of_not_mem (by simp [h.no_cr])⟩
    have hx : ¬closeMark <:+: ('\n' :: v ++ ['\n']) ++ ['>'] := by
      rw [List.cons_append, List.cons_append, closeMark, pair_infix_cons, not_or]
      exact ⟨by simp, h.isBody.isCleanBody.no_close⟩
    exact solid_block_marks hx

/-! ## Parts of plain messages -/

/-- A text that is read to a token ends outside everything. -/
theorem Lexes.closed {text : Bytes} {t : Token} (h : Lexes text t) :
    Mode.outside.after text none = .outside := by
  have hmode := Lexer.read_mode ⟨.outside, {}, []⟩ text none
  rw [h [] none (by decide)] at hmode
  exact hmode.symm

theorem isLine_of_isWord {w : Bytes} (h : IsWord w) : IsLine w :=
  ⟨h.not_mem rfl, h.not_mem rfl, h.not_mem rfl, Lexes.closed h.lexes⟩

/-- The part an argument is written as. -/
def argPart (p : Bytes × Bytes) : Part :=
  if '\n' ∈ p.2 then .blockArg p.1 p.2 else .line (p.1 ++ '=' :: encodeValue p.2)

theorem text_argPart (p : Bytes × Bytes) : (argPart p).text = serializeArg p.1 p.2 := by
  unfold argPart
  split
  · rename_i hnl
    rw [Part.text, serializeArg, encodeValue_of_newline hnl]
  · simp [Part.text, serializeArg]

theorem argPart_ok {p : Bytes × Bytes} (hkey : IsWord p.1) (hvalue : IsPlainValue p.2) :
    (argPart p).Ok := by
  rcases hvalue with h | h
  · have hnl : '\n' ∉ p.2 := plainChar_not_mem h rfl
    rw [argPart, if_neg hnl]
    have hencoded : ∀ c ∈ encodeValue p.2, c ∈ p.2 ∨ c = '"' ∨ c = '\'' := by
      intro c hc
      unfold encodeValue at hc
      rw [if_neg hnl] at hc
      split at hc
      · simp only [List.cons_append, List.mem_cons, List.mem_append, List.not_mem_nil] at hc
        tauto
      · split at hc
        · simp only [List.cons_append, List.mem_cons, List.mem_append, List.not_mem_nil] at hc
          tauto
        · exact Or.inl hc
    have hno : ∀ x, wordChar x = false → plainChar x = false → x ≠ '=' → x ≠ '"' → x ≠ '\'' →
        x ∉ p.1 ++ '=' :: encodeValue p.2 := by
      intro x hword hplain heq hquote hsquote hmem
      rcases List.mem_append.mp hmem with hmem | hmem
      · exact hkey.not_mem hword hmem
      · rcases List.mem_cons.mp hmem with hmem | hmem
        · exact heq hmem
        · rcases hencoded x hmem with hmem | hmem | hmem
          · exact plainChar_not_mem h hplain hmem
          · exact hquote hmem
          · exact hsquote hmem
    refine ⟨hno '<' rfl rfl (by decide) (by decide) (by decide),
      hno '\n' rfl rfl (by decide) (by decide) (by decide),
      hno '\r' rfl rfl (by decide) (by decide) (by decide), ?_⟩
    exact Lexes.closed (lexes_arg hkey.solid
      (carries_encodeValue (IsPlainValue.isValue (Or.inl h)).encodable))
  · rw [argPart, if_pos h.newline]
    exact ⟨hkey.isKey, isLine_of_isWord hkey, h.isBody⟩

/-- The arguments and flags as parts. -/
theorem text_argParts (args : List (Bytes × Bytes)) :
    (args.map argPart).flatMap Part.text = args.flatMap fun p => serializeArg p.1 p.2 := by
  rw [List.flatMap_map]
  exact congrArg (fun f => args.flatMap f) (funext text_argPart)

theorem text_flagParts (flags : List Bytes) :
    (flags.map Part.line).flatMap Part.text = serializeFlags flags := by
  rw [List.flatMap_map]
  rfl

/-! ## Plain messages -/

/-- What all plain messages have in common. -/
structure IsPlainMessage (m : Message) : Prop where
  keys : ∀ p ∈ m.args.entries, IsWord p.1
  values : ∀ p ∈ m.args.entries, IsPlainValue p.2
  flags : ∀ f ∈ m.flags.toList, IsWord f

theorem IsPlainMessage.sendable {m : Message} (h : IsPlainMessage m) : m.Sendable where
  args := fun p hp => .of_isKey (h.keys p hp).isKey (h.values p hp).isValue
  flags := fun f hf => (h.flags f hf).isBare

theorem IsPlainMessage.argParts_ok {m : Message} (h : IsPlainMessage m) :
    ∀ p ∈ m.args.entries.map argPart, p.Ok := by
  intro p hp
  obtain ⟨q, hq, rfl⟩ := List.mem_map.mp hp
  exact argPart_ok (h.keys q hq) (h.values q hq)

theorem flagParts_ok {flags : List Bytes} (h : ∀ f ∈ flags, IsWord f) :
    ∀ p ∈ flags.map Part.line, p.Ok := by
  intro p hp
  obtain ⟨f, hf, rfl⟩ := List.mem_map.mp hp
  exact isLine_of_isWord (h f hf)

/-- A plain request. -/
structure IsPlainRequest (r : Request) : Prop where
  message : IsPlainMessage r.toMessage
  command : IsWord r.command
  not_witness : r.command ≠ witnessWord
  not_publish : r.command ≠ publishWord
  handle : IsWord r.handle

/-- A plain ok response. -/
structure IsPlainResponse (r : Response) : Prop where
  message : IsPlainMessage r.toMessage
  command : IsWord r.command
  handle : IsWord r.handle
  no_colon : ':' ∉ r.handle
  no_error : errorWord ∉ r.flags

/-- A plain publish. -/
structure IsPlainPublish (p : Publish) : Prop where
  message : IsPlainMessage p.toMessage
  topic : IsWord p.topic

/-- A plain message of one of the three kinds. -/
def Outgoing.IsPlain : Outgoing → Prop
  | .request r => IsPlainRequest r
  | .response r => IsPlainResponse r
  | .publish p => IsPlainPublish p
  | _ => False

theorem IsPlainRequest.sendable {r : Request} (h : IsPlainRequest r) : r.Sendable where
  message := h.message.sendable
  command := h.command.isBare
  not_witness := h.not_witness
  not_publish := h.not_publish
  handle := h.handle.isHandle

theorem IsPlainResponse.sendable {r : Response} (h : IsPlainResponse r) : r.Sendable where
  message := h.message.sendable
  handle_ne_nil := h.handle.ne_nil
  no_colon := h.no_colon
  solid := solid_of_wordChars fun c hc => by
    rcases List.mem_append.mp hc with hc | hc
    · exact h.handle.chars c hc
    · rcases List.mem_cons.mp hc with rfl | hc
      · rfl
      · exact h.command.chars c hc
  handle_no_nul := h.handle.not_mem rfl
  command_no_nul := h.command.not_mem rfl

theorem IsPlainPublish.sendable {p : Publish} (h : IsPlainPublish p) : p.Sendable where
  message := h.message.sendable
  topic := h.topic.isBare

/-! ## Their texts -/

theorem IsPlainRequest.oneTidyFrame {r : Request} (h : IsPlainRequest r) :
    OneTidyFrame r.serialize := by
  have hhandle : IsLine ('~' :: r.handle) :=
    ⟨by simp [(isLine_of_isWord h.handle).no_mark],
      by simp [(isLine_of_isWord h.handle).no_newline],
      by simp [(isLine_of_isWord h.handle).no_cr], Lexes.closed (lexes_handle h.handle.solid)⟩
  have htext : r.serialize = (r.command ++ ' ' :: ('~' :: r.handle)) ++
      (r.args.entries.map argPart ++ r.flags.toList.map Part.line).flatMap Part.text ++ ['\n'] := by
    rw [List.flatMap_append, text_argParts, text_flagParts]
    simp [Request.serialize, h.handle.ne_nil, serializeArgs]
  rw [htext]
  apply oneTidyFrame_row ((isLine_of_isWord h.command).append hhandle)
  exact List.forall_mem_append.mpr ⟨h.message.argParts_ok, flagParts_ok h.message.flags⟩

theorem IsPlainResponse.oneTidyFrame {r : Response} (h : IsPlainResponse r) :
    OneTidyFrame r.serialize := by
  have hhead : IsLine ('~' :: (r.handle ++ ':' :: r.command)) := by
    have hh := isLine_of_isWord h.handle
    have hc := isLine_of_isWord h.command
    exact ⟨by simp [hh.no_mark, hc.no_mark], by simp [hh.no_newline, hc.no_newline],
      by simp [hh.no_cr, hc.no_cr], Lexes.closed (lexes_handle h.sendable.solid)⟩
  have htext : r.serialize = '~' :: (r.handle ++ ':' :: r.command) ++
      ((okWord :: otherFlags r.flags).map Part.line ++ r.args.entries.map argPart).flatMap
        Part.text ++ ['\n'] := by
    have hok : serializeFlags (okWord :: otherFlags r.flags) =
        ' ' :: okWord ++ serializeFlags (r.flags.toList.filter (· ≠ okWord)) := rfl
    rw [List.flatMap_append, text_argParts, text_flagParts, hok]
    simp [Response.serialize, responseHead, h.handle.ne_nil, serializeArgs]
  rw [htext]
  refine oneTidyFrame_row hhead
    (List.forall_mem_append.mpr ⟨flagParts_ok ?_, h.message.argParts_ok⟩)
  intro f hf
  rcases List.mem_cons.mp hf with rfl | hf
  · exact isWord_okWord
  · exact h.message.flags f (List.mem_of_mem_filter hf)

theorem IsPlainPublish.oneTidyFrame {p : Publish} (h : IsPlainPublish p) :
    OneTidyFrame p.serialize := by
  have htext : p.serialize = (publishWord ++ ' ' :: p.topic) ++
      (p.args.entries.map argPart ++ p.flags.toList.map Part.line).flatMap Part.text ++ ['\n'] := by
    rw [List.flatMap_append, text_argParts, text_flagParts]
    simp [Publish.serialize, h.topic.ne_nil, serializeArgs]
  rw [htext]
  refine oneTidyFrame_row
    ((isLine_of_isWord isWord_publishWord).append (isLine_of_isWord h.topic)) ?_
  exact List.forall_mem_append.mpr ⟨h.message.argParts_ok, flagParts_ok h.message.flags⟩

/-! ## Bytes they do not have -/

/-- No plain text has a NUL or a carriage return. -/
def isForeign (c : Char) : Bool := c == '\x00' || c == '\r'

theorem isForeign_facts {x : Char} (hx : isForeign x = true) :
    isCounted x = true ∧ wordChar x = false ∧ plainChar x = false ∧ x ∉ okWord ∧
      x ∉ publishWord ∧ x ≠ '~' ∧ x ≠ ':' ∧ x ≠ ' ' ∧ x ≠ '\n' ∧ x ≠ '=' := by
  simp only [isForeign, Bool.or_eq_true, beq_iff_eq] at hx
  rcases hx with rfl | rfl <;> decide

theorem IsPlainValue.not_mem {v : Bytes} (h : IsPlainValue v) {x : Char} (hx : isForeign x = true) :
    x ∉ v := by
  rcases h with h | h
  · exact plainChar_not_mem h (isForeign_facts hx).2.2.1
  · simp only [isForeign, Bool.or_eq_true, beq_iff_eq] at hx
    rcases hx with rfl | rfl
    · exact h.no_nul
    · exact h.no_cr

section

variable {x : Char} (hx : isForeign x = true)
include hx

theorem IsPlainMessage.not_mem_args {m : Message} (h : IsPlainMessage m) :
    x ∉ serializeArgs m.args := by
  obtain ⟨hcounted, hword, _, _, _, _, _, _, _, heq⟩ := isForeign_facts hx
  have hfields : countFields x { m with flags := ∅ } = 0 :=
    countFields_eq_zero heq
      (fun p hp => ⟨(h.keys p hp).not_mem hword, (h.values p hp).not_mem hx⟩) (by simp)
  have hcount := count_fields hcounted { m with flags := ∅ }
  rw [hfields, List.count_append] at hcount
  exact List.count_eq_zero.mp (by simpa using Nat.eq_zero_of_add_eq_zero_right hcount)

theorem not_mem_flags {flags : List Bytes} (h : ∀ f ∈ flags, IsWord f) :
    x ∉ serializeFlags flags := by
  obtain ⟨_, hword, _, _, _, _, _, hspace, _, _⟩ := isForeign_facts hx
  intro hmem
  obtain ⟨f, hf, hmem⟩ := List.mem_flatMap.mp hmem
  rcases List.mem_cons.mp hmem with hmem | hmem
  · exact hspace hmem
  · exact (h f hf).not_mem hword hmem

/-- **A plain text has no NUL and no carriage return.** -/
theorem Outgoing.IsPlain.not_mem {m : Outgoing} (h : m.IsPlain) : x ∉ m.serialize := by
  obtain ⟨_, hword, _, hok, hpublish, htilde, hcolon, hspace, hnl, _⟩ := isForeign_facts hx
  cases m with
  | request r =>
      have hargs := (IsPlainRequest.message h).not_mem_args hx
      have hflags := not_mem_flags hx (IsPlainRequest.message h).flags
      simp [serialize, Request.serialize, hargs, hflags, (IsPlainRequest.command h).not_mem hword,
        (IsPlainRequest.handle h).not_mem hword, (IsPlainRequest.handle h).ne_nil, htilde,
        hspace, hnl]
  | response r =>
      have hargs := (IsPlainResponse.message h).not_mem_args hx
      have hother : ∀ f ∈ r.flags.toList.filter (· ≠ okWord), IsWord f := fun f hf =>
        (IsPlainResponse.message h).flags f (List.mem_of_mem_filter hf)
      have hflags := not_mem_flags hx hother
      have hhead : x ∉ responseHead r.handle r.command := by
        simp [responseHead, (IsPlainResponse.handle h).ne_nil, htilde, hcolon,
          (IsPlainResponse.command h).not_mem hword, (IsPlainResponse.handle h).not_mem hword]
      simp only [serialize, Response.serialize, List.mem_append, List.mem_cons, hhead, hspace, hok,
        hflags, hargs, hnl, List.not_mem_nil, or_self, not_false_eq_true]
  | publish p =>
      have hargs := (IsPlainPublish.message h).not_mem_args hx
      have hflags := not_mem_flags hx (IsPlainPublish.message h).flags
      simp [serialize, Publish.serialize, hargs, hflags, (IsPlainPublish.topic h).not_mem hword,
        (IsPlainPublish.topic h).ne_nil, hpublish, hspace, hnl]
  | _ => exact absurd h id

end

/-! ## Delivery -/

/-- A text that is one tidy frame and is accepted is delivered by that frame. -/
theorem exists_frame_of_text {m : Outgoing} {text : Bytes} {type : MessageType} {e : Event}
    (htext : m.serialize = text ++ ['\n']) (hframe : OneTidyFrame m.serialize)
    (hnul : '\x00' ∉ m.serialize) (hcr : '\r' ∉ m.serialize) (haccepts : Accepts text type)
    (hdeliver : deliver m.serialize type (parseNew text).2 = some e) :
    ∃ f : Frame, m.wire = f.segment ++ ['\n'] ∧ f.event = some e := by
  obtain ⟨f, hsegment, htidy⟩ := hframe
  have hraw : rawInput f.segment = text := by
    rw [hsegment, htext, rawInput_line (noCRLF_of_not_mem (htext ▸ hcr))]
  have haccepts' : Accepts (rawInput f.segment) type := by rwa [hraw]
  refine ⟨f, by rw [Outgoing.wire, cstr_eq_self hnul, hsegment], ?_⟩
  rw [Frame.event_of_accepts htidy haccepts', parseRaw, hraw, hsegment]
  exact hdeliver

/-- **Every plain message is delivered by the frame of its text.** -/
theorem Outgoing.IsPlain.exists_frame {m : Outgoing} (h : m.IsPlain) :
    ∃ f : Frame, m.wire = f.segment ++ ['\n'] ∧ f.event = some m.received := by
  have hnul : '\x00' ∉ m.serialize := h.not_mem rfl
  have hcr : '\r' ∉ m.serialize := h.not_mem rfl
  cases m with
  | request r =>
      have hsendable := IsPlainRequest.sendable h
      have haccepts := Request.accepts_text hsendable ((IsPlainRequest.command h).not_mem rfl)
      refine exists_frame_of_text r.serialize_eq (IsPlainRequest.oneTidyFrame h) hnul hcr
        haccepts ?_
      rw [(Request.parse_text hsendable).2, deliver, listenRequest_eq, Request.ofParsed_eq,
        SortedMap.ofList_entries, SortedSet.ofList_toList]
      rfl
  | response r =>
      have hsendable := IsPlainResponse.sendable h
      have haccepts := Response.accepts_text hsendable (IsPlainResponse.command h).ne_nil
        (IsPlainResponse.no_error h)
      have herror : errorWord ∉ okWord :: otherFlags r.flags := by
        intro hmem
        rcases List.mem_cons.mp hmem with hmem | hmem
        · exact absurd hmem (by decide)
        · exact IsPlainResponse.no_error h (SortedSet.mem_toList.mp (List.mem_of_mem_filter hmem))
      refine exists_frame_of_text r.serialize_eq (IsPlainResponse.oneTidyFrame h) hnul hcr
        haccepts ?_
      rw [(Response.parse_text hsendable).2.2, deliver, if_neg herror, listenResponse_eq,
        Response.ofParsed_eq, SortedMap.ofList_entries, ofList_okFlags]
      rfl
  | publish p =>
      have hsendable := IsPlainPublish.sendable h
      have haccepts := Publish.accepts_text hsendable ((IsPlainPublish.topic h).not_mem rfl)
      refine exists_frame_of_text p.serialize_eq (IsPlainPublish.oneTidyFrame h) hnul hcr
        haccepts ?_
      rw [(Publish.parse_text hsendable).2, deliver, listenPublish_eq, Publish.ofParsed_eq,
        SortedMap.ofList_entries, SortedSet.ofList_toList]
      rfl
  | _ => exact absurd h id

/-- **End-to-end delivery.**  Plain requests, ok responses and publishes that are sent one
after another are delivered one by one, in order, as they were sent. -/
theorem listen_plain {c : ClientState} (hc : c.connected = true) {s : Sender}
    (hs : s.client.connected = true) (hstart : s.stream = []) {ms : List Outgoing}
    (hplain : ∀ m ∈ ms, m.IsPlain) {reads : List Chunk}
    (hreads : (reads.map Chunk.bytes).flatten = (s.sendAll ms).stream) :
    (c.listen reads).2 = (ms.map Outgoing.received).flatMap c.handlers.invoke :=
  listen_wires hc hs hstart (fun m hm => (hplain m hm).exists_frame) hreads

/-- An ok response with a value of one line and a value of two. -/
def plainResponse : Response :=
  ⟨{ command := ['c'], handle := ['h'], flags := SortedSet.ofList [['f']]
     args := SortedMap.ofList [(['a'], ['x', ' ', 'y']), (['b'], ['"', '\n', '['])] }⟩

/-- A request with two blocks, an ok response and a publish are delivered. -/
theorem listen_plain_three :
    let ms : List Outgoing :=
      [.request blocksRequest, .response plainResponse, .publish topicPublish]
    let s : Sender := { client := oneOfEach, stream := [] }
    ∃ chunk : Chunk, chunk.bytes = (s.sendAll ms).stream ∧
      (oneOfEach.listen [chunk]).2 =
        (ms.map Outgoing.received).flatMap oneOfEach.handlers.invoke := by
  refine ⟨⟨(Sender.sendAll { client := oneOfEach, stream := [] }
    [.request blocksRequest, .response plainResponse, .publish topicPublish]).stream,
    by decide, by decide⟩, rfl, ?_⟩
  refine listen_plain rfl (s := { client := oneOfEach, stream := [] }) rfl rfl ?_ (by simp)
  simp only [List.forall_mem_cons, List.not_mem_nil, false_implies, implies_true, and_true]
  refine ⟨?_, ?_, ?_⟩
  · exact ⟨⟨by decide, by decide, by decide⟩, by decide, by decide, by decide, by decide⟩
  · exact ⟨⟨by decide, by decide, by decide⟩, by decide, by decide, by decide, by decide⟩
  · exact ⟨⟨by decide, by decide, by decide⟩, by decide⟩

end SporeClient.Client
