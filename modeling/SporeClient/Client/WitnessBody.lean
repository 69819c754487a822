/-
  Client/WitnessBody.lean --- the body of a witness, at the other end.

  WHAT THIS FILE IS FOR.  `Witness::serialize` puts every body in double quotes, and leaves
  an empty one out.  `Carriable` says which bodies survive this, the framing and the parser;
  `bodyArrives_iff` that they do then and only then.
-/
import SporeClient.Client.Whole
import SporeClient.Wire.Accepting
import SporeClient.Wire.TakenFields

set_option autoImplicit false

namespace SporeClient.Client

open SporeClient.Foundation
open SporeClient.Parser
open SporeClient.Wire

/-- Sent to any client, the witness is delivered as one witness with the same body, and
nothing else is. -/
def BodyArrives (w : Witness) : Prop :=
  ∃ v : Witness, v.body = w.body ∧
    ∀ (c : ClientState) (s : Sender) (reads : List Chunk), c.connected = true →
      s.client.connected = true → s.stream = [] →
      (reads.map Chunk.bytes).flatten = (s.sendAll [.witness w]).stream →
      (c.listen reads).2 = c.handlers.invoke (.witness v)

/-- The text of a witness with a body and nothing else, without the newline at its end. -/
def bodyText (body : Bytes) : Bytes :=
  witnessWord ++ ' ' :: (bodyWord ++ '=' :: ('"' :: body ++ ['"']))

/-- The body can be written in double quotes, is not taken for a block, and the text of the
witness is one whole frame. -/
structure Carriable (body : Bytes) : Prop where
  ne_nil : body ≠ []
  no_quote : '"' ∉ body
  not_block : isBlock body = false
  whole : OneWholeFrame (bodyText body)

section

variable {w : Witness}

theorem witness_text (hargs : w.args = ∅) (hflags : w.flags = ∅) :
    w.text = if w.body ≠ [] then bodyText w.body else witnessWord := by
  have hno : serializeArgs ∅ = [] := rfl
  have hnone : serializeFlags (∅ : FlagSet).toList = [] := rfl
  rw [Witness.text, hargs, hflags, hno, hnone]
  split <;> simp [bodyText]

theorem nul_not_mem_witness_text (hargs : w.args = ∅) (hflags : w.flags = ∅)
    (hnul : '\x00' ∉ w.body) : '\x00' ∉ w.text := by
  rw [witness_text hargs hflags]
  split
  · simp [bodyText, witnessWord, bodyWord, hnul]
  · decide

/-- **A carriable body arrives.** -/
theorem bodyArrives_of_carriable (hargs : w.args = ∅) (hflags : w.flags = ∅)
    (hnul : '\x00' ∉ w.body) (h : Carriable w.body) : BodyArrives w := by
  have hsendable : w.Sendable := by
    refine ⟨⟨?_, ?_⟩, ⟨h.no_quote, h.not_block⟩, hnul, ?_⟩ <;> simp [hargs, hflags]
  have htext : w.text = bodyText w.body := by rw [witness_text hargs hflags, if_pos h.ne_nil]
  obtain ⟨f, hsegment, hf⟩ := h.whole.exists_frame
  rw [← htext] at hf hsegment
  have haccepts : Accepts f.text .witness := by
    rw [hf]
    exact Witness.accepts_text hsendable h.ne_nil
  have hmsg := (Witness.parse_text hsendable).2
  rw [← hf] at hmsg
  have hevent : f.event = some (.witness (Witness.ofParsed (parseNew f.text).2 f.segment)) := by
    rw [Frame.event_of_text haccepts, deliver, listenWitness_eq]
  refine ⟨Witness.ofParsed (parseNew f.text).2 f.segment, ?_, ?_⟩
  · rw [hmsg, Witness.ofParsed_eq hsendable.own]
  · exact Outgoing.deliveredAs_of_whole (m := .witness w) w.serialize_eq
      (nul_not_mem_witness_text hargs hflags hnul) hsegment hevent

end

/-- The body of a delivered witness is the value of one of its tokens. -/
theorem Frame.token_of_witness {f : Frame} (hnul : '\x00' ∉ f.text) {v : Witness}
    (h : f.event = some (.witness v)) :
    ∃ rest y, tokenize f.text = ⟨witnessWord, .none⟩ :: rest ∧
      ⟨bodyWord ++ '=' :: y, .arg⟩ ∈ rest ∧ stripBlock y = v.body := by
  obtain ⟨type, haccepts, hdeliver⟩ := Frame.deliver_of_event h (by simp [Event.getRaw])
  obtain ⟨rfl, hv⟩ := deliver_witness hdeliver
  obtain ⟨htype, hvalid⟩ := (accepts_iff _ _).mp haccepts
  obtain ⟨rest, htokens, hprops, hargs⟩ := parse_witness htype
  have hbody : (parseNew f.text).1.props.hasArgBody = true := hvalid
  rw [hprops, arg_mark_iff note_hasArgBody rfl] at hbody
  have hvbody : v.body = lastOf bodyWord [] (argsOf rest) := by
    rw [hv, ← hargs]
    exact Witness.takeArgs_body _ _
  obtain ⟨y, hy, hstrip⟩ := exists_token_of_key hnul htokens (by decide) hbody []
  exact ⟨rest, y, htokens, hy, hstrip.trans hvbody.symm⟩

/-- How often a byte stands in the text of a witness. -/
theorem count_bodyText (body : Bytes) (x : Char) :
    (bodyText body).count x =
      body.count x + (witnessWord ++ ' ' :: (bodyWord ++ ['=', '"', '"'])).count x := by
  simp only [bodyText, List.count_append, List.count_cons, List.count_nil]
  omega

/-- **A body that arrives is carriable.** -/
theorem carriable_of_bodyArrives {w : Witness} (hargs : w.args = ∅) (hflags : w.flags = ∅)
    (hnul : '\x00' ∉ w.body) (h : BodyArrives w) : Carriable w.body := by
  obtain ⟨v, hsame, hcalls⟩ := h
  have hno := nul_not_mem_witness_text hargs hflags hnul
  have hdelivered : (Outgoing.witness w).DeliveredAs (.witness v) := hcalls
  obtain ⟨f, hevent, hbegins⟩ := hdelivered.exists_frame w.serialize_eq hno
    ⟨'w', rfl, by decide, by decide⟩
  have hfnul := Frame.not_mem_of_begins hbegins (by decide) hno
  obtain ⟨rest, y, htokens, hy, hstrip⟩ := Frame.token_of_witness hfnul hevent
  rw [hsame] at hstrip
  have hbody : ∀ x, w.body.count x ≤ y.count x := fun x =>
    hstrip ▸ (stripBlock_sublist y).count_le x
  have htoken := fun x => count_token_le (x := x) htokens hy
  have hne : w.body ≠ [] := by
    -- without a body there is no argument
    intro hnil
    have heq := (htoken '=' rfl rfl).trans (Frame.count_le_of_begins hbegins (by decide))
    rw [witness_text hargs hflags, if_neg (by simp [hnil])] at heq
    simp [witnessWord, bodyWord] at heq
  have htext : w.text = bodyText w.body := by rw [witness_text hargs hflags, if_pos hne]
  rw [htext] at hbegins
  have hcount : ∀ x, isGap x = false → isCloser x = false →
      (witnessWord ++ ' ' :: (bodyWord ++ ['=', '"', '"'])).count x = 0 →
        (bodyText w.body).count x ≤ f.text.count x := by
    intro x hgap hcloser hx
    have hin := htoken x hgap hcloser
    have hy := hbody x
    rw [count_bodyText, hx]
    simp only [List.count_append, List.count_cons] at hin
    omega
  obtain ⟨hf, hwhole⟩ := f.whole_of_counts hbegins (hcount '\n' rfl rfl (by decide))
    (hcount '\r' rfl rfl (by decide))
  -- the token of the body is the first argument, since there is no `=` for a second one
  let head : Piece := ⟨witnessWord, flagToken witnessWord, isWord_witnessWord.lexes,
    isWord_witnessWord.ne_nil⟩
  have hrow : IsRow witnessWord [flagToken witnessWord] := ⟨head, [], by simp [head], rfl⟩
  obtain ⟨more, hmore⟩ := hrow.tokenize_arg isWord_bodyWord.isKey ('"' :: w.body ++ ['"'])
  rw [hf, bodyText, hmore] at htokens
  obtain rfl := (List.cons.inj htokens).2
  have hfirst : y = tokenText .outside ('"' :: w.body ++ ['"']) := by
    rcases List.mem_cons.mp hy with heq | hlater
    · have hvalue := congrArg Token.value heq
      simpa using hvalue
    · exfalso
      have hin : (bodyWord ++ '=' :: y).count '=' ≤ countIn '=' more :=
        List.single_le_sum (by simp) _ (List.mem_map.mpr ⟨_, hlater, rfl⟩)
      have htotal := count_tokenize (x := '=') rfl rfl (bodyText w.body)
      rw [bodyText, hmore, ← bodyText, count_bodyText] at htotal
      have hy := hbody '='
      simp only [List.singleton_append, countIn_cons, List.count_append, List.count_cons,
        flagToken, witnessWord, bodyWord, List.count_nil] at htotal hin
      simp at htotal hin
      omega
  rw [hfirst, ← List.append_nil ('"' :: w.body ++ ['"'])] at hstrip
  obtain ⟨hquote, hblock⟩ := quoted_of_tokenText (Or.inl rfl) hstrip
  exact ⟨hne, hquote, hblock, hwhole⟩

/-- **The body of a witness arrives if and only if it is carriable.** -/
theorem bodyArrives_iff {w : Witness} (hargs : w.args = ∅) (hflags : w.flags = ∅)
    (hnul : '\x00' ∉ w.body) : BodyArrives w ↔ Carriable w.body :=
  ⟨carriable_of_bodyArrives hargs hflags hnul, bodyArrives_of_carriable hargs hflags hnul⟩

/-- A witness whose body has a space. -/
def spacedBody : Witness := { body := "Finished test main.PASS_empty".toList }

/-- It arrives. -/
theorem bodyArrives_spaced : BodyArrives spacedBody := by
  refine (bodyArrives_iff rfl rfl (by decide)).mpr ⟨by decide, by decide, by decide, ?_⟩
  refine ⟨[], bodyText spacedBody.body, rfl, ?_⟩
  exact ⟨by decide, by decide, rfl, by decide, by decide⟩

/-- A witness whose body quotes a message. -/
def quotingBody : Witness := { body := "said \"hi\"".toList }

/-- Its body arrives without the quotes. -/
theorem not_all_bodies_arrive :
    ¬∀ w : Witness, w.args = ∅ → w.flags = ∅ → '\x00' ∉ w.body → BodyArrives w := by
  intro h
  obtain ⟨v, hbody, hcalls⟩ := h quotingBody rfl rfl (by decide)
  have hcall := hcalls oneOfEach ⟨oneOfEach, []⟩
    [⟨"witness body=\"said \"hi\"\"\n\n".toList, by decide, by decide⟩] rfl rfl rfl (by decide)
  have hlisten : (oneOfEach.listen
      [⟨"witness body=\"said \"hi\"\"\n\n".toList, by decide, by decide⟩]).2 =
      [⟨3, .witness ⟨{ raw := "witness body=\"said \"hi\"\"\n".toList }, "said hi".toList⟩⟩] := by
    decide
  rw [hlisten] at hcall
  have hv : v = ⟨{ raw := "witness body=\"said \"hi\"\"\n".toList }, "said hi".toList⟩ := by
    simpa [Handlers.invoke, Handlers.forEvent, oneOfEach] using hcall.symm
  rw [hv] at hbody
  exact absurd hbody (by decide)

end SporeClient.Client
