/-
  Client/TornSends.lean --- what writes that stop in the middle of a message cost.

  WHAT THIS FILE IS FOR.  `writeRaw` looks at no count, so a write that takes a part of a
  text leaves the part on the stream, and the next text stands behind it.  For messages that
  are sent as one line the damage ends with this line: a send that is torn costs itself and at
  most one other message, and makes at most one event of its own; all other messages are
  delivered, in order, whatever threads send and wherever their writes stop
  (`Channel.delivered_torn`).

  `survivors` are the messages whose whole text is on the stream, from the start of a line.
-/
import SporeClient.Client.Channel

set_option autoImplicit false

namespace SporeClient.Client

open SporeClient.Foundation
open SporeClient.Parser
open SporeClient.Wire

section

variable {ι : Type}

/-! ## Whole and torn sends -/

/-- What a send has put on the stream. -/
def Sent.bytes (x : Sent ι) : Bytes := wrote (x.job.payload.getD []) x.results

/-- It is the whole text, or more. -/
def Sent.intact (x : Sent ι) : Bool := (x.job.payload.getD []).isPrefixOf x.bytes

/-- It is something, but not the whole text. -/
def Sent.torn (x : Sent ι) : Bool := !x.bytes.isEmpty && !x.intact

/-- The messages whose whole text is on the stream, from the start of a line; `atStart` says
whether the first send begins at one. -/
def survivors : Bool → List (Sent ι) → List Outgoing
  | _, [] => []
  | atStart, x :: rest =>
      if x.bytes = [] then survivors atStart rest
      else if x.intact then
        if atStart then x.job.message.toList ++ survivors true rest else survivors true rest
      else survivors (x.bytes.getLast? == some '\n') rest

/-- The send is of a message whose text is a frame of one line that delivers it. -/
def Sent.OneLine (x : Sent ι) : Prop :=
  ∃ m : Outgoing, x.job = m.call ∧
    ∃ f : Frame, m.wire = f.segment ++ ['\n'] ∧ f.event = some m.received ∧ '<' ∉ f.segment

/-! ## Frames of one line -/

theorem find_openMark_eq_none {l : Bytes} (h : '<' ∉ l) : find openMark l = none := by
  induction l with
  | nil => rfl
  | cons c l ih =>
      obtain ⟨hc, hl⟩ := List.ne_and_not_mem_of_not_mem_cons h
      rw [openMark] at ih
      simp [find, openMark, hc, ih hl]

theorem opensBlock_of_not_mem {l : Bytes} (h : '<' ∉ l) : opensBlock l = false := by
  rw [opensBlock, find_openMark_eq_none h]

theorem mem_of_mem_stripCR {l : Bytes} {c : Char} (h : c ∈ stripCR l) : c ∈ l := by
  unfold stripCR at h
  split at h
  · exact List.mem_of_mem_dropLast h
  · exact h

/-- A line that can open no block, as a frame. -/
def lineFrame (l : Bytes) (hl : '\n' ∉ l) (hopen : '<' ∉ l) : Frame where
  held := []
  last := l
  newline_free := by simpa using hl
  goes_on := rfl
  ends := by
    have hstrip : opensBlock (stripCR l) = false :=
      opensBlock_of_not_mem fun h => hopen (mem_of_mem_stripCR h)
    simp [endsHeld, hstrip]

@[simp] theorem lineFrame_segment {l : Bytes} (hl : '\n' ∉ l) (hopen : '<' ∉ l) :
    (lineFrame l hl hopen).segment = l ++ ['\n'] := by
  simp [Frame.segment, Frame.lines, lineFrame]

/-- A frame without `<` has one line. -/
theorem Frame.eq_lineFrame {f : Frame} (h : '<' ∉ f.segment) :
    ∃ hl hopen, f = lineFrame f.last hl hopen := by
  have hlines : ∀ l ∈ f.lines, '<' ∉ l := by
    intro l hl hmem
    refine h ?_
    rw [Frame.segment, unlines, List.mem_flatMap]
    exact ⟨l, hl, List.mem_append_left _ hmem⟩
  have hheld : f.held = [] := by
    cases hf : f.held with
    | nil => rfl
    | cons l ls =>
        have hopens := f.goes_on
        have hl : '<' ∉ l := hlines l (by simp [Frame.lines, hf])
        rw [hf, List.map_cons, isHeld,
          opensBlock_of_not_mem fun hmem => hl (mem_of_mem_stripCR hmem)] at hopens
        simp at hopens
  refine ⟨f.newline_free _ (by simp), hlines _ (by simp [Frame.lines]), ?_⟩
  obtain ⟨held, last, _, _, _⟩ := f
  subst hheld
  rfl

theorem Frame.events_cons (f : Frame) (fs : List Frame) :
    (f :: fs).filterMap event = f.event.toList ++ fs.filterMap event := by
  rw [List.filterMap_cons]
  cases f.event <;> rfl

/-- The events of whole frames and a part of a line behind them. -/
theorem eventsOf_frames_part {reads : List Chunk} {fs : List Frame} {tail : Bytes}
    (htail : '\n' ∉ tail)
    (h : (reads.map Chunk.bytes).flatten = fs.flatMap Frame.segment ++ tail) :
    eventsOf (reads.map Chunk.bytes) = fs.filterMap Frame.event := by
  obtain ⟨whole, hwhole⟩ := exists_reads (fs.flatMap Frame.segment)
  have hpart : listenReader.newline ∉ tail := htail
  rw [← eventsOf_frames hwhole, eventsOf_eq_scan, eventsOf_eq_scan, h, hwhole,
    listenReader.scan_append, listenReader.scan_partial _ hpart, List.append_nil]

/-! ## What a send of one line writes -/

/-- What is written of a line: nothing, the line and perhaps a blank one, or a part of it, which
is ended or not. -/
inductive LineWritten (body : Bytes) : Bytes → Prop
  | nothing : LineWritten body []
  | whole (blank : List Frame) (hblank : ∀ b ∈ blank, b = blankFrame) :
      LineWritten body (body ++ ['\n'] ++ blank.flatMap Frame.segment)
  | part {part : Bytes} (hpart : part <+: body) (hne : part ≠ []) : LineWritten body part
  | ended {part : Bytes} (hpart : part <+: body) (hlen : part.length < body.length) :
      LineWritten body (part ++ ['\n'])

theorem lineWritten_part {body part : Bytes} (hpart : part <+: body) : LineWritten body part := by
  by_cases hne : part = []
  · exact hne ▸ .nothing
  · exact .part hpart hne

theorem lineWritten_wrote (body : Bytes) (results : List WriteOutcome) :
    LineWritten body (wrote (body ++ ['\n']) results) := by
  have hwhole : LineWritten body (body ++ ['\n']) := by
    simpa using (LineWritten.whole [] (by simp) : LineWritten body _)
  rcases results with _ | ⟨_ | k, rest⟩
  · exact .nothing
  · exact .nothing
  · rcases Nat.lt_or_ge body.length k with hk | hk
    · have htake : (body ++ ['\n']).take k = body ++ ['\n'] :=
        List.take_of_length_le (by simp; omega)
      have hnewline : blankFrame.segment = ['\n'] := rfl
      have hblank : LineWritten body (body ++ ['\n', '\n']) := by
        simpa [hnewline] using (LineWritten.whole [blankFrame] (by simp) : LineWritten body _)
      rcases rest with _ | ⟨_ | _ | j, rest⟩ <;> simpa [wrote, htake]
    · have htake : (body ++ ['\n']).take k = body.take k := List.take_append_of_le_length hk
      have hpart : LineWritten body (body.take k) := lineWritten_part (List.take_prefix k body)
      have hended : LineWritten body (body.take k ++ ['\n']) := by
        rcases Nat.eq_or_lt_of_le hk with rfl | hk
        · -- the newline of `writeRaw` ends the line
          simpa using hwhole
        · exact .ended (List.take_prefix k body) (by rwa [List.length_take_of_le hk.le])
      rcases rest with _ | ⟨_ | _ | j, rest⟩ <;> simpa [wrote, htake]

/-! ## What is made of sends -/

/-- What is made of sends when a line is begun on the stream before them: the survivors are
among the events, in order; a torn send adds one event at most and costs one other message at
most.  The line that is begun counts as a torn send. -/
structure Heard (begun : Bytes) (sent : List (Sent ι)) (es : List Event) : Prop where
  survive : ((survivors begun.isEmpty sent).map Outgoing.received).Sublist es
  added : es.length ≤ (survivors begun.isEmpty sent).length + sent.countP Sent.torn +
    (!begun.isEmpty).toNat
  lost : sent.countP Sent.intact ≤ (survivors begun.isEmpty sent).length +
    sent.countP Sent.torn + (!begun.isEmpty).toNat

theorem Heard.nil {begun : Bytes} : Heard begun ([] : List (Sent ι)) [] :=
  ⟨by simp [survivors], by simp [survivors], by simp⟩

variable {x : Sent ι} {rest : List (Sent ι)} {begun : Bytes} {es : List Event}

/-- One send: it keeps these messages and makes these events, and what it leaves begun is
counted by those behind it. -/
theorem Heard.cons {begun' : Bytes} {kept : List Outgoing} {made : List Event}
    (h : Heard begun' rest es)
    (hsurvivors : survivors begun.isEmpty (x :: rest) = kept ++ survivors begun'.isEmpty rest)
    (hmade : (kept.map Outgoing.received).Sublist made)
    (hadded : made.length + (!begun'.isEmpty).toNat ≤
      kept.length + x.torn.toNat + (!begun.isEmpty).toNat)
    (hlost : x.intact.toNat + (!begun'.isEmpty).toNat ≤
      kept.length + x.torn.toNat + (!begun.isEmpty).toNat) :
    Heard begun (x :: rest) (made ++ es) := by
  have hcount : ∀ p : Sent ι → Bool, (x :: rest).countP p = (p x).toNat + rest.countP p := by
    intro p
    rw [List.countP_cons, Nat.add_comm]
    cases p x <;> rfl
  obtain ⟨hsurvive, hadded', hlost'⟩ := h
  constructor
  · rw [hsurvivors, List.map_append]
    exact hmade.append hsurvive
  · rw [hsurvivors, hcount, List.length_append, List.length_append]
    omega
  · rw [hsurvivors, hcount, hcount, List.length_append]
    omega

theorem Heard.nothing (hbytes : x.bytes = []) (hintact : x.intact = false)
    (h : Heard begun rest es) : Heard begun (x :: rest) es := by
  have hsurvivors : survivors begun.isEmpty (x :: rest) = [] ++ survivors begun.isEmpty rest := by
    rw [survivors, if_pos hbytes, List.nil_append]
  exact h.cons hsurvivors .slnil (by simp) (by simp [hintact])

/-- A whole text at the start of a line. -/
theorem Heard.whole {m : Outgoing} (hm : x.job.message = some m) (hne : x.bytes ≠ [])
    (hintact : x.intact = true) (h : Heard [] rest es) :
    Heard [] (x :: rest) (m.received :: es) := by
  have hsurvivors : survivors ([] : Bytes).isEmpty (x :: rest) =
      [m] ++ survivors ([] : Bytes).isEmpty rest := by
    simp [survivors, hne, hintact, hm]
  exact h.cons hsurvivors (List.Sublist.refl [m.received]) (by simp) (by simp [hintact])

/-- A whole text behind a part of a line. -/
theorem Heard.merged (hbegun : begun ≠ []) (hne : x.bytes ≠ []) (hintact : x.intact = true)
    (e : Option Event) (h : Heard [] rest es) : Heard begun (x :: rest) (e.toList ++ es) := by
  have hempty : begun.isEmpty = false := by simpa using hbegun
  have hsurvivors : survivors begun.isEmpty (x :: rest) =
      [] ++ survivors ([] : Bytes).isEmpty rest := by
    simp [survivors, hempty, hne, hintact]
  have he : e.toList.length ≤ 1 := Option.length_toList_le
  exact h.cons hsurvivors (List.nil_sublist _) (by simp [hempty]; omega) (by simp [hempty, hintact])

/-- A part of a line that is not ended. -/
theorem Heard.cutOff {q : Bytes} (hbytes : x.bytes = q) (hq : q ≠ []) (hnewline : '\n' ∉ q)
    (hintact : x.intact = false) (h : Heard (begun ++ q) rest es) :
    Heard begun (x :: rest) es := by
  have htorn : x.torn = true := by simp [Sent.torn, hbytes, hq, hintact]
  have hempty : (begun ++ q).isEmpty = false := by simp [hq]
  have hlast : (q.getLast? == some '\n') = false := by
    rw [beq_eq_false_iff_ne]
    exact fun hlast => hnewline (List.mem_of_getLast? hlast)
  have hsurvivors : survivors begun.isEmpty (x :: rest) =
      [] ++ survivors (begun ++ q).isEmpty rest := by
    rw [hempty]
    simp [survivors, hbytes, hq, hintact, hlast]
  exact h.cons hsurvivors .slnil (by simp [hempty, htorn]) (by simp [hempty, htorn, hintact])

/-- A part of a line that is ended. -/
theorem Heard.ended {q : Bytes} (hbytes : x.bytes = q ++ ['\n']) (hintact : x.intact = false)
    (e : Option Event) (h : Heard [] rest es) : Heard begun (x :: rest) (e.toList ++ es) := by
  have htorn : x.torn = true := by simp [Sent.torn, hbytes, hintact]
  have hsurvivors : survivors begun.isEmpty (x :: rest) =
      [] ++ survivors ([] : Bytes).isEmpty rest := by
    simp [survivors, hbytes, hintact]
  have he : e.toList.length ≤ 1 := Option.length_toList_le
  exact h.cons hsurvivors (List.nil_sublist _) (by simp [htorn]; omega) (by simp [htorn, hintact])

/-! ## The frames of a stream with torn sends -/

theorem intact_iff {body : Bytes} (hpayload : x.job.payload.getD [] = body ++ ['\n']) :
    x.intact = true ↔ body ++ ['\n'] <+: x.bytes := by
  rw [Sent.intact, hpayload, List.isPrefixOf_iff_prefix]

theorem intact_eq_false {body : Bytes} (hpayload : x.job.payload.getD [] = body ++ ['\n'])
    (hlen : x.bytes.length ≤ body.length) : x.intact = false := by
  rw [← Bool.not_eq_true, intact_iff hpayload]
  intro hprefix
  have hle := hprefix.length_le
  simp only [List.length_append, List.length_cons, List.length_nil] at hle
  omega

theorem filterMap_blank {blank : List Frame} (h : ∀ b ∈ blank, b = blankFrame) :
    blank.filterMap Frame.event = [] := by
  rw [List.filterMap_eq_nil_iff]
  intro b hb
  rw [h b hb]
  rfl

/-- The text of a send of one line, and what is made of it. -/
theorem Sent.OneLine.exists_line (h : x.OneLine) :
    ∃ (m : Outgoing) (body : Bytes) (hl : '\n' ∉ body) (hopen : '<' ∉ body),
      x.job.message = some m ∧ x.job.payload.getD [] = body ++ ['\n'] ∧
        (lineFrame body hl hopen).event = some m.received := by
  obtain ⟨m, hm, f, hwire, hevent, hfopen⟩ := h
  obtain ⟨hl, hopen, hline⟩ := Frame.eq_lineFrame hfopen
  refine ⟨m, f.last, hl, hopen, by rw [hm, Outgoing.message_call], ?_, ?_⟩
  · rw [hm, Outgoing.payload_call, ← lineFrame_segment hl hopen, ← hline]
    exact List.append_cancel_right hwire
  · rw [← hline]
    exact hevent

/-- **Sends of one line, behind a line that is begun**, are frames and again a line that is
begun. -/
theorem exists_heard {sent : List (Sent ι)} (h : ∀ x ∈ sent, x.OneLine) (begun : Bytes)
    (hnewline : '\n' ∉ begun) (hopen : '<' ∉ begun) :
    ∃ (fs : List Frame) (tail : Bytes),
      begun ++ sent.flatMap Sent.bytes = fs.flatMap Frame.segment ++ tail ∧ '\n' ∉ tail ∧
        Heard begun sent (fs.filterMap Frame.event) := by
  induction sent generalizing begun with
  | nil => exact ⟨[], begun, by simp, hnewline, .nil⟩
  | cons x rest ih =>
      obtain ⟨hx, hrest⟩ := List.forall_mem_cons.mp h
      obtain ⟨m, body, hbody, hbodyopen, hmessage, hpayload, hevent⟩ := hx.exists_line
      have hwritten := lineWritten_wrote body x.results
      rw [← hpayload, ← Sent.bytes] at hwritten
      generalize hbytes : x.bytes = bytes at hwritten
      cases hwritten with
      | nothing =>
          obtain ⟨fs, tail, hstream, htail, hheard⟩ := ih hrest begun hnewline hopen
          refine ⟨fs, tail, by simpa [hbytes] using hstream, htail, hheard.nothing hbytes ?_⟩
          exact intact_eq_false hpayload (by simp [hbytes])
      | whole blank hblank =>
          obtain ⟨fs, tail, hstream, htail, hheard⟩ := ih hrest [] (by simp) (by simp)
          have hl : '\n' ∉ begun ++ body := by simp [hnewline, hbody]
          have hlopen : '<' ∉ begun ++ body := by simp [hopen, hbodyopen]
          have hne : x.bytes ≠ [] := by simp [hbytes]
          have hintact : x.intact = true := by
            rw [intact_iff hpayload, hbytes]
            exact List.prefix_append _ _
          refine ⟨lineFrame _ hl hlopen :: blank ++ fs, tail, ?_, htail, ?_⟩
          · rw [List.nil_append] at hstream
            simp [hbytes, hstream]
          · rw [List.filterMap_append, Frame.events_cons, filterMap_blank hblank,
              List.append_nil]
            by_cases hbegun : begun = []
            · subst hbegun
              have heq : (lineFrame ([] ++ body) hl hlopen).event = some m.received := hevent
              rw [heq]
              exact hheard.whole hmessage hne hintact
            · exact hheard.merged hbegun hne hintact _
      | part hpart hne =>
          have hqnewline : '\n' ∉ bytes := fun hmem => hbody (hpart.subset hmem)
          have hqopen : '<' ∉ bytes := fun hmem => hbodyopen (hpart.subset hmem)
          obtain ⟨fs, tail, hstream, htail, hheard⟩ := ih hrest (begun ++ bytes)
            (by simp [hnewline, hqnewline]) (by simp [hopen, hqopen])
          refine ⟨fs, tail, by simpa [hbytes] using hstream, htail,
            hheard.cutOff hbytes hne hqnewline ?_⟩
          exact intact_eq_false hpayload (by rw [hbytes]; exact hpart.length_le)
      | @ended part hpart hlen =>
          have hqnewline : '\n' ∉ part := fun hmem => hbody (hpart.subset hmem)
          have hqopen : '<' ∉ part := fun hmem => hbodyopen (hpart.subset hmem)
          have hl : '\n' ∉ begun ++ part := by simp [hnewline, hqnewline]
          have hlopen : '<' ∉ begun ++ part := by simp [hopen, hqopen]
          obtain ⟨fs, tail, hstream, htail, hheard⟩ := ih hrest [] (by simp) (by simp)
          refine ⟨lineFrame _ hl hlopen :: fs, tail, ?_, htail, ?_⟩
          · rw [List.nil_append] at hstream
            simp [hbytes, hstream]
          · rw [Frame.events_cons]
            have hshort : x.bytes.length ≤ body.length := by
              simpa [hbytes] using Nat.succ_le_of_lt hlen
            exact hheard.ended hbytes (intact_eq_false hpayload hshort) _

end

/-! ## Threads -/

section

variable {ι : Type} [DecidableEq ι] {connected : Bool}

/-- Every send is of a plain message that is sent as one line. -/
def PlainLines (moves : List (SendMove ι)) : Prop :=
  ∀ x ∈ Threads.served moves, ∃ m : Outgoing, x.job = m.call ∧ m.IsPlain ∧ '<' ∉ m.serialize

omit [DecidableEq ι] in
theorem PlainLines.oneLine {moves : List (SendMove ι)} (h : PlainLines moves) :
    ∀ x ∈ Threads.served moves, Sent.OneLine x := by
  intro x hx
  obtain ⟨m, hm, hplain, hopen⟩ := h x hx
  obtain ⟨f, hwire, hevent⟩ := hplain.exists_frame
  refine ⟨m, hm, f, hwire, hevent, fun hmem => hopen ?_⟩
  rw [Outgoing.wire] at hwire
  rw [← List.append_cancel_right hwire] at hmem
  exact (List.takeWhile_sublist _).subset hmem

/-- **A torn send costs itself and at most one other message.**  Threads send plain messages,
each as one line, and any of their writes may fail or take a part only.  When everything has
been read, the messages whose text is whole and stands at the start of a line have been
delivered, in order; there are no more other events than torn sends, and no more messages with
a whole text are missing.  Before that the first of these events have been made. -/
theorem Channel.delivered_torn {c : ClientState} (hc : c.connected = true)
    {moves : List (ChannelMove ι)} {ch : Channel ι}
    (h : Run (Channel.Step connected) Channel.start moves ch)
    (hlines : PlainLines (sourceMoves moves)) :
    ∃ es now : List Event, (c.listen ch.taken).2 = now.flatMap c.handlers.invoke ∧ now <+: es ∧
      (ch.got Chunk.bytes = ch.source.shared → now = es) ∧
      ((survivors true (Threads.served (sourceMoves moves))).map Outgoing.received).Sublist es ∧
      es.length ≤ (survivors true (Threads.served (sourceMoves moves))).length +
        (Threads.served (sourceMoves moves)).countP Sent.torn ∧
      (Threads.served (sourceMoves moves)).countP Sent.intact ≤
        (survivors true (Threads.served (sourceMoves moves))).length +
          (Threads.served (sourceMoves moves)).countP Sent.torn := by
  have hgot : ch.got Chunk.bytes <+: ch.source.shared :=
    Piped.taken_begins (fun _ _ _ hstep => hstep.grows) h
  obtain ⟨fs, tail, hstream, htail, hsurvive, hadded, hlost⟩ :=
    exists_heard hlines.oneLine [] (by simp) (by simp)
  have hshared : ch.source.shared = fs.flatMap Frame.segment ++ tail := by
    rw [Senders.shared_eq (Piped.run_source h), List.nil_append, ← hstream]
    rfl
  obtain ⟨whole, hwhole⟩ := exists_reads ch.source.shared
  have hall := eventsOf_frames_part htail (hwhole.trans hshared)
  refine ⟨fs.filterMap Frame.event, ch.delivered, ?_, ?_, fun hdrained => ?_, hsurvive,
    hadded, hlost⟩
  · simp [ClientState.listen, hc, Channel.delivered]
  · rw [← hall, Channel.delivered, eventsOf_eq_scan, eventsOf_eq_scan, hwhole]
    exact (listenReader.scan_begins _ hgot).filterMap _
  · exact eventsOf_frames_part htail (hdrained.trans hshared)

end

/-- A thread sends a request, of which a part is written and no newline. -/
def sendTorn (part : Chunk) : List (ChannelMove Unit) :=
  [.source (.call () (.send (some pingRequest))), .source (.lock () (.send (some pingRequest))),
    .source (.act () (some 2)), .source (.act () none), .source (.unlock ()), .take part]

theorem run_sendTorn : ∃ (part : Chunk) (ch : Channel Unit),
    Run (Channel.Step true) Channel.start (sendTorn part) ch := by
  let part : Chunk := ⟨['c', ' '], by decide, by decide⟩
  have hlocked : Run (Channel.Step true) Channel.start ((sendTorn part).take 2) _ :=
    .step (.step .start (.source (.passed rfl (.call rfl))))
      (.source (.goesOn (by simp [Move.GoesOn]) (.lock rfl rfl)))
  have hwritten : Run (Channel.Step true) Channel.start ((sendTorn part).take 5) _ :=
    .step (.step (.step hlocked (.source (.goesOn (by simp [Move.GoesOn]) (.act rfl _))))
      (.source (.goesOn (by simp [Move.GoesOn]) (.act rfl _))))
      (.source (.goesOn (by simp [Move.GoesOn]) (.unlock rfl)))
  exact ⟨part, _, hwritten.step (.take (by decide))⟩

/-- It makes at most one event. -/
theorem Channel.delivered_torn_one : ∃ (ch : Channel Unit) (es now : List Event),
    (oneOfEach.listen ch.taken).2 = now.flatMap oneOfEach.handlers.invoke ∧ now <+: es ∧
      es.length ≤ 1 := by
  obtain ⟨part, ch, hrun⟩ := run_sendTorn
  have hlines : PlainLines (sourceMoves (sendTorn part)) := by
    intro x hx
    obtain rfl := List.mem_singleton.mp (show x ∈ [(⟨(), .send (some pingRequest),
      [some 2, none]⟩ : Sent Unit)] from hx)
    exact ⟨.request pingRequest, rfl, pingRequest_plain, by decide⟩
  obtain ⟨es, now, hcalls, hnow, _, _, hadded, _⟩ :=
    Channel.delivered_torn (c := oneOfEach) rfl hrun hlines
  exact ⟨ch, es, now, hcalls, hnow, hadded⟩

end SporeClient.Client
