/-
  Client/Whole.lean --- one text that is sent alone.

  WHAT THIS FILE IS FOR.  A complete send puts a text, its newline and another newline on
  the wire.  When the lines of the text are read as one whole frame, `listen` delivers what
  is dispatched for it (`deliveredAs_of_whole`).  Conversely, when one event is delivered,
  the frame it comes from begins the wire (`DeliveredAs.exists_frame`); and if the text of
  this frame has all the newlines and carriage returns that were sent, the frame is whole
  (`Frame.whole_of_counts`).
-/
import SporeClient.Client.OneShot
import SporeClient.Client.Send
import SporeClient.Wire.Counting

set_option autoImplicit false

namespace SporeClient.Client

open SporeClient.Foundation
open SporeClient.Parser
open SporeClient.Wire

/-- These lines are read as one frame, and no byte of them is lost: the frame goes on up to
its last line, no line ends in a carriage return, and no line closes a block and opens
another. -/
structure IsWhole (held : List Bytes) (last : Bytes) : Prop where
  newline_free : ∀ l ∈ held ++ [last], '\n' ∉ l
  no_cr : ∀ l ∈ held ++ [last], l.getLast? ≠ some '\r'
  goes_on : isHeld held = true
  ends : endsHeld held last = true
  no_close : ∀ l ∈ held.tail, ¬isClose l = true

/-- The lines of the text, with the newline behind it, are one whole frame. -/
def OneWholeFrame (text : Bytes) : Prop :=
  ∃ held last, unlines '\n' (held ++ [last]) = text ++ ['\n'] ∧ IsWhole held last

theorem map_stripCR_eq_self {ls : List Bytes} (h : ∀ l ∈ ls, l.getLast? ≠ some '\r') :
    ls.map stripCR = ls :=
  (List.map_congr_left fun l hl => if_neg (h l hl)).trans (List.map_id ls)

theorem IsWhole.exists_frame {held : List Bytes} {last : Bytes} (h : IsWhole held last) :
    ∃ f : Frame, f.segment = unlines '\n' (held ++ [last]) ∧ f.segment = f.text ++ ['\n'] := by
  have hheld : held.map stripCR = held :=
    map_stripCR_eq_self fun l hl => h.no_cr l (List.mem_append_left _ hl)
  have hlast : stripCR last = last := if_neg (h.no_cr last (by simp))
  have htext : unlines '\n' (held ++ [last]) =
      heldText (held.map stripCR) ++ stripCR last ++ ['\n'] := by
    rw [hheld, hlast, heldText_eq_unlines h.no_close, unlines_append]
    simp
  refine ⟨⟨held, last, h.newline_free, ?_, ?_⟩, rfl, htext⟩
  · rw [hheld]
    exact h.goes_on
  · rw [hheld, hlast]
    exact h.ends

/-- The text of a whole frame is the text that was sent. -/
theorem OneWholeFrame.exists_frame {text : Bytes} (h : OneWholeFrame text) :
    ∃ f : Frame, f.segment = text ++ ['\n'] ∧ f.text = text := by
  obtain ⟨held, last, hlines, hwhole⟩ := h
  obtain ⟨f, hsegment, htext⟩ := hwhole.exists_frame
  rw [hlines] at hsegment
  exact ⟨f, hsegment, List.append_cancel_right (htext.symm.trans hsegment)⟩

/-! ## What is delivered for it -/

/-- **What is dispatched for the frame is delivered**, and the blank line behind it is not. -/
theorem listen_whole {c : ClientState} (hc : c.connected = true) {f : Frame} {text : Bytes}
    (hsegment : f.segment = text ++ ['\n']) {e : Event} (hevent : f.event = some e)
    {reads : List Chunk} (hreads : (reads.map Chunk.bytes).flatten = text ++ ['\n'] ++ ['\n']) :
    (c.listen reads).2 = c.handlers.invoke e := by
  have hstream : (reads.map Chunk.bytes).flatten = [f, blankFrame].flatMap Frame.segment := by
    rw [hreads, List.flatMap_cons, List.flatMap_cons, List.flatMap_nil, List.append_nil, hsegment]
    rfl
  have hblank : blankFrame.event = none := rfl
  rw [listen_of_frames hc hstream, List.filterMap_cons, hevent, List.filterMap_cons, hblank]
  simp

/-- Any stream can be returned by reads. -/
theorem exists_reads (stream : Bytes) :
    ∃ reads : List Chunk, (reads.map Chunk.bytes).flatten = stream := by
  induction stream with
  | nil => exact ⟨[], rfl⟩
  | cons c rest ih =>
      obtain ⟨reads, hreads⟩ := ih
      exact ⟨⟨[c], by simp, by simp⟩ :: reads, by simp [hreads]⟩

/-- One handler of every kind sees every event once. -/
theorem events_of_oneOfEach (events : List Event) :
    (events.flatMap oneOfEach.handlers.invoke).map Callback.event = events := by
  induction events with
  | nil => rfl
  | cons e rest ih =>
      rw [List.flatMap_cons, List.map_append, ih]
      cases e <;> rfl

/-- A frame without text is a blank line. -/
theorem Frame.segment_of_text_nil {f : Frame} (h : f.text = []) :
    f.segment = ['\n'] ∨ f.segment = ['\r', '\n'] := by
  obtain ⟨hheld, hlast⟩ := List.append_eq_nil_iff.mp h
  have hnil : f.held = [] := by
    cases hmap : f.held with
    | nil => rfl
    | cons l ls =>
        rw [hmap] at hheld
        simp [heldText] at hheld
  rw [Frame.segment, Frame.lines, hnil]
  rcases stripCR_eq_nil_iff.mp hlast with hl | hl
  · exact Or.inl (by simp [hl])
  · exact Or.inr (by simp [hl])

/-- Sent alone to any client, the message is delivered as this event, and nothing else is. -/
def Outgoing.DeliveredAs (m : Outgoing) (e : Event) : Prop :=
  ∀ (c : ClientState) (s : Sender) (reads : List Chunk), c.connected = true →
    s.client.connected = true → s.stream = [] →
    (reads.map Chunk.bytes).flatten = (s.sendAll [m]).stream →
    (c.listen reads).2 = c.handlers.invoke e

/-- What is on the wire when a text without NUL is sent. -/
theorem Outgoing.wire_of_text {m : Outgoing} {text : Bytes}
    (hserialize : m.serialize = text ++ ['\n'])
    (hnul : '\x00' ∉ text) : m.wire = text ++ ['\n'] ++ ['\n'] := by
  rw [wire, hserialize, cstr_eq_self (by simp [hnul])]

theorem Sender.stream_of_text {s : Sender} (hs : s.client.connected = true) (hstart : s.stream = [])
    {m : Outgoing} {text : Bytes} (hserialize : m.serialize = text ++ ['\n'])
    (hnul : '\x00' ∉ text) : (s.sendAll [m]).stream = text ++ ['\n'] ++ ['\n'] := by
  rw [Sender.sendAll_stream hs, hstart, List.flatMap_cons, List.flatMap_nil, List.nil_append,
    List.append_nil, Outgoing.wire_of_text hserialize hnul]

/-- **What is dispatched for the whole frame is what is delivered.** -/
theorem Outgoing.deliveredAs_of_whole {m : Outgoing} {text : Bytes}
    (hserialize : m.serialize = text ++ ['\n']) (hnul : '\x00' ∉ text) {f : Frame}
    (hsegment : f.segment = text ++ ['\n']) {e : Event} (hevent : f.event = some e) :
    m.DeliveredAs e := by
  intro c s reads hc hs hstart hreads
  exact listen_whole hc hsegment hevent
    (hreads.trans (Sender.stream_of_text hs hstart hserialize hnul))

/-- **One event has one frame**, and this frame begins the wire. -/
theorem Outgoing.DeliveredAs.exists_frame {m : Outgoing} {e : Event} (h : m.DeliveredAs e)
    {text : Bytes} (hserialize : m.serialize = text ++ ['\n']) (hnul : '\x00' ∉ text)
    (hfront : ∃ x, text.head? = some x ∧ x ≠ '\n' ∧ x ≠ '\r') :
    ∃ f : Frame, f.event = some e ∧ f.segment <+: text ++ ['\n'] ++ ['\n'] := by
  obtain ⟨x, hhead, hnl, hcr⟩ := hfront
  obtain ⟨rest, rfl⟩ := List.head?_eq_some_iff.mp hhead
  obtain ⟨reads, hreads⟩ := exists_reads ((x :: rest) ++ ['\n'] ++ ['\n'])
  have hsent := h oneOfEach ⟨oneOfEach, []⟩ reads rfl rfl rfl
    (hreads.trans (Sender.stream_of_text rfl rfl hserialize hnul).symm)
  obtain ⟨fs, held, tail, hstream, _, hlisten⟩ := listen_frames (c := oneOfEach) rfl reads
  have hevents : fs.filterMap Frame.event = [e] := by
    rw [← events_of_oneOfEach (fs.filterMap Frame.event), ← hlisten, hsent]
    simpa using events_of_oneOfEach [e]
  rw [hreads] at hstream
  cases fs with
  | nil => simp at hevents
  | cons f fs =>
      have hbegins : f.segment <+: (x :: rest) ++ ['\n'] ++ ['\n'] := by
        rw [hstream, List.flatMap_cons, List.append_assoc, List.append_assoc]
        exact List.prefix_append _ _
      have hne : f.text ≠ [] := by
        -- the text does not begin with a blank line
        intro hnil
        obtain ⟨post, hpost⟩ := hbegins
        rcases Frame.segment_of_text_nil hnil with hseg | hseg
        · rw [hseg] at hpost
          exact hnl (List.cons.inj hpost).1.symm
        · rw [hseg] at hpost
          exact hcr (List.cons.inj hpost).1.symm
      obtain ⟨e', he⟩ := Option.isSome_iff_exists.mp (dispatch_isSome f.segment f.text)
      have hsome : f.event = some e' := by rw [Frame.event, if_neg hne, he]
      rw [List.filterMap_cons, hsome] at hevents
      exact ⟨f, by rw [hsome, (List.cons.inj hevents).1], hbegins⟩

/-! ## Counting newlines -/

namespace Frame

/-- The text of a frame is made of its bytes. -/
theorem text_sublist (f : Frame) : f.text.Sublist (rawInput f.segment) := by
  rw [f.rawInput_segment, text]
  exact (heldText_sublist _).append (List.Sublist.refl _)

theorem count_text_le (f : Frame) (x : Char) : f.text.count x ≤ f.segment.count x :=
  ((f.text_sublist.trans (trimBack_sublist _)).trans (dropCR_sublist _)).count_le x

/-- A frame that begins a text and its newlines has no byte that the text has not. -/
theorem count_le_of_begins {f : Frame} {text : Bytes} (h : f.segment <+: text ++ ['\n'] ++ ['\n'])
    {x : Char} (hx : x ≠ '\n') : f.text.count x ≤ text.count x := by
  have hle := (f.count_text_le x).trans (h.sublist.count_le x)
  simpa [List.count_cons, hx.symm] using hle

theorem not_mem_of_begins {f : Frame} {text : Bytes} (h : f.segment <+: text ++ ['\n'] ++ ['\n'])
    {x : Char} (hx : x ≠ '\n') (hno : x ∉ text) : x ∉ f.text := by
  have hle := count_le_of_begins h hx
  rw [List.count_eq_zero.mpr hno] at hle
  exact List.count_eq_zero.mp (Nat.le_zero.mp hle)

/-- **A frame whose text has all carriage returns and newlines of its bytes is whole.** -/
theorem isWhole_of_count (f : Frame) (hcr : f.segment.count '\r' ≤ f.text.count '\r')
    (hnl : f.segment.count '\n' ≤ f.text.count '\n' + 1) :
    IsWhole f.held f.last ∧ f.segment = f.text ++ ['\n'] := by
  have hno : NoCRLF f.segment := by
    by_contra hlost
    have hlt := count_dropCR_lt hlost
    have hle := (f.text_sublist.trans (trimBack_sublist _)).count_le '\r'
    omega
  have hlines : ∀ l ∈ f.held ++ [f.last], l.getLast? ≠ some '\r' := by
    intro l hl hlast
    obtain ⟨r, rfl⟩ := List.getLast?_eq_some_iff.mp hlast
    obtain ⟨a, b, hab⟩ := List.append_of_mem hl
    refine hno ⟨unlines '\n' a ++ r, unlines '\n' b, ?_⟩
    rw [segment, lines, hab]
    simp
  have hheld : f.held.map stripCR = f.held :=
    map_stripCR_eq_self fun l hl => hlines l (List.mem_append_left _ hl)
  have hlast : stripCR f.last = f.last := if_neg (hlines f.last (by simp))
  have hclose : ∀ l ∈ f.held.tail, ¬isClose l = true := by
    apply not_isClose_of_count
    rw [segment, lines, unlines_append, text, hheld, hlast] at hnl
    simp only [unlines_cons, unlines_nil, List.count_append, List.count_cons, List.count_nil,
      beq_self_eq_true, if_true] at hnl
    omega
  have hwhole : IsWhole f.held f.last :=
    ⟨f.newline_free, hlines, hheld ▸ f.goes_on, by rw [← hheld, ← hlast]; exact f.ends, hclose⟩
  refine ⟨hwhole, ?_⟩
  rw [segment, lines, text, hheld, hlast, heldText_eq_unlines hclose, unlines_append]
  simp

/-- The newline at its end is not in the text of a frame. -/
theorem count_newline_lt (f : Frame) : f.text.count '\n' < f.segment.count '\n' := by
  have hlast : (stripCR f.last).count '\n' = 0 := by
    have hno := f.newline_free f.last (by simp)
    refine List.count_eq_zero.mpr fun hmem => hno ?_
    unfold stripCR at hmem
    split at hmem
    · exact List.mem_of_mem_dropLast hmem
    · exact hmem
  have hheld : (heldText (f.held.map stripCR)).count '\n' ≤ (unlines '\n' f.held).count '\n' := by
    apply ((heldText_sublist _).count_le '\n').trans
    clear hlast
    induction f.held with
    | nil => exact Nat.le_refl _
    | cons l ls ih =>
        have hl : (stripCR l).count '\n' ≤ l.count '\n' := by
          unfold stripCR
          split
          · exact (List.dropLast_sublist l).count_le '\n'
          · exact Nat.le_refl _
        simp only [List.map_cons, unlines_cons, List.count_append, List.count_cons] at ih ⊢
        omega
  rw [text, segment, lines, unlines_append, List.count_append, List.count_append, hlast]
  simp only [unlines_cons, unlines_nil, List.count_append, List.count_cons, List.count_nil,
    beq_self_eq_true, if_true]
  omega

/-- A frame does not end with an empty line, unless it is one. -/
theorem segment_ne_of_blank (f : Frame) (text : Bytes) :
    f.segment ≠ text ++ ['\n'] ++ ['\n'] := by
  intro hseg
  have hsegment : f.segment = unlines '\n' f.held ++ f.last ++ ['\n'] := by
    simp [segment, lines]
  rw [hsegment] at hseg
  have hlines := List.append_cancel_right hseg
  have hlast : f.last = [] := by
    rcases List.eq_nil_or_concat' f.last with hnil | ⟨q, y, hq⟩
    · exact hnil
    · have hnewline : '\n' ∉ f.last := f.newline_free f.last (by simp)
      rw [hq, ← List.append_assoc] at hlines
      rw [hq, (List.append_inj' hlines rfl).2] at hnewline
      simp at hnewline
  have hheld : f.held.map stripCR ≠ [] := by
    intro hnil
    rw [hlast, List.map_eq_nil_iff.mp hnil] at hlines
    simp at hlines
  have hends := f.ends
  rw [endsHeld, if_neg hheld, hlast] at hends
  exact absurd hends (by decide)

/-- **The frame is the whole text**, when its own text has all the newlines and carriage
returns that were sent. -/
theorem whole_of_counts (f : Frame) {text : Bytes}
    (hbegins : f.segment <+: text ++ ['\n'] ++ ['\n'])
    (hnl : text.count '\n' ≤ f.text.count '\n') (hcr : text.count '\r' ≤ f.text.count '\r') :
    f.text = text ∧ OneWholeFrame text := by
  have hsegment : f.segment = text ++ ['\n'] := by
    obtain ⟨post, hpost⟩ := hbegins
    have hlt := f.count_newline_lt
    have htotal := congrArg (List.count '\n') hpost
    simp only [List.count_append, List.count_cons, List.count_nil, beq_self_eq_true, if_true]
      at htotal
    rcases List.eq_nil_or_concat' post with rfl | ⟨post, y, rfl⟩
    · rw [List.append_nil] at hpost
      exact absurd hpost (f.segment_ne_of_blank text)
    · rw [← List.append_assoc] at hpost
      obtain ⟨hpost, hy⟩ := List.append_inj' hpost rfl
      rcases List.eq_nil_or_concat' post with rfl | ⟨post, z, rfl⟩
      · rwa [List.append_nil] at hpost
      · -- two newlines would be left, one too many
        rw [← List.append_assoc] at hpost
        have hz := (List.append_inj' hpost rfl).2
        rw [hz, hy] at htotal
        simp only [List.count_append, List.count_cons, List.count_nil, beq_self_eq_true, if_true]
          at htotal
        omega
  obtain ⟨hwhole, heq⟩ := f.isWhole_of_count
    (by rw [hsegment, List.count_append]; simpa using hcr)
    (by rw [hsegment, List.count_append]; simpa using hnl)
  exact ⟨List.append_cancel_right (heq.symm.trans hsegment), f.held, f.last,
    by rw [← hsegment]; rfl, hwhole⟩

end Frame

end SporeClient.Client
