/-
  Client/Frames.lean --- the frames a stream is made of.

  WHAT THIS FILE IS FOR.  A `Frame` is the lines that `listen` puts together before it
  dispatches: lines after which it goes on, and one at which it stops.  A blank line is a
  frame too, one without text.  Every stream is frames, lines of a frame that is not
  finished, and a part of a line, and `listen` makes the calls of its frames
  (`listen_frames`); a stream of whole frames is read as these frames
  (`listen_of_frames`).

  The text of a frame that is dispatched and its bytes as `parseRaw` sees them differ in
  one place: behind a line that closes a block and opens another, `listen` has no newline.
-/
import SporeClient.Client.Stream
import SporeClient.Foundation.Lines

set_option autoImplicit false

namespace SporeClient.Client

open SporeClient.Foundation
open SporeClient.Parser
open SporeClient.Wire

/-! ## Lines of a frame -/

/-- Inside a frame of several lines, `listen` goes on after this line. -/
def goesOn (currentLine : Bytes) : Bool :=
  !isClose currentLine || (find openMark currentLine).isSome

/-- Lines that `listen` holds back, when the first of them is the first of a frame. -/
def isHeld : List Bytes → Bool
  | [] => true
  | first :: rest => opensBlock first && rest.all goesOn

/-- The frame ends at this line, when these are held back. -/
def endsHeld (held : List Bytes) (currentLine : Bytes) : Bool :=
  if held = [] then !opensBlock currentLine else !goesOn currentLine

/-- What a line inside a frame adds to `line`. -/
def heldLine (currentLine : Bytes) : Bytes :=
  if isClose currentLine then currentLine else currentLine ++ ['\n']

theorem heldLine_close {l : Bytes} (h : isClose l = true) : heldLine l = l := if_pos h

theorem heldLine_body {l : Bytes} (h : ¬isClose l = true) : heldLine l = l ++ ['\n'] := if_neg h

/-- What `line` is when these lines are held back. -/
def heldText : List Bytes → Bytes
  | [] => []
  | first :: rest => first ++ '\n' :: rest.flatMap heldLine

theorem isHeld_append {held : List Bytes} {l : Bytes} :
    isHeld (held ++ [l]) = true ↔ isHeld held = true ∧ endsHeld held l = false := by
  cases held with
  | nil => simp [isHeld, endsHeld]
  | cons first rest => simp [isHeld, endsHeld, and_assoc]

theorem heldText_append {held : List Bytes} (h : held ≠ []) (l : Bytes) :
    heldText (held ++ [l]) = heldText held ++ heldLine l := by
  cases held with
  | nil => exact absurd rfl h
  | cons first rest => simp [heldText]

/-- Nothing is added to the lines that are held back. -/
theorem heldText_sublist (ls : List Bytes) : (heldText ls).Sublist (unlines '\n' ls) := by
  have hrest : ∀ ls : List Bytes, (ls.flatMap heldLine).Sublist (unlines '\n' ls) := by
    intro ls
    induction ls with
    | nil => exact List.Sublist.refl []
    | cons l ls ih =>
        have hl : (heldLine l).Sublist (l ++ ['\n']) := by
          unfold heldLine
          split
          · exact List.sublist_append_left l ['\n']
          · exact List.Sublist.refl _
        simpa using hl.append ih
  cases ls with
  | nil => exact List.Sublist.refl []
  | cons first rest =>
      rw [heldText, unlines_cons]
      exact (List.Sublist.refl first).append ((hrest rest).cons_cons '\n')

/-- **Nothing is lost** when no line closes a block. -/
theorem heldText_eq_unlines {ls : List Bytes} (h : ∀ l ∈ ls.tail, ¬isClose l = true) :
    heldText ls = unlines '\n' ls := by
  have hrest : ∀ ls : List Bytes, (∀ l ∈ ls, ¬isClose l = true) →
      ls.flatMap heldLine = unlines '\n' ls := by
    intro ls
    induction ls with
    | nil => exact fun _ => rfl
    | cons l ls ih =>
        intro hls
        rw [List.flatMap_cons, heldLine_body (hls l List.mem_cons_self),
          ih fun a ha => hls a (List.mem_cons_of_mem _ ha)]
        simp
  cases ls with
  | nil => rfl
  | cons first rest => rw [heldText, hrest rest h, unlines_cons]

/-- Every line that closes a block loses its newline. -/
theorem not_isClose_of_count {ls : List Bytes}
    (h : (unlines '\n' ls).count '\n' ≤ (heldText ls).count '\n') :
    ∀ l ∈ ls.tail, ¬isClose l = true := by
  have hcount : ∀ ls : List Bytes, (ls.flatMap heldLine).count '\n' +
      (ls.countP fun l => isClose l) = (unlines '\n' ls).count '\n' := by
    intro ls
    induction ls with
    | nil => rfl
    | cons l ls ih =>
        rw [List.flatMap_cons, List.count_append, List.countP_cons, unlines_cons, List.count_append,
          List.count_cons, ← ih]
        cases hclose : isClose l with
        | true =>
            rw [heldLine_close hclose]
            simp
            omega
        | false =>
            rw [heldLine_body (by simp [hclose]), List.count_append]
            simp
            omega
  cases ls with
  | nil => simp
  | cons first rest =>
      rw [heldText, unlines_cons, List.count_append, List.count_append, List.count_cons,
        List.count_cons, ← hcount rest] at h
      have hzero : (rest.countP fun l => isClose l) = 0 := by omega
      intro l hl
      exact List.countP_eq_zero.mp hzero l hl

/-! ## Frames -/

/-- The lines of one frame: those held back, and the one at which it ends. -/
structure Frame where
  held : List Bytes
  last : Bytes
  newline_free : ∀ l ∈ held ++ [last], '\n' ∉ l
  goes_on : isHeld (held.map stripCR) = true
  ends : endsHeld (held.map stripCR) (stripCR last) = true

namespace Frame

/-- All lines of a frame. -/
def lines (f : Frame) : List Bytes := f.held ++ [f.last]

/-- The bytes of a frame. -/
def segment (f : Frame) : Bytes := unlines '\n' f.lines

/-- The text of a frame, as `listen` puts it together. -/
def text (f : Frame) : Bytes := heldText (f.held.map stripCR) ++ stripCR f.last

/-- The callback of a frame; a frame without text has none. -/
def event (f : Frame) : Option Event :=
  if f.text = [] then none else dispatch f.segment f.text

/-- What `listen` is done with at the end of a frame. -/
def released (f : Frame) : Released := ⟨f.segment, f.event⟩

/-- A frame whose text is accepted delivers what is parsed from the text. -/
theorem event_of_text {f : Frame} {type : MessageType} (h : Accepts f.text type) :
    f.event = deliver f.segment type (parseNew f.text).2 := by
  have hne : f.text ≠ [] := by
    intro hnil
    rw [hnil] at h
    exact absurd h.1 (by decide)
  have hok : (parseAndValidate f.text).1.hasError = false := h.1
  rw [event, if_neg hne, dispatch]
  simp only [hok, h.2]
  rfl

/-- A message is delivered for an accepted text. -/
theorem deliver_of_event {f : Frame} {e : Event} (h : f.event = some e) (hraw : e.getRaw ≠ none) :
    ∃ type, Accepts f.text type ∧ deliver f.segment type (parseNew f.text).2 = some e := by
  have hne : f.text ≠ [] := by
    intro hnil
    simp [event, hnil] at h
  have haccepted : IsAccepted f.text := by
    rw [event, if_neg hne, dispatch] at h
    cases herr : (parseAndValidate f.text).1.hasError with
    | false => exact herr
    | true =>
        simp only [herr, if_true, Option.some.injEq] at h
        rw [← h] at hraw
        exact absurd rfl hraw
  have haccepts : Accepts f.text (parseAndValidate f.text).1.type := ⟨haccepted, rfl⟩
  exact ⟨_, haccepts, by rw [← event_of_text haccepts, h]⟩

/-- The bytes of frames are their lines. -/
theorem flatMap_segment (fs : List Frame) :
    fs.flatMap segment = unlines '\n' (fs.flatMap lines) := by
  induction fs with
  | nil => rfl
  | cons f fs ih => rw [List.flatMap_cons, ih, List.flatMap_cons, unlines_append]; rfl

end Frame

/-- A blank line. -/
def blankFrame : Frame := ⟨[], [], by decide, by decide, by decide⟩

/-! ## What is held back -/

/-- `listen` has read these lines of a frame and nothing more. -/
structure FrameState.Holds (s : FrameState) (held : List Bytes) : Prop where
  multiline : s.multiline = !held.isEmpty
  rawLine : s.rawLine = unlines '\n' held
  line : held ≠ [] → s.line = heldText (held.map stripCR)
  goes_on : isHeld (held.map stripCR) = true

theorem FrameState.holds_start : FrameState.Holds {} [] := ⟨rfl, rfl, by simp, rfl⟩

theorem FrameState.holds_finish (s : FrameState) (l line : Bytes) : (s.finish l line).1.Holds [] :=
  ⟨by simp [finish], by simp [finish], by simp, rfl⟩

variable {s : FrameState} {held : List Bytes} {l : Bytes}

/-- What a line does, given the lines held back: it ends the frame or is held back too. -/
theorem FrameState.Holds.onLine_eq (h : s.Holds held) (l : Bytes) :
    onLine s l =
      if endsHeld (held.map stripCR) (stripCR l) then
        s.finish l (heldText (held.map stripCR) ++ stripCR l)
      else s.hold l (heldText ((held ++ [l]).map stripCR)) := by
  cases held with
  | nil =>
      rw [onLine_first (by simp [h.multiline])]
      cases hopen : opensBlock (stripCR l) <;> simp [endsHeld, hopen, heldText]
  | cons first rest =>
      have hline : s.line = heldText ((first :: rest).map stripCR) := h.line (by simp)
      have hheld : (first :: rest).map stripCR ≠ [] := by simp
      rw [onLine_block (by simp [h.multiline]), hline, List.map_append, List.map_cons (l := []),
        List.map_nil, heldText_append hheld, heldLine]
      cases hclose : isClose (stripCR l) with
      | false => simp [endsHeld, goesOn, hclose]
      | true =>
          cases hopen : (find openMark (stripCR l)).isSome <;>
            simp [endsHeld, goesOn, hclose, hopen]

/-- A line that does not end the frame is held back. -/
theorem FrameState.Holds.onLine_held (h : s.Holds held)
    (hl : endsHeld (held.map stripCR) (stripCR l) = false) :
    (onLine s l).2 = none ∧ (onLine s l).1.Holds (held ++ [l]) := by
  rw [h.onLine_eq, hl]
  refine ⟨rfl, ?_⟩
  constructor
  · simp [FrameState.hold]
  · simp [FrameState.hold, h.rawLine]
  · exact fun _ => rfl
  · rw [List.map_append]
    exact isHeld_append.mpr ⟨h.goes_on, hl⟩

/-- The last line of a frame releases it. -/
theorem FrameState.Holds.onLine_last {f : Frame} (h : s.Holds f.held) :
    (onLine s f.last).2 = some f.released ∧ (onLine s f.last).1.Holds [] := by
  rw [h.onLine_eq, if_pos f.ends]
  refine ⟨?_, s.holds_finish _ _⟩
  rw [FrameState.finish_out, h.rawLine]
  simp [Frame.released, Frame.segment, Frame.lines, Frame.event, Frame.text]

/-! ## Lines and frames -/

/-- Lines that are all held back. -/
theorem FrameState.Holds.onLines_held (h : s.Holds held) {ls : List Bytes}
    (hls : isHeld ((held ++ ls).map stripCR) = true) :
    (listenReader.onLines s ls).2 = [] ∧ (listenReader.onLines s ls).1.Holds (held ++ ls) := by
  induction ls generalizing s held with
  | nil => exact ⟨rfl, by simpa [LineReader.onLines] using h⟩
  | cons l ls ih =>
      have hassoc : held ++ l :: ls = (held ++ [l]) ++ ls := by simp
      rw [hassoc] at hls ⊢
      have hl : endsHeld (held.map stripCR) (stripCR l) = false := by
        have hprefix : isHeld ((held ++ [l]).map stripCR) = true := by
          rw [List.map_append] at hls
          cases hmap : (held ++ [l]).map stripCR with
          | nil => rfl
          | cons first rest =>
              rw [hmap, List.cons_append, isHeld, Bool.and_eq_true, List.all_append,
                Bool.and_eq_true] at hls
              rw [isHeld, Bool.and_eq_true]
              exact ⟨hls.1, hls.2.1⟩
        rw [List.map_append] at hprefix
        exact (isHeld_append.mp hprefix).2
      obtain ⟨hnone, hholds⟩ := h.onLine_held hl
      obtain ⟨hout, hend⟩ := ih hholds hls
      have hlisten : listenReader.onLine s l = onLine s l := rfl
      simp only [LineReader.onLines, hlisten, hnone, hout]
      exact ⟨rfl, hend⟩

/-- **The lines of a frame release it.** -/
theorem onLines_frame (h : s.Holds []) (f : Frame) :
    (listenReader.onLines s f.lines).2 = [f.released] ∧
      (listenReader.onLines s f.lines).1.Holds [] := by
  have hgoes : isHeld (([] ++ f.held).map stripCR) = true := f.goes_on
  obtain ⟨hout, hholds⟩ := h.onLines_held hgoes
  rw [List.nil_append] at hholds
  obtain ⟨hlast, hend⟩ := hholds.onLine_last
  have hlisten : ∀ s, listenReader.onLine s f.last = onLine s f.last := fun _ => rfl
  rw [Frame.lines, LineReader.onLines_append, hout]
  simp only [LineReader.onLines, hlisten, hlast]
  exact ⟨rfl, hend⟩

/-- **Every list of lines is frames and lines that are held back.** -/
theorem FrameState.Holds.onLines_frames (h : s.Holds held) (hheld : ∀ l ∈ held, '\n' ∉ l)
    {ls : List Bytes} (hls : ∀ l ∈ ls, '\n' ∉ l) :
    ∃ (fs : List Frame) (rest : List Bytes),
      (listenReader.onLines s ls).2 = fs.map Frame.released ∧
        held ++ ls = fs.flatMap Frame.lines ++ rest ∧
        (listenReader.onLines s ls).1.Holds rest := by
  induction ls generalizing s held with
  | nil => exact ⟨[], held, rfl, by simp, h⟩
  | cons l ls ih =>
      have hl : '\n' ∉ l := hls l List.mem_cons_self
      have hls' : ∀ a ∈ ls, '\n' ∉ a := fun a ha => hls a (List.mem_cons_of_mem _ ha)
      have hlines : ∀ a ∈ held ++ [l], '\n' ∉ a := by
        intro a ha
        rcases List.mem_append.mp ha with ha | ha
        · exact hheld a ha
        · rwa [List.mem_singleton.mp ha]
      have hlisten : listenReader.onLine s l = onLine s l := rfl
      cases hends : endsHeld (held.map stripCR) (stripCR l) with
      | true =>
          obtain ⟨hout, hend⟩ := FrameState.Holds.onLine_last
            (f := ⟨held, l, hlines, h.goes_on, hends⟩) h
          obtain ⟨fs, rest, hfs, hsplit, hrest⟩ := ih hend (by simp) hls'
          refine ⟨⟨held, l, hlines, h.goes_on, hends⟩ :: fs, rest, ?_, ?_, ?_⟩
          · simp [LineReader.onLines, hlisten, hout, hfs]
          · rw [List.nil_append] at hsplit
            simp [hsplit, Frame.lines]
          · exact hrest
      | false =>
          obtain ⟨hnone, hholds⟩ := h.onLine_held hends
          obtain ⟨fs, rest, hfs, hsplit, hrest⟩ := ih hholds hlines hls'
          refine ⟨fs, rest, ?_, ?_, hrest⟩
          · simp [LineReader.onLines, hlisten, hnone, hfs]
          · simpa using hsplit

/-! ## Streams -/

/-- What is released for a stream that ends in a part of a line. -/
theorem releasedOf_eq {reads : List Bytes} {ls : List Bytes} {tail : Bytes}
    (hls : ∀ l ∈ ls, '\n' ∉ l) (htail : '\n' ∉ tail)
    (hreads : reads.flatten = unlines '\n' ls ++ tail) :
    releasedOf reads = (listenReader.onLines {} ls).2 := by
  have hbuf : listenReader.newline ∉ (⟨[], {}⟩ : Reading Char FrameState).buf := by simp
  rw [releasedOf, listenReader.feedAll_eq_scan hbuf, hreads]
  exact listenReader.scan_out {} hls htail

/-- The calls for a stream whose frames these are. -/
theorem listen_of_released {c : ClientState} (hc : c.connected = true) {reads : List Chunk}
    {fs : List Frame} (h : releasedOf (reads.map Chunk.bytes) = fs.map Frame.released) :
    (c.listen reads).2 = (fs.filterMap Frame.event).flatMap c.handlers.invoke := by
  have hevents : (fs.map Frame.released).filterMap Released.event = fs.filterMap Frame.event := by
    rw [List.filterMap_map]
    rfl
  simp [ClientState.listen, hc, eventsOf, h, hevents]

/-- **Every stream is read as frames**: it is their bytes, whole lines that are held back,
and a part of a line. -/
theorem listen_frames {c : ClientState} (hc : c.connected = true) (reads : List Chunk) :
    ∃ (fs : List Frame) (rest : List Bytes) (tail : Bytes),
      (reads.map Chunk.bytes).flatten = fs.flatMap Frame.segment ++ unlines '\n' rest ++ tail ∧
        isHeld (rest.map stripCR) = true ∧
        (c.listen reads).2 = (fs.filterMap Frame.event).flatMap c.handlers.invoke := by
  obtain ⟨ls, tail, hstream, hls, htail⟩ := exists_unlines '\n' (reads.map Chunk.bytes).flatten
  obtain ⟨fs, rest, hout, hsplit, hrest⟩ :=
    FrameState.holds_start.onLines_frames (by simp) hls
  rw [List.nil_append] at hsplit
  refine ⟨fs, rest, tail, ?_, hrest.goes_on, ?_⟩
  · rw [hstream, hsplit, unlines_append, Frame.flatMap_segment]
  · exact listen_of_released hc (by rw [releasedOf_eq hls htail hstream, hout])

/-- Every call is made for a frame. -/
theorem exists_frame_of_call {c : ClientState} {reads : List Chunk} {call : Callback}
    (h : call ∈ (c.listen reads).2) : ∃ f : Frame, f.event = some call.event := by
  by_cases hc : c.connected = true
  · obtain ⟨fs, _, _, _, _, hcalls⟩ := listen_frames hc reads
    rw [hcalls] at h
    obtain ⟨e, he, hcall⟩ := List.mem_flatMap.mp h
    obtain ⟨f, _, hf⟩ := List.mem_filterMap.mp he
    obtain ⟨_, _, rfl⟩ := List.mem_map.mp hcall
    exact ⟨f, hf⟩
  · simp [ClientState.listen, hc, ClientState.error] at h

/-- **A stream of whole frames is read as these frames.** -/
theorem listen_of_frames {c : ClientState} (hc : c.connected = true) {reads : List Chunk}
    {fs : List Frame} (h : (reads.map Chunk.bytes).flatten = fs.flatMap Frame.segment) :
    (c.listen reads).2 = (fs.filterMap Frame.event).flatMap c.handlers.invoke := by
  have hlines : ∀ (fs : List Frame) (s : FrameState), s.Holds [] →
      (listenReader.onLines s (fs.flatMap Frame.lines)).2 =
        fs.map Frame.released := by
    intro fs
    induction fs with
    | nil => exact fun _ _ => rfl
    | cons f fs ih =>
        intro s hs
        obtain ⟨hout, hend⟩ := onLines_frame hs f
        rw [List.flatMap_cons, LineReader.onLines_append, hout, ih _ hend]
        rfl
  have hnewline : ∀ l ∈ fs.flatMap Frame.lines, '\n' ∉ l := by
    intro l hl
    obtain ⟨f, _, hf⟩ := List.mem_flatMap.mp hl
    exact f.newline_free l hf
  have hstream : (reads.map Chunk.bytes).flatten = unlines '\n' (fs.flatMap Frame.lines) ++ [] := by
    rw [h, Frame.flatMap_segment, List.append_nil]
  apply listen_of_released hc
  rw [releasedOf_eq hnewline (by simp) hstream, hlines fs _ FrameState.holds_start]

end SporeClient.Client
