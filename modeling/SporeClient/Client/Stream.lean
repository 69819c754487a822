/-
  Client/Stream.lean --- what `Client::listen` does with the stream as a whole.

  Three results, about every stream.  Where the reads cut it does not matter
  (`ClientState.listen_congr`).  Its bytes are divided among the frames and blank lines
  without gap or overlap (`raw_segments_tile`).  What was read before a frame boundary has
  no influence on what comes after it (`ClientState.listen_append`).

  The last two rest on invariants of the variables of the loop: outside a frame of
  several lines `rawLine` is empty, inside one it ends with a newline; and what `onLine`
  does outside such a frame does not depend on the old `line`, `parser` and `msg`.
-/
import SporeClient.Client.Objects

set_option autoImplicit false

namespace SporeClient.Client

open SporeClient.Foundation
open SporeClient.Parser
open SporeClient.Wire

/-! ## Read boundaries -/

/-- The events depend on the bytes the reads returned in all. -/
theorem eventsOf_eq_scan (reads : List Bytes) :
    eventsOf reads = (listenReader.scan ⟨[], {}⟩ reads.flatten).2.filterMap Released.event := by
  have hbuf : listenReader.newline ∉ (⟨[], {}⟩ : Reading Char FrameState).buf := by simp
  rw [eventsOf, releasedOf, listenReader.feedAll_eq_scan hbuf]

/-- **Read boundaries are invisible.** -/
theorem ClientState.listen_congr (c : ClientState) {a b : List Chunk}
    (h : (a.map Chunk.bytes).flatten = (b.map Chunk.bytes).flatten) :
    c.listen a = c.listen b := by
  have hevents : eventsOf (a.map Chunk.bytes) = eventsOf (b.map Chunk.bytes) := by
    rw [eventsOf_eq_scan, eventsOf_eq_scan, h]
  simp only [listen, hevents]

/-- A cut inside a `\r\n`, with one handler of every kind. -/
theorem ClientState.listen_congr_crlf :
    let c : ClientState := { connected := true, handlers := ⟨[1], [2], [3], [4], [5]⟩ }
    c.listen [⟨['c', ' ', '~', 'h', '\r', '\n'], by decide, by decide⟩] =
      c.listen [⟨['c', ' ', '~', 'h', '\r'], by decide, by decide⟩,
        ⟨['\n'], by decide, by decide⟩] :=
  ClientState.listen_congr _ (by decide)

/-! ## One line -/

/-- Go on with the frame: the bytes `l` of the line are kept, `line` is its text so far. -/
def FrameState.hold (s : FrameState) (l line : Bytes) : FrameState × Option Released :=
  ({ s with line := line, rawLine := s.rawLine ++ l ++ ['\n'], multiline := true }, none)

/-- End the frame, or the blank line, whose text is `line`. -/
def FrameState.finish (s : FrameState) (l line : Bytes) : FrameState × Option Released :=
  endFrame { s with line := line, rawLine := s.rawLine ++ l ++ ['\n'] }

/-- Outside a frame of several lines, a line opens one or is a frame of its own. -/
theorem onLine_first {s : FrameState} (h : s.multiline = false) (l : Bytes) :
    onLine s l =
      if opensBlock (stripCR l) then s.hold l (stripCR l ++ ['\n'])
      else s.finish l (stripCR l) := by
  simp only [onLine, h, onFirstLine, FrameState.hold, FrameState.finish]
  rfl

/-- Inside a frame of several lines, a line ends it when its first word is `>>` and it has
no `<<`. -/
theorem onLine_block {s : FrameState} (h : s.multiline = true) (l : Bytes) :
    onLine s l =
      if isClose (stripCR l) then
        if (find openMark (stripCR l)).isSome then s.hold l (s.line ++ stripCR l)
        else s.finish l (s.line ++ stripCR l)
      else s.hold l (s.line ++ stripCR l ++ ['\n']) := by
  simp only [onLine, h, onBlockLine, FrameState.hold, FrameState.finish]
  rfl

/-- Every line is held or ends a frame. -/
theorem onLine_cases (s : FrameState) (l : Bytes) :
    (∃ line, onLine s l = s.hold l line) ∨
      ∃ line, onLine s l = s.finish l line ∧
        (s.multiline = false → line = stripCR l) ∧ (s.multiline = true → line ≠ []) := by
  cases hm : s.multiline with
  | false =>
      rw [onLine_first hm]
      split
      · exact Or.inl ⟨_, rfl⟩
      · exact Or.inr ⟨_, rfl, fun _ => rfl, by simp⟩
  | true =>
      rw [onLine_block hm]
      split
      · rename_i hclose
        split
        · exact Or.inl ⟨_, rfl⟩
        · refine Or.inr ⟨_, rfl, by simp, fun _ hnil => ?_⟩
          -- a closing line is not empty
          rw [(List.append_eq_nil_iff.mp hnil).2] at hclose
          simp [isClose, closeMark] at hclose
      · exact Or.inl ⟨_, rfl⟩

@[simp] theorem endFrame_multiline (s : FrameState) : (endFrame s).1.multiline = false := by
  unfold endFrame
  split <;> rfl

@[simp] theorem endFrame_rawLine (s : FrameState) : (endFrame s).1.rawLine = [] := by
  unfold endFrame
  split <;> rfl

/-- The end of a frame releases the bytes of the frame; a blank line has no callback. -/
theorem FrameState.finish_out (s : FrameState) (l line : Bytes) :
    (s.finish l line).2 =
      some ⟨s.rawLine ++ l ++ ['\n'],
        if line = [] then none else dispatch (s.rawLine ++ l ++ ['\n']) line⟩ := by
  simp only [finish, endFrame]
  by_cases h : line = []
  · simp [h]
  · simp [h]

/-! ## Raw segments -/

/-- The invariant of `rawLine`: it is empty outside a frame of several lines, and holds
whole lines inside one. -/
structure FrameState.Inv (s : FrameState) : Prop where
  clear : s.multiline = false → s.rawLine = []
  held : s.multiline = true → '\n' ∈ s.rawLine

theorem FrameState.inv_start : FrameState.Inv {} := ⟨fun _ => rfl, by simp⟩

/-- Every line establishes the invariant. -/
theorem onLine_inv (s : FrameState) (l : Bytes) : (onLine s l).1.Inv := by
  rcases onLine_cases s l with ⟨line, h⟩ | ⟨line, h, _⟩
  · rw [h]
    exact ⟨by simp [FrameState.hold], by simp [FrameState.hold]⟩
  · rw [h]
    exact ⟨by simp [FrameState.finish], by simp [FrameState.finish]⟩

/-- The bytes of a line are released with those held before it, or held with them. -/
theorem onLine_bytes (s : FrameState) (l : Bytes) :
    s.rawLine ++ l ++ ['\n'] =
      ((onLine s l).2.toList.map Released.segment).flatten ++ (onLine s l).1.rawLine := by
  rcases onLine_cases s l with ⟨line, h⟩ | ⟨line, h, _⟩
  · rw [h]
    simp [FrameState.hold]
  · rw [h, FrameState.finish_out]
    simp [FrameState.finish]

/-- What a released segment is: it ends with a newline, it is what `getRaw` of its message
returns, and it is a blank line exactly when it has no callback. -/
structure Released.WellFormed (r : Released) : Prop where
  ends_line : r.segment.getLast? = some '\n'
  getRaw_eq : ∀ e raw, r.event = some e → e.getRaw = some raw → raw = r.segment
  blank_iff : r.event = none ↔ r.segment = ['\n'] ∨ r.segment = ['\r', '\n']

theorem stripCR_eq_nil_iff {l : Bytes} : stripCR l = [] ↔ l = [] ∨ l = ['\r'] := by
  unfold stripCR
  split
  · rename_i h
    obtain ⟨l', rfl⟩ := List.getLast?_eq_some_iff.mp h
    simp
  · rename_i h
    refine ⟨Or.inl, fun hl => hl.resolve_right ?_⟩
    rintro rfl
    exact h rfl

/-- What a line releases is a well formed segment. -/
theorem onLine_wellFormed {s : FrameState} {l : Bytes} {r : Released} (hinv : s.Inv)
    (h : (onLine s l).2 = some r) : r.WellFormed := by
  rcases onLine_cases s l with ⟨line, hline⟩ | ⟨line, hline, hfirst, hblock⟩
  · rw [hline] at h
    simp [FrameState.hold] at h
  · rw [hline, FrameState.finish_out] at h
    obtain rfl := Option.some.inj h
    have hnone : (if line = [] then none else dispatch (s.rawLine ++ l ++ ['\n']) line) = none ↔
        line = [] := by
      have hsome := Option.isSome_iff_ne_none.mp (dispatch_isSome (s.rawLine ++ l ++ ['\n']) line)
      by_cases hnil : line = []
      · simp [hnil]
      · simpa [hnil] using hsome
    refine ⟨by simp, ?_, hnone.trans ?_⟩
    · intro e raw he hraw
      simp only at he
      split at he
      · simp at he
      · exact dispatch_getRaw he hraw
    · cases hm : s.multiline with
      | false =>
          have hcr : l ++ ['\n'] = ['\r', '\n'] ↔ l = ['\r'] :=
            show l ++ ['\n'] = ['\r'] ++ ['\n'] ↔ l = ['\r'] from List.append_left_inj _
          simp only [hfirst hm, stripCR_eq_nil_iff, hinv.clear hm, List.nil_append, hcr]
          simp
      | true =>
          -- the segment has a newline before its last one, and `line` is not empty
          obtain ⟨a, b, hraw⟩ := List.append_of_mem (hinv.held hm)
          simp only [hblock hm, hraw, false_iff]
          rintro (heq | heq)
          · have hlen := congrArg List.length heq
            simp only [List.length_append, List.length_cons, List.length_nil] at hlen
            omega
          · have hlen := congrArg List.length heq
            have hb : a = [] ∧ b = [] ∧ l = [] := by
              simp only [List.length_append, List.length_cons, List.length_nil] at hlen
              refine ⟨?_, ?_, ?_⟩ <;> refine List.eq_nil_of_length_eq_zero ?_ <;> omega
            simp [hb.1, hb.2.1, hb.2.2] at heq

/-- One iteration of the inner loop of `listen`. -/
abbrev FrameStep : Type := LineReader.Step Char FrameState Released

/-- The segments released in the iterations of a run, in order. -/
def released (steps : List FrameStep) : List Released := steps.filterMap LineReader.Step.out

theorem run_inv {read : Bytes} {steps : List FrameStep}
    {s : Reading Char FrameState} (h : listenReader.Run {} read steps s) : s.state.Inv :=
  h.invariant FrameState.inv_start fun st l _ _ => onLine_inv st l

theorem released_concat (steps : List FrameStep) (st : FrameStep) :
    released (steps ++ [st]) = released steps ++ st.out.toList := by
  cases h : st.out <;> simp [released, h]

/-- What has been read is the released segments, what the frame holds, and the buffer. -/
theorem run_bytes {read : Bytes} {steps : List FrameStep} {s : Reading Char FrameState}
    (h : listenReader.Run {} read steps s) :
    read = ((released steps).map Released.segment).flatten ++ s.state.rawLine ++ s.buf := by
  induction h with
  | start => rfl
  | piece p _ _ ih => rw [ih]; simp
  | @line read steps s l rest _ hline ih =>
      have hbuf : s.buf = l ++ '\n' :: rest := (splitFirst_eq_some hline).1
      rw [released_concat, ih, hbuf]
      calc ((released steps).map Released.segment).flatten ++ s.state.rawLine ++ (l ++ '\n' :: rest)
          = ((released steps).map Released.segment).flatten ++ (s.state.rawLine ++ l ++ ['\n']) ++
              rest := by simp
        _ = _ := by
            rw [onLine_bytes]
            simp [listenReader]

theorem run_wellFormed {read : Bytes} {steps : List FrameStep} {s : Reading Char FrameState}
    (h : listenReader.Run {} read steps s) : ∀ r ∈ released steps, r.WellFormed := by
  induction h with
  | start => simp [released]
  | piece p _ _ ih => exact ih
  | line hrun _ ih =>
      intro r hr
      rw [released_concat, List.mem_append] at hr
      rcases hr with hr | hr
      · exact ih r hr
      · exact onLine_wellFormed (run_inv hrun) (Option.mem_toList.mp hr)

/-- **Raw frames tile the stream.**  At every iteration of the loop the bytes read so far
are the segments released so far, then `rawLine`, then `buf`; each segment is well formed;
and the calls `listen` makes are those of the segments of its last iteration, in order. -/
theorem raw_segments_tile :
    (∀ (read : Bytes) (steps : List FrameStep) (s : Reading Char FrameState),
      listenReader.Run {} read steps s →
        read = ((released steps).map Released.segment).flatten ++ s.state.rawLine ++ s.buf ∧
          ∀ r ∈ released steps, r.WellFormed) ∧
    ∀ (c : ClientState) (reads : List Chunk), c.connected = true →
      ∃ steps s, listenReader.Run {} (reads.map Chunk.bytes).flatten steps s ∧
        (c.listen reads).2 =
          ((released steps).filterMap Released.event).flatMap c.handlers.invoke := by
  refine ⟨fun _ _ _ h => ⟨run_bytes h, run_wellFormed h⟩, fun c reads hc => ?_⟩
  obtain ⟨steps, hrun, hout⟩ := listenReader.run_feedAll {} (reads.map Chunk.bytes)
  refine ⟨steps, _, hrun, ?_⟩
  simp [ClientState.listen, hc, eventsOf, releasedOf, hout, released]

/-- A blank line, a frame of two lines and half a line: two segments, and what is kept. -/
theorem raw_segments_tile_block :
    let stream : Bytes :=
      ['\n', 'c', ' ', '~', 'h', ' ', 'b', '=', '<', '<', '\n', '>', '>', '\n', 'x']
    (∃ steps s, listenReader.Run {} stream steps s ∧
      stream = ((released steps).map Released.segment).flatten ++ s.state.rawLine ++ s.buf ∧
        ∀ r ∈ released steps, r.WellFormed) ∧
    let c : ClientState := { connected := true, handlers := ⟨[1], [2], [3], [4], [5]⟩ }
    ∃ steps s, listenReader.Run {} stream steps s ∧
      (c.listen [⟨stream, by decide, by decide⟩]).2 =
        ((released steps).filterMap Released.event).flatMap c.handlers.invoke := by
  constructor
  · obtain ⟨steps, hrun, _⟩ := listenReader.run_feedAll {}
      [['\n', 'c', ' ', '~', 'h', ' ', 'b', '=', '<', '<', '\n', '>', '>', '\n', 'x']]
    exact ⟨steps, _, hrun, raw_segments_tile.1 _ _ _ hrun⟩
  · exact raw_segments_tile.2 { connected := true, handlers := ⟨[1], [2], [3], [4], [5]⟩ }
      [⟨['\n', 'c', ' ', '~', 'h', ' ', 'b', '=', '<', '<', '\n', '>', '>', '\n', 'x'], by decide,
        by decide⟩] rfl

/-! ## Frame boundaries -/

/-- No partial line is buffered, and no frame of several lines is open. -/
structure AtFrameBoundary (s : Reading Char FrameState) : Prop where
  buf_nil : s.buf = []
  single : s.state.multiline = false

/-- Two states in which the next line is treated alike: what differs is stale. -/
structure FrameState.Alike (s t : FrameState) : Prop where
  multiline_eq : s.multiline = t.multiline
  rawLine_eq : s.rawLine = t.rawLine
  line_eq : s.multiline = true → s.line = t.line

/-- A line takes like states to like states, and releases the same. -/
theorem onLine_alike {s t : FrameState} (h : s.Alike t) (l : Bytes) :
    (onLine s l).1.Alike (onLine t l).1 ∧ (onLine s l).2 = (onLine t l).2 := by
  have hhold : ∀ line, (s.hold l line).1.Alike (t.hold l line).1 ∧
      (s.hold l line).2 = (t.hold l line).2 := fun line =>
    ⟨⟨rfl, by simp [FrameState.hold, h.rawLine_eq], fun _ => rfl⟩, rfl⟩
  have hfinish : ∀ line, (s.finish l line).1.Alike (t.finish l line).1 ∧
      (s.finish l line).2 = (t.finish l line).2 := fun line =>
    ⟨⟨by simp [FrameState.finish], by simp [FrameState.finish], by simp [FrameState.finish]⟩,
      by simp [FrameState.finish_out, h.rawLine_eq]⟩
  cases hm : s.multiline with
  | false =>
      rw [onLine_first hm, onLine_first (h.multiline_eq ▸ hm)]
      split
      · exact hhold _
      · exact hfinish _
  | true =>
      rw [onLine_block hm, onLine_block (h.multiline_eq ▸ hm), h.line_eq hm]
      split
      · split
        · exact hhold _
        · exact hfinish _
      · exact hhold _

/-- From like states a stream has the same effect. -/
theorem scan_alike {s t : FrameState} (h : s.Alike t) (buf l : Bytes) :
    (listenReader.scan ⟨buf, s⟩ l).2 = (listenReader.scan ⟨buf, t⟩ l).2 := by
  induction l generalizing s t buf with
  | nil => rfl
  | cons c l ih =>
      simp only [LineReader.scan]
      split
      · obtain ⟨halike, hout⟩ := onLine_alike h buf
        exact congrArg₂ (· ++ ·) (congrArg Option.toList hout) (ih halike [])
      · exact ih h _

/-- At a frame boundary the loop is where it started, but for what is stale. -/
theorem alike_of_boundary {s : Reading Char FrameState} (hinv : s.state.Inv)
    (h : AtFrameBoundary s) : s.state.Alike {} :=
  ⟨h.single, hinv.clear h.single, by simp [h.single]⟩

/-- The state of the loop of `listen` after these reads. -/
def readingOf (reads : List Chunk) : Reading Char FrameState :=
  (listenReader.feedAll ⟨[], {}⟩ (reads.map Chunk.bytes)).1

/-- **Frames are independent.**  After a frame boundary `listen` makes the calls it would
make on the rest of the stream alone, however the reads cut the parts and the whole. -/
theorem ClientState.listen_append (c : ClientState) (reads₁ reads₂ reads : List Chunk)
    (hboundary : AtFrameBoundary (readingOf reads₁))
    (hreads : (reads.map Chunk.bytes).flatten =
      (reads₁.map Chunk.bytes).flatten ++ (reads₂.map Chunk.bytes).flatten) :
    (c.listen reads).2 = (c.listen reads₁).2 ++ (c.listen reads₂).2 := by
  obtain ⟨steps, hrun, _⟩ := listenReader.run_feedAll {} (reads₁.map Chunk.bytes)
  have halike : (readingOf reads₁).state.Alike {} := alike_of_boundary (run_inv hrun) hboundary
  have hbuf : listenReader.newline ∉ (⟨[], {}⟩ : Reading Char FrameState).buf := by simp
  have hscan : readingOf reads₁ =
      (listenReader.scan ⟨[], {}⟩ (reads₁.map Chunk.bytes).flatten).1 := by
    rw [readingOf, listenReader.feedAll_eq_scan hbuf]
  have hevents : eventsOf (reads.map Chunk.bytes) =
      eventsOf (reads₁.map Chunk.bytes) ++ eventsOf (reads₂.map Chunk.bytes) := by
    rw [eventsOf_eq_scan, eventsOf_eq_scan, eventsOf_eq_scan, hreads, listenReader.scan_append,
      List.filterMap_append, ← hscan]
    have hstart : readingOf reads₁ = ⟨[], (readingOf reads₁).state⟩ := by
      rw [← hboundary.buf_nil]
    rw [hstart, scan_alike halike]
  cases hc : c.connected <;> simp [listen, hc, hevents]

/-- A malformed frame that ends at the cut, then a request. -/
theorem ClientState.listen_append_malformed :
    let c : ClientState := { connected := true, handlers := ⟨[1], [2], [3], [4], [5]⟩ }
    let first : Chunk := ⟨['c', '\n'], by decide, by decide⟩
    let second : Chunk := ⟨['c', ' ', '~', 'h', '\n'], by decide, by decide⟩
    (c.listen [first, second]).2 = (c.listen [first]).2 ++ (c.listen [second]).2 :=
  ClientState.listen_append _ _ _ _ ⟨by decide, by decide⟩ rfl

end SporeClient.Client
