/-
  Client/Recovery.lean --- how the loop of `listen` gets out of step with its stream, and
  how it gets back.

  WHAT THIS FILE IS FOR.  A line that opens a block and is never closed takes the lines that
  follow into its frame: `listen` calls no handler until a line ends the block
  (`listen_blocked_iff`).  On the other hand no bytes put `listen` out of step for good:
  after an end of line and a line `>>` it is at a frame boundary whatever it read before
  (`boundary_of_resync`), so what comes then is read as if it were the whole stream, and
  the two lines themselves are worth two calls of each handler at most (`listen_resync`).
-/
import SporeClient.Client.Whole

set_option autoImplicit false

namespace SporeClient.Client

open SporeClient.Foundation
open SporeClient.Parser

/-! ## From a frame boundary -/

/-- At a frame boundary, what is left of the stream is read as if it were all of it. -/
theorem scan_at_boundary {before : Bytes}
    (h : AtFrameBoundary (listenReader.scan ⟨[], {}⟩ before).1) (rest : Bytes) :
    (listenReader.scan ⟨[], {}⟩ (before ++ rest)).2 =
      (listenReader.scan ⟨[], {}⟩ before).2 ++ (listenReader.scan ⟨[], {}⟩ rest).2 := by
  obtain ⟨steps, hrun, _⟩ := listenReader.run_feedAll {} [before]
  have hbuf : listenReader.newline ∉ (⟨[], {}⟩ : Reading Char FrameState).buf := by simp
  rw [listenReader.feedAll_eq_scan hbuf, List.flatten_singleton] at hrun
  have halike := alike_of_boundary (run_inv hrun) h
  rw [listenReader.scan_append]
  refine congrArg ((listenReader.scan ⟨[], {}⟩ before).2 ++ ·) ?_
  -- at a boundary the state is all there is
  generalize (listenReader.scan ⟨[], {}⟩ before).1 = s at h halike
  obtain ⟨buf, state⟩ := s
  obtain rfl : buf = [] := h.buf_nil
  exact scan_alike halike [] rest

/-! ## Held up -/

/-- A line that ends a block: its first word is `>>` and it opens no block. -/
def endsBlock (currentLine : Bytes) : Bool :=
  isClose currentLine && (find openMark currentLine).isNone

/-- In a block, a line either ends it or is held. -/
theorem onLine_inBlock {s : FrameState} (h : s.multiline = true) (l : Bytes) :
    (endsBlock (stripCR l) = false → ∃ line, onLine s l = s.hold l line) ∧
      (endsBlock (stripCR l) = true → ∃ line, line ≠ [] ∧ onLine s l = s.finish l line) := by
  rw [onLine_block h]
  by_cases hclose : isClose (stripCR l) = true
  · rw [if_pos hclose]
    cases hopen : find openMark (stripCR l) with
    | none =>
        refine ⟨by simp [endsBlock, hclose, hopen], fun _ => ⟨_, ?_, rfl⟩⟩
        intro hnil
        rw [(List.append_eq_nil_iff.mp hnil).2] at hclose
        exact absurd hclose (by decide)
    | some n => exact ⟨fun _ => ⟨_, rfl⟩, by simp [endsBlock, hopen]⟩
  · rw [if_neg hclose]
    exact ⟨fun _ => ⟨_, rfl⟩, by simp [endsBlock, hclose]⟩

/-- The first of several lines. -/
theorem scan_unlines_cons (s : FrameState) {l : Bytes} (hl : '\n' ∉ l) (lines : List Bytes) :
    (listenReader.scan ⟨[], s⟩ (unlines '\n' (l :: lines))).2 =
      (onLine s l).2.toList ++
        (listenReader.scan ⟨[], (onLine s l).1⟩ (unlines '\n' lines)).2 := by
  rw [unlines_cons]
  exact congrArg Prod.snd (listenReader.scan_line ⟨[], s⟩ (unlines '\n' lines) hl)

/-- **In a block, lines have no event until one of them ends it.** -/
theorem scan_block_iff {lines : List Bytes} (hlines : ∀ l ∈ lines, '\n' ∉ l) {s : FrameState}
    (h : s.multiline = true) :
    (listenReader.scan ⟨[], s⟩ (unlines '\n' lines)).2.filterMap Released.event = [] ↔
      ∀ l ∈ lines, endsBlock (stripCR l) = false := by
  induction lines generalizing s with
  | nil => simp
  | cons l lines ih =>
      rw [List.forall_mem_cons] at hlines ⊢
      rw [scan_unlines_cons s hlines.1, List.filterMap_append, List.append_eq_nil_iff]
      cases hends : endsBlock (stripCR l) with
      | false =>
          obtain ⟨line, hhold⟩ := (onLine_inBlock h l).1 hends
          have hheld : (onLine s l).1.multiline = true := by rw [hhold]; rfl
          rw [ih hlines.2 hheld, hhold]
          simp [FrameState.hold]
      | true =>
          -- the frame that ends here is not a blank line
          obtain ⟨line, hne, hfinish⟩ := (onLine_inBlock h l).2 hends
          obtain ⟨e, he⟩ := Option.isSome_iff_exists.mp
            (dispatch_isSome (s.rawLine ++ l ++ ['\n']) line)
          rw [hfinish, FrameState.finish_out, if_neg hne, he]
          simp

/-- **An open block holds `listen` up.**  After a frame boundary and a line that opens a
block, the lines that follow have no call if and only if none of them ends the block. -/
theorem ClientState.listen_blocked_iff {c : ClientState} (hc : c.connected = true)
    (hhandlers : ∀ e, c.handlers.invoke e ≠ []) {opening : Bytes} {lines : List Bytes}
    (hopening : '\n' ∉ opening) (hlines : ∀ l ∈ lines, '\n' ∉ l)
    (hopens : opensBlock (stripCR opening) = true) {reads₁ reads : List Chunk}
    (hboundary : AtFrameBoundary (readingOf reads₁))
    (hreads : (reads.map Chunk.bytes).flatten =
      (reads₁.map Chunk.bytes).flatten ++ unlines '\n' (opening :: lines)) :
    (c.listen reads).2 = (c.listen reads₁).2 ↔
      ∀ l ∈ lines, endsBlock (stripCR l) = false := by
  have hbuf : listenReader.newline ∉ (⟨[], {}⟩ : Reading Char FrameState).buf := by simp
  rw [readingOf, listenReader.feedAll_eq_scan hbuf] at hboundary
  have hopened : onLine {} opening =
      FrameState.hold {} opening (stripCR opening ++ ['\n']) := by
    rw [onLine_first rfl, if_pos hopens]
  have hcalls : ∀ es : List Event, es.flatMap c.handlers.invoke = [] ↔ es = [] := by
    intro es
    rw [List.flatMap_eq_nil_iff, List.eq_nil_iff_forall_not_mem]
    exact forall₂_congr fun e _ => iff_of_false (hhandlers e) id
  simp only [listen, hc, if_true, eventsOf_eq_scan, hreads, scan_at_boundary hboundary,
    List.filterMap_append, List.flatMap_append, List.append_right_eq_self, hcalls]
  have hblock : (FrameState.hold {} opening (stripCR opening ++ ['\n'])).1.multiline = true := rfl
  rw [scan_unlines_cons _ hopening, hopened, ← scan_block_iff hlines hblock]
  simp [FrameState.hold]

/-- A request behind the opening of a block has no call, and the end of the block has one. -/
theorem ClientState.listen_blocked_iff_two :
    let held : Chunk :=
      ⟨['c', ' ', 'b', '=', '<', '<', '\n', 'c', ' ', '~', 'h', '\n'], by decide, by decide⟩
    let ending : Chunk := ⟨['>', '>', '\n'], by decide, by decide⟩
    (oneOfEach.listen [held]).2 = (oneOfEach.listen []).2 ∧
      (oneOfEach.listen [held, ending]).2 ≠ (oneOfEach.listen []).2 := by
  intro held ending
  have hhandlers : ∀ e, oneOfEach.handlers.invoke e ≠ [] := fun e => by
    cases e <;> simp [oneOfEach, Handlers.invoke, Handlers.forEvent]
  have hopening : '\n' ∉ ['c', ' ', 'b', '=', '<', '<'] := by decide
  have hboundary : AtFrameBoundary (readingOf []) := ⟨rfl, rfl⟩
  have hheld : ∀ l ∈ [['c', ' ', '~', 'h']], '\n' ∉ l := by decide
  have hending : ∀ l ∈ [['c', ' ', '~', 'h'], ['>', '>']], '\n' ∉ l := by decide
  exact ⟨(ClientState.listen_blocked_iff rfl hhandlers hopening hheld (by decide) hboundary
      (by decide)).mpr (by decide),
    (ClientState.listen_blocked_iff rfl hhandlers hopening hending (by decide) hboundary
      (by decide)).not.mpr (by decide)⟩

/-! ## Back in step -/

/-- An end of line, and a line that ends a block and opens none. -/
def resync : Bytes := '\n' :: closeMark ++ ['\n']

/-- After a line `>>` no block is open. -/
theorem onLine_closeMark (s : FrameState) : (onLine s closeMark).1.multiline = false := by
  cases hm : s.multiline with
  | false =>
      rw [onLine_first hm, if_neg (by decide)]
      exact endFrame_multiline _
  | true =>
      rw [onLine_block hm, if_pos (by decide), if_neg (by decide)]
      exact endFrame_multiline _

/-- The two lines: what is in the buffer is a line, and `>>` is another one. -/
theorem scan_resync (s : Reading Char FrameState) :
    listenReader.scan s resync =
      (⟨[], (onLine (onLine s.state s.buf).1 closeMark).1⟩,
        (onLine s.state s.buf).2.toList ++
          (onLine (onLine s.state s.buf).1 closeMark).2.toList) := by
  have hline : closeMark = [] ++ closeMark := rfl
  have hfirst : resync = [] ++ listenReader.newline :: (closeMark ++ listenReader.newline :: []) :=
    rfl
  rw [hfirst, listenReader.scan_line s _ List.not_mem_nil, List.append_nil,
    listenReader.scan_line _ [] (by decide), List.nil_append]
  simp [listenReader]

/-- **Any bytes, and then these two lines, end at a frame boundary.** -/
theorem boundary_of_resync (s : Reading Char FrameState) :
    AtFrameBoundary (listenReader.scan s resync).1 := by
  rw [scan_resync]
  exact ⟨rfl, onLine_closeMark _⟩

/-- **Two lines bring `listen` back.**  Whatever bytes came before, after an end of line and
a line `>>` it makes the calls it would make on the rest of the stream alone; the two lines
add the calls of at most two events. -/
theorem ClientState.listen_resync {c : ClientState} (hc : c.connected = true)
    {before rest : Bytes} {reads₁ reads₂ reads : List Chunk}
    (hbefore : (reads₁.map Chunk.bytes).flatten = before)
    (hrest : (reads₂.map Chunk.bytes).flatten = rest)
    (hreads : (reads.map Chunk.bytes).flatten = before ++ resync ++ rest) :
    ∃ between : List Event, between.length ≤ 2 ∧
      (c.listen reads).2 =
        (c.listen reads₁).2 ++ between.flatMap c.handlers.invoke ++ (c.listen reads₂).2 := by
  obtain ⟨s, out, hscan⟩ : ∃ s out, listenReader.scan ⟨[], {}⟩ before = (s, out) := ⟨_, _, rfl⟩
  have hboundary : AtFrameBoundary (listenReader.scan ⟨[], {}⟩ (before ++ resync)).1 := by
    rw [listenReader.scan_append]
    exact boundary_of_resync _
  have htwo : (listenReader.scan ⟨[], {}⟩ (before ++ resync)).2 =
      out ++ (listenReader.scan s resync).2 := by
    rw [listenReader.scan_append, hscan]
  refine ⟨(listenReader.scan s resync).2.filterMap Released.event, ?_, ?_⟩
  · rw [scan_resync]
    refine (List.length_filterMap_le _ _).trans ?_
    rw [List.length_append]
    exact Nat.add_le_add Option.length_toList_le Option.length_toList_le
  · simp only [listen, hc, if_true, eventsOf_eq_scan, hreads, hbefore, hrest,
      scan_at_boundary hboundary, htwo, hscan, List.filterMap_append, List.flatMap_append]

/-- Half a block, then a request. -/
theorem ClientState.listen_resync_block :
    ∃ between : List Event, between.length ≤ 2 ∧
      (oneOfEach.listen [⟨['c', ' ', 'b', '=', '<', '<', '\n', 'x'], by decide, by decide⟩,
        ⟨['\n', '>', '>', '\n', 'c', ' ', '~', 'h', '\n'], by decide, by decide⟩]).2 =
      (oneOfEach.listen [⟨['c', ' ', 'b', '=', '<', '<', '\n', 'x'], by decide, by decide⟩]).2 ++
        between.flatMap oneOfEach.handlers.invoke ++
        (oneOfEach.listen [⟨['c', ' ', '~', 'h', '\n'], by decide, by decide⟩]).2 :=
  ClientState.listen_resync rfl rfl rfl (by decide)

end SporeClient.Client
