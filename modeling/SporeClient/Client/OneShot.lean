/-
  Client/OneShot.lean --- what `listen` delivers and what `create_from_raw` makes of the
  same bytes.

  WHAT THIS FILE IS FOR.  The text of a frame and its bytes without carriage returns
  differ by a newline behind each line that closes a block and opens another.  In a tidy
  frame such a line ends right behind the `<<` of an argument, and a body follows that
  does not begin with a newline; then the newline is one `build` takes away, and both ways
  give the same message (`listen_createdFrom`).
-/
import SporeClient.Client.Frames
import SporeClient.Client.Framing
import SporeClient.Wire.Rejoin

set_option autoImplicit false

namespace SporeClient.Client

open SporeClient.Foundation
open SporeClient.Parser
open SporeClient.Wire

/-! ## The bytes of a frame, as `parseRaw` sees them -/

/-- `parseRaw` strips the lines as `listen` does. -/
theorem dropCR_line {l : Bytes} (rest : Bytes) (h : '\n' ∉ l) :
    dropCR (l ++ '\n' :: rest) = stripCR l ++ '\n' :: dropCR rest := by
  induction l with
  | nil => simp [dropCR, stripCR]
  | cons c l ih =>
      have hl : '\n' ∉ l := fun hmem => h (List.mem_cons_of_mem _ hmem)
      rw [List.cons_append, dropCR]
      cases l with
      | nil =>
          by_cases hc : c = '\r'
          · simp [hc, stripCR, dropCR]
          · simp [hc, stripCR, dropCR]
      | cons d l =>
          have hd : d ≠ '\n' := fun heq => hl (heq ▸ List.mem_cons_self)
          have hstrip : stripCR (c :: d :: l) = c :: stripCR (d :: l) := by
            unfold stripCR
            rw [List.getLast?_cons_cons]
            split <;> simp
          have hrest := ih hl
          rw [List.cons_append] at hrest
          rw [hstrip, List.cons_append, List.cons_append, ← hrest]
          simp [hd]

theorem dropCR_unlines {ls : List Bytes} (h : ∀ l ∈ ls, '\n' ∉ l) :
    dropCR (unlines '\n' ls) = unlines '\n' (ls.map stripCR) := by
  induction ls with
  | nil => rfl
  | cons l ls ih =>
      rw [unlines_cons, dropCR_line _ (h l List.mem_cons_self),
        ih fun a ha => h a (List.mem_cons_of_mem _ ha), List.map_cons, unlines_cons]

/-- The bytes of a frame without carriage returns and without the newline at their end. -/
theorem Frame.rawInput_segment (f : Frame) :
    rawInput f.segment = unlines '\n' (f.held.map stripCR) ++ stripCR f.last := by
  have htext : unlines '\n' (f.lines.map stripCR) =
      (unlines '\n' (f.held.map stripCR) ++ stripCR f.last) ++ ['\n'] := by
    simp [Frame.lines]
  have hdrop : dropCR (unlines '\n' f.lines) = unlines '\n' (f.lines.map stripCR) :=
    dropCR_unlines f.newline_free
  rw [rawInput, Frame.segment, hdrop, htext, trimBack, List.getLast?_concat]
  simp

/-! ## Tidy frames -/

/-- The line ends right behind the `<<` of an argument, which stands outside everything;
`front` is what the lexer has read before the line. -/
def Reopens (front currentLine : Bytes) : Prop :=
  ∃ before key, currentLine = before ++ ' ' :: key ++ '=' :: openMark ∧ IsKey key ∧
    Mode.outside.after (front ++ before) none = .outside

/-- The lines held back behind the first one are tidy: each that closes a block opens
another as the value of an argument, and the body of that block is clean. -/
def TidyRest (front : Bytes) : List Bytes → Prop
  | [] => True
  | l :: rest =>
      if isClose l then
        Reopens front l ∧ IsCleanBody (unlines '\n' (rest.takeWhile fun l => !isClose l)) ∧
          TidyRest openMark rest
      else TidyRest (front ++ l ++ ['\n']) rest

/-- The lines held back are tidy. -/
def TidyHeld : List Bytes → Prop
  | [] => True
  | first :: rest => TidyRest (first ++ ['\n']) rest

theorem exists_tail_of_isClose {l : Bytes} (h : isClose l = true) :
    ∃ tail, l = closeMark ++ tail ∧ IsTail tail := by
  rcases (isClose_iff l).mp h with rfl | ⟨rest, rfl⟩
  · exact ⟨[], by simp, Or.inl rfl⟩
  · exact ⟨' ' :: rest, rfl, Or.inr rfl⟩

/-- What is before the argument that a closing line opens begins with the `>>`. -/
theorem Reopens.of_block {x tail : Bytes} (h : Reopens (openMark ++ x) (closeMark ++ tail))
    (hx : ¬closeMark <:+: x ++ ['>']) :
    ∃ before key, tail = before ++ ' ' :: key ++ '=' :: openMark ∧ IsKey key ∧
      Mode.outside.after before none = .outside := by
  obtain ⟨before, key, hline, hkey, hmode⟩ := h
  obtain ⟨before, rfl⟩ : ∃ b, before = closeMark ++ b := by
    cases before with
    | nil => simp [closeMark] at hline
    | cons c before =>
        cases before with
        | nil => simp [closeMark] at hline
        | cons d before =>
            simp only [closeMark, List.cons_append, List.nil_append, List.cons.injEq] at hline
            exact ⟨before, by rw [← hline.1, ← hline.2.1]; rfl⟩
  refine ⟨before, key, by simpa using hline, hkey, ?_⟩
  have hopen : openMark ++ x ++ (closeMark ++ before) =
      '<' :: '<' :: (x ++ closeMark ++ before) := by simp [openMark]
  have hfirst : Mode.outside.step '<' (some '<') = (.block, .keep) := by simp [Mode.step]
  have hsecond : ∀ next, Mode.block.step '<' next = (.block, .keep) := fun _ => by simp [Mode.step]
  rw [hopen, Mode.after_cons, List.head?_cons, Option.some_or, hfirst, Mode.after_cons, hsecond,
    Mode.after_block_close before none hx] at hmode
  exact hmode

/-- **From the `<<` of an argument on**: the block ends at the same place in both texts,
and what follows it is alike. -/
theorem TidyRest.inside {rest : List Bytes} {x last : Bytes} (hlast : isClose last = true)
    (htidy : TidyRest (openMark ++ x) rest)
    (hclean : IsCleanBody (x ++ unlines '\n' (rest.takeWhile fun l => !isClose l))) :
    ∃ body N D, x ++ unlines '\n' rest ++ last = body ++ closeMark ++ N ∧
      x ++ rest.flatMap heldLine ++ last = body ++ closeMark ++ D ∧
      IsCleanBody body ∧ IsTail N ∧ IsTail D ∧ TextAlike N D := by
  induction rest generalizing x with
  | nil =>
      obtain ⟨tail, rfl, htail⟩ := exists_tail_of_isClose hlast
      exact ⟨x, tail, tail, by simp, by simp, by simpa using hclean, htail, htail, .refl tail⟩
  | cons l rest ih =>
      rw [TidyRest] at htidy
      by_cases hclose : isClose l = true
      · -- the block ends here, and another one begins at the end of the line
        rw [if_pos hclose] at htidy
        obtain ⟨hopen, hbody, hrest⟩ := htidy
        obtain ⟨tail, rfl, htail⟩ := exists_tail_of_isClose hclose
        have hx : IsCleanBody x := by simpa [hclose] using hclean
        obtain ⟨before, key, rfl, hkey, hmode⟩ := hopen.of_block hx.no_close
        obtain ⟨body, N, D, hN, hD, hbody, htailN, htailD, halike⟩ :=
          ih (x := []) (by simpa using hrest) (by simpa using hbody)
        rw [List.nil_append] at hN hD
        have hnonempty : ∀ r, IsTail (before ++ ' ' :: key ++ '=' :: openMark ++ r) := by
          intro r
          rcases htail with hnil | hhead
          · simp at hnil
          · obtain ⟨r', hr'⟩ := List.head?_eq_some_iff.mp hhead
            rw [hr']
            exact Or.inr rfl
        refine ⟨x, before ++ ' ' :: key ++ '=' :: openMark ++ ('\n' :: (body ++ closeMark ++ N)),
          before ++ ' ' :: key ++ '=' :: openMark ++ (body ++ closeMark ++ D), ?_, ?_, hx,
          hnonempty _, hnonempty _, ?_⟩
        · rw [← hN]
          simp
        · rw [← hD, List.flatMap_cons, heldLine_close hclose]
          simp
        · obtain ⟨b, b', hb, hb', h⟩ := tokenize_rejoined hmode hkey hbody htailN htailD halike
          have hshape : ∀ r, before ++ ' ' :: key ++ '=' :: openMark ++ r =
              before ++ (' ' :: key ++ '=' :: openMark ++ r) := fun r => by simp
          have hblock : ∀ body r, ' ' :: key ++ '=' :: openMark ++ (body ++ closeMark ++ r) =
              ' ' :: key ++ '=' :: block body ++ r := fun body r => by simp [block]
          have hnewline : '\n' :: (body ++ closeMark ++ N) = ('\n' :: body) ++ closeMark ++ N := rfl
          rw [TextAlike, hshape, hshape, hnewline, hblock, hblock, hb, hb']
          exact alike_append _ h
      · rw [if_neg hclose] at htidy
        have hclean' : IsCleanBody ((x ++ l ++ ['\n']) ++
            unlines '\n' (rest.takeWhile fun l => !isClose l)) := by
          simpa [hclose] using hclean
        obtain ⟨body, N, D, hN, hD, h⟩ := ih (x := x ++ l ++ ['\n']) (by simpa using htidy) hclean'
        refine ⟨body, N, D, ?_, ?_, h⟩
        · rw [← hN]
          simp
        · rw [← hD, List.flatMap_cons, heldLine_body hclose]
          simp

/-- **From the start of a frame on**: both texts are built into the same message. -/
theorem TidyRest.build {rest : List Bytes} {front last : Bytes} (hfront : '<' ∈ front)
    (hlast : isClose last = true) (htidy : TidyRest front rest) (p : ParserState)
    (m : ParsedMessage) :
    build p m (tokenize (front ++ unlines '\n' rest ++ last)) =
      build p m (tokenize (front ++ rest.flatMap heldLine ++ last)) := by
  induction rest generalizing front with
  | nil => simp
  | cons l rest ih =>
      rw [TidyRest] at htidy
      by_cases hclose : isClose l = true
      · rw [if_pos hclose] at htidy
        obtain ⟨⟨before, key, hline, hkey, hmode⟩, hbody, hrest⟩ := htidy
        obtain ⟨body, N, D, hN, hD, hbody, htailN, htailD, halike⟩ :=
          TidyRest.inside (x := []) hlast (by simpa using hrest) (by simpa using hbody)
        rw [List.nil_append] at hN hD
        obtain ⟨b, b', hb, hb', h⟩ := tokenize_rejoined hmode hkey hbody htailN htailD halike
        have hraw : front ++ unlines '\n' (l :: rest) ++ last =
            (front ++ before) ++ (' ' :: key ++ '=' :: block ('\n' :: body) ++ N) := by
          calc front ++ unlines '\n' (l :: rest) ++ last
              = front ++ l ++ '\n' :: (unlines '\n' rest ++ last) := by simp
            _ = _ := by rw [hN, hline]; simp [block]
        have htext : front ++ (l :: rest).flatMap heldLine ++ last =
            (front ++ before) ++ (' ' :: key ++ '=' :: block body ++ D) := by
          calc front ++ (l :: rest).flatMap heldLine ++ last
              = front ++ l ++ (rest.flatMap heldLine ++ last) := by simp [heldLine_close hclose]
            _ = _ := by rw [hD, hline]; simp [block]
        have hcount : 0 < countIn '<' (tokenize (front ++ before)) := by
          rw [count_tokenize rfl rfl, List.count_append]
          exact Nat.add_pos_left (List.count_pos_iff.mpr hfront) _
        rw [hraw, htext, hb, hb', build_alike hcount h]
      · rw [if_neg hclose] at htidy
        have hstep := ih (by simp [hfront]) htidy
        simpa [heldLine_body hclose] using hstep

theorem mem_of_opensBlock {l : Bytes} (h : opensBlock l = true) : '<' ∈ l := by
  have hopen : openMark <:+: l := by
    rw [← hasOpenMark_iff]
    cases hfind : find openMark l with
    | none => simp [opensBlock, hfind] at h
    | some n => rfl
  exact hopen.subset (by simp [openMark])

/-- The text of a tidy frame is built into the message its bytes are built into. -/
theorem Frame.build_segment (f : Frame) (h : TidyHeld (f.held.map stripCR)) (p : ParserState)
    (m : ParsedMessage) :
    build p m (tokenize (rawInput f.segment)) = build p m (tokenize f.text) := by
  have hgoes := f.goes_on
  have hends := f.ends
  rw [f.rawInput_segment, Frame.text]
  cases hheld : f.held.map stripCR with
  | nil => rfl
  | cons first rest =>
      rw [hheld] at h hgoes hends
      rw [isHeld, Bool.and_eq_true] at hgoes
      have hclose : isClose (stripCR f.last) = true := by
        simp only [endsHeld, goesOn, reduceCtorEq, if_false, Bool.not_or, Bool.not_not,
          Bool.and_eq_true] at hends
        exact hends.1
      have htidy : TidyRest (first ++ ['\n']) rest := h
      have hbuild := htidy.build (List.mem_append_left _ (mem_of_opensBlock hgoes.1)) hclose p m
      simpa [heldText] using hbuild

/-! ## Delivered messages -/

/-- The message is the one that the `create_from_raw` of its kind makes of these bytes. -/
def Event.CreatedFrom (raw : Bytes) : Event → Prop
  | .request r => Request.createFromRaw raw = some r
  | .response r => Response.createFromRaw raw = some r
  | .responseError e => ResponseError.createFromRaw raw = some e
  | .witness w => Witness.createFromRaw raw = some w
  | .publish p => Publish.createFromRaw raw = some p
  | .parseError _ _ _ => False

instance (raw : Bytes) (e : Event) : Decidable (e.CreatedFrom raw) := by
  cases e <;> simp only [Event.CreatedFrom] <;> infer_instance

/-- What is delivered for a text is made of any bytes that are built into the same. -/
theorem dispatch_createdFrom {raw text : Bytes} {e : Event} (h : dispatch raw text = some e)
    (hbuild : build {} {} (tokenize (rawInput raw)) = build {} {} (tokenize text))
    (hraw : e.getRaw ≠ none) : e.CreatedFrom raw := by
  have htype : (parseRaw raw).1.type = (parseAndValidate text).1.type := by
    rw [parseRaw, parseAndValidate, validate_type, parseNew_eq, parseNew_eq, hbuild]
  have hmsg : (parseRaw raw).2 = (parseAndValidate text).2 := by
    rw [parseRaw, parseAndValidate, parseNew_eq, parseNew_eq, hbuild]
  simp only [dispatch] at h
  split at h
  · obtain rfl := Option.some.inj h
    exact absurd rfl hraw
  · unfold deliver at h
    split at h
    · rename_i hkind
      obtain rfl := Option.some.inj h
      rw [Event.CreatedFrom, Request.createFromRaw, if_pos (htype.trans hkind), hmsg,
        listenRequest_eq]
    · rename_i hkind
      split at h
      · obtain rfl := Option.some.inj h
        rw [Event.CreatedFrom, ResponseError.createFromRaw, if_pos (htype.trans hkind), hmsg,
          listenResponseError_eq]
      · obtain rfl := Option.some.inj h
        rw [Event.CreatedFrom, Response.createFromRaw, if_pos (htype.trans hkind), hmsg,
          listenResponse_eq]
    · rename_i hkind
      obtain rfl := Option.some.inj h
      rw [Event.CreatedFrom, Witness.createFromRaw, if_pos (htype.trans hkind), hmsg,
        listenWitness_eq]
    · rename_i hkind
      obtain rfl := Option.some.inj h
      rw [Event.CreatedFrom, Publish.createFromRaw, if_pos (htype.trans hkind), hmsg,
        listenPublish_eq]
    · simp at h

/-- The bytes are those of a tidy frame. -/
def TidyRaw (raw : Bytes) : Prop := TidyHeld ((linesOf '\n' raw).dropLast.map stripCR)

theorem Frame.tidyRaw_iff (f : Frame) : TidyRaw f.segment ↔ TidyHeld (f.held.map stripCR) := by
  have hlines : linesOf '\n' f.segment = f.lines := linesOf_unlines f.newline_free
  rw [TidyRaw, hlines, Frame.lines, List.dropLast_concat]

/-- **The streaming path agrees with the one-shot path on tidy frames.**  Whatever the
stream, a message that `listen` delivers from the bytes of a tidy frame is the one that
`create_from_raw` makes of these bytes. -/
theorem listen_createdFrom (c : ClientState) (reads : List Chunk) :
    ∀ call ∈ (c.listen reads).2, ∀ raw, call.event.getRaw = some raw → TidyRaw raw →
      call.event.CreatedFrom raw := by
  intro call hcall raw hraw htidy
  obtain ⟨f, hf⟩ := exists_frame_of_call hcall
  have hdispatch : dispatch f.segment f.text = some call.event := by
    unfold Frame.event at hf
    split at hf
    · simp at hf
    · exact hf
  obtain rfl := dispatch_getRaw hdispatch hraw
  exact dispatch_createdFrom hdispatch (f.build_segment (f.tidyRaw_iff.mp htidy) {} {})
    (by simp [hraw])

/-- A client with one handler of every kind. -/
def oneOfEach : ClientState := { connected := true, handlers := ⟨[1], [2], [3], [4], [5]⟩ }

/-- A request with two values in blocks; the second one is `y`. -/
def twoBlocks : Bytes :=
  "c ~h a=<<\nx\n>> b=<<\ny\n>>\n".toList

/-- The request `listen` makes of it. -/
def twoBlocksRequest : Request :=
  ⟨{ command := ['c'], handle := ['h'], raw := twoBlocks
     args := SortedMap.ofList [(['a'], ['x']), (['b'], ['y'])] }⟩

theorem twoBlocks_tidy : TidyRaw twoBlocks := by
  have hheld : (linesOf '\n' twoBlocks).dropLast.map stripCR =
      ["c ~h a=<<".toList, ['x'], closeMark ++ ' ' :: ['b'] ++ '=' :: openMark, ['y']] := by decide
  rw [TidyRaw, hheld, TidyHeld, TidyRest, if_neg (by decide), TidyRest, if_pos (by decide),
    TidyRest, if_neg (by decide)]
  exact ⟨⟨closeMark, ['b'], rfl, by decide, by decide⟩, by decide, trivial⟩

/-- It is delivered, and it is what `create_from_raw` makes of its bytes. -/
theorem twoBlocks_createdFrom : Event.CreatedFrom twoBlocks (.request twoBlocksRequest) :=
  listen_createdFrom oneOfEach [⟨twoBlocks, by decide, by decide⟩] ⟨1, .request twoBlocksRequest⟩
    (by decide) twoBlocks rfl twoBlocks_tidy

/-- The same, where the second value is a newline and `y`. -/
def newlineFirst : Bytes :=
  "c ~h a=<<\nx\n>> b=<<\n\ny\n>>\n".toList

/-- `listen` delivers it with the second value `y`. -/
theorem not_all_createdFrom :
    ¬∀ (c : ClientState) (reads : List Chunk), ∀ call ∈ (c.listen reads).2, ∀ raw,
      call.event.getRaw = some raw → call.event.CreatedFrom raw := by
  intro h
  have hcall := h oneOfEach [⟨newlineFirst, by decide, by decide⟩]
    ⟨1, .request ⟨{ twoBlocksRequest.toMessage with raw := newlineFirst }⟩⟩ (by decide)
    newlineFirst rfl
  exact absurd hcall (by decide)

end SporeClient.Client
