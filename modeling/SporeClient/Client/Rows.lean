/-
  Client/Rows.lean --- texts made of parts, as frames.

  WHAT THIS FILE IS FOR.  A serialized message is a head and a row of parts: arguments and
  flags on the same line, and arguments in blocks, each of which ends its line with `<<`
  and goes on behind a `>>` at the start of a later one.  When no other `<<` and no other
  `>>` stands in the parts, such a text is one tidy frame, however many blocks it has
  (`oneTidyFrame_row`).
-/
import SporeClient.Client.Delivery

set_option autoImplicit false

namespace SporeClient.Client

open SporeClient.Foundation
open SporeClient.Parser
open SporeClient.Wire

/-! ## Parts -/

/-- An argument or a flag: on one line, or an argument in a block. -/
inductive Part where
  | line (text : Bytes)
  | blockArg (key value : Bytes)

/-- The text of a part, with the space in front. -/
def Part.text : Part → Bytes
  | .line text => ' ' :: text
  | .blockArg key value => ' ' :: key ++ '=' :: blockText value

/-- A text without marks, newlines and carriage returns, which leaves nothing open. -/
structure IsLine (text : Bytes) : Prop where
  no_mark : '<' ∉ text
  no_newline : '\n' ∉ text
  no_cr : '\r' ∉ text
  closed : Mode.outside.after text none = .outside

/-- A value in a block has no marks, and it does not begin with a newline. -/
structure IsBody (v : Bytes) : Prop where
  no_close : ¬closeMark <:+: v
  front : v.head? ≠ some '\n'
  ne_nil : v ≠ []
  no_cr : '\r' ∉ v

/-- What the parts of a row are like. -/
def Part.Ok : Part → Prop
  | .line text => IsLine text
  | .blockArg key value => IsKey key ∧ IsLine key ∧ IsBody value

theorem IsLine.append {a b : Bytes} (ha : IsLine a) (hb : IsLine b) : IsLine (a ++ ' ' :: b) where
  no_mark := by simp [ha.no_mark, hb.no_mark]
  no_newline := by simp [ha.no_newline, hb.no_newline]
  no_cr := by simp [ha.no_cr, hb.no_cr]
  closed := by
    have ha' : Mode.outside.after a (some ' ') = .outside :=
      (Mode.after_neutral (by decide) (by decide) _ a).trans ha.closed
    have hspace : ∀ next, Mode.outside.step ' ' next = (.outside, .cut) := fun _ => rfl
    rw [Mode.after_append, List.head?_cons, Option.some_or, ha', Mode.after_cons, hspace]
    exact hb.closed

theorem isLine_nil : IsLine [] := ⟨by simp, by simp, by simp, rfl⟩

theorem stripCR_eq_self {l : Bytes} (h : '\r' ∉ l) : stripCR l = l :=
  if_neg fun hlast => h (List.mem_of_getLast? hlast)

/-! ## The lines of a value -/

/-- The lines between the marks of a block. -/
def bodyLines (v : Bytes) : List Bytes := linesOf '\n' (v ++ ['\n'])

theorem unlines_bodyLines (v : Bytes) : unlines '\n' (bodyLines v) = v ++ ['\n'] :=
  unlines_linesOf v

/-- A line stands in the text it is a line of. -/
theorem infix_of_mem_unlines {ls : List Bytes} {l : Bytes} (h : l ∈ ls) :
    l <:+: unlines '\n' ls := by
  obtain ⟨a, b, rfl⟩ := List.append_of_mem h
  exact ⟨unlines '\n' a, '\n' :: unlines '\n' b, by simp⟩

/-- The lines of a value do not close its block. -/
theorem IsBody.not_isClose {v l : Bytes} (h : IsBody v) (hl : l ∈ bodyLines v) :
    ¬isClose l = true := by
  intro hclose
  have hin : closeMark <:+: v ++ ['\n'] := by
    rw [← unlines_bodyLines]
    exact (closeMark_infix_of_isClose hclose).trans (infix_of_mem_unlines hl)
  rw [closeMark, pair_infix_append] at hin
  rcases hin with hin | hin | hin
  · exact h.no_close hin
  · exact absurd hin (by decide)
  · simp at hin

theorem IsBody.no_cr_line {v l : Bytes} (h : IsBody v) (hl : l ∈ bodyLines v) : '\r' ∉ l := by
  intro hmem
  have hin : '\r' ∈ v ++ ['\n'] := by
    rw [← unlines_bodyLines]
    exact (infix_of_mem_unlines hl).subset hmem
  simp [h.no_cr] at hin

theorem IsBody.isCleanBody {v : Bytes} (h : IsBody v) : IsCleanBody (v ++ ['\n']) where
  no_close := by
    rw [List.append_assoc, closeMark, pair_infix_append]
    rintro (hin | hin | hin)
    · exact h.no_close hin
    · exact absurd hin (by decide)
    · simp at hin
  front := by
    apply Or.inr
    cases v with
    | nil => exact absurd rfl h.ne_nil
    | cons c v => simpa using h.front

/-! ## Tidy lines -/

/-- The lines of a body are read over. -/
theorem tidyRest_body {front : Bytes} {ls rest : List Bytes} (h : ∀ l ∈ ls, ¬isClose l = true) :
    TidyRest front (ls ++ rest) ↔ TidyRest (front ++ unlines '\n' ls) rest := by
  induction ls generalizing front with
  | nil => simp
  | cons l ls ih =>
      have hls : ∀ a ∈ ls, ¬isClose a = true := fun a ha => h a (List.mem_cons_of_mem _ ha)
      rw [List.cons_append, TidyRest, if_neg (h l List.mem_cons_self), ih hls, unlines_cons]
      simp

theorem takeWhile_body {ls rest : List Bytes} (h : ∀ l ∈ ls, ¬isClose l = true)
    (hrest : rest.takeWhile (fun l => !isClose l) = []) :
    (ls ++ rest).takeWhile (fun l => !isClose l) = ls := by
  rw [List.takeWhile_append_of_pos (by simpa using h), hrest, List.append_nil]

/-- The mode behind a block that is closed at its first `>>`. -/
theorem after_closed {u x tail : Bytes} (hu : Mode.outside.after u (some '<') = .outside)
    (hx : ¬closeMark <:+: x ++ ['>']) :
    Mode.outside.after (u ++ openMark ++ x ++ closeMark ++ tail) none =
      Mode.outside.after tail none := by
  have hopen : u ++ openMark ++ x ++ closeMark ++ tail =
      u ++ '<' :: '<' :: (x ++ closeMark ++ tail) := by simp [openMark]
  have hfirst : Mode.outside.step '<' (some '<') = (.block, .keep) := by simp [Mode.step]
  have hsecond : ∀ next, Mode.block.step '<' next = (.block, .keep) := fun _ => by simp [Mode.step]
  rw [hopen, Mode.after_append, List.head?_cons, Option.some_or, hu, Mode.after_cons,
    List.head?_cons, Option.some_or, hfirst, Mode.after_cons, hsecond,
    Mode.after_block_close tail none hx]

/-- What stands before a `<<` that opens the value of an argument. -/
theorem after_key {front key : Bytes} (hfront : Mode.outside.after front none = .outside)
    (hkey : IsLine key) :
    Mode.outside.after (front ++ ' ' :: key ++ ['=']) (some '<') = .outside := by
  have hspace : ∀ next, Mode.outside.step ' ' next = (.outside, .cut) := fun _ => rfl
  have heq : ∀ next, Mode.outside.step '=' next = (.outside, .keep) := fun _ => by simp [Mode.step]
  have hfront' : Mode.outside.after front (some ' ') = .outside :=
    (Mode.after_neutral (by decide) (by decide) _ front).trans hfront
  have hkey' : Mode.outside.after key (some '=') = .outside :=
    (Mode.after_neutral (by decide) (by decide) _ key).trans hkey.closed
  have htext : front ++ ' ' :: key ++ ['='] = front ++ ' ' :: (key ++ ['=']) := by simp
  rw [htext, Mode.after_append, List.head?_cons, Option.some_or, hfront', Mode.after_cons, hspace,
    Mode.after_append, List.head?_cons, Option.some_or, hkey', Mode.after_cons, heq,
    Mode.after_nil]

/-! ## Rows behind a closed block -/

/-- What a row is behind the `>>` of a block: lines after which the frame goes on, and one
at which it ends. -/
structure ClosesWith (text : Bytes) (held : List Bytes) (last : Bytes) : Prop where
  text_eq : unlines '\n' (held ++ [last]) = text ++ ['\n']
  newline_free : ∀ l ∈ held ++ [last], '\n' ∉ l
  no_cr : ∀ l ∈ held ++ [last], '\r' ∉ l
  goes_on : ∀ l ∈ held, goesOn l = true
  ends : goesOn last = false
  closes : held.takeWhile (fun l => !isClose l) = []
  tidy : ∀ u x, Mode.outside.after u (some '<') = .outside → ¬closeMark <:+: x ++ ['>'] →
    TidyRest (u ++ openMark ++ x) held

theorem isClose_tail {tail : Bytes} (h : IsTail tail) : isClose (closeMark ++ tail) = true := by
  rw [isClose_iff]
  rcases h with rfl | h
  · exact Or.inl (by simp)
  · obtain ⟨rest, rfl⟩ := List.head?_eq_some_iff.mp h
    exact Or.inr ⟨rest, rfl⟩

theorem find_openMark_none {l : Bytes} (h : '<' ∉ l) : find openMark l = none := by
  rw [← Option.not_isSome_iff_eq_none, hasOpenMark_iff]
  exact fun hin => h (hin.subset (by simp [openMark]))

/-- A line that ends with a `<<`. -/
theorem hasOpenMark_end (l : Bytes) : (find openMark (l ++ openMark)).isSome = true := by
  rw [hasOpenMark_iff]
  exact ⟨l, [], by simp⟩

theorem exists_closesWith {parts : List Part} {tail : Bytes} (hparts : ∀ p ∈ parts, p.Ok)
    (htail : IsTail tail) (hline : IsLine tail) :
    ∃ held last, ClosesWith (closeMark ++ tail ++ parts.flatMap Part.text) held last := by
  induction parts generalizing tail with
  | nil =>
      have hmark : '<' ∉ closeMark ++ tail := by simp [closeMark, hline.no_mark]
      refine ⟨[], closeMark ++ tail, ?_⟩
      constructor
      · simp
      · simp [closeMark, hline.no_newline]
      · simp [closeMark, hline.no_cr]
      · simp
      · simp [goesOn, isClose_tail htail, find_openMark_none hmark]
      · rfl
      · exact fun _ _ _ _ => trivial
  | cons p parts ih =>
      have hp := hparts p List.mem_cons_self
      have hrest := fun q hq => hparts q (List.mem_cons_of_mem p hq)
      cases p with
      | line text =>
          have htail' : IsTail (tail ++ ' ' :: text) := by
            rcases htail with rfl | htail
            · exact Or.inr rfl
            · obtain ⟨rest, rfl⟩ := List.head?_eq_some_iff.mp htail
              exact Or.inr rfl
          obtain ⟨held, last, h⟩ := ih hrest htail' (hline.append hp)
          exact ⟨held, last, by simpa [Part.text] using h⟩
      | blockArg key value =>
          obtain ⟨hkey, hkeyLine, hbody⟩ := hp
          obtain ⟨held, last, h⟩ := ih hrest (Or.inl rfl) isLine_nil
          -- the line that closes the last block and opens this one
          let first : Bytes := closeMark ++ tail ++ ' ' :: key ++ '=' :: openMark
          have hclose : isClose first = true := by
            have htail' : IsTail (tail ++ ' ' :: key ++ '=' :: openMark) := by
              rcases htail with rfl | htail
              · exact Or.inr rfl
              · obtain ⟨rest, rfl⟩ := List.head?_eq_some_iff.mp htail
                exact Or.inr rfl
            simpa [first] using isClose_tail htail'
          have hopen : (find openMark first).isSome = true := by
            simpa [first] using hasOpenMark_end (closeMark ++ tail ++ ' ' :: key ++ ['='])
          have hbodyLines : ∀ l ∈ bodyLines value, ¬isClose l = true := fun l hl =>
            hbody.not_isClose hl
          refine ⟨first :: (bodyLines value ++ held), last, ?_⟩
          constructor
          · rw [List.cons_append, List.append_assoc, unlines_cons, unlines_append,
              unlines_bodyLines, h.text_eq]
            simp [first, Part.text, blockText, block]
          · rw [List.cons_append, List.append_assoc, List.forall_mem_cons, List.forall_mem_append]
            refine ⟨?_, fun l hl => newline_not_mem_of_mem_linesOf hl, h.newline_free⟩
            simp [first, closeMark, openMark, hline.no_newline, hkeyLine.no_newline]
          · rw [List.cons_append, List.append_assoc, List.forall_mem_cons, List.forall_mem_append]
            refine ⟨?_, fun l hl => hbody.no_cr_line hl, h.no_cr⟩
            simp [first, closeMark, openMark, hline.no_cr, hkeyLine.no_cr]
          · rw [List.forall_mem_cons, List.forall_mem_append]
            refine ⟨by rw [goesOn, hopen, Bool.or_true], fun l hl => ?_, h.goes_on⟩
            simp [goesOn, hbodyLines l hl]
          · exact h.ends
          · rw [List.takeWhile_cons, hclose]
            rfl
          · intro u x hu hx
            rw [TidyRest, if_pos hclose, takeWhile_body hbodyLines h.closes,
              tidyRest_body hbodyLines, unlines_bodyLines]
            refine ⟨⟨closeMark ++ tail, key, rfl, hkey, ?_⟩, hbody.isCleanBody, ?_⟩
            · rw [← List.append_assoc, after_closed hu hx]
              exact hline.closed
            · simpa using h.tidy [] (value ++ ['\n']) rfl hbody.isCleanBody.no_close

/-! ## Rows from the start of a frame -/

/-- A line that ends with its only `<<` opens a frame of several lines. -/
theorem opensBlock_end {l : Bytes} (h : '<' ∉ l) : opensBlock (l ++ openMark) = true := by
  have hfind : find openMark (l ++ openMark) = some l.length := by
    induction l with
    | nil => rfl
    | cons c l ih =>
        have hc : c ≠ '<' := fun heq => h (heq ▸ List.mem_cons_self)
        have hl := ih fun hmem => h (List.mem_cons_of_mem _ hmem)
        have hprefix : openMark.isPrefixOf (c :: (l ++ openMark)) = false := by
          simp [openMark, List.isPrefixOf, Ne.symm hc]
        rw [List.cons_append, find, hprefix, hl]
        rfl
  have hdrop : (l ++ openMark).drop (l.length + 2) = [] := by
    simp [openMark]
  simp only [opensBlock, hfind, hdrop]
  rfl

/-- **A head and a row of parts are one tidy frame.** -/
theorem oneTidyFrame_row {head : Bytes} {parts : List Part} (hhead : IsLine head)
    (hparts : ∀ p ∈ parts, p.Ok) : OneTidyFrame (head ++ parts.flatMap Part.text ++ ['\n']) := by
  induction parts generalizing head with
  | nil =>
      have hstrip := stripCR_eq_self hhead.no_cr
      refine ⟨⟨[], head, by simp [hhead.no_newline], rfl, ?_⟩, by simp [Frame.segment, Frame.lines],
        trivial⟩
      simp [endsHeld, hstrip, opensBlock, find_openMark_none hhead.no_mark]
  | cons p parts ih =>
      have hp := hparts p List.mem_cons_self
      have hrest := fun q hq => hparts q (List.mem_cons_of_mem p hq)
      cases p with
      | line text => simpa [Part.text] using ih (hhead.append hp) hrest
      | blockArg key value =>
          obtain ⟨hkey, hkeyLine, hbody⟩ := hp
          obtain ⟨held, last, h⟩ := exists_closesWith hrest (Or.inl rfl) isLine_nil
          let first : Bytes := head ++ ' ' :: key ++ '=' :: openMark
          have hfirst : opensBlock first = true := by
            have hmark : '<' ∉ head ++ ' ' :: key ++ ['='] := by
              simp [hhead.no_mark, hkeyLine.no_mark]
            simpa [first] using opensBlock_end hmark
          have hfirstCR : '\r' ∉ first := by
            simp [first, openMark, hhead.no_cr, hkeyLine.no_cr]
          have hbodyLines : ∀ l ∈ bodyLines value, ¬isClose l = true := fun l hl =>
            hbody.not_isClose hl
          have hstrip : (first :: (bodyLines value ++ held)).map stripCR =
              first :: (bodyLines value ++ held) := by
            refine (List.map_congr_left fun l hl => stripCR_eq_self ?_).trans (List.map_id _)
            rcases List.mem_cons.mp hl with rfl | hl
            · exact hfirstCR
            · rcases List.mem_append.mp hl with hl | hl
              · exact hbody.no_cr_line hl
              · exact h.no_cr l (List.mem_append_left _ hl)
          have hlast : stripCR last = last := stripCR_eq_self (h.no_cr last (by simp))
          refine ⟨⟨first :: (bodyLines value ++ held), last, ?_, ?_, ?_⟩, ?_, ?_⟩
          · rw [List.cons_append, List.append_assoc, List.forall_mem_cons, List.forall_mem_append]
            refine ⟨?_, fun l hl => newline_not_mem_of_mem_linesOf hl, h.newline_free⟩
            simp [first, openMark, hhead.no_newline, hkeyLine.no_newline]
          · rw [hstrip, isHeld, hfirst, Bool.true_and, List.all_eq_true, List.forall_mem_append]
            refine ⟨fun l hl => ?_, h.goes_on⟩
            simp [goesOn, hbodyLines l hl]
          · simp [hstrip, endsHeld, hlast, h.ends]
          · rw [Frame.segment, Frame.lines, List.cons_append, List.append_assoc, unlines_cons,
              unlines_append, unlines_bodyLines, h.text_eq]
            simp [first, Part.text, blockText, block]
          · have hu := after_key hhead.closed hkeyLine
            have hx : ¬closeMark <:+: ('\n' :: (value ++ ['\n'])) ++ ['>'] := by
              rw [List.cons_append, closeMark, pair_infix_cons, not_or]
              exact ⟨by simp, hbody.isCleanBody.no_close⟩
            have htidy := h.tidy _ _ hu hx
            simp only [hstrip]
            rw [TidyHeld, tidyRest_body hbodyLines, unlines_bodyLines]
            simpa [first] using htidy

end SporeClient.Client
