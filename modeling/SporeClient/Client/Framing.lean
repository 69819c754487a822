/-
  Client/Framing.lean --- when the framing of `listen` and the tokenizer agree that a
  block is open.

  WHAT THIS FILE IS FOR.  `listen` decides line by line whether a frame goes on, by
  looking for `<<` and `>>`; the tokenizer decides byte by byte whether it is inside a
  block.  `FrameState.InStep` is the condition on the next line, given the text so far,
  under which the two decisions are the same (`agrees_onLine_iff`), and a run of which
  every line is in step is a run in which they are always the same (`run_agrees_iff`).
-/
import SporeClient.Client.Stream

set_option autoImplicit false

namespace SporeClient.Client

open SporeClient.Foundation
open SporeClient.Parser

/-! ## Finding marks -/

/-- `find` finds what is there. -/
theorem find_isSome_iff {pat : Bytes} (hpat : pat ≠ []) (l : Bytes) :
    (find pat l).isSome = true ↔ pat <:+: l := by
  induction l with
  | nil => simp [find, hpat]
  | cons c rest ih =>
      rw [find, List.infix_cons_iff, ← ih]
      by_cases h : pat.isPrefixOf (c :: rest) = true
      · simp [h, List.isPrefixOf_iff_prefix.mp h]
      · have hnot : ¬pat <+: c :: rest := fun hp => h (List.isPrefixOf_iff_prefix.mpr hp)
        simp [h, hnot]

theorem hasOpenMark_iff (l : Bytes) : (find openMark l).isSome = true ↔ openMark <:+: l :=
  find_isSome_iff (by simp [openMark]) l

/-- A closing line is `>>`, alone or with a space and more behind it. -/
theorem isClose_iff (l : Bytes) :
    isClose l = true ↔ l = closeMark ∨ ∃ rest, l = closeMark ++ ' ' :: rest := by
  rw [isClose, Bool.or_eq_true, beq_iff_eq, beq_iff_eq]
  refine or_congr_right ⟨fun h => ⟨l.drop 3, ?_⟩, ?_⟩
  · calc l = l.take 3 ++ l.drop 3 := (List.take_append_drop 3 l).symm
      _ = closeMark ++ ' ' :: l.drop 3 := by rw [h]; rfl
  · rintro ⟨rest, rfl⟩
    rfl

theorem closeMark_infix_of_isClose {l : Bytes} (h : isClose l = true) : closeMark <:+: l := by
  rcases (isClose_iff l).mp h with rfl | ⟨rest, rfl⟩
  · exact List.infix_refl _
  · exact ⟨[], ' ' :: rest, rfl⟩

/-! ## Agreement -/

/-- `listen` holds the frame back exactly when the tokenizer ends its text in a block. -/
def FrameState.Agrees (s : FrameState) : Prop :=
  s.multiline = true ↔ endsInside s.line = .triangles

instance (s : FrameState) : Decidable s.Agrees := inferInstanceAs (Decidable (_ ↔ _))

/-- What the lexer has yet to look at when it goes on with a line: half a `>>` may be left
of a line whose newline was dropped. -/
def FrameState.ahead (s : FrameState) (currentLine : Bytes) : Bytes :=
  if s.line.getLast? = some '>' then '>' :: currentLine else currentLine

/-- The text has a `<<` outside quotes, brackets and blocks. -/
def HasOpening (text : Bytes) : Prop :=
  ∃ p q, text = p ++ openMark ++ q ∧ Mode.outside.after p (some '<') = .outside

/-- The first lines of a frame on which both decide alike: there is no `<<`; or no `>>` is
behind the first `<<`, and some `<<` is outside quotes and brackets; or a `>>` is behind the
first `<<`, and no `<<` outside quotes and brackets is left open. -/
def FirstInStep (l : Bytes) : Prop :=
  ¬openMark <:+: l ∨
    ∃ front back, l = front ++ openMark ++ back ∧ ¬openMark <:+: front ++ ['<'] ∧
      ((¬closeMark <:+: back ∧ HasOpening l) ∨ (closeMark <:+: back ∧ ¬LeavesOpen l))

/-- The lines on which both decide alike.  Inside a frame of several lines: the line ends it,
with the word `>>` in front and no `<<`; or it has no `>>`; or it leaves another `<<` open
behind its `>>`. -/
def FrameState.InStep (s : FrameState) (l : Bytes) : Prop :=
  if s.multiline = true then
    ((stripCR l = closeMark ∨ ∃ rest, stripCR l = closeMark ++ ' ' :: rest) ∧
        ¬openMark <:+: stripCR l) ∨
      ¬closeMark <:+: s.ahead (stripCR l) ∨ OpensFrom .block (s.ahead (stripCR l))
  else FirstInStep (stripCR l)

/-- `find` stops at the first `<<`. -/
theorem find_first {front : Bytes} (back : Bytes) (h : ¬openMark <:+: front ++ ['<']) :
    find openMark (front ++ openMark ++ back) = some front.length := by
  induction front with
  | nil => simp [find, openMark]
  | cons c front ih =>
      have hrest := ih fun hin => h (pair_infix_cons.mpr (Or.inr hin))
      have hprefix : openMark.isPrefixOf (c :: (front ++ openMark ++ back)) = false := by
        refine Bool.eq_false_iff.mpr fun hp => h (List.IsPrefix.isInfix ?_)
        refine List.prefix_of_prefix_length_le (List.isPrefixOf_iff_prefix.mp hp) ?_ ?_
        · exact ⟨'<' :: back, by simp [openMark]⟩
        · simp [openMark]
      rw [List.cons_append, List.cons_append, find, hprefix, hrest]
      rfl

/-- What `listen` tests on a first line. -/
theorem opensBlock_first {front : Bytes} (back : Bytes) (h : ¬openMark <:+: front ++ ['<']) :
    opensBlock (front ++ openMark ++ back) = true ↔ ¬closeMark <:+: back := by
  have hdrop : (front ++ openMark ++ back).drop (front.length + 2) = back := by
    rw [List.drop_append]
    simp [openMark]
  simp only [opensBlock, find_first back h, hdrop]
  rw [← find_isSome_iff (by simp [closeMark]), Option.isNone_iff_eq_none, Option.isSome_iff_ne_none,
    not_not]

/-- Behind the first `<<` there is nothing that is not behind the others too. -/
theorem suffix_of_first {front back p q : Bytes} (hfirst : ¬openMark <:+: front ++ ['<'])
    (h : front ++ openMark ++ back = p ++ openMark ++ q) : q <:+ back := by
  have hle : front.length ≤ p.length := by
    by_contra hlt
    -- the other one would stand in front of the first
    have hother : p ++ openMark <+: front ++ openMark ++ back := h ▸ List.prefix_append ..
    have hone : front ++ ['<'] <+: front ++ openMark ++ back := ⟨'<' :: back, by simp [openMark]⟩
    have hprefix : p ++ openMark <+: front ++ ['<'] :=
      List.prefix_of_prefix_length_le hother hone (by simp [openMark]; omega)
    exact hfirst ((List.suffix_append p openMark).isInfix.trans hprefix.isInfix)
  have hlen := congrArg List.length h
  simp only [List.length_append] at hlen
  have hother : q <:+ front ++ openMark ++ back := h ▸ List.suffix_append ..
  exact List.suffix_of_suffix_length_le hother (List.suffix_append ..) (by omega)

/-- **A first line**: `listen` goes on exactly when a block is left open. -/
theorem firstInStep_iff (l : Bytes) :
    FirstInStep l ↔ (opensBlock l = true ↔ LeavesOpen l) := by
  by_cases hin : openMark <:+: l
  · obtain ⟨front, back, htext, hfirst⟩ := exists_first_pair hin
    have hl : l = front ++ openMark ++ back := by simp [htext, openMark]
    have hopens : opensBlock l = true ↔ ¬closeMark <:+: back := hl ▸ opensBlock_first back hfirst
    -- behind a `<<` that is not closed none is closed
    have hleaves : ¬closeMark <:+: back → (LeavesOpen l ↔ HasOpening l) := by
      intro hback
      constructor
      · rintro ⟨p, q, heq, hmode, _⟩
        exact ⟨p, q, heq, hmode⟩
      · rintro ⟨p, q, heq, hmode⟩
        have hsuffix := suffix_of_first hfirst (hl.symm.trans heq)
        exact ⟨p, q, heq, hmode, fun hq => hback (hq.trans hsuffix.isInfix)⟩
    have hunique : ∀ front' back', l = front' ++ openMark ++ back' →
        ¬openMark <:+: front' ++ ['<'] → back' = back := fun front' back' hl' hfirst' => by
      have heq : front' ++ '<' :: '<' :: back' = front ++ '<' :: '<' :: back := by
        rw [← htext, hl']
        simp [openMark]
      obtain rfl := first_pair_unique hfirst' hfirst heq
      simpa using heq
    rw [FirstInStep, or_iff_right (not_not.mpr hin), hopens]
    constructor
    · rintro ⟨front', back', hl', hfirst', hcase⟩
      obtain rfl := hunique front' back' hl' hfirst'
      rcases hcase with ⟨hback, hmark⟩ | ⟨hback, hclosed⟩
      · exact iff_of_true hback ((hleaves hback).mpr hmark)
      · exact iff_of_false (not_not.mpr hback) hclosed
    · intro hiff
      refine ⟨front, back, hl, hfirst, ?_⟩
      by_cases hback : closeMark <:+: back
      · exact Or.inr ⟨hback, fun hopen => hiff.mpr hopen hback⟩
      · exact Or.inl ⟨hback, (hleaves hback).mp (hiff.mp hback)⟩
  · -- neither of them sees a `<<`
    have hfind : find openMark l = none := by
      rw [← Option.isNone_iff_eq_none, ← Option.not_isSome, Bool.not_eq_true']
      exact Bool.eq_false_iff.mpr fun hsome => hin ((hasOpenMark_iff l).mp hsome)
    have hopens : ¬opensBlock l = true := by simp [opensBlock, hfind]
    have hleaves : ¬LeavesOpen l := by
      rintro ⟨p, q, heq, _⟩
      exact hin ⟨p, q, heq.symm⟩
    exact iff_of_true (Or.inl hin) (iff_of_false hopens hleaves)

/-- A newline at the end of a text does not open or close a block. -/
theorem after_newline (m : Mode) (text : Bytes) :
    m.after (text ++ ['\n']) none = .block ↔ m.after text none = .block := by
  have hneutral : m.after text (some '\n') = m.after text none :=
    m.after_neutral (by decide) (by decide) text
  rw [Mode.after_append, List.head?_cons, Option.some_or, hneutral, Mode.after_cons,
    Mode.after_nil, step_eq_block_iff]
  simp

/-- The first half of a `>>` at the end of a text that is in a block was read in the block. -/
theorem after_eq_ahead {text : Bytes} (h : Mode.outside.after text none = .block) (l : Bytes) :
    Mode.outside.after (text ++ l) none =
      Mode.block.after (if text.getLast? = some '>' then '>' :: l else l) none := by
  split
  · rename_i hlast
    obtain ⟨front, rfl⟩ := List.getLast?_eq_some_iff.mp hlast
    have hfront : Mode.outside.after front (some '>') = .block := by
      rw [Mode.after_append, Mode.after_cons, Mode.after_nil, step_eq_block_iff] at h
      simpa using h
    rw [List.append_assoc, Mode.after_append]
    simp only [List.cons_append, List.nil_append, List.head?_cons, Option.some_or, hfront]
  · rename_i hlast
    -- what follows is no second half
    have hnext : Mode.outside.after text (l.head?.or none) = .block := by
      rcases List.eq_nil_or_concat text with rfl | ⟨front, c, rfl⟩
      · simp at h
      · rw [List.concat_eq_append] at h hlast ⊢
        rw [Mode.after_append, Mode.after_cons, Mode.after_nil, step_eq_block_iff] at h ⊢
        have hc : c ≠ '>' := by simpa using hlast
        rcases h with h | h
        · simp at h
        · exact Or.inr ⟨h.1, fun hclose => hc hclose.1⟩
    rw [Mode.after_append, hnext]

/-- **One line**: given that both agree before it, both agree after it exactly when it is in
step. -/
theorem agrees_onLine_iff {s : FrameState}
    (h : s.multiline = true → endsInside s.line = .triangles) (l : Bytes) :
    (onLine s l).1.Agrees ↔ s.InStep l := by
  have hhold : ∀ line, (s.hold l line).1.Agrees ↔ Mode.outside.after line none = .block := by
    intro line
    simp [FrameState.Agrees, FrameState.hold, endsInside_triangles_iff]
  have hfinish : ∀ line, (s.finish l line).1.Agrees ↔ ¬Mode.outside.after line none = .block := by
    intro line
    have hline : (s.finish l line).1.line = line := by
      simp only [FrameState.finish, endFrame]
      split <;> rfl
    have hmulti : (s.finish l line).1.multiline = false := by simp [FrameState.finish]
    simp [FrameState.Agrees, hline, hmulti, endsInside_triangles_iff]
  cases hm : s.multiline with
  | false =>
      have hin : s.InStep l ↔ FirstInStep (stripCR l) := by simp [FrameState.InStep, hm]
      rw [onLine_first hm, hin, firstInStep_iff]
      cases hopen : opensBlock (stripCR l) with
      | false => simp [hfinish, after_eq_block_iff]
      | true => simp [hhold, after_newline, after_eq_block_iff]
  | true =>
      have hblock : Mode.outside.after s.line none = .block :=
        (endsInside_triangles_iff s.line).mp (h hm)
      have hahead : ∀ text, Mode.outside.after (s.line ++ text) none = .block ↔
          ¬closeMark <:+: s.ahead text ∨ OpensFrom .block (s.ahead text) := by
        intro text
        rw [after_eq_ahead hblock, after_eq_block]
        simp [FrameState.ahead]
      rw [onLine_block hm, FrameState.InStep, if_pos hm, ← isClose_iff]
      by_cases hclose : isClose (stripCR l) = true
      · rw [if_pos hclose]
        by_cases hopen : (find openMark (stripCR l)).isSome = true
        · rw [if_pos hopen, hhold, hahead]
          simp [(hasOpenMark_iff _).mp hopen]
        · -- the end of the frame: the mark in front closes the block and no other opens one
          rw [if_neg hopen, hfinish, hahead]
          have hno : ¬openMark <:+: stripCR l := fun hin => hopen ((hasOpenMark_iff _).mpr hin)
          have hahead_close : closeMark <:+: s.ahead (stripCR l) := by
            unfold FrameState.ahead
            split
            · exact List.infix_cons (closeMark_infix_of_isClose hclose)
            · exact closeMark_infix_of_isClose hclose
          have hahead_open : ¬OpensFrom .block (s.ahead (stripCR l)) := by
            rintro ⟨p, q, htext, _⟩
            have hin : openMark <:+: s.ahead (stripCR l) := ⟨p, q, htext.symm⟩
            unfold FrameState.ahead at hin
            split at hin
            · rw [openMark, pair_infix_cons] at hin
              exact hno (hin.resolve_left (by simp))
            · exact hno hin
          simp [hclose, hno, hahead_close, hahead_open]
      · rw [if_neg hclose, hhold, after_newline, hahead]
        simp [hclose]

/-- At the start nothing is held back and no block is open. -/
theorem FrameState.agrees_start : FrameState.Agrees {} := by decide

/-- **A run whose lines are all in step**, and no other, is a run in which `listen` holds a
frame back exactly as long as the tokenizer is inside a block. -/
theorem run_agrees_iff {read : Bytes} {steps : List FrameStep} {s : Reading Char FrameState}
    (h : listenReader.Run {} read steps s) :
    (∀ st ∈ steps, st.after.Agrees) ↔ ∀ st ∈ steps, st.before.InStep st.line := by
  -- the state reached agrees as long as every line was in step
  suffices hgen : ((∀ st ∈ steps, st.after.Agrees) ↔ ∀ st ∈ steps, st.before.InStep st.line) ∧
      ((∀ st ∈ steps, st.after.Agrees) → s.state.Agrees) from hgen.1
  induction h with
  | start => exact ⟨by simp, fun _ => FrameState.agrees_start⟩
  | piece p _ _ ih => exact ih
  | @line read steps s l rest _ hline ih =>
      have hstep : (∀ st ∈ steps, st.after.Agrees) →
          ((onLine s.state l).1.Agrees ↔ s.state.InStep l) := fun hall =>
        agrees_onLine_iff (ih.2 hall).mp l
      simp only [List.forall_mem_append, List.forall_mem_singleton]
      refine ⟨⟨fun hall => ?_, fun hall => ?_⟩, fun hall => hall.2⟩
      · exact ⟨ih.1.mp hall.1, (hstep hall.1).mp hall.2⟩
      · have hbefore := ih.1.mpr hall.1
        exact ⟨hbefore, (hstep hbefore).mpr hall.2⟩

/-- One line that arrives in one piece. -/
theorem run_one_line {l : Bytes} (h : '\n' ∉ l) :
    listenReader.Run {} (l ++ ['\n']) [⟨{}, l, (onLine {} l).1, (onLine {} l).2⟩]
      ⟨[], (onLine {} l).1⟩ := by
  have hpiece : listenReader.Run {} (l ++ ['\n']) [] ⟨l ++ ['\n'], {}⟩ :=
    LineReader.Run.piece (l ++ ['\n']) .start rfl
  exact hpiece.line (splitFirst_append [] h)

/-- The line of a request whose quoted value has a `<<`. -/
def quotedMark : Bytes :=
  ['c', ' ', '~', 'h', ' ', 'k', '=', '"', 'a', ' ', '<', '<', ' ', 'b', '"']

/-- It is not in step, and `listen` holds it back with no block open. -/
theorem quotedMark_not_in_step :
    ¬FrameState.InStep {} quotedMark ∧ ¬(onLine {} quotedMark).1.Agrees := by
  have hheld : ¬(onLine {} quotedMark).1.Agrees := by decide
  refine ⟨fun hin => hheld ?_, hheld⟩
  exact (run_agrees_iff (run_one_line (by decide : '\n' ∉ quotedMark))).mpr (by simpa using hin) _
    (List.mem_singleton_self _)

/-- The two do not agree on every stream. -/
theorem framing_not_tokenizer :
    ¬∀ (read : Bytes) (steps : List FrameStep) (s : Reading Char FrameState),
      listenReader.Run {} read steps s → ∀ st ∈ steps, st.after.Agrees := by
  intro h
  have hagrees := h _ _ _ (run_one_line (by decide : '\n' ∉ quotedMark)) _
    (List.mem_singleton_self _)
  exact absurd hagrees (by decide)

end SporeClient.Client
