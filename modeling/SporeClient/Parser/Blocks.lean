/-
  Parser/Blocks.lean --- how the lexer goes through a block.

  WHAT THIS FILE IS FOR.  A block ends at the first `>>` after its `<<`, whatever stands
  in between.  The lemmas say what the lexer does with a text that has no `>>`, and with
  one that is cut at its first `>>`; a mode after a text is a block exactly when the text
  leaves a `<<` open (`after_eq_block_iff`).
-/
import SporeClient.Foundation.Pairs
import SporeClient.Parser.Pieces

set_option autoImplicit false

namespace SporeClient.Parser

open SporeClient.Foundation

/-- `"<<"`. -/
def openMark : Bytes := ['<', '<']
/-- `">>"`. -/
def closeMark : Bytes := ['>', '>']

/-- Inside a block a byte is kept, and only the first half of a `>>` leaves the block. -/
theorem Lexer.step_block (t : Token) (d : List Token) {c : Char} {next : Option Char}
    (h : ¬(c = '>' ∧ next = some '>')) :
    (⟨.block, t, d⟩ : Lexer).step c next = ⟨.block, ⟨t.value ++ [c], t.type⟩, d⟩ := by
  simp [step, Mode.step, h, Token.keep]

/-- A text without `>>` is kept in the block. -/
theorem Lexer.read_block (t : Token) (d : List Token) {text : Bytes} {after : Option Char}
    (h : ¬closeMark <:+: text ++ after.toList) :
    (⟨.block, t, d⟩ : Lexer).read text after = ⟨.block, ⟨t.value ++ text, t.type⟩, d⟩ := by
  induction text generalizing t with
  | nil => simp
  | cons c rest ih =>
      rw [List.cons_append, closeMark, pair_infix_cons, not_or] at h
      have hnext : (rest ++ after.toList).head? = rest.head?.or after := by
        cases rest <;> cases after <;> simp
      rw [hnext] at h
      rw [read_cons, step_block t d h.1, ih _ h.2]
      simp

/-- The first `>>` is kept and ends the block. -/
theorem Lexer.read_block_close (t : Token) (d : List Token) {text : Bytes} (rest : Bytes)
    (after : Option Char) (h : ¬closeMark <:+: text ++ ['>']) :
    (⟨.block, t, d⟩ : Lexer).read (text ++ closeMark ++ rest) after =
      (⟨.outside, ⟨t.value ++ text ++ closeMark, t.type⟩, d⟩ : Lexer).read rest after := by
  have htext : (⟨.block, t, d⟩ : Lexer).read text (some '>') =
      ⟨.block, ⟨t.value ++ text, t.type⟩, d⟩ := read_block t d h
  have hclose : ∀ t : Token, (⟨.block, t, d⟩ : Lexer).step '>' (some '>') =
      ⟨.outside, ⟨t.value ++ ['>'], t.type⟩, d⟩ := fun t => by
    simp [step, Mode.step, Token.keep]
  have hplain : ∀ (t : Token) next, (⟨.outside, t, d⟩ : Lexer).step '>' next =
      ⟨.outside, ⟨t.value ++ ['>'], t.type⟩, d⟩ := fun t next => by
    simp [step, Mode.step, Token.keep]
  have hmark : closeMark ++ rest = '>' :: '>' :: rest := rfl
  rw [List.append_assoc, read_append, hmark, List.head?_cons, Option.some_or, htext, read_cons,
    List.head?_cons, Option.some_or, hclose, read_cons, hplain]
  simp [closeMark]

theorem Mode.after_block_close {text : Bytes} (rest : Bytes) (next : Option Char)
    (h : ¬closeMark <:+: text ++ ['>']) :
    Mode.block.after (text ++ closeMark ++ rest) next = Mode.outside.after rest next := by
  have hmode := Lexer.read_mode ⟨.block, {}, []⟩ (text ++ closeMark ++ rest) next
  rw [Lexer.read_block_close _ _ _ _ h, Lexer.read_mode] at hmode
  exact hmode.symm

/-- A solid text in a block goes on after the first `>>` outside it. -/
theorem solid_block {bad : Char → Bool} {text : Bytes} (rest : Bytes)
    (h : ¬closeMark <:+: text ++ ['>']) :
    solid bad .block (text ++ '>' :: '>' :: rest) = solid bad .outside ('>' :: rest) := by
  induction text with
  | nil => simp [solid, Mode.step]
  | cons c text ih =>
      rw [List.cons_append, closeMark, pair_infix_cons, not_or] at h
      have hnext : (text ++ ['>']).head? = (text ++ '>' :: '>' :: rest).head? := by
        cases text <;> rfl
      rw [hnext] at h
      have hstep : Mode.block.step c (text ++ '>' :: '>' :: rest).head? = (.block, .keep) := by
        simp only [Mode.step, if_neg h.1]
      have hcons : solid bad .block (c :: (text ++ '>' :: '>' :: rest)) =
          solid bad (Mode.block.step c (text ++ '>' :: '>' :: rest).head?).1
            (text ++ '>' :: '>' :: rest) := by rw [solid]
      rw [List.cons_append, hcons, hstep]
      exact ih h.2

/-! ## Texts that leave a block open -/

/-- Read from mode `m`, the text has a `<<` outside everything that no `>>` follows. -/
def OpensFrom (m : Mode) (text : Bytes) : Prop :=
  ∃ p q, text = p ++ openMark ++ q ∧ m.after p (some '<') = .outside ∧ ¬closeMark <:+: q

/-- The text has a `<<` outside everything that no `>>` follows. -/
def LeavesOpen (text : Bytes) : Prop := OpensFrom .outside text

/-- Entering a block, byte by byte. -/
theorem step_eq_block_iff (m : Mode) (c : Char) (next : Option Char) :
    (m.step c next).1 = .block ↔
      (m = .outside ∧ c = '<' ∧ next = some '<') ∨ (m = .block ∧ ¬(c = '>' ∧ next = some '>')) := by
  cases m with
  | outside =>
      by_cases hc : c = '<'
      · subst hc
        by_cases hnext : next = some '<' <;> simp [Mode.step, hnext]
      · simp only [Mode.step, hc, false_and, if_false]
        split
        · simp
        · split
          · simp
          · split <;> simp
  | quote q =>
      simp only [Mode.step]
      split <;> simp
  | bracket b n =>
      simp only [Mode.step]
      split
      · simp
      · split
        · simp only
          split <;> simp
        · simp
  | block =>
      simp only [Mode.step]
      split <;> simp [*]

/-- The first byte of a text that leaves a block open. -/
theorem opensFrom_cons (m : Mode) (c : Char) (rest : Bytes) :
    OpensFrom m (c :: rest) ↔
      (m = .outside ∧ c = '<' ∧ rest.head? = some '<' ∧ ¬closeMark <:+: rest) ∨
        OpensFrom (m.step c rest.head?).1 rest := by
  constructor
  · rintro ⟨p, q, htext, hmode, hq⟩
    cases p with
    | nil =>
        obtain ⟨rfl, rfl⟩ : c = '<' ∧ rest = '<' :: q := by simpa [openMark] using htext
        refine Or.inl ⟨hmode, rfl, rfl, fun hin => ?_⟩
        rw [closeMark, pair_infix_cons] at hin
        exact hq (hin.resolve_left (by simp))
    | cons d p =>
        obtain ⟨rfl, rfl⟩ : c = d ∧ rest = p ++ openMark ++ q := by simpa using htext
        refine Or.inr ⟨p, q, rfl, ?_, hq⟩
        have hhead : (p ++ openMark ++ q).head? = p.head?.or (some '<') := by
          cases p <;> simp [openMark]
        rw [hhead]
        exact hmode
  · rintro (⟨rfl, rfl, hhead, hrest⟩ | ⟨p, q, rfl, hmode, hq⟩)
    · obtain ⟨q, rfl⟩ := List.head?_eq_some_iff.mp hhead
      refine ⟨[], q, rfl, rfl, fun hin => hrest ?_⟩
      rw [closeMark, pair_infix_cons]
      exact Or.inr hin
    · refine ⟨c :: p, q, rfl, ?_, hq⟩
      have hhead : (p ++ openMark ++ q).head? = p.head?.or (some '<') := by
        cases p <;> simp [openMark]
      rw [hhead] at hmode
      exact hmode

theorem after_eq_block (m : Mode) (text : Bytes) :
    m.after text none = .block ↔ (m = .block ∧ ¬closeMark <:+: text) ∨ OpensFrom m text := by
  induction text generalizing m with
  | nil =>
      have hnone : ¬OpensFrom m [] := by
        rintro ⟨p, q, htext, _⟩
        simpa [openMark] using congrArg List.length htext
      simp [hnone, closeMark]
  | cons c rest ih =>
      rw [Mode.after_cons, Option.or_none, ih, opensFrom_cons, step_eq_block_iff, closeMark,
        pair_infix_cons]
      tauto

/-- **The lexer ends inside a block exactly when the text leaves one open.** -/
theorem after_eq_block_iff (text : Bytes) :
    Mode.outside.after text none = .block ↔ LeavesOpen text := by
  rw [after_eq_block]
  simp [LeavesOpen]

end SporeClient.Parser
